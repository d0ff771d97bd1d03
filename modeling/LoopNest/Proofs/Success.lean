import Mathlib.Data.List.Forall2
/-!
# Runs that succeed

A run that yields a result has a result at every stage.  The lemmas below take such a run apart,
so that facts about a stage are read off it and never off the stages around it.
-/

namespace LoopNest

variable {ε α β : Type}

theorem bind_eq_ok {x : Except ε α} {f : α → Except ε β} {b : β} :
    x.bind f = .ok b ↔ ∃ a, x = .ok a ∧ f a = .ok b := by
  cases x with
  | error e => simp [Except.bind]
  | ok a => simp [Except.bind]

theorem bind_eq_ok_congr {x y : Except ε α} {f g : α → Except ε β} {b : β}
    (h : ∀ a, x = .ok a ↔ y = .ok a) (hfg : ∀ a, f a = .ok b ↔ g a = .ok b) :
    x.bind f = .ok b ↔ y.bind g = .ok b := by
  rw [bind_eq_ok, bind_eq_ok]
  exact exists_congr fun a => and_congr (h a) (hfg a)

theorem map_eq_ok {x : Except ε α} {f : α → β} {b : β} :
    x.map f = .ok b ↔ ∃ a, x = .ok a ∧ f a = b := by
  cases x with
  | error e => simp [Except.map]
  | ok a => simp [Except.map]

theorem toOption_eq_some {x : Except ε α} {a : α} : x.toOption = some a ↔ x = .ok a := by
  cases x with
  | error e => simp [Except.toOption]
  | ok b => simp [Except.toOption]

theorem mapError_eq_ok {δ : Type} {x : Except ε α} {f : ε → δ} {a : α} :
    x.mapError f = .ok a ↔ x = .ok a := by
  cases x with
  | error e => simp [Except.mapError]
  | ok b => simp [Except.mapError]

theorem mapM_eq_ok {f : α → Except ε β} : ∀ {xs : List α} {ys : List β},
    xs.mapM f = .ok ys ↔ List.Forall₂ (fun x y => f x = .ok y) xs ys
  | [], ys => by
      cases ys <;> simp [pure, Except.pure]
  | x :: xs, ys => by
      rw [List.mapM_cons]
      constructor
      · intro h
        obtain ⟨y, hy, h⟩ := bind_eq_ok.mp h
        obtain ⟨rest, hrest, h⟩ := bind_eq_ok.mp h
        cases h
        exact .cons hy (mapM_eq_ok.mp hrest)
      · rintro (_ | ⟨hy, hrest⟩)
        exact bind_eq_ok.mpr ⟨_, hy, bind_eq_ok.mpr ⟨_, mapM_eq_ok.mpr hrest, rfl⟩⟩

theorem exists_mapM_eq_ok {f : α → Except ε β} : ∀ {xs : List α},
    (∀ x ∈ xs, ∃ y, f x = .ok y) → ∃ ys, xs.mapM f = .ok ys
  | [], _ => ⟨[], rfl⟩
  | x :: xs, h => by
      obtain ⟨y, hy⟩ := h x List.mem_cons_self
      obtain ⟨ys, hys⟩ := exists_mapM_eq_ok fun z hz => h z (List.mem_cons_of_mem _ hz)
      exact ⟨y :: ys, mapM_eq_ok.mpr (.cons hy (mapM_eq_ok.mp hys))⟩

theorem mapM_eq_some {f : α → Option β} : ∀ {xs : List α} {ys : List β},
    xs.mapM f = some ys ↔ List.Forall₂ (fun x y => f x = some y) xs ys
  | [], ys => by
      cases ys <;> simp
  | x :: xs, ys => by
      rw [List.mapM_cons]
      constructor
      · intro h
        obtain ⟨y, hy, h⟩ := Option.bind_eq_some_iff.mp h
        obtain ⟨rest, hrest, h⟩ := Option.bind_eq_some_iff.mp h
        cases h
        exact .cons hy (mapM_eq_some.mp hrest)
      · rintro (_ | ⟨hy, hrest⟩)
        exact Option.bind_eq_some_iff.mpr ⟨_, hy,
          Option.bind_eq_some_iff.mpr ⟨_, mapM_eq_some.mpr hrest, rfl⟩⟩

theorem exists_of_forall₂_left {R : α → β → Prop} {xs : List α} {ys : List β}
    (h : List.Forall₂ R xs ys) {x : α} (hx : x ∈ xs) : ∃ y ∈ ys, R x y := by
  induction h with
  | nil => cases hx
  | cons r _ ih =>
      rcases List.mem_cons.mp hx with rfl | hx
      · exact ⟨_, List.mem_cons_self, r⟩
      · obtain ⟨y, hy, r⟩ := ih hx
        exact ⟨y, List.mem_cons_of_mem _ hy, r⟩

theorem exists_of_forall₂_right {R : α → β → Prop} {xs : List α} {ys : List β}
    (h : List.Forall₂ R xs ys) {y : β} (hy : y ∈ ys) : ∃ x ∈ xs, R x y :=
  exists_of_forall₂_left (List.Forall₂.flip (R := fun y x => R x y) h) hy

theorem exists_of_forall₂_both {R S : α → β → Prop} {xs : List α} {ys : List β}
    (hr : List.Forall₂ R xs ys) (hs : List.Forall₂ S xs ys) {x : α} (hx : x ∈ xs) :
    ∃ y, R x y ∧ S x y := by
  induction hr with
  | nil => cases hx
  | cons r _ ih =>
      rcases hs with _ | ⟨s, hs⟩
      rcases List.mem_cons.mp hx with rfl | hx
      · exact ⟨_, r, s⟩
      · exact ih hs hx

theorem foldlM_induction {f : β → α → Except ε β} {P : β → Prop} {xs : List α} :
    ∀ {b b' : β}, (∀ x ∈ xs, ∀ b b', P b → f b x = .ok b' → P b') → P b →
      xs.foldlM f b = .ok b' → P b' := by
  induction xs with
  | nil =>
      intro b b' _ hb h
      cases h
      exact hb
  | cons x xs ih =>
      intro b b' step hb h
      rw [List.foldlM_cons] at h
      obtain ⟨c, hc, h⟩ := bind_eq_ok.mp h
      exact ih (fun y hy => step y (List.mem_cons_of_mem _ hy))
        (step x List.mem_cons_self b c hb hc) h

theorem foldl_induction {f : β → α → β} {P : List α → β → Prop} : ∀ {xs done : List α} {b : β},
    (∀ x ∈ xs, ∀ done b, P done b → P (done ++ [x]) (f b x)) → P done b →
      P (done ++ xs) (xs.foldl f b)
  | [], done, b, _, hb => by
      rw [List.append_nil]
      exact hb
  | x :: xs, done, b, step, hb => by
      rw [List.append_cons, List.foldl_cons]
      refine foldl_induction ?_ (step x List.mem_cons_self done b hb)
      intro y hy
      exact step y (List.mem_cons_of_mem _ hy)

end LoopNest
