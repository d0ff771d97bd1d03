import LoopNest.Trace
import LoopNest.Proofs.Success
/-!
# One run after another

Nodes run one after another, and so does the body of a loop at the values that the loop visits.
Both are `inTurn`: the members of a list are run in order, what they yield is put together, and the
first failure ends the run.

Two runs agree (`Agree`) if both fail, or both yield the same up to order.  Up to agreement it does
not matter in which order members are run (`inTurn_perm`), nor which of two lists is run inside the
other (`inTurn_swap`), as every member has to succeed either way.
-/

namespace LoopNest

section Turns

variable {ε α β γ : Type}

/-- One run, then another; what they yield is put together. -/
def both (x y : Except ε (List α)) : Except ε (List α) := x.bind fun xs => y.map (xs ++ ·)

/-- A run for each member of a list, one after another. -/
def inTurn (f : β → Except ε (List α)) : List β → Except ε (List α)
  | [] => .ok []
  | x :: xs => both (f x) (inTurn f xs)

theorem ok_nil_both : ∀ x : Except ε (List α), both (.ok []) x = x
  | .error _ => rfl
  | .ok _ => rfl

theorem both_ok_nil : ∀ x : Except ε (List α), both x (.ok []) = x
  | .error _ => rfl
  | .ok xs => congrArg Except.ok (List.append_nil xs)

theorem both_assoc : ∀ x y z : Except ε (List α), both (both x y) z = both x (both y z)
  | .error _, _, _ => rfl
  | .ok _, .error _, _ => rfl
  | .ok _, .ok _, .error _ => rfl
  | .ok xs, .ok ys, .ok zs => congrArg Except.ok (List.append_assoc xs ys zs)

theorem inTurn_append (f : β → Except ε (List α)) : ∀ xs ys : List β,
    inTurn f (xs ++ ys) = both (inTurn f xs) (inTurn f ys)
  | [], ys => (ok_nil_both _).symm
  | x :: xs, ys => by
      rw [List.cons_append, inTurn, inTurn, inTurn_append f xs ys, both_assoc]

theorem inTurn_map (f : γ → Except ε (List α)) (g : β → γ) : ∀ xs : List β,
    inTurn f (xs.map g) = inTurn (fun x => f (g x)) xs
  | [] => rfl
  | x :: xs => by rw [List.map_cons, inTurn, inTurn, inTurn_map f g xs]

theorem inTurn_singleton (f : β → Except ε (List α)) (x : β) : inTurn f [x] = f x :=
  both_ok_nil (f x)

theorem inTurn_congr {f g : β → Except ε (List α)} : ∀ {xs : List β}, (∀ x ∈ xs, f x = g x) →
    inTurn f xs = inTurn g xs
  | [], _ => rfl
  | x :: xs, h => by
      rw [inTurn, inTurn, h x List.mem_cons_self,
        inTurn_congr fun y hy => h y (List.mem_cons_of_mem _ hy)]

theorem inTurn_eq_ok_nil {f : β → Except ε (List α)} : ∀ {xs : List β},
    (∀ x ∈ xs, f x = .ok []) → inTurn f xs = .ok []
  | [], _ => rfl
  | x :: xs, h => by
      rw [inTurn, h x List.mem_cons_self, ok_nil_both]
      exact inTurn_eq_ok_nil fun y hy => h y (List.mem_cons_of_mem _ hy)

/-- Where members succeed together each of them does, and what they yield stands in order. -/
theorem inTurn_eq_ok {f : β → Except ε (List α)} : ∀ {xs : List β} {zs : List α},
    inTurn f xs = .ok zs →
      (∀ x ∈ xs, ∃ ys, f x = .ok ys) ∧ zs = xs.flatMap fun x => (f x).toOption.getD []
  | [], zs, h => by
      cases h
      exact ⟨fun x hx => absurd hx List.not_mem_nil, rfl⟩
  | x :: xs, zs, h => by
      obtain ⟨ys, hys, h⟩ := bind_eq_ok.mp h
      obtain ⟨rest, hrest, rfl⟩ := map_eq_ok.mp h
      obtain ⟨hok, rfl⟩ := inTurn_eq_ok hrest
      refine ⟨fun y hy => ?_, ?_⟩
      · rcases List.mem_cons.mp hy with rfl | hy
        · exact ⟨ys, hys⟩
        · exact hok y hy
      · rw [List.flatMap_cons, hys]
        rfl

/-! ## Agreement -/

/-- Both runs fail, or both yield the same up to order. -/
inductive Agree : Except ε (List α) → Except ε (List α) → Prop where
  | ok {xs ys : List α} : xs.Perm ys → Agree (.ok xs) (.ok ys)
  | error (e f : ε) : Agree (.error e) (.error f)

namespace Agree

variable {w x y z : Except ε (List α)}

theorem refl : ∀ x : Except ε (List α), Agree x x
  | .error e => .error e e
  | .ok xs => .ok (List.Perm.refl xs)

theorem of_eq (h : x = y) : Agree x y := h ▸ refl x

theorem symm : Agree x y → Agree y x
  | .error e f => .error f e
  | .ok h => .ok h.symm

theorem trans : Agree x y → Agree y z → Agree x z
  | .error e _, .error _ g => .error e g
  | .ok h, .ok h' => .ok (h.trans h')

theorem both : Agree w x → Agree y z → Agree (both w y) (both x z)
  | .error e f, _ => .error e f
  | .ok _, .error e f => .error e f
  | .ok h, .ok h' => .ok (h.append h')

theorem isOk_iff (h : Agree x y) : (∃ xs, x = .ok xs) ↔ ∃ ys, y = .ok ys := by
  cases h with
  | ok h => exact ⟨fun _ => ⟨_, rfl⟩, fun _ => ⟨_, rfl⟩⟩
  | error e f => exact ⟨fun ⟨_, h⟩ => (nomatch h), fun ⟨_, h⟩ => (nomatch h)⟩

theorem perm {xs ys : List α} (h : Agree (.ok xs : Except ε (List α)) (.ok ys)) : xs.Perm ys := by
  cases h with
  | ok h => exact h

end Agree

/-- A failure agrees with a run of which one member fails. -/
theorem error_agree_inTurn (e : ε) {f : β → Except ε (List α)} {xs : List β} {x : β} (hx : x ∈ xs)
    (h : ∃ e', f x = .error e') : Agree (.error e) (inTurn f xs) := by
  cases hrun : inTurn f xs with
  | error e' => exact .error e e'
  | ok zs =>
      obtain ⟨ys, hys⟩ := (inTurn_eq_ok hrun).1 x hx
      obtain ⟨e', he'⟩ := h
      rw [he'] at hys
      cases hys

theorem both_comm : ∀ x y : Except ε (List α), Agree (both x y) (both y x)
  | .error e, .error f => .error e f
  | .error e, .ok _ => .error e e
  | .ok _, .error f => .error f f
  | .ok _, .ok _ => .ok List.perm_append_comm

theorem both_both_comm (w x y z : Except ε (List α)) :
    Agree (both (both w x) (both y z)) (both (both w y) (both x z)) := by
  have hl : both (both w x) (both y z) = both w (both (both x y) z) := by
    rw [both_assoc, both_assoc]
  have hr : both (both w y) (both x z) = both w (both (both y x) z) := by
    rw [both_assoc, both_assoc]
  rw [hl, hr]
  exact (Agree.refl w).both ((both_comm x y).both (.refl z))

theorem inTurn_agree {f g : β → Except ε (List α)} : ∀ {xs : List β},
    (∀ x ∈ xs, Agree (f x) (g x)) → Agree (inTurn f xs) (inTurn g xs)
  | [], _ => .refl _
  | x :: _, h =>
      (h x List.mem_cons_self).both (inTurn_agree fun y hy => h y (List.mem_cons_of_mem _ hy))

theorem inTurn_perm (f : β → Except ε (List α)) {xs ys : List β} (h : xs.Perm ys) :
    Agree (inTurn f xs) (inTurn f ys) := by
  induction h with
  | nil => exact .refl _
  | cons x _ ih => exact (Agree.refl (f x)).both ih
  | swap x y zs =>
      show Agree (both (f y) (both (f x) _)) (both (f x) (both (f y) _))
      rw [← both_assoc, ← both_assoc]
      exact (both_comm (f y) (f x)).both (.refl _)
  | trans _ _ ih ih' => exact ih.trans ih'

theorem inTurn_both (f g : β → Except ε (List α)) : ∀ xs : List β,
    Agree (inTurn (fun x => both (f x) (g x)) xs) (both (inTurn f xs) (inTurn g xs))
  | [] => .refl _
  | x :: xs =>
      ((Agree.refl _).both (inTurn_both f g xs)).trans (both_both_comm (f x) (g x) _ _)

/-- Of two lists either may be run inside the other. -/
theorem inTurn_swap (f : β → γ → Except ε (List α)) (xs : List β) : ∀ ys : List γ,
    Agree (inTurn (fun x => inTurn (f x) ys) xs) (inTurn (fun y => inTurn (fun x => f x y) xs) ys)
  | [] => .of_eq (inTurn_eq_ok_nil fun _ _ => rfl)
  | y :: ys =>
      (inTurn_both (fun x => f x y) (fun x => inTurn (f x) ys) xs).trans
        ((Agree.refl _).both (inTurn_swap f xs ys))

end Turns

/-! ## The values that a loop visits -/

/-- A loop that runs this way visits the first value before the second. -/
def Direction.Before : Direction → Int → Int → Prop
  | .forward, v, w => v < w
  | .backward, v, w => w < v

theorem Direction.Before.ne {d : Direction} {v w : Int} (h : d.Before v w) : v ≠ w := by
  cases d with
  | forward => exact Int.ne_of_lt h
  | backward => exact (Int.ne_of_lt h).symm

theorem Direction.Before.asymm {d : Direction} {v w : Int} (h : d.Before v w) :
    ¬d.Before w v := by
  cases d with
  | forward => exact Int.not_lt.mpr (Int.le_of_lt h)
  | backward => exact Int.not_lt.mpr (Int.le_of_lt h)

/-- So many integers, one `step` apart. -/
def stepped (step : Int) : Nat → Int → List Int
  | 0, _ => []
  | n + 1, v => v :: stepped step n (v + step)

theorem mem_stepped_iff {step u : Int} : ∀ {n : Nat} {v : Int},
    u ∈ stepped step n v ↔ ∃ k : Nat, k < n ∧ u = v + step * k
  | 0, v => by simp [stepped]
  | n + 1, v => by
      rw [stepped, List.mem_cons, mem_stepped_iff]
      constructor
      · rintro (rfl | ⟨k, hk, rfl⟩)
        · exact ⟨0, n.succ_pos, by simp⟩
        · exact ⟨k + 1, by omega, by push_cast; rw [Int.mul_add]; omega⟩
      · rintro ⟨_ | k, hk, rfl⟩
        · exact Or.inl (by simp)
        · exact Or.inr ⟨k, by omega, by push_cast; rw [Int.mul_add]; omega⟩

theorem repeatFrom_eq_inTurn {ε α : Type} (f : Int → Except ε (List α)) (step : Int) :
    ∀ (n : Nat) (v : Int), repeatFrom f step n v = inTurn f (stepped step n v)
  | 0, _ => rfl
  | n + 1, v => by
      rw [repeatFrom_succ, repeatFrom_eq_inTurn f step n]
      rfl

namespace Direction

/-- The values from `lo` to `hi` in the order in which a loop visits them. -/
def values (d : Direction) (lo hi : Int) : List Int :=
  match d with
  | .forward => stepped 1 (hi - lo + 1).toNat lo
  | .backward => stepped (-1) (hi - lo + 1).toNat hi

theorem visit_eq_inTurn {ε α : Type} (d : Direction) (lo hi : Int) (f : Int → Except ε (List α)) :
    d.visit lo hi f = inTurn f (d.values lo hi) := by
  cases d with
  | forward => exact repeatFrom_eq_inTurn f 1 _ _
  | backward => exact repeatFrom_eq_inTurn f (-1) _ _

theorem mem_values_iff {d : Direction} {lo hi v : Int} : v ∈ d.values lo hi ↔ lo ≤ v ∧ v ≤ hi := by
  cases d with
  | forward =>
      rw [values, mem_stepped_iff]
      exact ⟨fun ⟨k, hk, hv⟩ => by omega, fun hv => ⟨(v - lo).toNat, by omega, by omega⟩⟩
  | backward =>
      rw [values, mem_stepped_iff]
      exact ⟨fun ⟨k, hk, hv⟩ => by omega, fun hv => ⟨(hi - v).toNat, by omega, by omega⟩⟩

theorem values_pairwise (d : Direction) (lo hi : Int) : (d.values lo hi).Pairwise d.Before := by
  have ahead : ∀ (n : Nat) (v : Int), (stepped 1 n v).Pairwise (Before .forward) := by
    intro n
    induction n with
    | zero =>
        intro _
        exact .nil
    | succ n ih =>
        refine fun v => List.pairwise_cons.mpr ⟨fun u hu => ?_, ih _⟩
        obtain ⟨k, _, rfl⟩ := mem_stepped_iff.mp hu
        show v < _
        omega
  have behind : ∀ (n : Nat) (v : Int), (stepped (-1) n v).Pairwise (Before .backward) := by
    intro n
    induction n with
    | zero =>
        intro _
        exact .nil
    | succ n ih =>
        refine fun v => List.pairwise_cons.mpr ⟨fun u hu => ?_, ih _⟩
        obtain ⟨k, _, rfl⟩ := mem_stepped_iff.mp hu
        show _ < v
        omega
  cases d with
  | forward => exact ahead _ _
  | backward => exact behind _ _

theorem values_perm (d d' : Direction) (lo hi : Int) : (d.values lo hi).Perm (d'.values lo hi) := by
  have nodup : ∀ d : Direction, (d.values lo hi).Nodup := fun d =>
    (d.values_pairwise lo hi).imp Before.ne
  refine (List.perm_ext_iff_of_nodup (nodup d) (nodup d')).mpr ?_
  intro v
  rw [mem_values_iff, mem_values_iff]

end Direction

/-! ## Nodes -/

namespace Node

variable {s : Scope}

theorem runAll_eq_inTurn (s : Scope) (ns : List Node) : runAll s ns = inTurn (run s) ns := by
  induction ns with
  | nil => rfl
  | cons n ns ih =>
      rw [runAll, inTurn, ← ih]
      cases run s n with
      | error e => rfl
      | ok xs => cases runAll s ns <;> rfl

theorem runAll_singleton (s : Scope) (n : Node) : runAll s [n] = run s n := by
  rw [runAll_eq_inTurn, inTurn_singleton]

theorem run_loop (s : Scope) (l : Loop) (body : List Node) :
    run s (.loop l body) = (s.int l.bounds.min).bind fun lo => (s.int l.bounds.max).bind fun hi =>
      inTurn (fun v => runAll (s.bind l.dim v) body) (l.direction.values lo hi) := by
  rw [run]
  simp only [bind, Direction.visit_eq_inTurn]

theorem run_guard (s : Scope) (e : Expr) (ds : List DimId) (body : List Node) :
    run s (.guard e ds body) =
      (s.truth e).bind fun holds => if holds then runAll s body else .ok [] := rfl

end Node

end LoopNest
