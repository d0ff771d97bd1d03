import LoopNest.DimTable.Basic
import LoopNest.Proofs.Success
/-!
# Runs that check their lookups

A number that one pass hands out is looked up by later ones: the identity of a dimension, the place
of an equation, of a cluster, of a guard.  A checked run looks each of them up in earnest and ends
with what is `Missing` where a lookup has no result.  If none has, the checked run is the plain one
with its failures renamed (`pass`), stage by stage (`bind_eq_pass`) and step by step
(`mapM_eq_pass`, `forM_eq_pass`, `foldlM_eq_pass`).
-/

namespace LoopNest.Checked

/-- What a lookup has not found. -/
inductive Missing where
  | dimension (d : DimId)
  | equation (place : Nat)
  | cluster (place : Nat)
  /-- The loop of a signature. -/
  | level (place : Nat)
  /-- The guards of a cluster. -/
  | guards (cluster : Nat)
  | guard (place : Nat)
  /-- The summary of a cluster. -/
  | summary (cluster : Nat)
  /-- The first equation of a cluster. -/
  | first
  /-- An equation that may come next. -/
  | ready
deriving DecidableEq, Repr

/-- Why a checked run ends early. -/
inductive Fault (ε : Type) where
  | missing (what : Missing)
  | failed (error : ε)
deriving DecidableEq, Repr

variable {ε σ α β : Type}

/-- The fault with its error renamed. -/
def Fault.rename {δ : Type} (f : ε → δ) : Fault ε → Fault δ
  | .missing what => .missing what
  | .failed error => .failed (f error)

/-- A lookup that must have a result. -/
def look (what : Missing) : Option α → Except Missing α
  | some a => .ok a
  | none => .error what

@[simp] theorem look_some (what : Missing) (a : α) : look what (some a) = .ok a := rfl

theorem look_getElem? (what : Missing) {xs : List α} {i : Nat} (h : i < xs.length)
    (a : α) : look what xs[i]? = .ok (xs.getD i a) := by
  rw [List.getD_eq_getElem?_getD, List.getElem?_eq_getElem h]
  rfl

theorem getD_mem {xs : List α} {i : Nat} (h : i < xs.length) (a : α) :
    xs.getD i a ∈ xs := by
  rw [List.getD_eq_getElem?_getD, List.getElem?_eq_getElem h]
  exact List.getElem_mem h

instance : MonadLift (Except Missing) (Except (Fault ε)) := ⟨Except.mapError .missing⟩

/-- The outcome of a run in which nothing was missing. -/
def pass (r : Except ε α) : Except (Fault ε) α := r.mapError .failed

theorem rename_pass {δ : Type} (f : ε → δ) (r : Except ε α) :
    (pass r).mapError (Fault.rename f) = pass (r.mapError f) := by
  cases r <;> rfl

@[simp] theorem lift_ok (a : α) :
    (liftM (.ok a : Except Missing α) : Except (Fault ε) α) = .ok a := rfl

theorem ok_bind (a : α) (f : α → Except σ β) : (Except.ok a >>= f) = f a := rfl

theorem pure_eq_ok (a : α) : (pure a : Except σ α) = .ok a := rfl

/-! ## Stages -/

theorem bind_eq_pass {x : Except (Fault ε) α} {r : Except ε α} {f : α → Except (Fault ε) β}
    {g : α → Except ε β} (hx : x = pass r) (hf : ∀ a, r = .ok a → f a = pass (g a)) :
    (x >>= f) = pass (r.bind g) := by
  subst hx
  cases r with
  | error e => rfl
  | ok a => exact hf a rfl

theorem map_eq_pass {x : Except (Fault ε) α} {r : Except ε α} {f : α → β} (hx : x = pass r) :
    f <$> x = pass (r.map f) := by
  subst hx
  cases r <;> rfl

/-! ## Traversals -/

theorem mapM_eq_ok_map {f : α → Except σ β} {g : α → β} {xs : List α}
    (h : ∀ x ∈ xs, f x = .ok (g x)) : xs.mapM f = .ok (xs.map g) :=
  mapM_eq_ok.mpr (List.forall₂_map_right_iff.mpr (List.forall₂_same.mpr h))

theorem filterM_eq_ok {f : α → Except σ Bool} {g : α → Bool} {xs : List α}
    (h : ∀ x ∈ xs, f x = .ok (g x)) : xs.filterM f = .ok (xs.filter g) := by
  have haux : ∀ {ys acc : List α}, (∀ y ∈ ys, f y = .ok (g y)) →
      List.filterAuxM f ys acc = .ok ((ys.filter g).reverse ++ acc) := by
    intro ys
    induction ys with
    | nil => exact fun _ => rfl
    | cons y ys ih =>
        intro acc h
        rw [List.filterAuxM, h y List.mem_cons_self, ok_bind,
          ih fun z hz => h z (List.mem_cons_of_mem _ hz), List.filter_cons]
        cases g y <;> simp
  rw [List.filterM, haux h]
  simp

theorem findM?_eq_ok {f : α → Except σ Bool} {g : α → Bool} : ∀ {xs : List α},
    (∀ x ∈ xs, f x = .ok (g x)) → xs.findM? f = .ok (xs.find? g)
  | [], _ => rfl
  | x :: xs, h => by
      rw [List.findM?, h x List.mem_cons_self, ok_bind, List.find?_cons]
      cases g x with
      | true => rfl
      | false => exact findM?_eq_ok fun y hy => h y (List.mem_cons_of_mem _ hy)

theorem allM_eq_ok {f : α → Except σ Bool} {g : α → Bool} : ∀ {xs : List α},
    (∀ x ∈ xs, f x = .ok (g x)) → xs.allM f = .ok (xs.all g)
  | [], _ => rfl
  | x :: xs, h => by
      rw [List.allM, h x List.mem_cons_self, ok_bind, List.all_cons]
      cases g x with
      | false => rfl
      | true => exact allM_eq_ok fun y hy => h y (List.mem_cons_of_mem _ hy)

theorem filterMapM_eq_ok {f : α → Except σ (Option β)} {g : α → Option β} {xs : List α}
    (h : ∀ x ∈ xs, f x = .ok (g x)) : xs.filterMapM f = .ok (xs.filterMap g) := by
  have hloop : ∀ {ys : List α}, (∀ y ∈ ys, f y = .ok (g y)) → ∀ acc : List β,
      List.filterMapM.loop f ys acc = .ok (acc.reverse ++ ys.filterMap g) := by
    intro ys
    induction ys with
    | nil =>
        intro _ acc
        rw [List.filterMapM.loop, pure_eq_ok, List.filterMap_nil, List.append_nil]
    | cons y ys ih =>
        intro h acc
        have ih := ih fun z hz => h z (List.mem_cons_of_mem _ hz)
        rw [List.filterMapM.loop, h y List.mem_cons_self, ok_bind, List.filterMap_cons]
        cases g y <;> simp [ih]
  rw [List.filterMapM, hloop h]
  rfl

theorem findSomeM?_eq_ok {f : α → Except σ (Option β)} {g : α → Option β} : ∀ {xs : List α},
    (∀ x ∈ xs, f x = .ok (g x)) → xs.findSomeM? f = .ok (xs.findSome? g)
  | [], _ => rfl
  | x :: xs, h => by
      rw [List.findSomeM?, h x List.mem_cons_self, ok_bind, List.findSome?_cons]
      cases g x with
      | some b => rfl
      | none => exact findSomeM?_eq_ok fun y hy => h y (List.mem_cons_of_mem _ hy)

theorem foldlM_eq_ok {f : β → α → Except σ β} {g : β → α → β} {P : β → Prop} {xs : List α} :
    ∀ {b : β}, (∀ x ∈ xs, ∀ b, P b → f b x = .ok (g b x) ∧ P (g b x)) → P b →
      xs.foldlM f b = .ok (xs.foldl g b) := by
  induction xs with
  | nil => exact fun _ _ => rfl
  | cons x xs ih =>
      intro b hstep hb
      obtain ⟨hx, hkeep⟩ := hstep x List.mem_cons_self b hb
      rw [List.foldlM_cons, hx, ok_bind, List.foldl_cons]
      exact ih (fun y hy => hstep y (List.mem_cons_of_mem _ hy)) hkeep

/-- What becomes of each element, one after another. -/
def flatMapM (f : α → Except σ (List β)) (xs : List α) : Except σ (List β) :=
  return (← xs.mapM f).flatten

theorem flatMapM_eq_ok {f : α → Except σ (List β)} {g : α → List β} {xs : List α}
    (h : ∀ x ∈ xs, f x = .ok (g x)) : flatMapM f xs = .ok (xs.flatMap g) := by
  rw [flatMapM, mapM_eq_ok_map h, ok_bind, pure_eq_ok, List.flatMap_def]

theorem mapM_eq_pass {f : α → Except (Fault ε) β} {g : α → Except ε β} : ∀ {xs : List α},
    (∀ x ∈ xs, f x = pass (g x)) → xs.mapM f = pass (xs.mapM g)
  | [], _ => rfl
  | x :: xs, h => by
      rw [List.mapM_cons, List.mapM_cons]
      refine bind_eq_pass (h x List.mem_cons_self) fun _ _ => ?_
      refine bind_eq_pass (mapM_eq_pass fun y hy => h y (List.mem_cons_of_mem _ hy)) fun _ _ => rfl

theorem forM_eq_pass {f : α → Except (Fault ε) Unit} {g : α → Except ε Unit} : ∀ {xs : List α},
    (∀ x ∈ xs, f x = pass (g x)) → xs.forM f = pass (xs.forM g)
  | [], _ => rfl
  | x :: xs, h => by
      show (f x >>= fun _ => xs.forM f) = pass ((g x).bind fun _ => xs.forM g)
      exact bind_eq_pass (h x List.mem_cons_self) fun _ _ =>
        forM_eq_pass fun y hy => h y (List.mem_cons_of_mem _ hy)

/-- Folds agree if their steps do wherever the plain fold can get. -/
theorem foldlM_eq_pass {f : β → α → Except (Fault ε) β} {g : β → α → Except ε β} {P : β → Prop}
    {xs : List α} : ∀ {b : β}, (∀ x ∈ xs, ∀ b, P b → f b x = pass (g b x)) →
      (∀ x ∈ xs, ∀ b b', P b → g b x = .ok b' → P b') → P b →
        xs.foldlM f b = pass (xs.foldlM g b) := by
  induction xs with
  | nil => exact fun _ _ _ => rfl
  | cons x xs ih =>
      intro b hstep hkeep hb
      rw [List.foldlM_cons, List.foldlM_cons]
      exact bind_eq_pass (hstep x List.mem_cons_self b hb) fun b' hb' =>
        ih (fun y hy => hstep y (List.mem_cons_of_mem _ hy))
          (fun y hy => hkeep y (List.mem_cons_of_mem _ hy))
          (hkeep x List.mem_cons_self b b' hb hb')

end LoopNest.Checked
