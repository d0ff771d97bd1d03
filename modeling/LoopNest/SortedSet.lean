/-!
# Finite sets as sorted lists

Names and dimensions are collected into ascending lists without repetition, so that one set has
one form. Strings compare by code point, which is the order of their UTF-8 bytes.
-/

namespace LoopNest.SortedSet

variable {α : Type} [LT α] [DecidableLT α] [DecidableEq α]

/-- Adds an element at its place; an element that is there already is not repeated. -/
def insert (x : α) : List α → List α
  | [] => [x]
  | y :: ys =>
    if x < y then x :: y :: ys
    else if x = y then y :: ys
    else y :: insert x ys

/-- The set of a list's elements. -/
def ofList (xs : List α) : List α :=
  xs.foldl (fun set x => insert x set) []

theorem mem_insert {x a : α} {ys : List α} : a ∈ insert x ys ↔ a = x ∨ a ∈ ys := by
  induction ys with
  | nil => simp [insert]
  | cons y ys ih =>
    unfold insert
    split
    · simp
    · split
      · rename_i h; subst h; simp
      · simp only [List.mem_cons, ih]
        constructor <;> rintro (h | h | h) <;> simp [h]

theorem mem_foldl_insert {a : α} (xs set : List α) :
    a ∈ xs.foldl (fun set x => insert x set) set ↔ a ∈ xs ∨ a ∈ set := by
  induction xs generalizing set with
  | nil => simp
  | cons x xs ih =>
    rw [List.foldl_cons, ih, mem_insert, List.mem_cons]
    constructor
    · rintro (h | h | h) <;> simp [h]
    · rintro ((h | h) | h) <;> simp [h]

theorem mem_ofList {a : α} {xs : List α} : a ∈ ofList xs ↔ a ∈ xs := by
  simp [ofList, mem_foldl_insert]

/-! ## Ascending order

The order of the elements enters only as two laws: it is transitive, and of two different elements
one is the lesser. -/

section Ascending

variable (trans : ∀ {a b c : α}, a < b → b < c → a < c)
  (connected : ∀ {a b : α}, ¬ a < b → a ≠ b → b < a)

include trans connected in
theorem pairwise_insert {x : α} {ys : List α} (h : ys.Pairwise (· < ·)) :
    (insert x ys).Pairwise (· < ·) := by
  induction ys with
  | nil => simp [insert]
  | cons y ys ih =>
    obtain ⟨below, rest⟩ := List.pairwise_cons.mp h
    unfold insert
    split
    · rename_i lt
      refine List.pairwise_cons.mpr ⟨fun a ha => ?_, h⟩
      rcases List.mem_cons.mp ha with rfl | ha
      · exact lt
      · exact trans lt (below a ha)
    · rename_i notLt
      split
      · exact h
      · rename_i ne
        refine List.pairwise_cons.mpr ⟨fun a ha => ?_, ih rest⟩
        rcases mem_insert.mp ha with rfl | ha
        · exact connected notLt ne
        · exact below a ha

include trans connected in
theorem pairwise_foldl_insert {xs set : List α} (h : set.Pairwise (· < ·)) :
    (xs.foldl (fun set x => insert x set) set).Pairwise (· < ·) := by
  induction xs generalizing set with
  | nil => exact h
  | cons x xs ih => exact ih (pairwise_insert trans connected h)

include trans connected in
theorem pairwise_ofList (xs : List α) : (ofList xs).Pairwise (· < ·) :=
  pairwise_foldl_insert trans connected .nil

end Ascending

end LoopNest.SortedSet
