import LoopNest.Proofs.Folding
import LoopNest.Proofs.IndexValues
/-!
# Conjunctions, and expressions that hold them

A conjunction holds or does not; as an integer it is one or zero.  `Expr.all` opens the conjunctions
among its terms and leaves a single term as it is.  Whether the terms hold together is kept
(`Scope.truth_all`).  The integer is kept too, unless a single term is left: that term has its own
integer, which may be neither zero nor one (`Scope.int_all_iff`).

Resolving an expression in a nest builds each of its conjunctions anew by `Expr.all`.  So an
expression is followed together with what is asked of it: its integer, or only whether it holds.
Operators and comparisons ask their operands for integers, conjunctions ask their terms for truth
(`Nest.LeavesTruths`).  Where no conjunction that is asked for its integer comes down to a term that
is neither zero nor one, a predicate on dimensions with loops of their own keeps its outcome
(`Nest.Outcomes.expr`).  Nothing else about it changes but a text: an expression without an integer
is shown as the nest has resolved it.
-/

namespace LoopNest

/-! ## One conjunction -/

namespace Scope

variable {s : Scope}

/-- If the conjunction comes down to a single term, that is zero or one. -/
def OneIsTruth (s : Scope) (es : List Expr) : Prop :=
  ∀ e, es.flatMap Expr.conjuncts = [e] → ∀ v, s.int e = .ok v → v = 0 ∨ v = 1

theorem int_and (s : Scope) (es : List Expr) :
    s.int (.and es) = (s.allHold es).map ofTruth := by
  rw [int]
  cases s.allHold es <;> rfl

theorem truth_eq_map (s : Scope) (e : Expr) :
    s.truth e = (s.int e).map fun v => decide (v ≠ 0) := by
  rw [truth]
  cases s.int e <;> rfl

theorem ofTruth_eq_iff {v : Int} : v = ofTruth (decide (v ≠ 0)) ↔ v = 0 ∨ v = 1 := by
  by_cases hv : v = 0 <;> simp [ofTruth, hv]

/-- A term and the conjunction of that term alone have one integer where it is zero or one. -/
theorem int_eq_int_and_singleton_iff (e : Expr) :
    s.int e = s.int (.and [e]) ↔ ∀ v, s.int e = .ok v → v = 0 ∨ v = 1 := by
  rw [int_and, allHold_singleton, truth_eq_map]
  cases s.int e with
  | error _ => exact iff_of_true rfl fun _ h => by cases h
  | ok w =>
      constructor
      · intro h v hv
        cases hv
        exact ofTruth_eq_iff.mp (Except.ok.inj h)
      · intro h
        exact congrArg Except.ok (ofTruth_eq_iff.mpr (h w rfl))

theorem int_all_iff (es : List Expr) :
    s.int (Expr.all es) = s.int (.and es) ↔ s.OneIsTruth es := by
  have hopened : s.int (.and (es.flatMap Expr.conjuncts)) = s.int (.and es) := by
    rw [int_and, int_and, allHold_flatMap_conjuncts]
  rw [← hopened, Expr.all]
  split
  · rename_i e he
    rw [he, int_eq_int_and_singleton_iff]
    refine ⟨fun h f hf => ?_, fun h => h e he⟩
    obtain rfl : e = f := List.cons.inj (he.symm.trans hf) |>.1
    exact h
  · rename_i hmany
    exact iff_of_true rfl fun e he => absurd he (hmany e)

end Scope

/-! ## What resolving leaves alone -/

namespace Nest

variable {n : Nest} {plain s : Scope}

mutual

/-- What an expression is asked for, its integer (`true`) or only whether it holds, is asked of its
conjunctions in turn.  Where that is the integer, a single term left of a conjunction is zero or
one. -/
def LeavesTruths (n : Nest) (s : Scope) : Bool → Expr → Prop
  | _, .neg e => LeavesTruths n s true e
  | _, .binary _ a b | _, .compare _ a b => LeavesTruths n s true a ∧ LeavesTruths n s true b
  | counts, .and es => (counts = true → s.OneIsTruth (n.exprs es)) ∧ EachLeavesTruths n s es
  | _, .int _ | _, .float _ | _, .symbol _ | _, .dim _ | _, .access _ _ | _, .element _ _
  | _, .call _ _ => True

def EachLeavesTruths (n : Nest) (s : Scope) : List Expr → Prop
  | [] => True
  | e :: es => LeavesTruths n s false e ∧ EachLeavesTruths n s es

end

/-- The same value or the same failure; an expression without an integer is shown as the nest
resolves it. -/
inductive SameOutcome (n : Nest) {α : Type} : Except TraceError α → Except TraceError α → Prop where
  | refl (r : Except TraceError α) : SameOutcome n r r
  | shown (e : Expr) : SameOutcome n (.error (.unsupported (e.text n.dims)))
      (.error (.unsupported ((n.expr e).text n.dims)))

namespace SameOutcome

variable {α β : Type} {r r' : Except TraceError α}

theorem bind (h : n.SameOutcome r r') {f g : α → Except TraceError β}
    (hfg : ∀ v, n.SameOutcome (f v) (g v)) : n.SameOutcome (r >>= f) (r' >>= g) := by
  cases h with
  | refl =>
      cases r with
      | error e => exact .refl _
      | ok v => exact hfg v
  | shown e => exact .shown e

theorem eq_of_ok (h : n.SameOutcome r r') {v : α} (hv : r' = .ok v) : r = .ok v := by
  cases h with
  | refl => exact hv
  | shown e => cases hv

end SameOutcome

/-- The second scope is inside the nest what the first is outside: a dimension that the expression
mentions, a root or a part of one, has the value of its loop. -/
structure Reflects (n : Nest) (plain s : Scope) (e : Expr) : Prop where
  outside : plain.dims = n.dims
  inside : s.dims = n.dims
  bindings : s.bindings = plain.bindings
  words : plain.Worded
  worded : e.Worded
  own : ∀ d, Expr.Occurs (.dim d) e → (n.dims.get d).ridesOnParent = false
  place : ∀ d, Expr.Occurs (.dim d) e →
    plain.int (.dim d) = s.int (.dim ((n.loopFor? d).getD d))

theorem Reflects.part {e part : Expr} (h : n.Reflects plain s e) (hp : part ∈ e.parts) :
    n.Reflects plain s part where
  outside := h.outside
  inside := h.inside
  bindings := h.bindings
  words := h.words
  worded := h.worded.of_mem_parts hp
  own d hd := h.own d (.inside hp hd)
  place d hd := h.place d (.inside hp hd)

theorem expr_dim_of_not_rides {d : DimId} (h : (n.dims.get d).ridesOnParent = false) :
    n.expr (.dim d) = .dim ((n.loopFor? d).getD d) := by
  have hdisplaced : n.displaced d (.int 0) = n.value d + .int 0 := by
    unfold displaced
    split
    · rename_i hk
      rw [Dimension.ridesOnParent, Dimension.isStepping, Dimension.modulo?, hk, Bool.or_eq_false_iff]
        at h
      cases h.2
    · rfl
  rw [expr, hdisplaced, value_eq_dim h]
  exact Expr.add_int_zero fun _ => Expr.noConfusion

/-- An expression and what the nest resolves it to, asked for an integer and asked whether they
hold. -/
structure Outcomes (n : Nest) (plain s : Scope) (e : Expr) : Prop where
  int : n.LeavesTruths s true e → n.SameOutcome (plain.int e) (s.int (n.expr e))
  truth : n.LeavesTruths s false e → n.SameOutcome (plain.truth e) (s.truth (n.expr e))

namespace Outcomes

/-- Anything but a conjunction asks the same of its parts, whatever is asked of it. -/
theorem of_int {e : Expr} (hasked : n.LeavesTruths s false e → n.LeavesTruths s true e)
    (h : n.LeavesTruths s true e → n.SameOutcome (plain.int e) (s.int (n.expr e))) :
    n.Outcomes plain s e where
  int := h
  truth hleaves := (h (hasked hleaves)).bind fun _ => .refl _

theorem fits {e : Expr} (h : n.Outcomes plain s e) (hreflects : n.Reflects plain s e)
    (hleaves : n.LeavesTruths s true e) : s.Fits (n.expr e) := by
  intro v hv
  exact Scope.fits_of_int hreflects.words e hreflects.worded v ((h.int hleaves).eq_of_ok hv)

mutual

/-- Resolving keeps outcomes, by what is asked of each part. -/
theorem expr : ∀ e : Expr, n.Reflects plain s e → n.Outcomes plain s e
  | .int v, _ => of_int id fun _ => .refl _
  | .symbol name, h => of_int id fun _ => by
      show n.SameOutcome (known name (plain.bindings.find? name)) (known name (s.bindings.find? name))
      rw [h.bindings]
      exact .refl _
  | .dim d, h => of_int id fun _ => by
      rw [expr_dim_of_not_rides (h.own d .here), ← h.place d .here]
      exact .refl _
  | .neg a, h => of_int id fun hleaves => by
      have ha : n.Reflects plain s a := h.part List.mem_cons_self
      have houtcomes := expr a ha
      rw [Nest.expr, Scope.int_negated (houtcomes.fits ha hleaves)]
      exact (houtcomes.int hleaves).bind fun _ => .refl _
  | .binary op a b, h => of_int id fun hleaves => by
      have ha : n.Reflects plain s a := h.part List.mem_cons_self
      have hb : n.Reflects plain s b := h.part (List.mem_cons_of_mem _ List.mem_cons_self)
      have hleft := expr a ha
      have hright := expr b hb
      rw [Nest.expr, Scope.int_fold (hleft.fits ha hleaves.1) (hright.fits hb hleaves.2)]
      exact (hleft.int hleaves.1).bind fun _ => (hright.int hleaves.2).bind fun _ => .refl _
  | .compare op a b, h => of_int id fun hleaves => by
      have hleft := expr a (h.part List.mem_cons_self)
      have hright := expr b (h.part (List.mem_cons_of_mem _ List.mem_cons_self))
      exact (hleft.int hleaves.1).bind fun _ => (hright.int hleaves.2).bind fun _ => .refl _
  | .and es, h => by
      have hall := allHold es fun e he => h.part he
      constructor
      case int =>
        intro hleaves
        rw [Nest.expr, (Scope.int_all_iff (n.exprs es)).mpr (hleaves.1 rfl)]
        exact (hall hleaves.2).bind fun _ => .refl _
      case truth =>
        intro hleaves
        rw [Nest.expr, Scope.truth_all, Scope.truth_and]
        exact hall hleaves.2
  | .float x, h => of_int id fun _ => by
      rw [Nest.expr, Scope.int, Scope.int, h.outside, h.inside]
      exact .refl _
  | .access _ _, h | .element _ _, h | .call _ _, h => of_int id fun _ => by
      rw [Scope.int, h.outside, Nest.expr, Scope.int, h.inside]
      exact .shown _

theorem allHold : ∀ es : List Expr, (∀ e ∈ es, n.Reflects plain s e) →
    n.EachLeavesTruths s es → n.SameOutcome (plain.allHold es) (s.allHold (n.exprs es))
  | [], _, _ => .refl _
  | e :: es, h, hleaves => by
      rw [exprs, Scope.allHold_cons, Scope.allHold_cons]
      refine ((expr e (h e List.mem_cons_self)).truth hleaves.1).bind fun holds => ?_
      cases holds with
      | false => exact .refl _
      | true => exact allHold es (fun f hf => h f (List.mem_cons_of_mem _ hf)) hleaves.2

end

end Outcomes

end Nest

/-! ## Conjunctions in a nest -/

/-- What conjunctions keep when they are built by `Expr.all`, and expressions when a nest resolves
them. -/
structure Nest.KeepsConjunctions (n : Nest) (s : Scope) : Prop where
  truth : ∀ es, s.truth (Expr.all es) = s.truth (.and es)
  int : ∀ es, s.int (Expr.all es) = s.int (.and es) ↔ s.OneIsTruth es
  resolved : ∀ plain e, n.Reflects plain s e → n.LeavesTruths s false e →
    n.SameOutcome (plain.truth e) (s.truth (n.expr e))
  resolvedInt : ∀ plain e, n.Reflects plain s e → n.LeavesTruths s true e →
    n.SameOutcome (plain.int e) (s.int (n.expr e))

/-- Conjunctions keep whether they hold, and predicates keep it inside a nest. -/
theorem conjunctions_kept (n : Nest) (s : Scope) : n.KeepsConjunctions s where
  truth es := by rw [Scope.truth_all, Scope.truth_and]
  int := Scope.int_all_iff
  resolved _ e h := (Nest.Outcomes.expr e h).truth
  resolvedInt _ e h := (Nest.Outcomes.expr e h).int

/-- A dimension and its first three points. -/
def headDims : DimTable :=
  (do
    let (t, x) ← DimTable.empty.space "x" (some 8)
    let (t, _) ← t.subLeft "head" x 3
    return t : Except ModelError DimTable).toOption.getD .empty

/-- `x > 1`, and both of `x < 5` and `n` if and only if `n` is one. -/
def guardedHead : Expr :=
  .and [.compare .gt (.dim ⟨0⟩) (.int 1),
    .and [.compare .eq (.and [.compare .lt (.dim ⟨0⟩) (.int 5), .symbol "n"]) (.symbol "n")]]

/-- Inside the loop over the first points, `n` at one. -/
def atHead : Scope := ⟨headDims, [("n", 1)], [(⟨1⟩, 2)]⟩

theorem conjunctions_kept_head :
    let n : Nest := ⟨headDims, [⟨1⟩]⟩
    let plain : Scope := ⟨headDims, [("n", 1)], [(⟨0⟩, 2)]⟩
    n.Reflects plain atHead guardedHead ∧ n.LeavesTruths atHead false guardedHead ∧
      n.SameOutcome (plain.truth guardedHead) (atHead.truth (n.expr guardedHead)) ∧
        atHead.truth (n.expr guardedHead) = .ok true := by
  intro n plain
  have hdim : ∀ d, Expr.Occurs (.dim d) guardedHead → d = ⟨0⟩ := by
    intro d hd
    simpa [guardedHead, Expr.nodes, Expr.nodesOf] using Expr.mem_nodes_of_occurs hd
  have hint : ∀ v, Expr.Occurs (.int v) guardedHead → v = 1 ∨ v = 5 := by
    intro v hv
    simpa [guardedHead, Expr.nodes, Expr.nodesOf] using Expr.mem_nodes_of_occurs hv
  have hreflects : n.Reflects plain atHead guardedHead :=
    { outside := rfl
      inside := rfl
      bindings := rfl
      words := by constructor <;> decide
      worded := fun v hv => by rcases hint v hv with rfl | rfl <;> decide
      own := fun d hd => by
        obtain rfl := hdim d hd
        decide +kernel
      place := fun d hd => by
        obtain rfl := hdim d hd
        rfl }
  have htwo : atHead.OneIsTruth (n.exprs [.compare .lt (.dim ⟨0⟩) (.int 5), .symbol "n"]) :=
    fun _ h => by cases h
  have hleaves : n.LeavesTruths atHead false guardedHead := by
    simp only [guardedHead, Nest.LeavesTruths, Nest.EachLeavesTruths, htwo, Bool.false_eq_true,
      false_implies, implies_true, and_self]
  exact ⟨hreflects, hleaves, (conjunctions_kept n atHead).resolved plain _ hreflects hleaves, rfl⟩

/-- Five as the only term of a conjunction, and a scalar that is alone in a conjunction and compared
with one: the first counts as five, and the second is compared itself. -/
theorem not_int_all :
    Scope.int ⟨.empty, [], []⟩ (Expr.all [.int 5]) = .ok 5 ∧
      Scope.int ⟨.empty, [], []⟩ (.and [.int 5]) = .ok 1 ∧
      Scope.truth ⟨.empty, [("n", 5)], []⟩ (.compare .eq (.and [.symbol "n"]) (.int 1)) = .ok true ∧
      Scope.truth ⟨.empty, [("n", 5)], []⟩
        (Nest.expr ⟨.empty, []⟩ (.compare .eq (.and [.symbol "n"]) (.int 1))) = .ok false :=
  ⟨rfl, rfl, rfl, rfl⟩

end LoopNest
