import LoopNest.Proofs.Checked.Text
import LoopNest.Trace
/-!
# Runs of a tree with checked lookups

A run looks dimensions up only to name them: those of the loops around an event, and those of an
expression that it cannot evaluate.  In a tree whose numbers are in range it misses none
(`events_eq`), whatever values the run is given, since the point it is at grows by the loops of the
tree alone.
-/

namespace LoopNest

/-- The loops around the point are over dimensions that the table has issued. -/
def Scope.IssuedPoint (s : Scope) : Prop := ∀ pair ∈ s.point, s.dims.contains pair.1 = true

theorem Scope.IssuedPoint.bind {s : Scope} (hs : s.IssuedPoint) {d : DimId}
    (hd : s.dims.contains d = true) (v : Int) : (s.bind d v).IssuedPoint :=
  List.forall_mem_append.mpr ⟨hs, List.forall_mem_singleton.mpr hd⟩

namespace Checked

variable {s : Scope}

/-! ## Values of expressions -/

/-- The failure to evaluate an expression, which names the expression. -/
def unsupported {α : Type} (s : Scope) (e : Expr) : Except (Fault TraceError) α := do
  throw (.failed (.unsupported (← text s.dims e)))

/-- The value of the innermost loop over a dimension, which is named if there is none. -/
def coordinate (s : Scope) (d : DimId) : Except (Fault TraceError) Int := do
  match s.point.find? d with
  | some v => return v
  | none => throw (.failed (.unbound (← name s.dims d)))

mutual

/-- The integer that an expression denotes. -/
def int (s : Scope) : Expr → Except (Fault TraceError) Int
  | .int v => return v
  | .symbol n => pass (known n (s.bindings.find? n))
  | .dim d => coordinate s d
  | .neg e => do
    let v ← int s e
    pass (fitting (Word.neg? v))
  | .binary op a b => do
    let a ← int s a
    let b ← int s b
    pass (op.apply a b)
  | .compare op a b => do
    let a ← int s a
    let b ← int s b
    return ofTruth (op.holds a b)
  | .and es => return ofTruth (← allHold s es)
  | .float x => unsupported s (.float x)
  | .access t is => unsupported s (.access t is)
  | .element t es => unsupported s (.element t es)
  | .call f es => unsupported s (.call f es)

def allHold (s : Scope) : List Expr → Except (Fault TraceError) Bool
  | [] => return true
  | e :: es => do
    let v ← int s e
    if v = 0 then return false else allHold s es

end

theorem unsupported_eq {α : Type} {e : Expr} (h : e.IssuedBy s.dims) :
    unsupported s e = pass (.error (.unsupported (e.text s.dims)) : Except TraceError α) := by
  rw [unsupported, text_eq h]
  rfl

theorem coordinate_eq {d : DimId} (h : s.dims.contains d = true) :
    coordinate s d = pass (known (s.dims.name d) (s.point.find? d)) := by
  rw [coordinate]
  cases s.point.find? d with
  | some v => rfl
  | none =>
      simp only [name_eq h]
      rfl

mutual

theorem int_eq : ∀ {e : Expr}, e.IssuedBy s.dims → int s e = pass (s.int e)
  | .int _, _ | .symbol _, _ => rfl
  | .dim _, h => coordinate_eq (Expr.issuedBy_dim.mp h)
  | .neg _, h => bind_eq_pass (int_eq (Expr.issuedBy_neg.mp h)) fun _ _ => rfl
  | .binary _ _ _, h =>
      bind_eq_pass (int_eq (Expr.issuedBy_binary.mp h).1) fun _ _ =>
        bind_eq_pass (int_eq (Expr.issuedBy_binary.mp h).2) fun _ _ => rfl
  | .compare _ _ _, h =>
      bind_eq_pass (int_eq (Expr.issuedBy_compare.mp h).1) fun _ _ =>
        bind_eq_pass (int_eq (Expr.issuedBy_compare.mp h).2) fun _ _ => rfl
  | .and _, h => bind_eq_pass (allHold_eq (Expr.issuedBy_and.mp h)) fun _ _ => rfl
  | .float _, h | .access _ _, h | .element _ _, h | .call _ _, h => unsupported_eq h

theorem allHold_eq : ∀ {es : List Expr}, (∀ e ∈ es, e.IssuedBy s.dims) →
    allHold s es = pass (s.allHold es)
  | [], _ => rfl
  | e :: es, h => by
      obtain ⟨he, hes⟩ := List.forall_mem_cons.mp h
      refine bind_eq_pass (int_eq he) fun v _ => ?_
      split
      · rfl
      · exact allHold_eq hes

end

def truth (s : Scope) (e : Expr) : Except (Fault TraceError) Bool := return (← int s e) ≠ 0

theorem truth_eq {e : Expr} (h : e.IssuedBy s.dims) : truth s e = pass (s.truth e) :=
  bind_eq_pass (int_eq h) fun _ _ => rfl

/-! ## Events -/

/-- Names and values of the loops around a point. -/
def namedPoint (s : Scope) : Except Missing (List (String × Int)) :=
  s.point.mapM fun pair => return (← name s.dims pair.1, pair.2)

theorem namedPoint_eq (hs : s.IssuedPoint) : namedPoint s = .ok s.namedPoint :=
  mapM_eq_ok_map fun pair hp => by rw [name_eq (hs pair hp)]; rfl

/-- The instance of a statement. -/
def event (s : Scope) (st : Statement) : Except (Fault TraceError) Event := do
  match st.lhs with
  | .element tensor indices =>
    let index ← indices.mapM (int s)
    return ⟨st.equation, ← namedPoint s, tensor, index⟩
  | e => throw (.failed (.unsupportedTarget (← text s.dims e)))

theorem event_eq (hs : s.IssuedPoint) {st : Statement} (h : st.lhs.IssuedBy s.dims) :
    event s st = pass (st.event s) := by
  rw [event, Statement.event]
  cases hlhs : st.lhs with
  | element tensor indices =>
      rw [hlhs] at h
      refine bind_eq_pass (mapM_eq_pass fun i hi => int_eq (Expr.issuedBy_element.mp h i hi))
        fun index _ => ?_
      rw [namedPoint_eq hs]
      rfl
  | _ =>
      rw [hlhs] at h
      simp only [text_eq h]
      rfl

/-! ## Nodes -/

section Repetition

variable {ε α : Type} {f : Int → Except (Fault ε) (List α)} {g : Int → Except ε (List α)}

theorem repeatFrom_eq_pass (h : ∀ v, f v = pass (g v)) (step : Int) : ∀ (n : Nat) (v : Int),
    repeatFrom f step n v = pass (repeatFrom g step n v)
  | 0, _ => rfl
  | n + 1, v => by
      rw [repeatFrom_succ, repeatFrom_succ]
      exact bind_eq_pass (h v) fun _ _ => map_eq_pass (repeatFrom_eq_pass h step n (v + step))

theorem visit_eq_pass (h : ∀ v, f v = pass (g v)) (direction : Direction) (lo hi : Int) :
    direction.visit lo hi f = pass (direction.visit lo hi g) := by
  cases direction with
  | forward => exact repeatFrom_eq_pass h 1 _ lo
  | backward => exact repeatFrom_eq_pass h (-1) _ hi

end Repetition

mutual

/-- The events of a node in order of execution. -/
def run (s : Scope) : Node → Except (Fault TraceError) (List Event)
  | .loop l body => do
    let lo ← int s l.bounds.min
    let hi ← int s l.bounds.max
    l.direction.visit lo hi fun v => runAll (s.bind l.dim v) body
  | .guard e _ body => do
    if ← truth s e then runAll s body else return []
  | .statement st => return [← event s st]

def runAll (s : Scope) : List Node → Except (Fault TraceError) (List Event)
  | [] => return []
  | n :: ns => do
    let events ← run s n
    return events ++ (← runAll s ns)

end

mutual

theorem run_eq {k : Nat} : ∀ {s : Scope} {n : Node}, s.IssuedPoint → n.Resolves s.dims k →
    run s n = pass (n.run s)
  | s, .loop l body, hs, h => by
      obtain ⟨⟨hd, hbounds, -⟩, hbody⟩ := h
      refine bind_eq_pass (int_eq hbounds.1) fun lo _ => bind_eq_pass (int_eq hbounds.2) fun hi _ => ?_
      exact visit_eq_pass (fun v => runAll_eq (hs.bind hd v) hbody) l.direction lo hi
  | s, .guard e _ body, hs, h => by
      refine bind_eq_pass (truth_eq h.1) fun b _ => ?_
      cases b with
      | true => exact runAll_eq hs h.2
      | false => rfl
  | s, .statement st, hs, h => bind_eq_pass (event_eq hs h.1) fun _ _ => rfl

theorem runAll_eq {k : Nat} : ∀ {s : Scope} {ns : List Node}, s.IssuedPoint →
    Node.ResolvesAll s.dims k ns → runAll s ns = pass (Node.runAll s ns)
  | _, [], _, _ => rfl
  | _, _ :: _, hs, h =>
      bind_eq_pass (run_eq hs h.1) fun _ _ => bind_eq_pass (runAll_eq hs h.2) fun _ _ => rfl

end

/-- The events of a schedule in order of execution. -/
def events (t : DimTable) (tree : ScheduleTree) (bindings : Bindings) :
    Except (Fault TraceError) (List Event) :=
  runAll ⟨t, defaultBindings tree.parameters ++ bindings, []⟩ tree.roots

/-- A run of a tree checks what it looks up. -/
theorem events_eq {t : DimTable} {k : Nat} {tree : ScheduleTree}
    (h : Node.ResolvesAll t k tree.roots) (bindings : Bindings) :
    events t tree bindings = pass (tree.events t bindings) :=
  runAll_eq (fun _ hm => absurd hm List.not_mem_nil) h

end Checked

end LoopNest
