import LoopNest.Proofs.Failure
import LoopNest.Proofs.Reading
import LoopNest.Proofs.Turns
/-!
# Where a run fails

`Node.evaluated` lists what a run evaluates, bounds, guards and left-hand sides, with the loops around
each.  A run that fails does so in one of these, at a point of the loops around it
(`Node.runAll_eq_error`), and there at one node of the expression, for a reason that the node alone
accounts for (`Scope.FailsAt`): a name without a value, an operator without a result, or nothing
that is an integer.  Whoever asks why runs end has these reasons to look at and no run.
-/

namespace LoopNest

/-! ## What a run evaluates -/

/-- An expression that a run evaluates, with the loops around it, outermost first. -/
structure Evaluated where
  loops : List DimId
  expr : Expr

/-- The same inside one more loop. -/
def Evaluated.inLoop (d : DimId) (x : Evaluated) : Evaluated := ⟨d :: x.loops, x.expr⟩

namespace Node

mutual

/-- What a run of a node evaluates: bounds of loops, guards and left-hand sides. -/
def evaluated : Node → List Evaluated
  | .loop l body => ⟨[], l.bounds.min⟩ :: ⟨[], l.bounds.max⟩ ::
      (evaluatedOf body).map (Evaluated.inLoop l.dim)
  | .guard e _ body => ⟨[], e⟩ :: evaluatedOf body
  | .statement st => [⟨[], st.lhs⟩]

def evaluatedOf : List Node → List Evaluated
  | [] => []
  | n :: ns => n.evaluated ++ evaluatedOf ns

end

theorem evaluatedOf_append (ns ms : List Node) :
    evaluatedOf (ns ++ ms) = evaluatedOf ns ++ evaluatedOf ms := by
  induction ns with
  | nil => rfl
  | cons n ns ih => rw [List.cons_append, evaluatedOf, evaluatedOf, ih, List.append_assoc]

end Node

/-! ## Expressions that fail -/

theorem fitting_eq_error {o : Option Int} {err : TraceError} (h : fitting o = .error err) :
    o = none ∧ err = .overflow := by
  cases o with
  | none => exact ⟨rfl, (Except.error.inj h).symm⟩
  | some v => cases h

theorem known_eq_error {name : String} {o : Option Int} {err : TraceError}
    (h : known name o = .error err) : o = none ∧ err = .unbound name := by
  cases o with
  | none => exact ⟨rfl, (Except.error.inj h).symm⟩
  | some v => cases h

/-- The operator divides by its right operand. -/
def BinOp.divides : BinOp → Bool
  | .div | .floorDiv | .mod => true
  | .add | .sub | .mul => false

theorem BinOp.apply_eq_error {op : BinOp} {a b : Int} {err : TraceError}
    (h : op.apply a b = .error err) :
    err = .overflow ∨ err = .divisionByZero ∧ op.divides = true ∧ b = 0 := by
  cases op with
  | add | sub | mul => exact Or.inl (fitting_eq_error h).2
  | div | floorDiv | mod =>
      unfold apply at h
      dsimp only at h
      split at h
      · rename_i hb
        exact Or.inr ⟨(Except.error.inj h).symm, rfl, hb⟩
      · exact Or.inl (fitting_eq_error h).2

namespace Scope

/-- An evaluation that comes to this node of an expression fails there. -/
inductive FailsAt (s : Scope) : Expr → TraceError → Prop where
  | symbol {name : String} (h : s.bindings.find? name = none) :
      FailsAt s (.symbol name) (.unbound name)
  | dim {d : DimId} (h : s.point.find? d = none) : FailsAt s (.dim d) (.unbound (s.dims.name d))
  | neg {a : Expr} {x : Int} (ha : s.int a = .ok x) (h : Word.neg? x = none) :
      FailsAt s (.neg a) .overflow
  | binary {op : BinOp} {a b : Expr} {x y : Int} {err : TraceError} (ha : s.int a = .ok x)
      (hb : s.int b = .ok y) (h : op.apply x y = .error err) : FailsAt s (.binary op a b) err
  | shown (e : Expr) : FailsAt s e (.unsupported (e.text s.dims))
  | target (e : Expr) : FailsAt s e (.unsupportedTarget (e.text s.dims))

/-- Evaluating the expression may fail like this: one of its nodes does. -/
def Fails (s : Scope) (e : Expr) (err : TraceError) : Prop :=
  ∃ f, Expr.Occurs f e ∧ s.FailsAt f err

variable {s : Scope} {err : TraceError}

theorem FailsAt.fails {e : Expr} (h : s.FailsAt e err) : s.Fails e err := ⟨e, .here, h⟩

theorem Fails.of_part {e part : Expr} (h : s.Fails part err) (hp : part ∈ e.parts) :
    s.Fails e err := by
  obtain ⟨f, hf, h⟩ := h
  exact ⟨f, .inside hp hf, h⟩

mutual

theorem int_eq_error : ∀ e : Expr, s.int e = .error err → s.Fails e err
  | .int _, h => by cases h
  | .symbol n, h => by
      obtain ⟨hnone, rfl⟩ := known_eq_error h
      exact (FailsAt.symbol hnone).fails
  | .dim d, h => by
      obtain ⟨hnone, rfl⟩ := known_eq_error h
      exact (FailsAt.dim hnone).fails
  | .neg a, h => by
      rcases bind_eq_error.mp h with h | ⟨x, hx, h⟩
      · exact (int_eq_error a h).of_part List.mem_cons_self
      · obtain ⟨hnone, rfl⟩ := fitting_eq_error h
        exact (FailsAt.neg hx hnone).fails
  | .binary op a b, h => by
      rcases bind_eq_error.mp h with h | ⟨x, hx, h⟩
      · exact (int_eq_error a h).of_part List.mem_cons_self
      · rcases bind_eq_error.mp h with h | ⟨y, hy, h⟩
        · exact (int_eq_error b h).of_part (List.mem_cons_of_mem _ List.mem_cons_self)
        · exact (FailsAt.binary hx hy h).fails
  | .compare op a b, h => by
      rcases bind_eq_error.mp h with h | ⟨x, _, h⟩
      · exact (int_eq_error a h).of_part List.mem_cons_self
      · rcases bind_eq_error.mp h with h | ⟨y, _, h⟩
        · exact (int_eq_error b h).of_part (List.mem_cons_of_mem _ List.mem_cons_self)
        · cases h
  | .and es, h => by
      rcases bind_eq_error.mp h with h | ⟨_, _, h⟩
      · obtain ⟨e, he, h⟩ := allHold_eq_error es h
        exact h.of_part he
      · cases h
  | .float _, h | .access _ _, h | .element _ _, h | .call _ _, h => by
      cases h
      exact (FailsAt.shown _).fails

theorem allHold_eq_error : ∀ es : List Expr, s.allHold es = .error err →
    ∃ e ∈ es, s.Fails e err
  | [], h => by cases h
  | e :: es, h => by
      rcases bind_eq_error.mp h with h | ⟨v, _, h⟩
      · exact ⟨e, List.mem_cons_self, int_eq_error e h⟩
      · split at h
        · cases h
        · obtain ⟨f, hf, h⟩ := allHold_eq_error es h
          exact ⟨f, List.mem_cons_of_mem _ hf, h⟩

end

theorem truth_eq_error {e : Expr} (h : s.truth e = .error err) : s.Fails e err := by
  rcases bind_eq_error.mp h with h | ⟨_, _, h⟩
  · exact int_eq_error e h
  · cases h

end Scope

theorem Statement.event_eq_error {s : Scope} {st : Statement} {err : TraceError}
    (h : st.event s = .error err) : s.Fails st.lhs err := by
  unfold event at h
  split at h
  · rename_i tensor indices hlhs
    rcases bind_eq_error.mp h with h | ⟨_, _, h⟩
    · obtain ⟨e, he, h⟩ := exists_of_mapM_eq_error h
      rw [hlhs]
      exact (Scope.int_eq_error e h).of_part he
    · cases h
  · cases h
    exact (Scope.FailsAt.target _).fails

/-! ## Runs that fail -/

theorem exists_of_inTurn_eq_error {ε α β : Type} {f : β → Except ε (List α)} {e : ε} :
    ∀ {xs : List β}, inTurn f xs = .error e → ∃ x ∈ xs, f x = .error e
  | [], h => by cases h
  | x :: xs, h => by
      rcases bind_eq_error.mp h with h | ⟨_, _, h⟩
      · exact ⟨x, List.mem_cons_self, h⟩
      · obtain ⟨y, hy, h⟩ := exists_of_inTurn_eq_error (map_eq_error.mp h)
        exact ⟨y, List.mem_cons_of_mem _ hy, h⟩

/-- The expression fails at a point of the loops around it. -/
def Evaluated.FailsIn (s : Scope) (err : TraceError) (x : Evaluated) : Prop :=
  ∃ more : Point, more.map Prod.fst = x.loops ∧
    Scope.Fails ⟨s.dims, s.bindings, s.point ++ more⟩ x.expr err

theorem Scope.Fails.here {s : Scope} {e : Expr} {err : TraceError} (h : s.Fails e err) :
    Evaluated.FailsIn s err ⟨[], e⟩ := by
  refine ⟨[], rfl, ?_⟩
  rw [List.append_nil]
  exact h

theorem Evaluated.FailsIn.inLoop {s : Scope} {err : TraceError} {d : DimId} {v : Int}
    {x : Evaluated} (h : x.FailsIn (s.bind d v) err) : (x.inLoop d).FailsIn s err := by
  obtain ⟨more, hloops, h⟩ := h
  refine ⟨(d, v) :: more, congrArg (d :: ·) hloops, ?_⟩
  rw [List.append_cons]
  exact h

namespace Node

variable {err : TraceError}

mutual

/-- A run that fails does so in one of the expressions it evaluates. -/
theorem run_eq_error : ∀ (n : Node) (s : Scope), n.run s = .error err →
    ∃ x ∈ n.evaluated, x.FailsIn s err
  | .loop l body, s, h => by
      rw [run_loop] at h
      rcases bind_eq_error.mp h with h | ⟨lo, _, h⟩
      · exact ⟨_, List.mem_cons_self, (Scope.int_eq_error _ h).here⟩
      · rcases bind_eq_error.mp h with h | ⟨hi, _, h⟩
        · exact ⟨_, List.mem_cons_of_mem _ List.mem_cons_self, (Scope.int_eq_error _ h).here⟩
        · obtain ⟨v, _, h⟩ := exists_of_inTurn_eq_error h
          obtain ⟨x, hx, h⟩ := runAll_eq_error body (s.bind l.dim v) h
          refine ⟨x.inLoop l.dim, ?_, h.inLoop⟩
          exact List.mem_cons_of_mem _ (List.mem_cons_of_mem _ (List.mem_map_of_mem hx))
  | .guard e _ body, s, h => by
      rw [run_guard] at h
      rcases bind_eq_error.mp h with h | ⟨holds, _, h⟩
      · exact ⟨_, List.mem_cons_self, (Scope.truth_eq_error h).here⟩
      · split at h
        · obtain ⟨x, hx, h⟩ := runAll_eq_error body s h
          exact ⟨x, List.mem_cons_of_mem _ hx, h⟩
        · cases h
  | .statement st, s, h => by
      rcases bind_eq_error.mp h with h | ⟨_, _, h⟩
      · exact ⟨_, List.mem_cons_self, (Statement.event_eq_error h).here⟩
      · cases h

theorem runAll_eq_error : ∀ (ns : List Node) (s : Scope), runAll s ns = .error err →
    ∃ x ∈ evaluatedOf ns, x.FailsIn s err
  | [], s, h => by cases h
  | n :: ns, s, h => by
      rcases bind_eq_error.mp h with h | ⟨_, _, h⟩
      · obtain ⟨x, hx, h⟩ := run_eq_error n s h
        exact ⟨x, List.mem_append_left _ hx, h⟩
      · rcases bind_eq_error.mp h with h | ⟨_, _, h⟩
        · obtain ⟨x, hx, h⟩ := runAll_eq_error ns s h
          exact ⟨x, List.mem_append_right _ hx, h⟩
        · cases h

end

end Node

end LoopNest
