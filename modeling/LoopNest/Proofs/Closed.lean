import LoopNest.Proofs.FailingRuns
import LoopNest.Proofs.Paths
/-!
# Closed schedules

A run asks for names: those of parameters and scalars, which bindings give a value, and those of
iteration variables, which loops do.  A run that finds a name without a value finds it in one of the
expressions it evaluates (`Node.runAll_eq_unbound`).  So a run of a closed tree, where each expression
is made of variables of loops around it, fails for want of a binding only.

A tree is closed because every dimension of an equation has a loop, its guards are moved out only as
far as their variables reach, and a cluster is laid out along its own loops (`Plan.Laid.closed`).
There is one gap: the walk that gathers the dimensions of an equation leaves out displacements of
the written access.  A dimension that stands nowhere else gets no loop, and its variable no value
(`not_closed_diagonal`).
-/

namespace LoopNest

open Lowered

/-! ## Names without a value -/

/-- Inside loops over `loops`, under bindings `b`, this has no value: it is a scalar that is not
bound, or the variable of no loop. -/
def Atom.Lacks (t : DimTable) (b : Bindings) (loops : List DimId) (name : String) : Atom → Prop
  | .symbol n => n = name ∧ b.find? n = none
  | .dim d => t.name d = name ∧ d ∉ loops
  | .tensor _ | .index _ => False

/-- A run finds a name without a value where something of that name has none. -/
def Expr.Lacks (t : DimTable) (b : Bindings) (loops : List DimId) (name : String) (e : Expr) :
    Prop :=
  ∃ a ∈ e.atoms, a.Lacks t b loops name

theorem Point.not_mem_of_find?_eq_none {pt : Point} {d : DimId} (h : pt.find? d = none) :
    d ∉ pt.map Prod.fst := by
  intro hd
  obtain ⟨pair, hp, rfl⟩ := List.mem_map.mp hd
  have := List.find?_eq_none.mp (Option.map_eq_none_iff.mp h) pair (List.mem_reverse.mpr hp)
  simp at this

section Unbound

variable {name : String}

theorem Scope.Fails.lacks {s : Scope} {e : Expr} (h : s.Fails e (.unbound name)) :
    e.Lacks s.dims s.bindings (s.point.map Prod.fst) name := by
  obtain ⟨f, hf, h⟩ := h
  cases h with
  | symbol hnone => exact ⟨_, Expr.symbol_mem_atoms.mpr hf, rfl, hnone⟩
  | dim hnone => exact ⟨_, Expr.dim_mem_atoms.mpr hf, rfl, Point.not_mem_of_find?_eq_none hnone⟩
  | binary _ _ h => rcases BinOp.apply_eq_error h with h | ⟨h, _⟩ <;> cases h

/-- A run that finds a name without a value finds it in one of the expressions it evaluates. -/
theorem Node.runAll_eq_unbound {ns : List Node} {s : Scope}
    (h : runAll s ns = .error (.unbound name)) :
    ∃ x ∈ evaluatedOf ns,
      x.expr.Lacks s.dims s.bindings (s.point.map Prod.fst ++ x.loops) name := by
  obtain ⟨x, hx, more, hloops, h⟩ := runAll_eq_error ns s h
  refine ⟨x, hx, ?_⟩
  rw [← hloops, ← List.map_append]
  exact h.lacks

end Unbound

/-! ## Closed expressions -/

/-- All that a closed expression can lack is the value of a scalar. -/
theorem Expr.ClosedIn.exists_symbol {t : DimTable} {b : Bindings} {loops : List DimId}
    {name : String} {e : Expr} (h : e.ClosedIn loops) (hlacks : e.Lacks t b loops name) :
    Expr.Occurs (.symbol name) e ∧ b.find? name = none := by
  obtain ⟨x, hx, hlacks⟩ := hlacks
  cases x with
  | symbol n =>
      obtain ⟨rfl, hnone⟩ := hlacks
      exact ⟨symbol_mem_atoms.mp hx, hnone⟩
  | dim d => exact absurd (closedIn_iff_atoms.mp h d hx) hlacks.2
  | tensor _ | index _ => cases hlacks

theorem DimTable.interval_closedIn (t : DimTable) (d : DimId) :
    (t.interval d).min.ClosedIn [] ∧ (t.interval d).max.ClosedIn [] := by
  simp only [Expr.closedIn_iff_atoms]
  refine intervalAlong_induction (P := fun e => ∀ l, .dim l ∈ e.atoms → l ∈ []) ?_ ?_ ?_ ?_
    (t.lineage d)
  · intro k l hl
    cases hl
  · intro name l hl
    simp at hl
  · intro a b ha hb l hl
    exact ((Expr.mem_atoms_add a b).mp hl).elim (ha l) (hb l)
  · intro a b ha hb l hl
    exact ((Expr.mem_atoms_fold .sub a b).mp hl).elim (ha l) (hb l)

/-- Inside a nest an expression is closed if there is a loop for each dimension it mentions. -/
theorem Nest.closedIn_expr_iff (n : Nest) (e : Expr) : (n.expr e).ClosedIn n.loops ↔
    ∀ d, e.Mentions d → n.dims.root d ∈ n.loops.map n.dims.root := by
  have hvar : ∀ d, n.loopVar d ∈ n.loops ↔ n.dims.root d ∈ n.loops.map n.dims.root := fun d =>
    (loopVar_mem_iff List.prefix_rfl).trans List.mem_map.symm
  simp only [Expr.closedIn_iff_atoms, dim_mem_atoms_expr, ← hvar]
  constructor
  · intro h d hd
    exact h _ ⟨d, hd, rfl⟩
  · rintro h l ⟨d, hd, rfl⟩
    exact h d hd

theorem Access.mentions_toExpr_iff {a : Access} {d : DimId} : a.toExpr.Mentions d ↔
    d ∈ a.indices.map Index.dim ∨ ∃ i ∈ a.indices, ∃ shift ∈ i.symbolic?, shift.Mentions d := by
  simp only [toExpr, Expr.mentions_iff_atoms, Expr.atoms_access, List.mem_cons, List.mem_append,
    List.mem_map, List.mem_flatMap, List.mem_filterMap, reduceCtorEq, Atom.index.injEq, and_false,
    exists_false, false_or]
  constructor
  · rintro (⟨shift, ⟨i, hi, hs⟩, hd⟩ | hd | ⟨shift, ⟨i, hi, hs⟩, hd⟩)
    · exact Or.inr ⟨i, hi, shift, hs, Or.inl hd⟩
    · exact Or.inl hd
    · exact Or.inr ⟨i, hi, shift, hs, Or.inr hd⟩
  · rintro (hd | ⟨i, hi, shift, hs, hd | hd⟩)
    · exact Or.inr (Or.inl hd)
    · exact Or.inl ⟨shift, ⟨i, hi, hs⟩, hd⟩
    · exact Or.inr (Or.inr ⟨shift, ⟨i, hi, hs⟩, hd⟩)

namespace Plan

variable {p : Plan} {program : Program}

/-! ## Closed ways -/

/-- Along the way guards, and at its end some expressions, are made of variables of loops before. -/
def ClosedAlong (ends : List Expr) (outer : List DimId) : List Step → Prop
  | [] => ∀ e ∈ ends, e.ClosedIn outer
  | .loop d :: rest => ClosedAlong ends (outer ++ [d]) rest
  | .guard g :: rest => g.predicate.ClosedIn outer ∧ ClosedAlong ends outer rest

theorem closedAlong_of_head?_loop {ends : List Expr} {outer : List DimId} {steps : List Step}
    {d : DimId} (h : steps.head? = some (.loop d)) :
    ClosedAlong ends outer steps ↔ ClosedAlong ends (outer ++ [d]) steps.tail := by
  obtain ⟨rest, rfl⟩ := List.head?_eq_some_iff.mp h
  exact Iff.rfl

theorem closedAlong_of_head?_guard {ends : List Expr} {outer : List DimId} {steps : List Step}
    {g : Guard} (h : steps.head? = some (.guard g)) : ClosedAlong ends outer steps ↔
      g.predicate.ClosedIn outer ∧ ClosedAlong ends outer steps.tail := by
  obtain ⟨rest, rfl⟩ := List.head?_eq_some_iff.mp h
  exact Iff.rfl

theorem closedAlong_guards {ends : List Expr} {outer : List DimId} {rest : List Step}
    (hrest : ClosedAlong ends outer rest) : ∀ {here : List Guard},
    (∀ g ∈ here, g.predicate.ClosedIn outer) → ClosedAlong ends outer (here.map .guard ++ rest)
  | [], _ => hrest
  | g :: _, h =>
      ⟨h g List.mem_cons_self, closedAlong_guards hrest fun f hf => h f (List.mem_cons_of_mem _ hf)⟩

/-- A way is closed if no guard on it is placed before the loops of its variables. -/
theorem closedAlong_stepsFrom {ends : List Expr} {gs : List Guard} {loops : List DimId}
    (hgs : ∀ g ∈ gs, g.predicate.ClosedIn (loops.take g.level))
    (hends : ∀ e ∈ ends, e.ClosedIn loops) : ∀ {inner outer : List DimId},
    outer ++ inner = loops → ClosedAlong ends outer (stepsFrom gs outer.length inner) := by
  have hguards : ∀ {inner outer : List DimId}, outer ++ inner = loops →
      ∀ g ∈ gs.filter (fun g => g.level == outer.length), g.predicate.ClosedIn outer := by
    intro inner outer heq g hg
    obtain ⟨hg, hlevel⟩ := List.mem_filter.mp hg
    have := hgs g hg
    rwa [← heq, beq_iff_eq.mp hlevel, List.take_left] at this
  intro inner
  induction inner with
  | nil =>
      intro outer heq
      rw [stepsFrom, guardSteps, ← List.append_nil (List.map _ _)]
      refine closedAlong_guards ?_ (hguards heq)
      rw [List.append_nil] at heq
      exact heq ▸ hends
  | cons l inner ih =>
      intro outer heq
      rw [stepsFrom, guardSteps]
      refine closedAlong_guards ?_ (hguards heq)
      rw [List.append_cons] at heq
      have := ih heq
      rwa [List.length_append] at this

/-- The left-hand sides of a cluster. -/
def targets (p : Plan) (c : Nat) : List Expr :=
  (p.cluster c).equations.map fun i => (p.statementOf c i).lhs

theorem evaluatedOf_statements (p : Plan) (c : Nat) :
    Node.evaluatedOf (p.statements c) = (p.targets c).map fun e => ⟨[], e⟩ := by
  rw [statements_eq_map, targets, List.map_map]
  induction (p.cluster c).equations with
  | nil => rfl
  | cons i is ih => exact congrArg (_ :: ·) ih

/-- Where the ways of clusters are closed, so is all that a run of them evaluates. -/
theorem Laid.closed {ok : Loop → Prop} (hok : ∀ l, ok l → l.bounds = p.dims.interval l.dim)
    {way : Nat → List Step} {cs : List Nat} {ns : List Node} (h : Laid p ok way cs ns) :
    ∀ {outer : List DimId}, (∀ c ∈ cs, ClosedAlong (p.targets c) outer (way c)) →
      ∀ x ∈ Node.evaluatedOf ns, x.expr.ClosedIn (outer ++ x.loops) := by
  induction h with
  | nil =>
      intro outer _ x hx
      cases hx
  | here _ hw _ ih =>
      intro outer hcs x hx
      rw [Node.evaluatedOf_append, List.mem_append, evaluatedOf_statements] at hx
      rcases hx with hx | hx
      · exact ih (fun c hc => hcs c (List.mem_append_left _ hc)) x hx
      · obtain ⟨e, he, rfl⟩ := List.mem_map.mp hx
        have hend := hcs _ (List.mem_append_right _ (List.mem_singleton.mpr rfl))
        rw [hw] at hend
        rw [List.append_nil]
        exact hend e he
  | @loop _ _ _ _ _ l _ hown _ hl hhead _ ih ihbody =>
      intro outer hcs x hx
      rw [Node.evaluatedOf_append, List.mem_append, Node.evaluatedOf, Node.evaluatedOf,
        List.append_nil, Node.evaluated, List.mem_cons, List.mem_cons] at hx
      obtain ⟨hmin, hmax⟩ := p.dims.interval_closedIn l.dim
      rw [← hok l hl] at hmin hmax
      rcases hx with hx | rfl | rfl | hx
      · exact ih (fun c hc => hcs c (List.mem_append_left _ hc)) x hx
      · exact fun d hd => absurd (hmin d hd) List.not_mem_nil
      · exact fun d hd => absurd (hmax d hd) List.not_mem_nil
      · obtain ⟨y, hy, rfl⟩ := List.mem_map.mp hx
        rw [Evaluated.inLoop, List.append_cons]
        refine ihbody (fun c hc => ?_) y hy
        exact (closedAlong_of_head?_loop (hhead c hc)).mp (hcs c (List.mem_append_right _ hc))
  | guard _ hne hhead _ ih ihbody =>
      intro outer hcs x hx
      rw [Node.evaluatedOf_append, List.mem_append, Node.evaluatedOf, Node.evaluatedOf,
        List.append_nil, Node.evaluated, List.mem_cons] at hx
      rcases hx with hx | rfl | hx
      · exact ih (fun c hc => hcs c (List.mem_append_left _ hc)) x hx
      · obtain ⟨c, hc⟩ := List.exists_mem_of_ne_nil _ hne
        obtain ⟨g, hg, halike⟩ := hhead c hc
        rw [List.append_nil, halike.closedIn_iff]
        exact ((closedAlong_of_head?_guard hg).mp (hcs c (List.mem_append_right _ hc))).1
      · refine ihbody (fun c hc => ?_) x hx
        obtain ⟨g, hg, _⟩ := hhead c hc
        exact ((closedAlong_of_head?_guard hg).mp (hcs c (List.mem_append_right _ hc))).2

end Plan

/-! ## The dimensions of an equation -/

/-- The equation is lowered to loops along the dimension: it is an index of the left-hand side, the
right-hand side mentions it, or it is implicit. -/
def Equation.RunsAlong (eq : Equation) (d : DimId) : Prop :=
  d ∈ eq.lhs.indices.map Index.dim ∨ eq.rhs.Mentions d ∨ d ∈ eq.implicit

theorem Equation.mem_dims_iff {eq : Equation} {d : DimId} : d ∈ eq.dims ↔ eq.RunsAlong d := by
  rw [dims, List.mem_eraseDups, List.mem_append, List.mem_append, Expr.mem_dims_iff, or_assoc,
    RunsAlong]

/-- The equation mentions the dimension in its left-hand side, displacements included, or in its
right-hand side, or it is implicit. -/
def Equation.Mentions (eq : Equation) (d : DimId) : Prop :=
  eq.lhs.toExpr.Mentions d ∨ eq.rhs.Mentions d ∨ d ∈ eq.implicit

namespace Lowered

/-- Displacements of the written access mention no root but those that the equation runs along. -/
def DisplacesWithin (t : DimTable) (e : Lowered) : Prop :=
  ∀ i ∈ e.write.indices, ∀ shift ∈ i.symbolic?, ∀ d, shift.Mentions d →
    ∃ c, e.equation.RunsAlong c ∧ t.root c = t.root d

instance (t : DimTable) (e : Lowered) : Decidable (e.DisplacesWithin t) :=
  decidable_of_iff (∀ i ∈ e.write.indices, ∀ shift ∈ i.symbolic?, ∀ d ∈ shift.dims,
      ∃ c ∈ e.equation.dims, t.root c = t.root d) <| by
    simp only [DisplacesWithin, Expr.mem_dims_iff, Equation.mem_dims_iff]

variable {t : DimTable} {e : Lowered}

/-- The loops of an equation are those of the dimensions that it runs along. -/
theorem Shaped.mem_roots_iff (h : e.Shaped t) {r : DimId} :
    r ∈ e.roots t ↔ ∃ c, e.equation.RunsAlong c ∧ t.root c = r := by
  simp only [← Equation.mem_dims_iff]
  constructor
  · exact h.rooted r
  · rintro ⟨c, hc, rfl⟩
    exact h.covers c hc

theorem Shaped.closedIn_source (h : e.Shaped t) :
    ((⟨t, e.loops⟩ : Nest).expr e.equation.rhs).ClosedIn e.loops :=
  (Nest.closedIn_expr_iff _ _).mpr fun _ hd => h.mem_roots_iff.mpr ⟨_, Or.inr (Or.inl hd), rfl⟩

theorem Shaped.closedIn_target_iff (h : e.Shaped t) :
    ((⟨t, e.loops⟩ : Nest).access e.equation.lhs).ClosedIn e.loops ↔ e.DisplacesWithin t := by
  have hall : ((⟨t, e.loops⟩ : Nest).access e.equation.lhs).ClosedIn e.loops ↔
      ∀ d, e.equation.lhs.toExpr.Mentions d → t.root d ∈ e.roots t :=
    Nest.closedIn_expr_iff ⟨t, e.loops⟩ e.equation.lhs.toExpr
  rw [hall]
  constructor
  · intro hclosed i hi shift hs d hd
    exact h.mem_roots_iff.mp
      (hclosed d (Access.mentions_toExpr_iff.mpr (Or.inr ⟨i, hi, shift, hs, hd⟩)))
  · intro hwithin d hd
    rcases Access.mentions_toExpr_iff.mp hd with hd | ⟨i, hi, shift, hs, hd⟩
    · exact h.mem_roots_iff.mpr ⟨d, Or.inl hd, rfl⟩
    · exact h.mem_roots_iff.mpr (hwithin i hi shift hs d hd)

end Lowered

/-! ## Closed trees -/

/-- Statements are made of variables of the loops around them. -/
structure ScheduleTree.Closed (t : DimTable) (es : List Lowered) (tree : ScheduleTree) : Prop where
  source : ∀ q ∈ tree.placements, q.statement.rhs.ClosedIn (q.loops.map Loop.dim)
  target : ∀ e ∈ es, e.DisplacesWithin t ↔ ∀ q ∈ tree.placements,
    q.statement.equation = e.index → q.statement.lhs.ClosedIn (q.loops.map Loop.dim)
  /-- A dimension that an equation runs along has a loop, over the range that its points are visited
  in or over a part of it. -/
  looped : ∀ e ∈ es, ∀ d, e.equation.RunsAlong d → ∃ l ∈ e.loops, t.derives l (t.loopOf d) = true
  gated : ∀ e ∈ es, ∀ d, e.equation.RunsAlong d → ∀ c ∈ t.conditionsOf d, c ∈ e.conditions
  /-- What has no value in a run is a scalar that is not bound, and no iteration variable. -/
  unbound : (∀ e ∈ es, e.DisplacesWithin t) → ∀ bindings name,
    tree.events t bindings = .error (.unbound name) → ∃ x ∈ Node.evaluatedOf tree.roots,
      Expr.Occurs (.symbol name) x.expr ∧
        (defaultBindings tree.parameters ++ bindings).find? name = none

namespace Plan.Sound

variable {p : Plan} {program : Program}

theorem exists_equation (h : p.Sound program) {q : Placement} (hq : q ∈ p.tree.placements) :
    ∃ e ∈ p.equations, q.statement.equation = e.index ∧ q.loops.map Loop.dim = e.loops ∧
      q.statement.lhs = (⟨p.dims, e.loops⟩ : Nest).access e.equation.lhs ∧
      q.statement.rhs = (⟨p.dims, e.loops⟩ : Nest).expr e.equation.rhs := by
  obtain ⟨c, hc, i, hi, hst, hloops, _⟩ := h.laid.of_mem_placementsOf q hq
  obtain ⟨e, he, rfl, hsig⟩ := (h.cluster_sound hc).uniform i hi
  rw [dimsOf_steps, ← hsig] at hloops
  rw [h.statementOf_eq hc he hi] at hst
  exact ⟨e, he, by rw [hst], hloops, by rw [hst], by rw [hst]⟩

theorem exists_placement (h : p.Sound program) {e : Lowered} (he : e ∈ p.equations) :
    ∃ q ∈ p.tree.placements, q.statement.equation = e.index := by
  have hm : e.index ∈ Node.equationsOf p.tree.roots := by
    rw [h.equationsOf_eq, h.mem_members]
    exact h.numbered.index_lt he
  obtain ⟨st, hst, hi⟩ := List.mem_map.mp hm
  obtain ⟨q, hq, rfl⟩ := List.mem_map.mp hst
  exact ⟨q, hq, hi⟩

theorem closedAlong (h : p.Sound program) (hall : ∀ e ∈ p.equations, e.DisplacesWithin p.dims)
    {c : Nat} (hc : c ∈ p.clusterIds) : ClosedAlong (p.targets c) [] (p.steps c) := by
  have hplaced := Guard.placed_of_ofCluster (h.ofCluster_guardsOf hc)
  refine closedAlong_stepsFrom hplaced.closed (fun target ht => ?_) rfl
  obtain ⟨i, hi, rfl⟩ := List.mem_map.mp ht
  obtain ⟨e, he, rfl, hsig⟩ := (h.cluster_sound hc).uniform i hi
  rw [h.statementOf_eq hc he hi, ← hsig]
  exact (h.shaped he).closedIn_target_iff.mpr (hall e he)

theorem closed (h : p.Sound program) : p.tree.Closed p.dims p.equations where
  source q hq := by
    obtain ⟨e, he, _, hloops, _, hrhs⟩ := h.exists_equation hq
    rw [hloops, hrhs]
    exact (h.shaped he).closedIn_source
  target e he := by
    have hsame : ∀ q ∈ p.tree.placements, q.statement.equation = e.index →
        (q.statement.lhs.ClosedIn (q.loops.map Loop.dim) ↔ e.DisplacesWithin p.dims) := by
      intro q hq hi
      obtain ⟨f, hf, hfi, hloops, hlhs, _⟩ := h.exists_equation hq
      obtain rfl := h.numbered.eq_of_index_eq hf he (hfi.symm.trans hi)
      rw [hloops, hlhs]
      exact (h.shaped he).closedIn_target_iff
    constructor
    · intro hwithin q hq hi
      exact (hsame q hq hi).mpr hwithin
    · intro hclosed
      obtain ⟨q, hq, hi⟩ := h.exists_placement he
      exact (hsame q hq hi).mp (hclosed q hq hi)
  looped e he d hd := (h.shaped he).narrow d (Equation.mem_dims_iff.mpr hd)
  gated e he d hd c hc := ((h.shaped he).gated c).mpr ⟨d, Equation.mem_dims_iff.mpr hd, hc⟩
  unbound hall bindings name hrun := by
    obtain ⟨x, hx, hlacks⟩ := Node.runAll_eq_unbound hrun
    have hclosed := h.laid.closed (fun _ hl => hl.bounds) (fun c hc => h.closedAlong hall hc) x hx
    exact ⟨x, hx, hclosed.exists_symbol hlacks⟩

end Plan.Sound

/-- A schedule is closed, but for left-hand sides whose displacements mention a dimension that the
equation does not run along. -/
theorem closed_of_schedule {program : Program} {options : Options} {tree : ScheduleTree}
    {es : List Lowered} (hschedule : (program.schedule options).result = .ok tree)
    (hlower : program.lower.result = .ok es) : tree.Closed program.dims es := by
  obtain ⟨p, hp, _, rfl, rfl⟩ := Program.exists_plan_of_schedule hschedule hlower
  rw [← hp.dims]
  exact hp.closed

/-- One equation that writes `u` along `x`, displaced by `y`. -/
def displacedBy (rhs : Expr) : Program where
  dims := (do
    let (t, _) ← DimTable.empty.space "x" none
    let (t, _) ← t.space "y" (some 2)
    return t : Except ModelError DimTable).toOption.getD .empty
  scalars := []
  equations := [⟨⟨"u", [.symbolic ⟨0⟩ (.dim ⟨1⟩)]⟩, rhs, [], []⟩]

/-- The equation runs along `y` as it reads `f` there. -/
def skewed : Program := displacedBy (.access "f" [.fixed ⟨1⟩ 0])

/-- Nothing but the displacement mentions `y`. -/
def diagonal : Program := displacedBy (.int 1)

theorem closed_of_schedule_skewed :
    ∃ tree es, (skewed.schedule default).result = .ok tree ∧ skewed.lower.result = .ok es ∧
      (∀ e ∈ es, e.DisplacesWithin skewed.dims) ∧
      tree.events skewed.dims [] = .error (.unbound "x_M") ∧ tree.Closed skewed.dims es := by
  have facts : ∃ tree es, (skewed.schedule default).result = .ok tree ∧
      skewed.lower.result = .ok es ∧ (∀ e ∈ es, e.DisplacesWithin skewed.dims) ∧
      tree.events skewed.dims [] = .error (.unbound "x_M") :=
    ⟨_, _, rfl, rfl, by decide +kernel, by decide +kernel⟩
  obtain ⟨tree, es, ht, hl, hwithin, hrun⟩ := facts
  exact ⟨tree, es, ht, hl, hwithin, hrun, closed_of_schedule ht hl⟩

/-- A left-hand side mentions a variable of no loop, and a run asks for it. -/
theorem not_closed_diagonal :
    ∃ tree, (diagonal.schedule default).result = .ok tree ∧
      (∃ q ∈ tree.placements, ¬q.statement.lhs.ClosedIn (q.loops.map Loop.dim)) ∧
      tree.events diagonal.dims [("x_M", 1)] = .error (.unbound (diagonal.dims.name ⟨1⟩)) := by
  have facts : ∃ tree q, (diagonal.schedule default).result = .ok tree ∧ tree.placements = [q] ∧
      q.statement.lhs = .element "u" [.binary .add (.dim ⟨0⟩) (.dim ⟨1⟩)] ∧
      q.loops.map Loop.dim = [⟨0⟩] ∧
      tree.events diagonal.dims [("x_M", 1)] = .error (.unbound (diagonal.dims.name ⟨1⟩)) :=
    ⟨_, _, rfl, rfl, rfl, rfl, by decide +kernel⟩
  obtain ⟨tree, q, ht, hq, hlhs, hloops, hrun⟩ := facts
  refine ⟨tree, ht, ⟨q, hq ▸ List.mem_singleton.mpr rfl, fun hclosed => ?_⟩, hrun⟩
  rw [hlhs, hloops, Expr.closedIn_iff_atoms] at hclosed
  exact absurd (hclosed ⟨1⟩ (by simp)) (by decide)

end LoopNest
