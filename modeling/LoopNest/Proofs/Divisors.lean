import LoopNest.Proofs.Closed
import LoopNest.Proofs.Extents
import LoopNest.Proofs.Fusion
import LoopNest.Proofs.IndexValues
import LoopNest.Proofs.Rearranging
/-!
# Where divisions come from

Scheduling writes divisions of its own: the point of a buffer is taken by its number of slots, and
the points of a stride are counted and recognised by the stride's factor (`DimTable.Introduces`).  All
others were in the program before, in a left-hand side or in a predicate, and stand in the tree with
their dimensions resolved (`Program.Writes`).  Nothing else divides: the nest adds no other division
(`Nest.eachDivision_expr`), folding makes none (`Expr.eachDivision_fold`), and a tree evaluates
bounds, guards and left-hand sides only (`Plan.evaluatesOnly_tree`).

The divisors that scheduling introduces are positive.  A buffer has slots; a factor reaches the run by
name, as a parameter whose default is the stride's own or that of the options, and both were checked.
No other parameter has that name, so the default stands unless it is bound.  A run that divides by
zero therefore does so at a division of the program (`dividesSafely_of_schedule`).
-/

namespace LoopNest

/-! ## Divisions in an expression -/

namespace Expr

/-- Each division in the expression is as stated. -/
def EachDivision (P : BinOp → Expr → Expr → Prop) (e : Expr) : Prop :=
  ∀ op a b, op.divides = true → Occurs (.binary op a b) e → P op a b

variable {P : BinOp → Expr → Expr → Prop} {op : BinOp} {a b : Expr}

theorem EachDivision.of_parts {e : Expr} (hown : ∀ op a b, e ≠ .binary op a b)
    (hparts : ∀ part ∈ e.parts, part.EachDivision P) : e.EachDivision P := by
  rintro op a b hop (_ | ⟨hp, hocc⟩)
  · exact absurd rfl (hown op a b)
  · exact hparts _ hp op a b hop hocc

theorem EachDivision.of_parts_eq_nil {e : Expr} (h : e.parts = []) : e.EachDivision P := by
  refine .of_parts (fun op a b he => ?_) fun part hp => ?_
  · rw [he] at h
    cases h
  · rw [h] at hp
    cases hp

theorem EachDivision.of_mem_parts {e part : Expr} (h : e.EachDivision P) (hp : part ∈ e.parts) :
    part.EachDivision P :=
  fun op a b hop hocc => h op a b hop (.inside hp hocc)

theorem eachDivision_int (k : Int) : (int k).EachDivision P :=
  .of_parts_eq_nil rfl

theorem eachDivision_symbol (name : String) : (symbol name).EachDivision P :=
  .of_parts_eq_nil rfl

theorem eachDivision_dim (d : DimId) : (dim d).EachDivision P :=
  .of_parts_eq_nil rfl

theorem eachDivision_binary (hop : op.divides = true → P op a b) (ha : a.EachDivision P)
    (hb : b.EachDivision P) : (binary op a b).EachDivision P := by
  have hparts : ∀ part ∈ [a, b], part.EachDivision P :=
    List.forall_mem_cons.mpr ⟨ha, List.forall_mem_singleton.mpr hb⟩
  rintro op' a' b' hdivides (_ | ⟨hp, hocc⟩)
  · exact hop hdivides
  · exact hparts _ hp op' a' b' hdivides hocc

/-- Folding makes no division but the one it is asked for. -/
theorem eachDivision_fold (hop : op.divides = true → P op a b) (ha : a.EachDivision P)
    (hb : b.EachDivision P) : (fold op a b).EachDivision P := by
  rcases fold_cases op a b with ⟨k, h⟩ | h | h | h | ⟨op', n, hflip, h⟩ <;> rw [h]
  · exact eachDivision_int k
  · exact ha
  · exact hb
  · exact eachDivision_binary hop ha hb
  · refine eachDivision_binary (fun hdivides => ?_) ha (eachDivision_int n)
    -- A sign is changed under sums and differences only.
    cases op <;> cases hflip <;> cases hdivides

theorem eachDivision_add (ha : a.EachDivision P) (hb : b.EachDivision P) :
    (a + b).EachDivision P :=
  eachDivision_fold (fun h => by cases h) ha hb

theorem eachDivision_negated (ha : a.EachDivision P) : a.negated.EachDivision P := by
  have hneg : (neg a).EachDivision P :=
    .of_parts (fun _ _ _ => Expr.noConfusion) (List.forall_mem_singleton.mpr ha)
  unfold negated
  split
  · split
    · exact hneg
    · exact eachDivision_int _
  · exact hneg

theorem eachDivision_all {es : List Expr} (h : ∀ e ∈ es, e.EachDivision P) :
    (all es).EachDivision P := by
  intro op a b hop hocc
  rcases occurs_all hocc with ⟨_, hand⟩ | ⟨e, he, hocc⟩
  · cases hand
  · exact h e he op a b hop hocc

end Expr

/-! ## Divisions that scheduling introduces -/

/-- A division that scheduling writes itself, by its operator and its divisor. -/
inductive DimTable.Introduces (t : DimTable) : BinOp → Expr → Prop where
  /-- A point of a buffer. -/
  | slot {d parent : DimId} {slots : Nat} (h : (t.get d).kind = .stepping parent slots) :
      Introduces t .mod (.int slots)
  /-- The number of a point that a stride admits. -/
  | number {d : DimId} (h : (t.get d).strides = true) :
      Introduces t .floorDiv (.symbol (t.get d).factorName)
  /-- Whether a stride admits a point. -/
  | onStride {d : DimId} (h : (t.get d).strides = true) :
      Introduces t .mod (.symbol (t.get d).factorName)

namespace Nest

variable {n : Nest} {P : BinOp → Expr → Expr → Prop}

theorem eachDivision_valueAlong (hP : ∀ op a b, n.dims.Introduces op b → P op a b) :
    ∀ chain : List DimId, (n.valueAlong chain).EachDivision P
  | [] => Expr.eachDivision_int 0
  | d :: above => by
      have habove := eachDivision_valueAlong hP above
      rw [valueAlong]
      split
      · rename_i hk
        refine Expr.eachDivision_fold (fun _ => hP _ _ _ (.number ?_)) habove
          (Expr.eachDivision_symbol _)
        exact Dimension.strides_iff.mpr ⟨_, _, hk⟩
      · exact habove
      · exact habove
      · exact Expr.eachDivision_dim _

theorem eachDivision_displaced (hP : ∀ op a b, n.dims.Introduces op b → P op a b) (d : DimId)
    {shift : Expr} (hshift : shift.EachDivision P) : (n.displaced d shift).EachDivision P := by
  have hvalue : ∀ c, (n.value c).EachDivision P := fun c => eachDivision_valueAlong hP _
  unfold displaced
  split
  · rename_i hk
    exact Expr.eachDivision_fold (fun _ => hP _ _ _ (.slot hk))
      (Expr.eachDivision_add (hvalue _) hshift) (Expr.eachDivision_int _)
  · exact Expr.eachDivision_add (hvalue d) hshift

/-- A division inside a nest was in the expression before, or scheduling introduces it. -/
theorem eachDivision_expr (hP : ∀ op a b, n.dims.Introduces op b → P op a b) (e : Expr)
    (he : e.EachDivision fun op a b => P op (n.expr a) (n.expr b)) :
    (n.expr e).EachDivision P := by
  have hparts : ∀ part ∈ e.parts, (n.expr part).EachDivision P := fun part hp =>
    eachDivision_expr hP part (he.of_mem_parts hp)
  have hpair : ∀ {a b : Expr}, e.parts = [a, b] →
      (n.expr a).EachDivision P ∧ (n.expr b).EachDivision P := fun h =>
    ⟨hparts _ (h ▸ List.mem_cons_self), hparts _ (h ▸ List.mem_cons_of_mem _ List.mem_cons_self)⟩
  cases e with
  | int k => exact Expr.eachDivision_int k
  | float x => exact .of_parts_eq_nil rfl
  | symbol name => exact Expr.eachDivision_symbol name
  | dim d => exact eachDivision_displaced hP d (Expr.eachDivision_int 0)
  | access tensor is =>
      rw [expr, indices_eq_map]
      refine .of_parts (fun _ _ _ => Expr.noConfusion) fun part hp => ?_
      obtain ⟨i, hi, rfl⟩ := List.mem_map.mp hp
      cases i with
      | fixed d k => exact eachDivision_displaced hP d (Expr.eachDivision_int k)
      | symbolic d shift =>
          exact eachDivision_displaced hP d (hparts shift (List.mem_filterMap.mpr ⟨_, hi, rfl⟩))
  | element tensor es | call f es =>
      rw [expr, exprs_eq_map]
      exact .of_parts (fun _ _ _ => Expr.noConfusion) (List.forall_mem_map.mpr hparts)
  | and es =>
      rw [expr, exprs_eq_map]
      exact Expr.eachDivision_all (List.forall_mem_map.mpr hparts)
  | neg a => exact Expr.eachDivision_negated (hparts a List.mem_cons_self)
  | binary op a b =>
      obtain ⟨ha, hb⟩ := hpair rfl
      exact Expr.eachDivision_fold (fun hop => he op a b hop .here) ha hb
  | compare op a b =>
      obtain ⟨ha, hb⟩ := hpair rfl
      refine .of_parts (fun _ _ _ => Expr.noConfusion) (List.forall_mem_cons.mpr ⟨ha, ?_⟩)
      exact List.forall_mem_singleton.mpr hb
termination_by sizeOf e
decreasing_by exact Expr.sizeOf_lt_of_mem_parts hp

end Nest

/-! ## Divisions of the program -/

/-- A division that stands in a left-hand side or in a predicate of the program, with its dimensions
replaced by the subdomain of the equation and resolved inside some loops. -/
inductive Program.Writes (program : Program) : BinOp → Expr → Expr → Prop where
  | target {eq : Equation} {op : BinOp} {a b : Expr} (heq : eq ∈ program.equations)
      (h : Expr.Occurs (.binary op a b) eq.lhs.toExpr) (loops : List DimId) :
      Writes program op
        (Nest.expr ⟨program.dims, loops⟩ (a.mapDims (Equation.replacement eq.subdomain)))
        (Nest.expr ⟨program.dims, loops⟩ (b.mapDims (Equation.replacement eq.subdomain)))
  | predicate {d : DimId} {e : Expr} {op : BinOp} {a b : Expr}
      (he : (program.dims.get d).predicate? = some e) (h : Expr.Occurs (.binary op a b) e)
      (loops : List DimId) :
      Writes program op (Nest.expr ⟨program.dims, loops⟩ a) (Nest.expr ⟨program.dims, loops⟩ b)

/-- The division is the program's, or scheduling introduces it. -/
def Program.Accounts (program : Program) (op : BinOp) (a b : Expr) : Prop :=
  program.dims.Introduces op b ∨ program.Writes op a b

namespace Guard

variable {program : Program} {loops : List DimId}

theorem eachDivision_of_ofCondition {c : DimId} {g : Guard}
    (h : ofCondition program ⟨program.dims, loops⟩ c = .ok g) :
    g.predicate.EachDivision program.Accounts := by
  obtain ⟨-, ⟨parent, factor, hk, hg⟩ | ⟨parent, e, hk, hg⟩ | ⟨-, hg⟩⟩ := ofCondition_eq_ok h
  · rw [hg, onStride]
    have hpoint := Nest.eachDivision_displaced (n := ⟨program.dims, loops⟩)
      (P := program.Accounts) (fun _ _ _ => Or.inl) parent (Expr.eachDivision_int 0)
    refine .of_parts (fun _ _ _ => Expr.noConfusion) (List.forall_mem_cons.mpr ⟨?_, ?_⟩)
    · refine Expr.eachDivision_fold (fun _ => Or.inl (.onStride ?_)) hpoint
        (Expr.eachDivision_symbol _)
      exact Dimension.strides_iff.mpr ⟨parent, factor, hk⟩
    · exact List.forall_mem_singleton.mpr (Expr.eachDivision_int 0)
  · rw [hg]
    refine Nest.eachDivision_expr (fun _ _ _ => Or.inl) e fun op a b _ hocc => Or.inr ?_
    refine .predicate (d := c) (e := e) ?_ hocc loops
    rw [Dimension.predicate?, hk]
  · rw [hg]
    exact .of_parts_eq_nil rfl

theorem eachDivision_of_ofCluster {c : Cluster} {gs : List Guard}
    (h : ofCluster program c = .ok gs) {g : Guard} (hg : g ∈ gs) :
    g.predicate.EachDivision program.Accounts := by
  obtain ⟨own, hown, h⟩ := bind_eq_ok.mp h
  cases h
  obtain ⟨a, -, rfl⟩ := mem_combine.mp hg
  refine Expr.eachDivision_all (List.forall_mem_map.mpr fun b hb => ?_)
  obtain ⟨d, -, hd⟩ := exists_of_forall₂_right (mapM_eq_ok.mp hown) (List.mem_filter.mp hb).1
  exact eachDivision_of_ofCondition hd

end Guard

namespace Plan

variable {p : Plan} {program : Program}

theorem Sound.eachDivision_target (h : p.Sound program) {c : Nat} (hc : c ∈ p.clusterIds)
    {target : Expr} (ht : target ∈ p.targets c) : target.EachDivision program.Accounts := by
  obtain ⟨i, hi, rfl⟩ := List.mem_map.mp ht
  obtain ⟨e, he, rfl, -⟩ := (h.cluster_sound hc).uniform i hi
  obtain ⟨eq, hget, hof⟩ := Program.exists_ofEquation h.lowered he
  obtain ⟨-, hrestricted, -⟩ := Lowered.ofEquation_eq_ok hof
  rw [h.statementOf_eq hc he hi, h.dims, hrestricted, Equation.restricted_eq]
  refine Nest.eachDivision_expr (n := ⟨program.dims, e.loops⟩) (fun _ _ _ => Or.inl)
    (eq.lhs.toExpr.mapDims (Equation.replacement eq.subdomain)) fun op a b _ hocc => Or.inr ?_
  obtain ⟨f, hf, hmap⟩ := Expr.exists_of_occurs_mapDims _ _ hocc
  cases f <;> cases hmap
  exact .target (List.mem_of_getElem? hget) hf e.loops

end Plan

/-! ## What a tree evaluates -/

namespace Node

variable {P : Expr → Prop}

/-- What a run of the nodes evaluates has the property. -/
def EvaluatesOnly (P : Expr → Prop) (ns : List Node) : Prop := ∀ x ∈ evaluatedOf ns, P x.expr

theorem evaluatesOnly_nil : EvaluatesOnly P [] := fun _ hx => by cases hx

theorem evaluatesOnly_append {ns ms : List Node} :
    EvaluatesOnly P (ns ++ ms) ↔ EvaluatesOnly P ns ∧ EvaluatesOnly P ms := by
  rw [EvaluatesOnly, evaluatedOf_append, List.forall_mem_append]
  rfl

theorem evaluatesOnly_cons {n : Node} {ns : List Node} :
    EvaluatesOnly P (n :: ns) ↔ EvaluatesOnly P [n] ∧ EvaluatesOnly P ns := by
  rw [← List.singleton_append, evaluatesOnly_append]

theorem evaluatesOnly_loop {l : Loop} {body : List Node} :
    EvaluatesOnly P [.loop l body] ↔
      P l.bounds.min ∧ P l.bounds.max ∧ EvaluatesOnly P body := by
  simp only [EvaluatesOnly, evaluatedOf, evaluated, List.append_nil, List.forall_mem_cons,
    List.forall_mem_map, Evaluated.inLoop]

theorem evaluatesOnly_guard {e : Expr} {ds : List DimId} {body : List Node} :
    EvaluatesOnly P [.guard e ds body] ↔ P e ∧ EvaluatesOnly P body := by
  simp only [EvaluatesOnly, evaluatedOf, evaluated, List.append_nil, List.forall_mem_cons]

end Node

namespace Plan

variable {p : Plan} {P : Expr → Prop}

/-- A step leads into nodes that evaluate nothing else, if it does from there on. -/
def Entry.EvaluatesOnly (P : Expr → Prop) : Entry → Prop
  | .join body around => Node.EvaluatesOnly P body ∧
      ∀ inner, Node.EvaluatesOnly P inner → Node.EvaluatesOnly P [around inner]
  | .new around _ => ∀ inner, Node.EvaluatesOnly P inner → Node.EvaluatesOnly P [around inner]

variable (bounds : ∀ d, P (p.dims.interval d).min ∧ P (p.dims.interval d).max)

include bounds

theorem evaluatesOnly_enter {c : Nat} {last : Option Node}
    (hlast : ∀ n ∈ last, Node.EvaluatesOnly P [n]) {step : Step}
    (hstep : ∀ g, step = .guard g → P g.predicate) :
    Entry.EvaluatesOnly P (p.enter c last step) := by
  cases step with
  | loop dim =>
      rw [enter]
      rcases enterLoop_cases p c dim last with ⟨l, body, demand, rfl, -, -, -, h⟩ | ⟨⟨notes, h⟩, -⟩
      · obtain ⟨hmin, hmax, hbody⟩ := Node.evaluatesOnly_loop.mp (hlast _ rfl)
        rw [h]
        exact ⟨hbody, fun inner hinner => Node.evaluatesOnly_loop.mpr ⟨hmin, hmax, hinner⟩⟩
      · obtain ⟨hmin, hmax⟩ := bounds dim
        rw [h]
        exact fun inner hinner => Node.evaluatesOnly_loop.mpr ⟨hmin, hmax, hinner⟩
  | guard g =>
      rw [enter]
      rcases enterGuard_cases p g last with ⟨e, ds, body, rfl, -, -, h⟩ | ⟨h, -⟩
      · obtain ⟨he, hbody⟩ := Node.evaluatesOnly_guard.mp (hlast _ rfl)
        rw [h]
        exact ⟨hbody, fun inner hinner => Node.evaluatesOnly_guard.mpr ⟨he, hinner⟩⟩
      · rw [h]
        exact fun inner hinner => Node.evaluatesOnly_guard.mpr ⟨hstep g rfl, hinner⟩

theorem evaluatesOnly_insert {c : Nat} (targets : ∀ e ∈ p.targets c, P e) :
    ∀ {steps : List Step} {nodes : List Node}, (∀ g, .guard g ∈ steps → P g.predicate) →
      Node.EvaluatesOnly P nodes → Node.EvaluatesOnly P (p.insert c steps nodes).1
  | [], nodes, _, hnodes => by
      refine Node.evaluatesOnly_append.mpr ⟨hnodes, fun x hx => ?_⟩
      rw [evaluatedOf_statements] at hx
      obtain ⟨e, he, rfl⟩ := List.mem_map.mp hx
      exact targets e he
  | step :: rest, nodes, hsteps, hnodes => by
      have hrest : ∀ g, .guard g ∈ rest → P g.predicate := fun g hg =>
        hsteps g (List.mem_cons_of_mem _ hg)
      have hlast : ∀ n ∈ nodes.getLast?, Node.EvaluatesOnly P [n] := by
        intro n hn
        obtain ⟨before, rfl⟩ := List.getLast?_eq_some_iff.mp hn
        exact (Node.evaluatesOnly_append.mp hnodes).2
      have henter : Entry.EvaluatesOnly P (p.enter c nodes.getLast? step) :=
        evaluatesOnly_enter bounds hlast fun g hg => hsteps g (hg ▸ List.mem_cons_self)
      rw [insert]
      cases hent : p.enter c nodes.getLast? step with
      | join body around =>
          rw [hent] at henter
          obtain ⟨hbody, haround⟩ := henter
          have hbefore : Node.EvaluatesOnly P nodes.dropLast := by
            rcases List.eq_nil_or_concat' nodes with rfl | ⟨before, n, rfl⟩
            · exact Node.evaluatesOnly_nil
            · rw [List.dropLast_concat]
              exact (Node.evaluatesOnly_append.mp hnodes).1
          exact Node.evaluatesOnly_append.mpr
            ⟨hbefore, haround _ (evaluatesOnly_insert targets hrest hbody)⟩
      | new around notes =>
          rw [hent] at henter
          exact Node.evaluatesOnly_append.mpr
            ⟨hnodes, henter _ (evaluatesOnly_insert targets hrest Node.evaluatesOnly_nil)⟩

omit bounds

mutual

theorem evaluatesOnly_settle : ∀ n : Node, Node.EvaluatesOnly P [n] →
    Node.EvaluatesOnly P [p.settle n]
  | .loop l body, h => by
      obtain ⟨hmin, hmax, hbody⟩ := Node.evaluatesOnly_loop.mp h
      exact Node.evaluatesOnly_loop.mpr ⟨hmin, hmax, evaluatesOnly_settleAll body hbody⟩
  | .guard e ds body, h => by
      obtain ⟨he, hbody⟩ := Node.evaluatesOnly_guard.mp h
      exact Node.evaluatesOnly_guard.mpr ⟨he, evaluatesOnly_settleAll body hbody⟩
  | .statement _, h => h

theorem evaluatesOnly_settleAll : ∀ ns : List Node, Node.EvaluatesOnly P ns →
    Node.EvaluatesOnly P (p.settleAll ns)
  | [], h => h
  | n :: ns, h => by
      obtain ⟨hn, hns⟩ := Node.evaluatesOnly_cons.mp h
      exact Node.evaluatesOnly_cons.mpr
        ⟨evaluatesOnly_settle n hn, evaluatesOnly_settleAll ns hns⟩

end

/-- A tree evaluates bounds of dimensions, guards of clusters and left-hand sides. -/
theorem evaluatesOnly_tree {program : Program} (h : p.Sound program)
    (bounds : ∀ d, P (p.dims.interval d).min ∧ P (p.dims.interval d).max)
    (guards : ∀ c ∈ p.clusterIds, ∀ g ∈ p.guardsOf c, P g.predicate)
    (targets : ∀ c ∈ p.clusterIds, ∀ e ∈ p.targets c, P e) :
    Node.EvaluatesOnly P p.tree.roots := by
  refine evaluatesOnly_settleAll _ ?_
  refine List.foldlRecOn (motive := fun (state : List Node × List Note) =>
    Node.EvaluatesOnly P state.1) p.clusterIds _ Node.evaluatesOnly_nil fun state hstate c hc => ?_
  refine evaluatesOnly_insert bounds (targets c hc) (fun g hg => ?_) hstate
  exact guards c hc g ((h.mem_steps hc).mp hg)

end Plan

/-! ## Divisors that scheduling introduces -/

namespace DimTable

variable {t : DimTable} {d : DimId}

theorem contains_of_strides (h : (t.get d).strides = true) : t.contains d = true := by
  by_contra hd
  rw [get_eq_default hd] at h
  cases h

theorem exists_factor {options : Options} (hoptions : 0 < options.defaultFactor)
    (h : (t.get d).strides = true) : ∃ q ∈ t.parameters d, q.name = (t.get d).factorName ∧
      ∃ v, 0 < v ∧ (Plan.withStride options q).default? = some v := by
  obtain ⟨parent, factor, hk⟩ := Dimension.strides_iff.mp h
  refine ⟨⟨(t.get d).factorName, .factor, d, factor⟩, ?_, rfl, ?_⟩
  · simp only [parameters, hk, List.mem_singleton]
  · have hfits := hk ▸ t.fits_kind d
    cases factor with
    | none => exact ⟨options.defaultFactor, hoptions, rfl⟩
    | some f => exact ⟨f, hfits, rfl⟩

theorem find?_factorName {options : Options} (hoptions : 0 < options.defaultFactor)
    {bindings : Bindings} (h : (t.get d).strides = true)
    (hnone : bindings.find? (t.get d).factorName = none) :
    ∃ v, 0 < v ∧ Bindings.find? (defaultBindings (Plan.parameters t options) ++ bindings)
      (t.get d).factorName = some v := by
  obtain ⟨q, hq, hname, v, hpos, hv⟩ := exists_factor hoptions h
  refine ⟨v, hpos, ?_⟩
  rw [Bindings.find?_append, hnone, Option.none_or, ← hname,
    find?_defaultBindings options (contains_of_strides h) hq, hv]

/-- Divisors that scheduling introduces are positive, at every point. -/
theorem Introduces.pos {options : Options} (hoptions : 0 < options.defaultFactor)
    {bindings : Bindings}
    (hnone : ∀ d, (t.get d).strides = true → bindings.find? (t.get d).factorName = none)
    {op : BinOp} {b : Expr} (h : t.Introduces op b) (pt : Point) : ∃ v, 0 < v ∧
      Scope.int ⟨t, defaultBindings (Plan.parameters t options) ++ bindings, pt⟩ b = .ok v := by
  cases h with
  | @slot d parent slots hk =>
      have hslots : 0 < slots := modulo_pos (by rw [Dimension.modulo?, hk])
      exact ⟨slots, by omega, rfl⟩
  | @number d hstrides | @onStride d hstrides =>
      obtain ⟨v, hpos, hv⟩ := find?_factorName hoptions hstrides (hnone d hstrides)
      exact ⟨v, hpos, Scope.known_eq_ok.mpr hv⟩

end DimTable

/-! ## Runs that divide by zero -/

theorem Scope.Fails.divisor {s : Scope} {e : Expr} (h : s.Fails e .divisionByZero) :
    ∃ op a b, op.divides = true ∧ Expr.Occurs (.binary op a b) e ∧ s.int b = .ok 0 := by
  obtain ⟨f, hf, h⟩ := h
  cases h with
  | @binary op a b x y _ _ hb h =>
      rcases BinOp.apply_eq_error h with h | ⟨-, hop, rfl⟩
      · cases h
      · exact ⟨op, a, b, hop, hf, hb⟩

/-- A run divides by zero only where the program does. -/
structure ScheduleTree.DividesSafely (program : Program) (bindings : Bindings)
    (tree : ScheduleTree) : Prop where
  /-- Each division that a run may come to is the program's, or scheduling introduces it. -/
  accounted : ∀ x ∈ Node.evaluatedOf tree.roots, x.expr.EachDivision program.Accounts
  positive : ∀ op b, program.dims.Introduces op b → ∀ pt, ∃ v, 0 < v ∧
    Scope.int ⟨program.dims, defaultBindings tree.parameters ++ bindings, pt⟩ b = .ok v
  failure : tree.events program.dims bindings = .error .divisionByZero →
    ∃ x ∈ Node.evaluatedOf tree.roots, ∃ op a b, op.divides = true ∧
      Expr.Occurs (.binary op a b) x.expr ∧ program.Writes op a b ∧
      ∃ pt : Point, pt.map Prod.fst = x.loops ∧
        Scope.int ⟨program.dims, defaultBindings tree.parameters ++ bindings, pt⟩ b = .ok 0

theorem DimTable.eachDivision_interval (t : DimTable) (d : DimId)
    (P : BinOp → Expr → Expr → Prop) :
    (t.interval d).min.EachDivision P ∧ (t.interval d).max.EachDivision P :=
  intervalAlong_induction (P := Expr.EachDivision P) Expr.eachDivision_int Expr.eachDivision_symbol
    Expr.eachDivision_add (Expr.eachDivision_fold fun h => by cases h) (t.lineage d)

/-- Where no stride's factor is bound, a run divides by zero only at a division of the program. -/
theorem dividesSafely_of_schedule {program : Program} {options : Options} {tree : ScheduleTree}
    (hschedule : (program.schedule options).result = .ok tree) {bindings : Bindings}
    (hnone : ∀ d, (program.dims.get d).strides = true →
      bindings.find? (program.dims.get d).factorName = none) :
    tree.DividesSafely program bindings := by
  obtain ⟨hcheck, -⟩ := Program.exists_schedule_iff.mp ⟨tree, hschedule⟩
  have hoptions : 0 < options.defaultFactor := by
    by_contra h
    rw [Options.check, if_neg h] at hcheck
    cases hcheck
  obtain ⟨p, hp, -, rfl⟩ := Program.sound_of_schedule hschedule
  have haccounted : ∀ x ∈ Node.evaluatedOf p.tree.roots,
      x.expr.EachDivision program.Accounts := by
    refine Plan.evaluatesOnly_tree hp (fun d => p.dims.eachDivision_interval d _) ?_ ?_
    · intro c hc g hg
      exact Guard.eachDivision_of_ofCluster (hp.ofCluster_guardsOf hc) hg
    · intro c hc e he
      exact hp.eachDivision_target hc he
  have hpositive := fun op b (h : program.dims.Introduces op b) =>
    DimTable.Introduces.pos hoptions hnone h
  rw [← parameters_of_schedule hschedule] at hpositive
  refine ⟨haccounted, hpositive, fun hrun => ?_⟩
  obtain ⟨x, hx, pt, hloops, hfails⟩ := Node.runAll_eq_error _ _ hrun
  obtain ⟨op, a, b, hop, hocc, hzero⟩ := hfails.divisor
  refine ⟨x, hx, op, a, b, hop, hocc, ?_, pt, hloops, hzero⟩
  -- A divisor that scheduling introduces would be positive there.
  refine (haccounted x hx op a b hop hocc).resolve_left fun hintroduces => ?_
  obtain ⟨v, hpos, hv⟩ := hpositive op b hintroduces pt
  have hvzero : v = 0 := Except.ok.inj (hv.symm.trans hzero)
  omega

/-- Points of time that the default stride admits, with their slots in a buffer and their numbers
from a share of six on. -/
def shared : Program where
  dims := (do
    let (t, time) ← DimTable.empty.time "time" (some 5)
    let (t, _) ← t.stepping "t" time 2
    let (t, _) ← t.conditional "c" time none none
    return t : Except ModelError DimTable).toOption.getD .empty
  scalars := ["n"]
  equations := [⟨⟨"u", [.fixed ⟨1⟩ 0, .symbolic ⟨2⟩ (.binary .floorDiv (.int 6) (.symbol "n"))]⟩,
    .int 1, [], []⟩]

/-- Six is shared by none: the only division that fails is that of the program. -/
theorem dividesSafely_of_schedule_shared :
    ∃ tree, (shared.schedule ⟨4, true, true⟩).result = .ok tree ∧
      (∀ d, (shared.dims.get d).strides = true →
        Bindings.find? [("n", 0)] (shared.dims.get d).factorName = none) ∧
      tree.events shared.dims [("n", 0)] = .error .divisionByZero ∧
      tree.events shared.dims [("n", 3)] = .ok
        [⟨0, [("time", 0)], "u", [0, 2]⟩, ⟨0, [("time", 4)], "u", [0, 3]⟩] ∧
      tree.DividesSafely shared [("n", 0)] := by
  have facts : ∃ tree, (shared.schedule ⟨4, true, true⟩).result = .ok tree ∧
      tree.events shared.dims [("n", 0)] = .error .divisionByZero ∧
      tree.events shared.dims [("n", 3)] = .ok
        [⟨0, [("time", 0)], "u", [0, 2]⟩, ⟨0, [("time", 4)], "u", [0, 3]⟩] :=
    ⟨_, rfl, by decide +kernel, by decide +kernel⟩
  have hnone : ∀ d, (shared.dims.get d).strides = true →
      Bindings.find? [("n", 0)] (shared.dims.get d).factorName = none := by
    intro d _
    have hname : (shared.dims.get d).factorName ≠ "n" := by
      intro h
      have hlength := congrArg String.length h
      rw [Dimension.factorName, String.length_append] at hlength
      have : "_factor".length = 7 := rfl
      have : "n".length = 1 := rfl
      omega
    simp [Bindings.find?, hname.symm]
  obtain ⟨tree, htree, hzero, hthree⟩ := facts
  exact ⟨tree, htree, hnone, hzero, hthree, dividesSafely_of_schedule htree hnone⟩

end LoopNest
