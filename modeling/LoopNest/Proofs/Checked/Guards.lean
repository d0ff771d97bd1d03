import LoopNest.Proofs.Checked.Clusters
import LoopNest.Proofs.Checked.Text
import LoopNest.Proofs.Guards
/-!
# Nests and guards with checked lookups

Inside a nest the value of a dimension is found by way of its chain and of the loop over its root.
From issued dimensions and issued loops nothing is missed on that way (`expr_eq`), and what comes
out is again over issued dimensions (`Nest.expr_issuedBy`), so that it can be written and evaluated
later.  The guards of a cluster need no more than that (`ofCluster_eq`), since the table has issued
what predicates mention.
-/

namespace LoopNest

/-- The loops of the nest are over dimensions that the table has issued. -/
def Nest.IssuedLoops (n : Nest) : Prop := ∀ l ∈ n.loops, n.dims.contains l = true

namespace Checked

variable {n : Nest} {d : DimId}

/-! ## Values -/

/-- The loop over the root of `d`, if there is one. -/
def loopFor? (n : Nest) (d : DimId) : Except Missing (Option DimId) := do
  loopOver? n.dims n.loops (← root n.dims d)

theorem loopFor?_eq (hn : n.IssuedLoops) (hd : n.dims.contains d = true) :
    loopFor? n d = .ok (n.loopFor? d) := by
  rw [loopFor?, root_eq hd, ok_bind]
  exact loopOver?_eq hn _

/-- How many loops are around the body of the loop over the root of `d`, if there is one. -/
def depthOf? (n : Nest) (d : DimId) : Except Missing (Option Nat) := do
  let r ← root n.dims d
  let roots ← n.loops.mapM (root n.dims)
  return (roots.findIdx? (· == r)).map (· + 1)

theorem depthOf?_eq (hn : n.IssuedLoops) (hd : n.dims.contains d = true) :
    depthOf? n d = .ok (n.depthOf? d) := by
  rw [depthOf?, root_eq hd, ok_bind, mapM_eq_ok_map fun l hl => root_eq (hn l hl), ok_bind,
    List.findIdx?_map]
  rfl

/-- The value of the first dimension of a chain, before any wrapping. -/
def valueAlong (n : Nest) : List DimId → Except Missing Expr
  | [] => return default
  | d :: above => do
    let e ← entry n.dims d
    match e.kind with
    | .conditional _ (.stride _) =>
      return Expr.fold .floorDiv (← valueAlong n above) (.symbol e.factorName)
    | .conditional _ (.predicate _) | .stepping _ _ => valueAlong n above
    | _ => return .dim ((← loopFor? n d).getD d)

theorem valueAlong_eq (hn : n.IssuedLoops) : ∀ {ds : List DimId},
    (∀ d ∈ ds, n.dims.contains d = true) → valueAlong n ds = .ok (n.valueAlong ds)
  | [], _ => rfl
  | d :: above, h => by
      obtain ⟨hd, habove⟩ := List.forall_mem_cons.mp h
      have hrest := valueAlong_eq hn habove
      have hloop := loopFor?_eq hn hd
      rw [valueAlong, entry_eq hd, ok_bind, Nest.valueAlong]
      cases (n.dims.get d).kind with
      | conditional p c =>
          cases c with
          | stride f => simp only [hrest, ok_bind, pure_eq_ok]
          | predicate e => exact hrest
      | stepping p m => exact hrest
      | _ => simp only [hloop, ok_bind, pure_eq_ok]

/-- The value of a dimension, before any wrapping. -/
def value (n : Nest) (d : DimId) : Except Missing Expr := do valueAlong n (← chain n.dims d)

theorem value_eq (hn : n.IssuedLoops) (hd : n.dims.contains d = true) :
    value n d = .ok (n.value d) := by
  rw [value, chain_eq hd, ok_bind]
  exact valueAlong_eq hn fun a ha => DimTable.contains_of_mem_chain hd ha

/-- The value of an index: displaced, and wrapped if the dimension is a buffer's. -/
def displaced (n : Nest) (d : DimId) (shift : Expr) : Except Missing Expr := do
  match (← entry n.dims d).kind with
  | .stepping parent modulo => return Expr.fold .mod ((← value n parent) + shift) (.int modulo)
  | _ => return (← value n d) + shift

theorem displaced_eq (hn : n.IssuedLoops) (hd : n.dims.contains d = true) (shift : Expr) :
    displaced n d shift = .ok (n.displaced d shift) := by
  have hown := value_eq hn hd
  rw [displaced, entry_eq hd, ok_bind, Nest.displaced]
  cases hkind : (n.dims.get d).kind with
  | stepping p m =>
      have hp := value_eq hn (DimTable.contains_of_kind hd hkind rfl)
      simp only [hp, ok_bind, pure_eq_ok]
  | _ => simp only [hown, ok_bind, pure_eq_ok]

/-! ## Expressions -/

mutual

/-- The expression in terms of loop variables, folded. -/
def expr (n : Nest) : Expr → Except Missing Expr
  | .int v => return .int v
  | .float x => return .float x
  | .symbol s => return .symbol s
  | .dim d => displaced n d (.int 0)
  | .access tensor is => return .element tensor (← indices n is)
  | .element tensor es => return .element tensor (← exprs n es)
  | .neg e => return Expr.negated (← expr n e)
  | .binary op a b => return Expr.fold op (← expr n a) (← expr n b)
  | .compare op a b => return .compare op (← expr n a) (← expr n b)
  | .and es => return Expr.all (← exprs n es)
  | .call f es => return .call f (← exprs n es)

/-- The value of an index. -/
def index (n : Nest) : Index → Except Missing Expr
  | .fixed d k => displaced n d (.int k)
  | .symbolic d e => do displaced n d (← expr n e)

def exprs (n : Nest) : List Expr → Except Missing (List Expr)
  | [] => return []
  | e :: es => return (← expr n e) :: (← exprs n es)

def indices (n : Nest) : List Index → Except Missing (List Expr)
  | [] => return []
  | i :: is => return (← index n i) :: (← indices n is)

end

mutual

theorem expr_eq (hn : n.IssuedLoops) : ∀ {e : Expr}, e.IssuedBy n.dims →
    expr n e = .ok (n.expr e)
  | .int _, _ | .float _, _ | .symbol _, _ => rfl
  | .dim d, h => displaced_eq hn (Expr.issuedBy_dim.mp h) _
  | .access tensor is, h => by
      rw [expr, indices_eq hn (Expr.issuedBy_access.mp h)]
      rfl
  | .element tensor es, h => by
      rw [expr, exprs_eq hn (Expr.issuedBy_element.mp h)]
      rfl
  | .neg e, h => by
      rw [expr, expr_eq hn (Expr.issuedBy_neg.mp h)]
      rfl
  | .binary op a b, h => by
      obtain ⟨ha, hb⟩ := Expr.issuedBy_binary.mp h
      rw [expr, expr_eq hn ha, ok_bind, expr_eq hn hb]
      rfl
  | .compare op a b, h => by
      obtain ⟨ha, hb⟩ := Expr.issuedBy_compare.mp h
      rw [expr, expr_eq hn ha, ok_bind, expr_eq hn hb]
      rfl
  | .and es, h => by
      rw [expr, exprs_eq hn (Expr.issuedBy_and.mp h)]
      rfl
  | .call f es, h => by
      rw [expr, exprs_eq hn (Expr.issuedBy_call.mp h)]
      rfl

theorem index_eq (hn : n.IssuedLoops) : ∀ {i : Index}, i.IssuedBy n.dims →
    index n i = .ok (n.index i)
  | .fixed d k, h => displaced_eq hn h.1 _
  | .symbolic d e, h => by
      rw [index, expr_eq hn (h.2 e rfl), ok_bind]
      exact displaced_eq hn h.1 _

theorem exprs_eq (hn : n.IssuedLoops) : ∀ {es : List Expr}, (∀ e ∈ es, e.IssuedBy n.dims) →
    exprs n es = .ok (n.exprs es)
  | [], _ => rfl
  | e :: es, h => by
      obtain ⟨he, hes⟩ := List.forall_mem_cons.mp h
      rw [exprs, expr_eq hn he, ok_bind, exprs_eq hn hes]
      rfl

theorem indices_eq (hn : n.IssuedLoops) : ∀ {is : List Index}, (∀ i ∈ is, i.IssuedBy n.dims) →
    indices n is = .ok (n.indices is)
  | [], _ => rfl
  | i :: is, h => by
      obtain ⟨hi, his⟩ := List.forall_mem_cons.mp h
      rw [indices, index_eq hn hi, ok_bind, indices_eq hn his]
      rfl

end

/-- The element that an access denotes. -/
def access (n : Nest) (a : Access) : Except Missing Expr :=
  return .element a.tensor (← indices n a.indices)

theorem access_eq (hn : n.IssuedLoops) {a : Access} (h : a.toExpr.IssuedBy n.dims) :
    access n a = .ok (n.access a) := by
  rw [access, indices_eq hn (Expr.issuedBy_access.mp h)]
  rfl

end Checked

/-! ## Results over issued dimensions -/

namespace Nest

variable {n : Nest} {d : DimId}

theorem valueAlong_issuedBy (hn : n.IssuedLoops) : ∀ {ds : List DimId},
    (∀ d ∈ ds, n.dims.contains d = true) → (n.valueAlong ds).IssuedBy n.dims
  | [], _ => Expr.issuedBy_of_atoms_eq_nil rfl
  | d :: above, h => by
      obtain ⟨hd, habove⟩ := List.forall_mem_cons.mp h
      have hrest := valueAlong_issuedBy hn habove
      have hloop : n.dims.contains ((n.loopFor? d).getD d) = true := by
        cases hl : n.loopFor? d with
        | none => exact hd
        | some l => exact hn l (List.mem_of_find?_eq_some hl)
      rw [valueAlong]
      cases (n.dims.get d).kind with
      | conditional p c =>
          cases c with
          | stride f => exact Expr.issuedBy_fold.mpr ⟨hrest, Expr.issuedBy_symbol _⟩
          | predicate e => exact hrest
      | stepping p m => exact hrest
      | _ => exact Expr.issuedBy_dim.mpr hloop

theorem value_issuedBy (hn : n.IssuedLoops) (hd : n.dims.contains d = true) :
    (n.value d).IssuedBy n.dims :=
  valueAlong_issuedBy hn fun _ ha => DimTable.contains_of_mem_chain hd ha

theorem displaced_issuedBy (hn : n.IssuedLoops) (hd : n.dims.contains d = true) {shift : Expr}
    (hshift : shift.IssuedBy n.dims) : (n.displaced d shift).IssuedBy n.dims := by
  simp only [Expr.issuedBy_iff_atoms, mem_atoms_displaced, or_imp, forall_and] at hshift ⊢
  exact ⟨Expr.issuedBy_iff_atoms.mp (value_issuedBy hn hd), hshift⟩

theorem expr_issuedBy (hn : n.IssuedLoops) {e : Expr} (he : e.IssuedBy n.dims) :
    (n.expr e).IssuedBy n.dims := by
  rw [Expr.issuedBy_iff_atoms] at he ⊢
  intro x hx
  obtain ⟨y, hy, hx⟩ := (n.mem_atoms_expr e).mp hx
  cases y with
  | symbol _ | tensor _ => rw [List.mem_singleton.mp hx]; trivial
  | dim d | index d => exact Expr.issuedBy_iff_atoms.mp (value_issuedBy hn (he _ hy)) x hx

theorem access_issuedBy (hn : n.IssuedLoops) {a : Access} (ha : a.toExpr.IssuedBy n.dims) :
    (n.access a).IssuedBy n.dims :=
  expr_issuedBy hn ha

end Nest

namespace Guard

variable {p : Program}

theorem onStride_issuedBy {n : Nest} (hn : n.IssuedLoops) {parent : DimId}
    (h : n.dims.contains parent = true) (factor : String) :
    (onStride n parent factor).IssuedBy n.dims := by
  have hzero : (Expr.int 0).IssuedBy n.dims := Expr.issuedBy_of_atoms_eq_nil rfl
  refine Expr.issuedBy_compare.mpr ⟨Expr.issuedBy_fold.mpr ⟨?_, Expr.issuedBy_symbol _⟩, hzero⟩
  exact Nest.displaced_issuedBy hn h hzero

theorem issuedBy_of_ofCondition {loops : List DimId} {c : DimId} {g : Guard}
    (hloops : ∀ l ∈ loops, p.dims.contains l = true) (hc : p.dims.contains c = true)
    (h : ofCondition p ⟨p.dims, loops⟩ c = .ok g) : g.predicate.IssuedBy p.dims := by
  have hn : Nest.IssuedLoops ⟨p.dims, loops⟩ := hloops
  rcases (ofCondition_eq_ok h).2 with
    ⟨parent, factor, hkind, hg⟩ | ⟨parent, e, hkind, hg⟩ | ⟨-, hg⟩
  · rw [hg]
    exact onStride_issuedBy hn (DimTable.contains_of_kind hc hkind rfl) _
  · rw [hg]
    refine Nest.expr_issuedBy hn fun a ha => DimTable.contains_of_predicate (d := c) ?_ ha
    rw [Dimension.predicate?, hkind]
  · rw [hg]
    exact Expr.issuedBy_of_atoms_eq_nil rfl

theorem issuedBy_of_ofCluster {c : Cluster} {gs : List Guard}
    (hloops : ∀ l ∈ c.signature.loops, p.dims.contains l = true)
    (hconditions : ∀ d ∈ c.signature.conditions, p.dims.contains d = true)
    (h : ofCluster p c = .ok gs) : ∀ g ∈ gs, g.predicate.IssuedBy p.dims := by
  obtain ⟨own, hown, h⟩ := bind_eq_ok.mp h
  cases h
  intro g hg
  obtain ⟨a, -, rfl⟩ := mem_combine.mp hg
  refine Expr.issuedBy_all.mpr fun e he => ?_
  obtain ⟨b, hb, rfl⟩ := List.mem_map.mp he
  obtain ⟨d, hd, hof⟩ := exists_of_forall₂_right (mapM_eq_ok.mp hown) (List.mem_filter.mp hb).1
  exact issuedBy_of_ofCondition hloops (hconditions d hd) hof

end Guard

/-! ## Guards -/

namespace Checked

open Guard

variable {p : Program} {n : Nest}

/-- Names that have a value in every nest: declared scalars and parameters. -/
def knownSymbols (p : Program) : Except Missing (List String) := do
  let parameters ← flatMapM (parameters p.dims) p.dims.ids
  return p.scalars ++ parameters.map Parameter.name

theorem knownSymbols_eq (p : Program) : knownSymbols p = .ok (Guard.knownSymbols p) := by
  rw [knownSymbols,
    flatMapM_eq_ok fun d hd => parameters_eq (DimTable.mem_ids_iff.mp hd), ok_bind,
    Guard.knownSymbols, List.map_flatMap]
  rfl

/-- The first thing in a predicate that has no value in a nest. -/
def unresolved? (p : Program) (n : Nest) (predicate : Expr) : Except Missing (Option String) := do
  let known ← knownSymbols p
  match predicate.symbols.find? fun s => !known.contains s with
  | some s => return some s
  | none =>
    match (predicate.accesses.map Access.tensor).find? fun t => !p.tensors.contains t with
    | some t => return some t
    | none =>
      match ← predicate.dims.findM? fun d => return (← depthOf? n d).isNone with
      | some d => return some (← name p.dims d)
      | none => return none

theorem unresolved?_eq (hn : n.IssuedLoops) (hdims : n.dims = p.dims) {predicate : Expr}
    (h : predicate.IssuedBy p.dims) :
    unresolved? p n predicate = .ok (Guard.unresolved? p n predicate) := by
  have hd : ∀ d ∈ predicate.dims, p.dims.contains d = true := fun d hd =>
    h d (Expr.mem_dims_iff.mp hd)
  have hfind : (predicate.dims.findM? fun d => return (← depthOf? n d).isNone) =
      .ok (predicate.dims.find? fun d => (n.depthOf? d).isNone) :=
    findM?_eq_ok fun d hm => by rw [depthOf?_eq hn (hdims ▸ hd d hm)]; rfl
  rw [unresolved?, knownSymbols_eq, ok_bind, Guard.unresolved?]
  cases predicate.symbols.find? fun s => !(Guard.knownSymbols p).contains s with
  | some s => rfl
  | none =>
      cases (predicate.accesses.map Access.tensor).find? fun t => !p.tensors.contains t with
      | some t => rfl
      | none =>
          simp only [hfind, ok_bind]
          cases hnone : predicate.dims.find? fun d => (n.depthOf? d).isNone with
          | none => rfl
          | some d =>
              simp only [name_eq (hd d (List.mem_of_find?_eq_some hnone)), ok_bind]
              rfl

/-- The depth at which every one of some dimensions has a value, at least `least`. -/
def depthOfAll (n : Nest) (least : Nat) (ds : List DimId) : Except Missing Nat :=
  return (← ds.filterMapM (depthOf? n)).foldl max least

theorem depthOfAll_eq (hn : n.IssuedLoops) {ds : List DimId}
    (h : ∀ d ∈ ds, n.dims.contains d = true) (least : Nat) :
    depthOfAll n least ds = .ok (Guard.depthOfAll n least ds) := by
  rw [depthOfAll, filterMapM_eq_ok fun d hd => depthOf?_eq hn (h d hd)]
  rfl

/-- The predicate of one condition of a nest. -/
def ofCondition (p : Program) (n : Nest) (c : DimId) : Except (Fault ScheduleError) Guard := do
  let d ← entry p.dims c
  match ← depthOf? n c with
  | none => throw (.failed (.unresolvedGuard d.name (← name p.dims (← root p.dims c))))
  | some depth =>
    match d.kind with
    | .conditional parent (.stride _) =>
      let point ← displaced n parent (.int 0)
      return ⟨depth, .compare .eq (Expr.fold .mod point (.symbol d.factorName)) (.int 0), [c]⟩
    | .conditional _ (.predicate e) =>
      match ← unresolved? p n e with
      | some symbol => throw (.failed (.unresolvedGuard d.name symbol))
      | none => return ⟨← depthOfAll n depth e.dims, ← expr n e, [c]⟩
    | _ => return ⟨depth, .and [], [c]⟩

theorem ofCondition_eq (hn : n.IssuedLoops) (hdims : n.dims = p.dims) {c : DimId}
    (hc : p.dims.contains c = true) :
    ofCondition p n c = pass (Guard.ofCondition p n c) := by
  have hname := name_eq (DimTable.contains_root hc)
  rw [ofCondition, entry_eq hc, lift_ok, ok_bind, depthOf?_eq hn (hdims ▸ hc), lift_ok, ok_bind,
    Guard.ofCondition]
  cases n.depthOf? c with
  | none =>
      simp only [root_eq hc, hname, lift_ok, ok_bind]
      rfl
  | some depth =>
      dsimp only
      cases hkind : (p.dims.get c).kind with
      | conditional parent condition =>
          cases condition with
          | stride factor =>
              have hparent := DimTable.contains_of_kind hc hkind rfl
              simp only [displaced_eq hn (hdims ▸ hparent), lift_ok, ok_bind]
              rfl
          | predicate e =>
              have he : e.IssuedBy p.dims := fun a ha => DimTable.contains_of_predicate
                (d := c) (by rw [Dimension.predicate?, hkind]) ha
              have hdepth := depthOfAll_eq hn
                (fun d hd => hdims ▸ he d (Expr.mem_dims_iff.mp hd)) depth
              simp only [unresolved?_eq hn hdims he, lift_ok, ok_bind]
              cases Guard.unresolved? p n e with
              | some symbol => rfl
              | none =>
                  simp only [hdepth, expr_eq hn (hdims ▸ he), lift_ok, ok_bind]
                  rfl
      | _ => rfl

/-- The guards of a cluster, outermost first. -/
def ofCluster (p : Program) (c : Cluster) : Except (Fault ScheduleError) (List Guard) := do
  let gs ← c.signature.conditions.mapM (ofCondition p ⟨p.dims, c.signature.loops⟩)
  return combine gs

theorem ofCluster_eq {c : Cluster} (hloops : ∀ l ∈ c.signature.loops, p.dims.contains l = true)
    (hconditions : ∀ d ∈ c.signature.conditions, p.dims.contains d = true) :
    ofCluster p c = pass (Guard.ofCluster p c) :=
  bind_eq_pass (mapM_eq_pass fun d hd =>
    ofCondition_eq (n := ⟨p.dims, c.signature.loops⟩) hloops rfl (hconditions d hd)) fun _ _ => rfl

end Checked

end LoopNest
