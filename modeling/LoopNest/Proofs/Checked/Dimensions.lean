import LoopNest.Dependence.Distance
import LoopNest.Proofs.Checked.Run
import LoopNest.Proofs.Construction
/-!
# Looking up dimensions

From a dimension that the table has issued every lookup stays among those issued: a parent stands
before its child, so the way up ends before it has taken as many steps as there are dimensions
(`climb_eq`), and what a predicate mentions was issued before the dimension that it gates
(`DimTable.contains_of_predicate`).
-/

namespace LoopNest

namespace DimTable

variable {t : DimTable} {d a : DimId}

theorem contains_iff : t.contains d = true ↔ d.index < t.size := decide_eq_true_iff

theorem contains_of_mem_chain (hd : t.contains d = true) (h : a ∈ t.chain d) :
    t.contains a = true :=
  contains_iff.mpr (Nat.lt_of_le_of_lt (index_le_of_mem_chain h) (contains_iff.mp hd))

theorem contains_root (hd : t.contains d = true) : t.contains (t.root d) = true :=
  contains_of_mem_chain hd (root_mem_chain t d)

theorem contains_loopOf (hd : t.contains d = true) : t.contains (t.loopOf d) = true :=
  contains_of_mem_chain hd (loopOf_mem_chain t d)

theorem contains_of_parent {p : DimId} (hd : t.contains d = true) (hp : t.parent? d = some p) :
    t.contains p = true :=
  contains_of_mem_chain hd (chain_of_parent hp ▸ List.mem_cons_of_mem _ (mem_chain_self t p))

theorem contains_of_kind {p : DimId} {kind : DimKind} (hd : t.contains d = true)
    (hkind : (t.get d).kind = kind) (hp : kind.parent? = some p) : t.contains p = true :=
  contains_of_parent hd ((parent?_of_kind hkind).trans hp)

theorem mem_ids_iff : d ∈ t.ids ↔ t.contains d = true := by
  rw [contains_iff, ids, List.mem_map]
  constructor
  · rintro ⟨i, hi, rfl⟩
    exact List.mem_range.mp hi
  · intro h
    exact ⟨d.index, List.mem_range.mpr h, rfl⟩

/-- A predicate mentions dimensions that the table has issued. -/
theorem contains_of_predicate {e : Expr} (h : (t.get d).predicate? = some e) (ha : e.Mentions a) :
    t.contains a = true := by
  have hfits := t.fits_kind d
  unfold Dimension.predicate? at h
  split at h
  · rename_i hkind
    cases h
    rw [hkind] at hfits
    have hlt := hfits a (Expr.mem_dims_iff.mpr ha)
    rw [List.length_take] at hlt
    exact contains_iff.mpr (Nat.lt_of_lt_of_le hlt (Nat.min_le_right _ _))
  · cases h

end DimTable

namespace Checked

variable {t : DimTable} {d a : DimId}

/-- The dimension of an identity. -/
def entry (t : DimTable) (d : DimId) : Except Missing Dimension := look (.dimension d) (t.get? d)

theorem entry_eq (hd : t.contains d = true) : entry t d = .ok (t.get d) := by
  rw [entry, DimTable.get?_of_lt (DimTable.contains_iff.mp hd), look_some]

def name (t : DimTable) (d : DimId) : Except Missing String := return (← entry t d).name

theorem name_eq (hd : t.contains d = true) : name t d = .ok (t.name d) := by
  rw [name, entry_eq hd]
  rfl

/-! ## Chains -/

/-- At most so many steps up the parents. -/
def climb (t : DimTable) : Nat → DimId → Except Missing (List DimId)
  | 0, _ => return []
  | n + 1, d => do
    match (← entry t d).parent? with
    | none => return [d]
    | some p => return d :: (← climb t n p)

/-- The dimension, its parent, and so on. -/
def chain (t : DimTable) (d : DimId) : Except Missing (List DimId) := climb t t.size d

theorem climb_eq : ∀ {n : Nat} {d : DimId}, d.index < n → t.contains d = true →
    climb t n d = .ok (t.chain d)
  | 0, _, h, _ => absurd h (Nat.not_lt_zero _)
  | n + 1, d, h, hd => by
      rw [climb, entry_eq hd, ok_bind, ← DimTable.parent?_eq]
      cases hp : t.parent? d with
      | none => rw [DimTable.chain_of_root hp, pure_eq_ok]
      | some p =>
          have hlt := DimTable.parent_lt hp
          have hrest := climb_eq (n := n) (by omega) (DimTable.contains_of_parent hd hp)
          simp only [hrest, ok_bind, pure_eq_ok, DimTable.chain_of_parent hp]

theorem chain_eq (hd : t.contains d = true) : chain t d = .ok (t.chain d) :=
  climb_eq (DimTable.contains_iff.mp hd) hd

def root (t : DimTable) (d : DimId) : Except Missing DimId := return (← chain t d).getLast?.getD d

theorem root_eq (hd : t.contains d = true) : root t d = .ok (t.root d) := by
  rw [root, chain_eq hd]
  rfl

/-- The first of some loops over a root. -/
def loopOver? (t : DimTable) (loops : List DimId) (r : DimId) : Except Missing (Option DimId) :=
  loops.findM? fun l => return (← root t l) == r

theorem loopOver?_eq {loops : List DimId} (h : ∀ l ∈ loops, t.contains l = true) (r : DimId) :
    loopOver? t loops r = .ok (loops.find? fun l => t.root l == r) :=
  findM?_eq_ok fun l hl => by rw [root_eq (h l hl)]; rfl

def derives (t : DimTable) (d ancestor : DimId) : Except Missing Bool :=
  return (← chain t d).contains ancestor

theorem derives_eq (hd : t.contains d = true) (a : DimId) :
    derives t d a = .ok (t.derives d a) := by
  rw [derives, chain_eq hd]
  rfl

def loopOf (t : DimTable) (d : DimId) : Except Missing DimId := do
  let found ← (← chain t d).findM? fun a => return !(← entry t a).ridesOnParent
  return found.getD d

theorem loopOf_eq (hd : t.contains d = true) : loopOf t d = .ok (t.loopOf d) := by
  have hfind : ((t.chain d).findM? fun a => return !(← entry t a).ridesOnParent) =
      .ok ((t.chain d).find? fun a => !(t.get a).ridesOnParent) :=
    findM?_eq_ok fun a ha => by rw [entry_eq (DimTable.contains_of_mem_chain hd ha)]; rfl
  rw [loopOf, chain_eq hd, ok_bind, hfind]
  rfl

def isTimeLike (t : DimTable) (d : DimId) : Except Missing Bool :=
  return (← entry t (← root t d)).isTime

theorem isTimeLike_eq (hd : t.contains d = true) : isTimeLike t d = .ok (t.isTimeLike d) := by
  rw [isTimeLike, root_eq hd, ok_bind, entry_eq (DimTable.contains_root hd)]
  rfl

/-- The chain of a dimension as dimensions rather than identities. -/
def lineage (t : DimTable) (d : DimId) : Except Missing (List Dimension) := do
  (← chain t d).mapM (entry t)

theorem lineage_eq (hd : t.contains d = true) : lineage t d = .ok (t.lineage d) := by
  rw [lineage, chain_eq hd, ok_bind]
  exact mapM_eq_ok_map fun a ha => entry_eq (DimTable.contains_of_mem_chain hd ha)

/-- The conditional dimensions between `d` and the loop that visits its points. -/
def conditionsOf (t : DimTable) (d : DimId) : Except Missing (List DimId) := do
  let entries ← (← chain t d).mapM fun a => return (a, ← entry t a)
  return ((entries.takeWhile fun x => x.2.ridesOnParent).filter fun x => x.2.isConditional).map
    Prod.fst

theorem conditionsOf_eq (hd : t.contains d = true) :
    conditionsOf t d = .ok (t.conditionsOf d) := by
  have hentries : ((t.chain d).mapM fun a => return (a, ← entry t a)) =
      .ok ((t.chain d).map fun a => (a, t.get a)) :=
    mapM_eq_ok_map fun a ha => by rw [entry_eq (DimTable.contains_of_mem_chain hd ha)]; rfl
  rw [conditionsOf, chain_eq hd, ok_bind, hentries, ok_bind, pure_eq_ok, List.takeWhile_map,
    List.filter_map, List.map_map]
  exact congrArg _ (List.map_id _)

/-- The nearest dimension on the chain of `d` that admits every so many points, if any. -/
def stride? (t : DimTable) (d : DimId) : Except Missing (Option DimId) := do
  (← chain t d).findM? fun a => do
    match (← entry t a).condition? with
    | some (.stride _) => return true
    | _ => return false

theorem stride?_eq (hd : t.contains d = true) : stride? t d = .ok (t.stride? d) := by
  rw [stride?, chain_eq hd, ok_bind]
  refine findM?_eq_ok fun a ha => ?_
  rw [entry_eq (DimTable.contains_of_mem_chain hd ha), ok_bind]
  cases (t.get a).condition? with
  | none => rfl
  | some c => cases c <;> rfl

/-! ## Extents -/

def interval (t : DimTable) (d : DimId) : Except Missing Interval :=
  return DimTable.intervalAlong (← lineage t d)

theorem interval_eq (hd : t.contains d = true) : interval t d = .ok (t.interval d) := by
  rw [interval, lineage_eq hd]
  rfl

def sizeExpr (t : DimTable) (d : DimId) : Except Missing Expr := do
  let e ← entry t d
  match e.kind with
  | .sub _ .left _ _ => return .symbol e.leftName
  | .sub _ .right _ _ => return .symbol e.rightName
  | .sub p .middle _ _ => do
    let whole ← interval t p
    return whole.max - whole.min - .symbol e.leftName - .symbol e.rightName + .int 1
  | _ => do
    let whole ← interval t d
    return whole.max - whole.min + .int 1

theorem sizeExpr_eq (hd : t.contains d = true) : sizeExpr t d = .ok (t.sizeExpr d) := by
  have hown := interval_eq hd
  rw [sizeExpr, entry_eq hd, ok_bind, DimTable.sizeExpr]
  cases hkind : (t.get d).kind with
  | sub p side left right =>
      have hp := interval_eq (DimTable.contains_of_kind hd hkind rfl)
      cases side with
      | left | right => rfl
      | middle => simp only [hp, ok_bind, pure_eq_ok]
  | _ => simp only [hown, ok_bind, pure_eq_ok]

/-- The parameters that a dimension brings in itself are read off its entry. -/
def parameters (t : DimTable) (d : DimId) : Except Missing (List Parameter) := do
  let _ ← entry t d
  return t.parameters d

theorem parameters_eq (hd : t.contains d = true) : parameters t d = .ok (t.parameters d) := by
  rw [parameters, entry_eq hd]
  rfl

/-- Dimensions that a conditional dimension's predicate mentions. -/
def predicateDims (t : DimTable) (d : DimId) : Except Missing (List DimId) :=
  return ((← entry t d).predicate?.map Expr.dims).getD []

theorem predicateDims_eq (hd : t.contains d = true) :
    predicateDims t d = .ok (t.predicateDims d) := by
  rw [predicateDims, entry_eq hd]
  rfl

end Checked

end LoopNest
