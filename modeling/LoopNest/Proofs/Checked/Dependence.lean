import LoopNest.Dependence.Analysis
import LoopNest.Proofs.Checked.Lowering
/-!
# Analysis with checked lookups

Accesses are compared by the dimensions that their indices run along, and never by those that stand
in a displacement.  So the analysis of lowered equations misses nothing (`graph_eq`): the indices
of the written access and everything that is read run along dimensions the table has issued
(`Lowered.IssuedBy.indexed`).
-/

namespace LoopNest

open Lowered

/-- The indices of the access run along dimensions that the table has issued. -/
def Access.IndexedBy (t : DimTable) (a : Access) : Prop := ∀ i ∈ a.indices, t.contains i.dim = true

theorem Expr.mentions_of_mem_accesses {e : Expr} {a : Access} {i : Index} (ha : a ∈ e.accesses)
    (hi : i ∈ a.indices) : e.Mentions i.dim := by
  obtain ⟨node, hn, ha⟩ := List.mem_filterMap.mp ha
  cases node with
  | access tensor is =>
      cases ha
      exact Or.inr ⟨tensor, is, (mem_nodes_iff e).mp hn, List.mem_map.mpr ⟨i, hi, rfl⟩⟩
  | _ => cases ha

namespace Lowered.IssuedBy

variable {t : DimTable} {e : Lowered}

theorem roots (h : e.IssuedBy t) : ∀ r ∈ e.roots t, t.contains r = true := by
  intro r hr
  obtain ⟨l, hl, rfl⟩ := List.mem_map.mp hr
  exact DimTable.contains_root (h.loops l hl)

theorem write (h : e.IssuedBy t) : e.write.IndexedBy t := fun i hi =>
  h.dims _ (Or.inl (List.mem_map.mpr ⟨i, hi, rfl⟩))

theorem reads (h : e.IssuedBy t) : ∀ a ∈ e.reads t, a.IndexedBy t := by
  intro a ha i hi
  rcases List.mem_append.mp ha with ha | ha
  · exact h.dims _ (Or.inr (Or.inl (Expr.mentions_of_mem_accesses ha hi)))
  · obtain ⟨c, -, ha⟩ := List.mem_flatMap.mp ha
    cases hp : (t.get c).predicate? with
    | none =>
        rw [hp] at ha
        cases ha
    | some predicate =>
        rw [hp] at ha
        exact DimTable.contains_of_predicate hp (Expr.mentions_of_mem_accesses ha hi)

theorem indexed (h : e.IssuedBy t) : ∀ a ∈ e.accesses t, a.IndexedBy t :=
  List.forall_mem_cons.mpr ⟨h.write, h.reads⟩

end Lowered.IssuedBy

theorem Lowered.mem_of_mem_orderedPairs {α : Type} {x y : α} : ∀ {xs : List α},
    (x, y) ∈ orderedPairs xs → x ∈ xs ∧ y ∈ xs
  | z :: zs, h => by
      rcases List.mem_append.mp h with h | h
      · obtain ⟨w, hw, heq⟩ := List.mem_map.mp h
        cases heq
        exact ⟨List.mem_cons_self, List.mem_cons_of_mem _ hw⟩
      · obtain ⟨hx, hy⟩ := mem_of_mem_orderedPairs h
        exact ⟨List.mem_cons_of_mem _ hx, List.mem_cons_of_mem _ hy⟩

/-- A dependence is carried by one of the roots along which the accesses are compared. -/
theorem AccessPair.mem_of_carrier {t : DimTable} {p : AccessPair} {unindexed : Option Int}
    {roots : List DimId} {c : Carrier} {r : DimId} (h : p.carrier t unindexed roots = .ok c)
    (hr : c.root? = some r) : r ∈ roots := by
  rcases carrier_eq_ok h with rfl | ⟨root, hroot, ⟨rfl, -⟩ | ⟨d, -, hd⟩⟩
  · cases hr
  · cases hr
    exact hroot
  · cases (root?_of_carrierAt hd).symm.trans hr
    exact hroot

namespace Checked

variable {t : DimTable} {e : Lowered}

/-! ## Accesses -/

def roots (t : DimTable) (e : Lowered) : Except Missing (List DimId) := e.loops.mapM (root t)

theorem roots_eq (h : e.IssuedBy t) : roots t e = .ok (e.roots t) :=
  mapM_eq_ok_map fun l hl => root_eq (h.loops l hl)

def reads (t : DimTable) (e : Lowered) : Except Missing (List Access) := do
  let gates ← flatMapM (fun c => return ((← entry t c).predicate?.map Expr.accesses).getD [])
    e.conditions
  return e.equation.reads ++ gates

theorem reads_eq (h : e.IssuedBy t) : reads t e = .ok (e.reads t) := by
  have hgates : flatMapM (fun c => return ((← entry t c).predicate?.map Expr.accesses).getD [])
      e.conditions = .ok (e.conditionReads t) :=
    flatMapM_eq_ok fun c hc => by rw [entry_eq (h.conditions c hc)]; rfl
  rw [reads, hgates]
  rfl

def readsOf (t : DimTable) (e : Lowered) (tensor : String) : Except Missing (List Access) :=
  return (← reads t e).filter fun a => a.tensor == tensor

theorem readsOf_eq (h : e.IssuedBy t) (tensor : String) :
    readsOf t e tensor = .ok (e.readsOf t tensor) := by
  rw [readsOf, reads_eq h]
  rfl

/-- The first index of an access along a root. -/
def along? (t : DimTable) (a : Access) (r : DimId) : Except Missing (Option Index) :=
  a.indices.findM? fun i => return (← root t i.dim) == r

theorem along?_eq {a : Access} (h : a.IndexedBy t) (r : DimId) :
    along? t a r = .ok (a.along? t r) :=
  findM?_eq_ok fun i hi => by rw [root_eq (h i hi)]; rfl

/-- How far the first index is ahead of the second, where it is known. -/
def difference? (t : DimTable) (i j : Index) : Except Missing (Option Int) := do
  if (← stride? t i.dim) = (← stride? t j.dim) then return i.shiftDifference? j else return none

theorem difference?_eq {i j : Index} (hi : t.contains i.dim = true) (hj : t.contains j.dim = true) :
    difference? t i j = .ok (i.difference? t j) := by
  rw [difference?, stride?_eq hi, ok_bind, stride?_eq hj, ok_bind, Index.difference?]
  split <;> rfl

/-- How far the first access is ahead of the second along a root. -/
def distance? (t : DimTable) (unindexed : Option Int) (r : DimId) (a b : Access) :
    Except Missing (Option Int) := do
  match ← along? t a r, ← along? t b r with
  | some i, some j => difference? t i j
  | none, none => return unindexed
  | _, _ => return none

theorem distance?_eq {a b : Access} (ha : a.IndexedBy t) (hb : b.IndexedBy t)
    (unindexed : Option Int) (r : DimId) :
    distance? t unindexed r a b = .ok (a.distance? t unindexed r b) := by
  rw [distance?, along?_eq ha, ok_bind, along?_eq hb, ok_bind, Access.distance?]
  cases hi : a.along? t r with
  | none => cases b.along? t r <;> rfl
  | some i =>
      cases hj : b.along? t r with
      | none => rfl
      | some j =>
          exact difference?_eq (ha i (List.mem_of_find?_eq_some hi))
            (hb j (List.mem_of_find?_eq_some hj))

/-! ## Carriers -/

/-- The carrier of a dependence over a distance other than zero. -/
def carrierAt (t : DimTable) (p : AccessPair) (r : DimId) (d : Int) :
    Except (Fault AnalysisError) Carrier := do
  if ← isTimeLike t r then
    if AccessPair.readsFuture p.kind d then
      let ends := p.writerAndReader
      throw (.failed
        (.illegalDependence p.first.tensor (← name t r) ends.1 ends.2 .readsFuture))
    else return .carried r .forward
  else return .carried r (.ofDistance d)

theorem carrierAt_eq {p : AccessPair} {r : DimId} (hr : t.contains r = true) (d : Int) :
    carrierAt t p r d = pass (p.carrierAt t r d) := by
  rw [carrierAt, isTimeLike_eq hr, lift_ok, ok_bind, AccessPair.carrierAt]
  split
  · split
    · rw [name_eq hr, lift_ok, ok_bind]
      rfl
    · rfl
  · rfl

def carrier (t : DimTable) (unindexed : Option Int) (p : AccessPair) :
    List DimId → Except (Fault AnalysisError) Carrier
  | [] => return .independent
  | r :: inner => do
    match ← distance? t unindexed r p.first p.second with
    | none => return .unknown r
    | some d => if d = 0 then carrier t unindexed p inner else carrierAt t p r d

theorem carrier_eq {unindexed : Option Int} {p : AccessPair} (hfirst : p.first.IndexedBy t)
    (hsecond : p.second.IndexedBy t) : ∀ {rs : List DimId}, (∀ r ∈ rs, t.contains r = true) →
      carrier t unindexed p rs = pass (p.carrier t unindexed rs)
  | [], _ => rfl
  | r :: inner, h => by
      obtain ⟨hr, hinner⟩ := List.forall_mem_cons.mp h
      rw [carrier, distance?_eq hfirst hsecond, lift_ok, ok_bind, AccessPair.carrier]
      cases p.first.distance? t unindexed r p.second with
      | none => rfl
      | some d =>
          by_cases hd : d = 0
          · simp only [hd, if_true]
            exact carrier_eq hfirst hsecond hinner
          · simp only [hd, if_false]
            exact carrierAt_eq hr d

/-! ## An equation and itself -/

def addSelfCarrier (t : DimTable) (e : Lowered) (done : List Carrier) (read : Access) :
    Except (Fault AnalysisError) (List Carrier) := do
  let c ← carrier t none (e.selfPair read) (← roots t e)
  match c.root? with
  | some r =>
    if done.any c.opposes then
      throw (.failed
        (.illegalDependence e.write.tensor (← name t r) e.index e.index .oppositeDirections))
    else return done ++ [c]
  | none => return done

theorem addSelfCarrier_eq (h : e.IssuedBy t) {done : List Carrier} {read : Access}
    (hread : read.IndexedBy t) :
    addSelfCarrier t e done read = pass (e.addSelfCarrier t done read) := by
  rw [addSelfCarrier, roots_eq h, lift_ok, ok_bind]
  refine bind_eq_pass (carrier_eq h.write hread h.roots) fun c hc => ?_
  cases hroot : c.root? with
  | none => rfl
  | some r =>
      have hr : t.contains r = true := h.roots r (AccessPair.mem_of_carrier hc hroot)
      simp only [name_eq hr, lift_ok, ok_bind]
      split <;> rfl

/-- The outermost loop along which all iterations write one element. -/
def rewriteRoot? (t : DimTable) (e : Lowered) : Except Missing (Option DimId) := do
  (← roots t e).findM? fun r => return (← along? t e.write r).isNone

theorem rewriteRoot?_eq (h : e.IssuedBy t) : rewriteRoot? t e = .ok (e.rewriteRoot? t) := by
  rw [rewriteRoot?, roots_eq h, ok_bind]
  exact findM?_eq_ok fun r _ => by rw [along?_eq h.write]; rfl

/-- The dependences of an equation on itself. -/
def selfEdges (t : DimTable) (e : Lowered) : Except (Fault AnalysisError) (List Edge) := do
  let carriers ← (← readsOf t e e.write.tensor).foldlM (addSelfCarrier t e) []
  let rewrites := match ← rewriteRoot? t e with
    | some r => [⟨e.index, e.index, e.write.tensor, .output, .unknown r⟩]
    | none => []
  return (carriers.map fun c => ⟨e.index, e.index, e.write.tensor, .flow, c⟩) ++ rewrites

theorem selfEdges_eq (h : e.IssuedBy t) : selfEdges t e = pass (e.selfEdges t) := by
  have hreads : ∀ a ∈ e.readsOf t e.write.tensor, a.IndexedBy t := fun a ha =>
    h.reads a (List.mem_filter.mp ha).1
  rw [selfEdges, readsOf_eq h, lift_ok, ok_bind]
  refine bind_eq_pass (foldlM_eq_pass (P := fun _ => True)
    (fun a ha _ _ => addSelfCarrier_eq h (hreads a ha)) (fun _ _ _ _ _ _ => trivial) trivial)
    fun carriers _ => ?_
  rw [rewriteRoot?_eq h, lift_ok, ok_bind]
  rfl

/-! ## Two equations -/

/-- Roots of the loops that two equations share, in the order of the first. -/
def commonRoots (t : DimTable) (a b : Lowered) : Except Missing (List DimId) := do
  let others ← roots t b
  return (← roots t a).filter fun r => others.contains r

theorem commonRoots_eq {a b : Lowered} (ha : a.IssuedBy t) (hb : b.IssuedBy t) :
    commonRoots t a b = .ok (Lowered.commonRoots t a b) := by
  rw [commonRoots, roots_eq hb, ok_bind, roots_eq ha]
  rfl

/-- The accesses of two equations that may conflict, the first declared equation first. -/
def crossPairs (t : DimTable) (a b : Lowered) : Except Missing (List AccessPair) := do
  let pair := AccessPair.mk a.index b.index
  let after ← readsOf t b a.write.tensor
  let before ← readsOf t a b.write.tensor
  return after.map (pair .flow a.write) ++ before.map (fun read => pair .anti read b.write) ++
    if a.write.tensor == b.write.tensor then [pair .output a.write b.write] else []

theorem crossPairs_eq {a b : Lowered} (ha : a.IssuedBy t) (hb : b.IssuedBy t) :
    crossPairs t a b = .ok (Lowered.crossPairs t a b) := by
  rw [crossPairs, readsOf_eq hb, ok_bind, readsOf_eq ha]
  rfl

theorem indexed_of_mem_crossPairs {a b : Lowered} (ha : a.IssuedBy t) (hb : b.IssuedBy t)
    {p : AccessPair} (hp : p ∈ Lowered.crossPairs t a b) :
    p.first.IndexedBy t ∧ p.second.IndexedBy t := by
  rcases List.mem_append.mp hp with hp | hp
  · rcases List.mem_append.mp hp with hp | hp
    · obtain ⟨read, hread, rfl⟩ := List.mem_map.mp hp
      exact ⟨ha.write, hb.reads read (List.mem_filter.mp hread).1⟩
    · obtain ⟨read, hread, rfl⟩ := List.mem_map.mp hp
      exact ⟨ha.reads read (List.mem_filter.mp hread).1, hb.write⟩
  · split at hp
    · cases List.mem_singleton.mp hp
      exact ⟨ha.write, hb.write⟩
    · cases hp

/-- The dependences of an equation on one declared before it. -/
def crossEdges (t : DimTable) (a b : Lowered) : Except (Fault AnalysisError) (List Edge) := do
  let shared ← commonRoots t a b
  let pairs ← crossPairs t a b
  pairs.mapM fun p => p.toEdge <$> carrier t (some 0) p shared

theorem crossEdges_eq {a b : Lowered} (ha : a.IssuedBy t) (hb : b.IssuedBy t) :
    crossEdges t a b = pass (Lowered.crossEdges t a b) := by
  rw [crossEdges, commonRoots_eq ha hb, lift_ok, ok_bind, crossPairs_eq ha hb, lift_ok, ok_bind]
  refine mapM_eq_pass fun p hp => map_eq_pass ?_
  obtain ⟨hfirst, hsecond⟩ := indexed_of_mem_crossPairs ha hb hp
  exact carrier_eq hfirst hsecond fun r hr => ha.roots r (List.mem_filter.mp hr).1

/-! ## Buffers -/

def bufferUse? (t : DimTable) (tensor : String) (i : Index) :
    Except Missing (Option Lowered.BufferUse) := do
  let stepping := (← entry t i.dim).isStepping
  match i with
  | .fixed d k => return if stepping then some ⟨tensor, d, k⟩ else none
  | .symbolic _ _ => return none

theorem bufferUse?_eq {tensor : String} {i : Index} (h : t.contains i.dim = true) :
    bufferUse? t tensor i = .ok (Lowered.bufferUse? t tensor i) := by
  rw [bufferUse?, entry_eq h]
  cases i <;> rfl

/-- Every known displacement through a buffer index, with the tensor it belongs to. -/
def bufferUses (t : DimTable) (es : List Lowered) : Except Missing (List Lowered.BufferUse) :=
  flatMapM (fun e => do
    flatMapM (fun a => a.indices.filterMapM (bufferUse? t a.tensor)) (e.write :: (← reads t e))) es

theorem bufferUses_eq {es : List Lowered} (h : ∀ e ∈ es, e.IssuedBy t) :
    bufferUses t es = .ok (Lowered.bufferUses t es) := by
  refine flatMapM_eq_ok fun e he => ?_
  rw [reads_eq (h e he), ok_bind]
  exact flatMapM_eq_ok fun a ha => filterMapM_eq_ok fun i hi =>
    bufferUse?_eq ((h e he).indexed a ha i hi)

theorem contains_of_mem_bufferUses {es : List Lowered} (h : ∀ e ∈ es, e.IssuedBy t)
    {u : Lowered.BufferUse} (hu : u ∈ Lowered.bufferUses t es) : t.contains u.dim = true := by
  obtain ⟨e, he, hu⟩ := List.mem_flatMap.mp hu
  obtain ⟨a, ha, hu⟩ := List.mem_flatMap.mp hu
  obtain ⟨i, hi, hu⟩ := List.mem_filterMap.mp hu
  have hd := (h e he).indexed a ha i hi
  unfold Lowered.bufferUse? at hu
  split at hu
  · split at hu
    · cases hu
      exact hd
    · cases hu
  · cases hu

/-- A buffer has as many slots as its tensor has time levels in use. -/
def checkBuffer (t : DimTable) (uses : List Lowered.BufferUse) (tensor : String) (d : DimId) :
    Except (Fault AnalysisError) Unit := do
  let own := uses.filter fun u => u.tensor == tensor && u.dim == d
  let needed := Lowered.levels (own.map Lowered.BufferUse.shift)
  let modulo := ((← entry t d).modulo?).getD 1
  if needed > modulo then throw (.failed (.bufferTooSmall tensor (← name t d) needed modulo))
  else return ()

theorem checkBuffer_eq {uses : List Lowered.BufferUse} {tensor : String} {d : DimId}
    (h : t.contains d = true) :
    checkBuffer t uses tensor d = pass (Lowered.checkBuffer t uses tensor d) := by
  rw [checkBuffer, entry_eq h, lift_ok, ok_bind, Lowered.checkBuffer]
  simp only [name_eq h, lift_ok, ok_bind]
  split <;> rfl

def checkBuffers (t : DimTable) (es : List Lowered) : Except (Fault AnalysisError) Unit := do
  let uses ← bufferUses t es
  (SortedSet.ofList (uses.map Lowered.BufferUse.tensor)).forM fun tensor =>
    let dims := (uses.filter fun u => u.tensor == tensor).map Lowered.BufferUse.dim
    (SortedSet.ofList dims).forM fun d => checkBuffer t uses tensor d

theorem checkBuffers_eq {es : List Lowered} (h : ∀ e ∈ es, e.IssuedBy t) :
    checkBuffers t es = pass (Lowered.checkBuffers t es) := by
  rw [checkBuffers, bufferUses_eq h, lift_ok, ok_bind]
  refine forM_eq_pass fun tensor _ => forM_eq_pass fun d hd => checkBuffer_eq ?_
  obtain ⟨u, hu, rfl⟩ := List.mem_map.mp (SortedSet.mem_ofList.mp hd)
  exact contains_of_mem_bufferUses h (List.mem_filter.mp hu).1

/-! ## All equations -/

def graph (t : DimTable) (es : List Lowered) : Except (Fault AnalysisError) DependenceGraph := do
  checkBuffers t es
  let own ← es.mapM (selfEdges t)
  let cross ← (Lowered.orderedPairs es).mapM fun pair => crossEdges t pair.1 pair.2
  return ⟨(own.flatten ++ cross.flatten).eraseDups⟩

/-- Analysis checks what it looks up. -/
theorem graph_eq {es : List Lowered} (h : ∀ e ∈ es, e.IssuedBy t) :
    graph t es = pass (Lowered.graph t es) := by
  refine bind_eq_pass (checkBuffers_eq h) fun _ _ => ?_
  refine bind_eq_pass (mapM_eq_pass fun e he => selfEdges_eq (h e he)) fun own _ => ?_
  refine bind_eq_pass (mapM_eq_pass fun pair hp => ?_) fun cross _ => rfl
  obtain ⟨ha, hb⟩ := Lowered.mem_of_mem_orderedPairs hp
  exact crossEdges_eq (h _ ha) (h _ hb)

end Checked

end LoopNest
