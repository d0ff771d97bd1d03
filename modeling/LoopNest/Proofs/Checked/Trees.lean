import LoopNest.Proofs.Checked.Guards
import LoopNest.Proofs.Settled
/-!
# Trees with checked lookups

A way is found by number, the level of a loop or the place of a guard among those of its cluster,
and the numbers are in range because they are counted off the very lists they are looked up in
(`steps_eq`).  Nodes carry numbers on: dimensions and clusters.  `Node.Resolves` says that they are
in range, which is kept as clusters enter (`insert_resolves`) and as loops are settled
(`settle_resolves`), so that neither misses anything and whatever reads the tree afterwards does not
either (`tree_eq`, `tree_resolves`).
-/

namespace LoopNest

open Lowered

/-- What a plan refers to by number is there. -/
structure Plan.Issued (p : Plan) : Prop where
  equations : ∀ e ∈ p.equations, e.IssuedBy p.dims
  targets : ∀ e ∈ p.equations, e.equation.lhs.toExpr.IssuedBy p.dims
  loops : ∀ c ∈ p.clusters, ∀ l ∈ c.signature.loops, p.dims.contains l = true
  members : ∀ c ∈ p.clusters, ∀ i ∈ c.equations, i < p.equations.length
  lengths : p.guards.length = p.clusters.length
  predicates : ∀ gs ∈ p.guards, ∀ g ∈ gs, g.predicate.IssuedBy p.dims

theorem Lowered.issuedBy_of_build {t : DimTable} {es : List Lowered} {g : DependenceGraph}
    (hg : graph t es = .ok g) (hn : Numbered es) (h : ∀ e ∈ es, e.IssuedBy t) {options : Options}
    {c : Cluster} (hc : c ∈ Cluster.build t g options es) :
    (∀ l ∈ c.signature.loops, t.contains l = true) ∧
      (∀ d ∈ c.signature.conditions, t.contains d = true) ∧ ∀ i ∈ c.equations, i < es.length := by
  have hs := Cluster.build_sound hg hn options c hc
  obtain ⟨i, hi⟩ := List.exists_mem_of_ne_nil _ hs.nonempty
  obtain ⟨e, he, -, hsig⟩ := hs.uniform i hi
  refine ⟨hsig ▸ (h e he).loops, hsig ▸ (h e he).conditions, fun j hj => ?_⟩
  obtain ⟨e, he, rfl, -⟩ := hs.uniform j hj
  exact hn.index_lt he

/-- A plan refers to what is there if the left-hand sides of its equations do. -/
theorem Plan.Sound.issued {p : Plan} {program : Program} (h : p.Sound program)
    (htargets : ∀ e ∈ p.equations, e.equation.lhs.toExpr.IssuedBy p.dims) : p.Issued := by
  have hes : ∀ e ∈ p.equations, e.IssuedBy p.dims := fun e he =>
    h.dims ▸ Program.lower_issuedBy h.lowered he
  have hclusters := fun c (hc : c ∈ p.clusters) =>
    Lowered.issuedBy_of_build h.graph h.numbered hes (h.clusters ▸ hc)
  refine ⟨hes, htargets, fun c hc => (hclusters c hc).1, fun c hc => (hclusters c hc).2.2,
    h.guards.length_eq.symm, fun gs hgs => ?_⟩
  obtain ⟨c, hc, hof⟩ := exists_of_forall₂_right h.guards hgs
  obtain ⟨hloops, hconditions, -⟩ := hclusters c hc
  rw [h.dims] at hloops hconditions ⊢
  exact Guard.issuedBy_of_ofCluster hloops hconditions hof

/-- The step leads into a loop over an issued dimension, or into a guard that mentions no other. -/
def Plan.Step.IssuedBy (t : DimTable) : Plan.Step → Prop
  | .loop d => t.contains d = true
  | .guard g => g.predicate.IssuedBy t

namespace Checked

variable {p : Plan} {c : Nat}

/-! ## Lookups by number -/

def cluster (p : Plan) (c : Nat) : Except Missing Cluster := look (.cluster c) p.clusters[c]?

theorem cluster_eq (hc : c < p.clusters.length) : cluster p c = .ok (p.cluster c) :=
  look_getElem? _ hc _

def guardsOf (p : Plan) (c : Nat) : Except Missing (List Guard) := look (.guards c) p.guards[c]?

theorem guardsOf_eq (hp : p.Issued) (hc : c < p.clusters.length) :
    guardsOf p c = .ok (p.guardsOf c) :=
  look_getElem? _ (hp.lengths ▸ hc) _

/-- The equations of some clusters. -/
def equationsOf (p : Plan) (cs : List Nat) : Except Missing (List Nat) :=
  flatMapM (fun c => return (← cluster p c).equations) cs

theorem equationsOf_eq {cs : List Nat} (h : ∀ c ∈ cs, c < p.clusters.length) :
    equationsOf p cs = .ok (p.equationsOf cs) :=
  flatMapM_eq_ok fun c hc => by rw [cluster_eq (h c hc)]; rfl

end Checked

namespace Plan.Issued

variable {p : Plan} {c : Nat}

theorem cluster_loops (hp : p.Issued) (hc : c < p.clusters.length) :
    ∀ l ∈ (p.cluster c).signature.loops, p.dims.contains l = true :=
  hp.loops _ (Checked.getD_mem hc _)

theorem cluster_members (hp : p.Issued) (hc : c < p.clusters.length) :
    ∀ i ∈ (p.cluster c).equations, i < p.equations.length :=
  hp.members _ (Checked.getD_mem hc _)

theorem mem_equationsOf (hp : p.Issued) {cs : List Nat} (h : ∀ c ∈ cs, c < p.clusters.length) :
    ∀ i ∈ p.equationsOf cs, i < p.equations.length := by
  intro i hi
  obtain ⟨c, hc, hi⟩ := List.mem_flatMap.mp hi
  exact hp.cluster_members (h c hc) i hi

theorem issuedLoops (hp : p.Issued) (hc : c < p.clusters.length) :
    Nest.IssuedLoops ⟨p.dims, (p.cluster c).signature.loops⟩ :=
  hp.cluster_loops hc

theorem sides (hp : p.Issued) (hc : c < p.clusters.length) {i : Nat}
    (hi : i ∈ (p.cluster c).equations) :
    (p.equations.getD i default).equation.lhs.toExpr.IssuedBy p.dims ∧
      (p.equations.getD i default).equation.rhs.IssuedBy p.dims := by
  have he := Checked.getD_mem (hp.cluster_members hc i hi) (default : Lowered)
  exact ⟨hp.targets _ he, fun d hd => (hp.equations _ he).dims d (Or.inr (Or.inl hd))⟩

theorem guards_issuedBy (hp : p.Issued) (hc : c < p.clusters.length) :
    ∀ g ∈ p.guardsOf c, g.predicate.IssuedBy p.dims :=
  hp.predicates _ (Checked.getD_mem (hp.lengths ▸ hc) _)

end Plan.Issued

namespace Checked

variable {p : Plan} {c : Nat}

/-! ## Ways -/

/-- A step by number: the loop at a level of the signature, or the guard at a place. -/
inductive Turn where
  | loop (level : Nat)
  | guard (place : Nat)

/-- The guards of a level, by their places. -/
def guardTurns (gs : List Guard) (level : Nat) : List Turn :=
  (gs.zipIdx.filter fun x => x.1.level == level).map fun x => .guard x.2

/-- The steps from inside the first `level` loops on, with so many loops to come. -/
def turnsFrom (gs : List Guard) : Nat → Nat → List Turn
  | level, 0 => guardTurns gs level
  | level, n + 1 => guardTurns gs level ++ .loop level :: turnsFrom gs (level + 1) n

/-- The step that a number stands for. -/
def resolve (loops : List DimId) (gs : List Guard) : Turn → Except Missing Plan.Step
  | .loop level => return .loop (← look (.level level) loops[level]?)
  | .guard place => return .guard (← look (.guard place) gs[place]?)

/-- The way to the statements of a cluster. -/
def steps (p : Plan) (c : Nat) : Except Missing (List Plan.Step) := do
  let loops := (← cluster p c).signature.loops
  let gs ← guardsOf p c
  (turnsFrom gs 0 loops.length).mapM (resolve loops gs)

theorem resolve_guardTurns (loops : List DimId) (gs : List Guard) (level : Nat) :
    (guardTurns gs level).mapM (resolve loops gs) = .ok (Plan.guardSteps gs level) := by
  have hplace : ∀ x ∈ gs.zipIdx.filter fun x => x.1.level == level,
      resolve loops gs (.guard x.2) = .ok (.guard x.1) := by
    intro x hx
    have hget : gs[x.2]? = some x.1 := List.mem_zipIdx_iff_getElem?.mp (List.mem_filter.mp hx).1
    rw [resolve, hget]
    rfl
  have hfilter : (gs.zipIdx.filter fun x => x.1.level == level).map Prod.fst =
      gs.filter fun g => g.level == level := by
    conv => rhs; rw [← List.zipIdx_map_fst 0 gs]
    rw [List.filter_map]
    rfl
  rw [guardTurns, mapM_eq_ok, List.forall₂_map_left_iff, Plan.guardSteps, ← hfilter,
    List.map_map, List.forall₂_map_right_iff]
  exact List.forall₂_same.mpr hplace

theorem resolve_turnsFrom (gs : List Guard) {loops : List DimId} :
    ∀ {level : Nat} {rest : List DimId}, loops.drop level = rest →
      (turnsFrom gs level rest.length).mapM (resolve loops gs) =
        .ok (Plan.stepsFrom gs level rest)
  | level, [], _ => resolve_guardTurns loops gs level
  | level, l :: ls, h => by
      have hget : loops[level]? = some l := by
        rw [← List.head?_drop, h]
        rfl
      have hdrop : loops.drop (level + 1) = ls := by
        rw [← List.tail_drop, h]
        rfl
      have hloop : resolve loops gs (.loop level) = .ok (.loop l) := by
        rw [resolve, hget]
        rfl
      rw [List.length_cons, turnsFrom, List.mapM_append, resolve_guardTurns, ok_bind,
        List.mapM_cons, hloop, ok_bind, resolve_turnsFrom gs hdrop]
      rfl

/-- Every number on the way to a cluster stands for a step. -/
theorem steps_eq (hp : p.Issued) (hc : c < p.clusters.length) : steps p c = .ok (p.steps c) := by
  rw [steps, cluster_eq hc, ok_bind, guardsOf_eq hp hc, ok_bind]
  exact resolve_turnsFrom _ rfl

theorem step_issuedBy (hp : p.Issued) (hc : c < p.clusters.length) :
    ∀ step ∈ p.steps c, step.IssuedBy p.dims := by
  have hloops := hp.cluster_loops hc
  have hguards : ∀ level, ∀ step ∈ Plan.guardSteps (p.guardsOf c) level, step.IssuedBy p.dims := by
    intro level step hs
    obtain ⟨g, hg, rfl⟩ := List.mem_map.mp hs
    exact hp.guards_issuedBy hc g (List.mem_filter.mp hg).1
  have hfrom : ∀ {level : Nat} {ls : List DimId}, (∀ l ∈ ls, p.dims.contains l = true) →
      ∀ step ∈ Plan.stepsFrom (p.guardsOf c) level ls, step.IssuedBy p.dims := by
    intro level ls
    induction ls generalizing level with
    | nil => exact fun _ => hguards level
    | cons l ls ih =>
        intro h step hs
        obtain ⟨hl, hls⟩ := List.forall_mem_cons.mp h
        rcases List.mem_append.mp hs with hs | hs
        · exact hguards level step hs
        · rcases List.mem_cons.mp hs with rfl | hs
          · exact hl
          · exact ih hls step hs
  exact hfrom hloops

/-! ## Sharing a loop -/

/-- The demand of a loop after a cluster has joined it, or why the cluster may not. -/
def joinLoop (p : Plan) (l : Loop) (c : Nat) : Except Missing (Except Note Demand) := do
  let top ← root p.dims l.dim
  let own := (← cluster p c).equations
  let together := l.demand.merge (Demand.among p.graph own top)
  if ← isTimeLike p.dims top then return .ok together
  else
    let between := (p.graph.between (← equationsOf p l.clusters) own).filter fun e =>
      e.carrier.root? == some top
    let named ← name p.dims top
    if between.any fun e => e.carrier.isUnknown then return .error (.loopUnknownDistance c named)
    else
      let merged := together.merge (Demand.ofEdges top between)
      if merged.isSatisfiable then return .ok merged
      else return .error (.loopOppositeDirections c named)

theorem joinLoop_eq (hc : c < p.clusters.length) {l : Loop} (hd : p.dims.contains l.dim = true)
    (hcs : ∀ a ∈ l.clusters, a < p.clusters.length) : joinLoop p l c = .ok (p.joinLoop l c) := by
  have htop := DimTable.contains_root hd
  rw [joinLoop, root_eq hd, ok_bind, cluster_eq hc, ok_bind, isTimeLike_eq htop, ok_bind,
    equationsOf_eq hcs, ok_bind, name_eq htop, ok_bind, Plan.joinLoop]
  dsimp only
  split
  · rfl
  · split
    · rfl
    · split <;> rfl

/-- A loop of one cluster, before it is known what the loop is good for. -/
def freshLoop (p : Plan) (c : Nat) (dim : DimId) : Except Missing Loop := do
  let bounds ← interval p.dims dim
  let own := (← cluster p c).equations
  return ⟨dim, bounds, .forward, .none, [c], Demand.among p.graph own (← root p.dims dim)⟩

theorem freshLoop_eq (hc : c < p.clusters.length) {dim : DimId}
    (hd : p.dims.contains dim = true) : freshLoop p c dim = .ok (p.freshLoop c dim) := by
  rw [freshLoop, interval_eq hd, ok_bind, cluster_eq hc, ok_bind, root_eq hd]
  rfl

/-! ## Statements -/

def statement (p : Plan) (c : Nat) (n : Nest) (i : Nat) : Except Missing Node := do
  let eq := (← equation p.equations i).equation
  return .statement ⟨i, c, ← access n eq.lhs, ← expr n eq.rhs⟩

/-- The statements of a cluster. -/
def statements (p : Plan) (c : Nat) : Except Missing (List Node) := do
  let own ← cluster p c
  own.equations.mapM (statement p c ⟨p.dims, own.signature.loops⟩)

theorem statements_eq (hp : p.Issued) (hc : c < p.clusters.length) :
    statements p c = .ok (p.statements c) := by
  rw [statements, cluster_eq hc, ok_bind]
  refine mapM_eq_ok_map fun i hi => ?_
  obtain ⟨hlhs, hrhs⟩ := hp.sides hc hi
  rw [statement, equation, look_getElem? _ (hp.cluster_members hc i hi) default]
  simp only [ok_bind, access_eq (hp.issuedLoops hc) hlhs, expr_eq (hp.issuedLoops hc) hrhs,
    pure_eq_ok]

theorem statements_resolve (hp : p.Issued) (hc : c < p.clusters.length) :
    ∀ n ∈ p.statements c, n.Resolves p.dims p.clusters.length := by
  intro n hn
  obtain ⟨i, hi, rfl⟩ := List.mem_map.mp hn
  obtain ⟨hlhs, hrhs⟩ := hp.sides hc hi
  exact ⟨Nest.access_issuedBy (hp.issuedLoops hc) hlhs, Nest.expr_issuedBy (hp.issuedLoops hc) hrhs,
    hc⟩

/-! ## Entering the tree -/

def enterLoop (p : Plan) (c : Nat) (dim : DimId) (last : Option Node) :
    Except Missing Plan.Entry := do
  match last with
  | some (.loop l body) =>
    if p.options.fusion && l.dim == dim then
      match ← joinLoop p l c with
      | .ok demand =>
        return .join body
          (.loop ⟨l.dim, l.bounds, l.direction, l.properties, l.clusters ++ [c], demand⟩)
      | .error note => return .new (.loop (← freshLoop p c dim)) [note]
    else return .new (.loop (← freshLoop p c dim)) []
  | _ => return .new (.loop (← freshLoop p c dim)) []

theorem enterLoop_eq (hc : c < p.clusters.length) {dim : DimId} (hd : p.dims.contains dim = true)
    {last : Option Node} (hlast : ∀ n ∈ last, n.Resolves p.dims p.clusters.length) :
    enterLoop p c dim last = .ok (p.enterLoop c dim last) := by
  have hfresh := freshLoop_eq hc hd
  match last, hlast with
  | none, _ | some (.guard _ _ _), _ | some (.statement _), _ =>
      rw [enterLoop, hfresh]
      · rfl
      · exact fun _ _ h => nomatch h
  | some (.loop l body), hlast =>
      obtain ⟨⟨hdim, -, hcs⟩, -⟩ := hlast _ rfl
      rw [enterLoop, Plan.enterLoop]
      split
      · rw [joinLoop_eq hc hdim hcs, ok_bind]
        cases p.joinLoop l c with
        | ok demand => rfl
        | error note => simp only [hfresh, ok_bind, pure_eq_ok]
      · simp only [hfresh, ok_bind, pure_eq_ok]

def enter (p : Plan) (c : Nat) (last : Option Node) : Plan.Step → Except Missing Plan.Entry
  | .loop dim => enterLoop p c dim last
  | .guard g => return p.enterGuard g last

theorem enter_eq (hc : c < p.clusters.length) {last : Option Node}
    (hlast : ∀ n ∈ last, n.Resolves p.dims p.clusters.length) :
    ∀ {step : Plan.Step}, step.IssuedBy p.dims → enter p c last step = .ok (p.enter c last step)
  | .loop _, h => enterLoop_eq hc h hlast
  | .guard _, _ => rfl

/-- The numbers in the node around a body are in range if those in the body are. -/
def Surrounds (t : DimTable) (k : Nat) (around : List Node → Node) : Prop :=
  ∀ {body : List Node}, Node.ResolvesAll t k body → (around body).Resolves t k

/-- Where a step leads, numbers are in range. -/
def Entry.Resolves (t : DimTable) (k : Nat) : Plan.Entry → Prop
  | .join body around => Node.ResolvesAll t k body ∧ Surrounds t k around
  | .new around _ => Surrounds t k around

theorem enter_resolves (hc : c < p.clusters.length) {last : Option Node}
    (hlast : ∀ n ∈ last, n.Resolves p.dims p.clusters.length) {step : Plan.Step}
    (h : step.IssuedBy p.dims) : Entry.Resolves p.dims p.clusters.length (p.enter c last step) := by
  cases step with
  | loop dim =>
      rw [Plan.enter]
      rcases Plan.enterLoop_cases p c dim last with
        ⟨l, body, demand, rfl, -, -, -, heq⟩ | ⟨⟨notes, heq⟩, -⟩
      · obtain ⟨⟨hdim, hbounds, hcs⟩, hbody⟩ := hlast _ rfl
        rw [heq]
        refine ⟨hbody, fun hinner => ⟨⟨hdim, hbounds, fun a ha => ?_⟩, hinner⟩⟩
        rcases List.mem_append.mp ha with ha | ha
        · exact hcs a ha
        · exact List.mem_singleton.mp ha ▸ hc
      · rw [heq]
        refine fun hinner => ⟨⟨h, p.dims.interval_issuedBy dim, fun a ha => ?_⟩, hinner⟩
        exact List.mem_singleton.mp ha ▸ hc
  | guard g =>
      rw [Plan.enter]
      rcases Plan.enterGuard_cases p g last with ⟨e, ds, body, rfl, -, -, heq⟩ | ⟨heq, -⟩
      · obtain ⟨he, hbody⟩ := hlast _ rfl
        rw [heq]
        exact ⟨hbody, fun hinner => ⟨he, hinner⟩⟩
      · rw [heq]
        exact fun hinner => ⟨h, hinner⟩

/-- The nodes after a cluster has entered along a way, and notes. -/
def insert (p : Plan) (c : Nat) :
    List Plan.Step → List Node → Except Missing (List Node × List Note)
  | [], nodes => return (nodes ++ (← statements p c), [])
  | step :: rest, nodes => do
    match ← enter p c nodes.getLast? step with
    | .join body around =>
      let (body, notes) ← insert p c rest body
      return (nodes.dropLast ++ [around body], notes)
    | .new around before =>
      let (body, notes) ← insert p c rest []
      return (nodes ++ [around body], before ++ notes)

theorem insert_resolves (hp : p.Issued) (hc : c < p.clusters.length) :
    ∀ {steps : List Plan.Step} {nodes : List Node}, (∀ step ∈ steps, step.IssuedBy p.dims) →
      Node.ResolvesAll p.dims p.clusters.length nodes →
        Node.ResolvesAll p.dims p.clusters.length (p.insert c steps nodes).1
  | [], nodes, _, hn => by
      rw [Node.resolvesAll_iff] at hn ⊢
      exact List.forall_mem_append.mpr ⟨hn, statements_resolve hp hc⟩
  | step :: rest, nodes, hs, hn => by
      obtain ⟨hstep, hrest⟩ := List.forall_mem_cons.mp hs
      have hall := Node.resolvesAll_iff.mp hn
      have henter := enter_resolves hc (fun n hm => hall n (List.mem_of_getLast? hm)) hstep
      rw [Plan.insert]
      cases hent : p.enter c nodes.getLast? step with
      | join body around =>
          rw [hent] at henter
          have hinner := insert_resolves hp hc hrest henter.1
          refine Node.resolvesAll_iff.mpr (List.forall_mem_append.mpr ⟨fun n hm => ?_, ?_⟩)
          · exact hall n (List.dropLast_subset _ hm)
          · exact List.forall_mem_singleton.mpr (henter.2 hinner)
      | new around before =>
          rw [hent] at henter
          have hinner := insert_resolves hp hc hrest Node.resolvesAll_nil
          refine Node.resolvesAll_iff.mpr (List.forall_mem_append.mpr ⟨hall, ?_⟩)
          exact List.forall_mem_singleton.mpr (henter hinner)

theorem insert_eq (hp : p.Issued) (hc : c < p.clusters.length) :
    ∀ {steps : List Plan.Step} {nodes : List Node}, (∀ step ∈ steps, step.IssuedBy p.dims) →
      Node.ResolvesAll p.dims p.clusters.length nodes →
        insert p c steps nodes = .ok (p.insert c steps nodes)
  | [], nodes, _, _ => by
      rw [insert, statements_eq hp hc]
      rfl
  | step :: rest, nodes, hs, hn => by
      obtain ⟨hstep, hrest⟩ := List.forall_mem_cons.mp hs
      have hlast : ∀ n ∈ nodes.getLast?, n.Resolves p.dims p.clusters.length := fun n hm =>
        Node.resolvesAll_iff.mp hn n (List.mem_of_getLast? hm)
      have henter := enter_resolves hc hlast hstep
      rw [insert, enter_eq hc hlast hstep, ok_bind, Plan.insert]
      cases hent : p.enter c nodes.getLast? step with
      | join body around =>
          rw [hent] at henter
          simp only [insert_eq hp hc hrest henter.1, ok_bind, pure_eq_ok]
      | new around before =>
          simp only [insert_eq hp hc hrest Node.resolvesAll_nil, ok_bind, pure_eq_ok]

/-- The tree after clusters have entered it, and notes. -/
def insertAll (p : Plan) (nodes : List Node) (cs : List Nat) :
    Except Missing (List Node × List Note) :=
  cs.foldlM (fun (nodes, notes) c => do
    let (nodes, more) ← insert p c (← steps p c) nodes
    return (nodes, notes ++ more)) (nodes, [])

/-- The tree before directions are settled, and notes. -/
def layout (p : Plan) : Except Missing (List Node × List Note) := insertAll p [] p.clusterIds

theorem layout_resolves (hp : p.Issued) :
    Node.ResolvesAll p.dims p.clusters.length p.layout.1 := by
  refine List.foldlRecOn (motive := fun (s : List Node × List Note) =>
    Node.ResolvesAll p.dims p.clusters.length s.1) p.clusterIds _ Node.resolvesAll_nil
    fun s hs c hc => ?_
  have hc := List.mem_range.mp hc
  exact insert_resolves hp hc (step_issuedBy hp hc) hs

theorem layout_eq (hp : p.Issued) : layout p = .ok p.layout := by
  refine foldlM_eq_ok (P := fun (s : List Node × List Note) =>
    Node.ResolvesAll p.dims p.clusters.length s.1) (fun c hc s hs => ?_) Node.resolvesAll_nil
  have hc := List.mem_range.mp hc
  have hsteps := step_issuedBy hp hc
  refine ⟨?_, insert_resolves hp hc hsteps hs⟩
  simp only [steps_eq hp hc, insert_eq hp hc hsteps hs, ok_bind, pure_eq_ok]

/-! ## Directions and properties -/

/-- Every displacement along a root in equations is known. -/
def areAffine (t : DimTable) (es : List Lowered) (top : DimId) : Except Missing Bool :=
  es.allM fun e => do
    (e.write :: (← reads t e)).allM fun a => do
      let along ← a.indices.filterM fun i => return (← root t i.dim) == top
      return along.all fun i => i.fixed?.isSome

theorem areAffine_eq {t : DimTable} {es : List Lowered} (h : ∀ e ∈ es, e.IssuedBy t)
    (top : DimId) : areAffine t es top = .ok (Lowered.areAffine t es top) := by
  refine allM_eq_ok fun e he => ?_
  rw [reads_eq (h e he), ok_bind]
  refine allM_eq_ok fun a ha => ?_
  have halong : (a.indices.filterM fun i => return (← root t i.dim) == top) =
      .ok (a.indices.filter fun i => t.root i.dim == top) :=
    filterM_eq_ok fun i hi => by rw [root_eq ((h e he).indexed a ha i hi)]; rfl
  rw [halong]
  rfl

/-- What is known of a loop with a body. -/
def level (p : Plan) (l : Loop) (body : List Node) : Except Missing Level := do
  let top ← root p.dims l.dim
  let members ← (← equationsOf p l.clusters).mapM (equation p.equations)
  return ⟨← areAffine p.dims members top, (Node.loopsOf body).isEmpty, ← isTimeLike p.dims top⟩

theorem level_eq (hp : p.Issued) {l : Loop} (hd : p.dims.contains l.dim = true)
    (hcs : ∀ a ∈ l.clusters, a < p.clusters.length) (body : List Node) :
    level p l body = .ok (p.level l body) := by
  have hlt := hp.mem_equationsOf hcs
  have hmembers : (p.equationsOf l.clusters).mapM (equation p.equations) =
      .ok ((p.equationsOf l.clusters).map fun i => p.equations.getD i default) :=
    mapM_eq_ok_map fun i hi => look_getElem? _ (hlt i hi) _
  have hissued : ∀ e ∈ (p.equationsOf l.clusters).map fun i => p.equations.getD i default,
      e.IssuedBy p.dims := by
    intro e he
    obtain ⟨i, hi, rfl⟩ := List.mem_map.mp he
    exact hp.equations _ (getD_mem (hlt i hi) _)
  rw [level, root_eq hd, ok_bind, equationsOf_eq hcs, ok_bind, hmembers, ok_bind,
    areAffine_eq hissued, ok_bind, isTimeLike_eq (DimTable.contains_root hd)]
  rfl

/-- The loop with its direction and properties, and its name for the reader. -/
def settleLoop (p : Plan) (l : Loop) (body : List Node) : Except Missing Loop := do
  let (direction, properties) := (← level p l body).judge l.demand p.options.vectorize
  let _ ← name p.dims l.dim
  return ⟨l.dim, l.bounds, direction, properties, l.clusters, l.demand⟩

theorem settleLoop_eq (hp : p.Issued) {l : Loop} (hd : p.dims.contains l.dim = true)
    (hcs : ∀ a ∈ l.clusters, a < p.clusters.length) (body : List Node) :
    settleLoop p l body = .ok (p.settleLoop l body) := by
  rw [settleLoop, level_eq hp hd hcs, ok_bind, name_eq hd]
  rfl

mutual

/-- The node with direction and properties of every loop. -/
def settle (p : Plan) : Node → Except Missing Node
  | .loop l body => return .loop (← settleLoop p l body) (← settleAll p body)
  | .guard e conditions body => return .guard e conditions (← settleAll p body)
  | .statement s => return .statement s

def settleAll (p : Plan) : List Node → Except Missing (List Node)
  | [] => return []
  | n :: ns => return (← settle p n) :: (← settleAll p ns)

end

mutual

theorem settle_eq (hp : p.Issued) : ∀ {n : Node}, n.Resolves p.dims p.clusters.length →
    settle p n = .ok (p.settle n)
  | .loop l body, h => by
      obtain ⟨⟨hd, -, hcs⟩, hbody⟩ := h
      rw [settle, settleLoop_eq hp hd hcs, ok_bind, settleAll_eq hp hbody]
      rfl
  | .guard e ds body, h => by
      rw [settle, settleAll_eq hp h.2]
      rfl
  | .statement _, _ => rfl

theorem settleAll_eq (hp : p.Issued) : ∀ {ns : List Node},
    Node.ResolvesAll p.dims p.clusters.length ns → settleAll p ns = .ok (p.settleAll ns)
  | [], _ => rfl
  | n :: ns, h => by
      rw [settleAll, settle_eq hp h.1, ok_bind, settleAll_eq hp h.2]
      rfl

end

mutual

/-- Settling leaves the numbers in a node as they are. -/
theorem settle_resolves : ∀ {n : Node}, n.Resolves p.dims p.clusters.length →
    (p.settle n).Resolves p.dims p.clusters.length
  | .loop _ _, h => ⟨h.1, settleAll_resolves h.2⟩
  | .guard _ _ _, h => ⟨h.1, settleAll_resolves h.2⟩
  | .statement _, h => h

theorem settleAll_resolves : ∀ {ns : List Node}, Node.ResolvesAll p.dims p.clusters.length ns →
    Node.ResolvesAll p.dims p.clusters.length (p.settleAll ns)
  | [], _ => trivial
  | _ :: _, h => ⟨settle_resolves h.1, settleAll_resolves h.2⟩

end

/-! ## The whole tree -/

def summary (p : Plan) (placements : List Placement) (c : Nat) :
    Except Missing ClusterSummary := do
  let own ← cluster p c
  let gs ← guardsOf p c
  return ⟨own.equations, own.signature, Plan.spaceOf placements c, gs.map Guard.predicate⟩

theorem summary_eq (hp : p.Issued) (hc : c < p.clusters.length) (placements : List Placement) :
    summary p placements c = .ok (p.summary placements c) := by
  rw [summary, cluster_eq hc, ok_bind, guardsOf_eq hp hc]
  rfl

/-- Each statement has a summary to which the loops around it are recorded. -/
def record (summaries : List ClusterSummary) (placements : List Placement) :
    Except Missing Unit :=
  placements.forM fun q => do
    let _ ← look (.summary q.statement.cluster) summaries[q.statement.cluster]?

/-- The schedule of a plan. -/
def tree (p : Plan) : Except Missing ScheduleTree := do
  let (nodes, _) ← layout p
  let roots ← settleAll p nodes
  let placements := Node.placementsOf roots
  let summaries ← p.clusterIds.mapM (summary p placements)
  record summaries placements
  let parameters ← flatMapM (parameters p.dims) p.dims.ids
  return ⟨roots, parameters.map (Plan.withStride p.options), summaries⟩

mutual

theorem cluster_lt_of_mem_placements {t : DimTable} {k : Nat} : ∀ {n : Node}, n.Resolves t k →
    ∀ q ∈ n.placements, q.statement.cluster < k
  | .loop _ _, h, q, hq => by
      obtain ⟨r, hr, rfl⟩ := List.mem_map.mp hq
      exact cluster_lt_of_mem_placementsOf h.2 r hr
  | .guard _ _ _, h, q, hq => by
      obtain ⟨r, hr, rfl⟩ := List.mem_map.mp hq
      exact cluster_lt_of_mem_placementsOf h.2 r hr
  | .statement _, h, q, hq => List.mem_singleton.mp hq ▸ h.2.2

theorem cluster_lt_of_mem_placementsOf {t : DimTable} {k : Nat} : ∀ {ns : List Node},
    Node.ResolvesAll t k ns → ∀ q ∈ Node.placementsOf ns, q.statement.cluster < k
  | [], _, q, hq => absurd hq List.not_mem_nil
  | _ :: _, h, q, hq => by
      rcases List.mem_append.mp hq with hq | hq
      · exact cluster_lt_of_mem_placements h.1 q hq
      · exact cluster_lt_of_mem_placementsOf h.2 q hq

end

theorem record_eq {summaries : List ClusterSummary} {placements : List Placement}
    (h : ∀ q ∈ placements, q.statement.cluster < summaries.length) :
    record summaries placements = .ok () := by
  refine forM_eq_ok.mpr fun q hq => ?_
  rw [look_getElem? _ (h q hq) default]
  rfl

/-- The numbers in a finished tree are in range. -/
theorem tree_resolves (hp : p.Issued) :
    Node.ResolvesAll p.dims p.clusters.length p.tree.roots :=
  settleAll_resolves (layout_resolves hp)

/-- A tree is built with checked lookups. -/
theorem tree_eq (hp : p.Issued) : tree p = .ok p.tree := by
  have hlayout := layout_resolves hp
  have hsummaries : p.clusterIds.mapM (summary p (Node.placementsOf p.tree.roots)) =
      .ok p.tree.clusters :=
    mapM_eq_ok_map fun c hc => summary_eq hp (List.mem_range.mp hc) _
  have hrecord : record p.tree.clusters (Node.placementsOf p.tree.roots) = .ok () := by
    refine record_eq fun q hq => ?_
    rw [Plan.tree, List.length_map, Plan.clusterIds, List.length_range]
    exact cluster_lt_of_mem_placementsOf (tree_resolves hp) q hq
  have hparameters : flatMapM (parameters p.dims) p.dims.ids =
      .ok (p.dims.ids.flatMap p.dims.parameters) :=
    flatMapM_eq_ok fun d hd => parameters_eq (DimTable.mem_ids_iff.mp hd)
  have hsettle : settleAll p p.layout.1 = .ok p.tree.roots := settleAll_eq hp hlayout
  rw [tree, layout_eq hp, ok_bind]
  simp only [hsettle, hsummaries, hrecord, hparameters, ok_bind, pure_eq_ok]
  rfl

end Checked

end LoopNest
