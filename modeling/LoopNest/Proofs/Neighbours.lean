import Mathlib.Data.List.Chain
import LoopNest.Proofs.EdgeOrder
/-!
# Neighbours that could not be one

With fusion a cluster joins the node next to which it would otherwise open another.  Whether it may
is decided for the equations that are there at that time, and the tree goes on growing; but only at
its end, so that the node to the left of a new one is finished when the new one is opened, and edges
that bar one cluster from it bar the clusters that come after too (`DependenceGraph.Bars.mono`).  So
in the finished tree any two neighbours are kept apart by what they are (`Node.Apart`), and likewise
any two clusters next to each other (`compact_of_schedule`).
-/

namespace LoopNest

open Lowered

/-! ## Edges that keep equations apart -/

/-- Edges along a root keep two groups of equations out of one loop: the distance between two of
them is not known, or both directions are demanded among them all. -/
def DependenceGraph.Bars (g : DependenceGraph) (root : DimId) (as bs : List Nat) : Prop :=
  (∃ e ∈ g.edges, e.carrier = .unknown root ∧ e.connects as bs = true) ∨
    ∀ d : Direction, ∃ e ∈ g.edges, e.carrier.root? = some root ∧
      e.isWithin (as ++ bs) = true ∧ e.carrier.direction? = some d

namespace DependenceGraph

variable {g : DependenceGraph} {root : DimId} {as bs : List Nat}

/-- What keeps groups apart keeps larger groups apart. -/
theorem Bars.mono (h : g.Bars root as bs) {more : List Nat} (hsub : bs ⊆ more) :
    g.Bars root as more := by
  have hwithin : ∀ e : Edge, e.isWithin (as ++ bs) = true → e.isWithin (as ++ more) = true := by
    intro e he
    simp only [Edge.isWithin, Bool.and_eq_true, List.contains_iff_mem, List.mem_append] at he ⊢
    exact ⟨he.1.imp_right (@hsub _), he.2.imp_right (@hsub _)⟩
  rcases h with ⟨e, he, hc, hconnects⟩ | h
  · refine Or.inl ⟨e, he, hc, ?_⟩
    simp only [Edge.connects, Bool.or_eq_true, Bool.and_eq_true, List.contains_iff_mem]
      at hconnects ⊢
    exact hconnects.imp (And.imp_right (@hsub _)) (And.imp_left (@hsub _))
  · refine Or.inr fun d => ?_
    obtain ⟨e, he, hroot, hw, hd⟩ := h d
    exact ⟨e, he, hroot, hwithin e hw, hd⟩

theorem bars_of_not_isSatisfiable
    (h : (Demand.among g (as ++ bs) root).isSatisfiable = false) : g.Bars root as bs := by
  obtain ⟨⟨x, hx, hxr, hxd⟩, ⟨y, hy, hyr, hyd⟩⟩ := Demand.isSatisfiable_ofEdges_eq_false.mp h
  refine Or.inr fun d => ?_
  cases d with
  | forward => exact ⟨x, (Demand.mem_within.mp hx).1, hxr, (Demand.mem_within.mp hx).2, hxd⟩
  | backward => exact ⟨y, (Demand.mem_within.mp hy).1, hyr, (Demand.mem_within.mp hy).2, hyd⟩

theorem bars_of_mem_between {e : Edge} (he : e ∈ g.between as bs)
    (hc : e.carrier = .unknown root) : g.Bars root as bs :=
  Or.inl ⟨e, (List.mem_filter.mp he).1, hc, (List.mem_filter.mp he).2⟩

end DependenceGraph

/-! ## Neighbouring nodes -/

namespace Node

mutual

/-- The lists of nodes next to each other inside a node. -/
def rows : Node → List (List Node)
  | .loop _ body | .guard _ _ body => body :: rowsOf body
  | .statement _ => []

def rowsOf : List Node → List (List Node)
  | [] => []
  | n :: ns => n.rows ++ rowsOf ns

end

theorem rowsOf_append (ns ms : List Node) : rowsOf (ns ++ ms) = rowsOf ns ++ rowsOf ms := by
  induction ns with
  | nil => rfl
  | cons n ns ih => rw [List.cons_append, rowsOf, rowsOf, ih, List.append_assoc]

/-- What keeps two nodes from being one: guards test different predicates, and loops run over
different dimensions or, in space, have equations that edges keep out of one loop. -/
def Apart (t : DimTable) (g : DependenceGraph) : Node → Node → Prop
  | .guard e _ _, .guard f _ _ => (e == f) = false
  | .loop l body, .loop m body' => l.dim = m.dim →
      t.isTimeLike (t.root l.dim) = false ∧
        g.Bars (t.root l.dim) (equationsOf body) (equationsOf body')
  | _, _ => True

/-- All neighbours among the nodes and inside them are kept apart. -/
def Compact (t : DimTable) (g : DependenceGraph) (ns : List Node) : Prop :=
  ∀ row ∈ ns :: rowsOf ns, row.IsChain (Apart t g)

variable {t : DimTable} {g : DependenceGraph} {ns : List Node}

theorem compact_nil : Compact t g [] := by
  intro row hr
  rw [List.mem_singleton.mp hr]
  exact .nil

theorem compact_concat {n : Node} : Compact t g (ns ++ [n]) ↔
    Compact t g ns ∧ (∀ m ∈ ns.getLast?, Apart t g m n) ∧
      ∀ row ∈ n.rows, row.IsChain (Apart t g) := by
  have hlast : (ns ++ [n]).IsChain (Apart t g) ↔
      ns.IsChain (Apart t g) ∧ ∀ m ∈ ns.getLast?, Apart t g m n := by
    rw [List.isChain_append]
    simp
  have hrows : rowsOf (ns ++ [n]) = rowsOf ns ++ n.rows := by
    rw [rowsOf_append, rowsOf, rowsOf, List.append_nil]
  simp only [Compact, List.forall_mem_cons, hrows, List.forall_mem_append, hlast]
  tauto

theorem Compact.of_append {ms : List Node} (h : Compact t g (ns ++ ms)) : Compact t g ns := by
  rw [Compact, rowsOf_append, List.forall_mem_cons, List.forall_mem_append] at h
  exact List.forall_mem_cons.mpr ⟨(List.isChain_append.mp h.1).1, h.2.1⟩

theorem Compact.of_mem {n : Node} {body : List Node} (h : Compact t g ns) (hn : n ∈ ns)
    (hrows : n.rows = body :: rowsOf body) : Compact t g body := by
  have hsub : ∀ {ms : List Node}, n ∈ ms → n.rows ⊆ rowsOf ms := by
    intro ms hm
    obtain ⟨before, after, rfl⟩ := List.append_of_mem hm
    rw [rowsOf_append, rowsOf]
    exact List.subset_append_of_subset_right _ (List.subset_append_left _ _)
  intro row hr
  exact h row (List.mem_cons_of_mem _ (hsub hn (hrows ▸ hr)))

theorem compact_append_statements (h : Compact t g ns) (ss : List Statement) :
    Compact t g (ns ++ ss.map .statement) := by
  induction ss using List.reverseRecOn with
  | nil => simpa using h
  | append_singleton ss s ih =>
      rw [List.map_append, ← List.append_assoc, List.map_singleton, compact_concat]
      refine ⟨ih, fun m _ => ?_, fun row hr => absurd hr List.not_mem_nil⟩
      cases m <;> trivial

theorem Apart.of_loop {m : Node} {l l' : Loop} {body body' : List Node}
    (h : Apart t g m (.loop l body)) (hdim : l'.dim = l.dim)
    (hsub : equationsOf body ⊆ equationsOf body') : Apart t g m (.loop l' body') := by
  cases m with
  | loop k inner =>
      intro heq
      obtain ⟨htime, hbars⟩ := h (heq.trans hdim)
      exact ⟨htime, hbars.mono hsub⟩
  | guard _ _ _ => trivial
  | statement _ => trivial

end Node

namespace Plan

variable {p : Plan} {program : Program} {c : Nat}

theorem equationsOf_statements (p : Plan) (c : Nat) :
    Node.equationsOf (p.statements c) = (p.cluster c).equations := by
  rw [Node.equationsOf, Laid.statementsOf_statements, List.map_map]
  exact List.map_id' _

theorem equationsOf_insert (p : Plan) (c : Nat) : ∀ (steps : List Step) (ns : List Node),
    Node.equationsOf (p.insert c steps ns).1 = Node.equationsOf ns ++ (p.cluster c).equations
  | [], ns => by rw [insert, Node.equationsOf_append, equationsOf_statements]
  | .loop dim :: rest, ns => by
      rw [insert, enter]
      rcases enterLoop_cases p c dim ns.getLast? with
        ⟨l, body, demand, hlast, _, _, _, hent⟩ | ⟨⟨notes, hent⟩, _⟩
      · obtain ⟨before, rfl⟩ := List.getLast?_eq_some_iff.mp hlast
        simp only [hent, List.dropLast_concat, Node.equationsOf_append, Node.equationsOf_loop,
          equationsOf_insert p c rest, List.append_assoc]
      · simp only [hent, Node.equationsOf_append, Node.equationsOf_loop,
          equationsOf_insert p c rest]
        rfl
  | .guard g :: rest, ns => by
      rw [insert, enter]
      rcases enterGuard_cases p g ns.getLast? with ⟨e, ds, body, hlast, _, _, hent⟩ | ⟨hent, _⟩
      · obtain ⟨before, rfl⟩ := List.getLast?_eq_some_iff.mp hlast
        simp only [hent, List.dropLast_concat, Node.equationsOf_append, Node.equationsOf_guard,
          equationsOf_insert p c rest, List.append_assoc]
      · simp only [hent, Node.equationsOf_append, Node.equationsOf_guard,
          equationsOf_insert p c rest]
        rfl

/-- A loop that a cluster may not join has equations that edges keep apart from the cluster's. -/
theorem bars_of_joinLoop {l : Loop} {note : Note} (hl : p.Coherent l)
    (h : p.joinLoop l c = .error note) :
    p.dims.isTimeLike (p.dims.root l.dim) = false ∧
      p.graph.Bars (p.dims.root l.dim) (p.equationsOf l.clusters) (p.cluster c).equations := by
  obtain ⟨htime, ⟨e, he, hc⟩ | hdemand⟩ := joinLoop_eq_error h
  · exact ⟨htime, DependenceGraph.bars_of_mem_between he hc⟩
  · rw [hl.demand htime, ← Demand.among_append] at hdemand
    exact ⟨htime, DependenceGraph.bars_of_not_isSatisfiable hdemand⟩

/-- What is compact stays so as one more cluster enters along its way. -/
theorem Laid.compact_insert {dims : List DimId} (hfusion : p.options.fusion = true)
    (hne : (p.cluster c).equations ≠ []) (hlasts : Lasts p p.Coherent c dims) :
    ∀ {steps : List Step} {way : Nat → List Step} {cs : List Nat} {ns : List Node},
      Laid p p.Coherent way cs ns → way c = steps → (∀ d ∈ dimsOf steps, d ∈ dims) →
      Node.Compact p.dims p.graph ns → Node.Compact p.dims p.graph (p.insert c steps ns).1
  | [], way, cs, ns, _, _, _, hcompact => by
      rw [Plan.insert, statements_eq_map]
      have hmap := Node.compact_append_statements hcompact
        ((p.cluster c).equations.map (p.statementOf c))
      rwa [List.map_map] at hmap
  | .loop dim :: rest, way, cs, ns, h, hw, hd, hcompact => by
      have hrest : ∀ d ∈ dimsOf rest, d ∈ dims := fun d hm => hd d (List.mem_cons_of_mem _ hm)
      have htail : (way c).tail = rest := by rw [hw]; rfl
      rw [Plan.insert, enter]
      rcases enterLoop_cases p c dim ns.getLast? with
        ⟨l, body, demand, hlast, _, rfl, hj, hent⟩ | ⟨⟨notes, hent⟩, hwhy⟩
      · obtain ⟨_, _, _, _, _, _, _, _, hbody⟩ := h.of_getLast?_loop hlast
        obtain ⟨before, rfl⟩ := List.getLast?_eq_some_iff.mp hlast
        obtain ⟨hbefore, hapart, hrows⟩ := Node.compact_concat.mp hcompact
        rw [hent, List.dropLast_concat]
        refine Node.compact_concat.mpr ⟨hbefore, fun m hm => ?_,
          compact_insert hfusion hne hlasts hbody htail hrest hrows⟩
        refine (hapart m hm).of_loop rfl ?_
        rw [equationsOf_insert]
        exact List.subset_append_left _ _
      · rw [hent]
        refine Node.compact_concat.mpr ⟨hcompact, fun m hm => ?_,
          compact_insert hfusion hne hlasts (.nil : Laid p p.Coherent (fun c => (way c).tail) [] [])
            htail hrest Node.compact_nil⟩
        cases m with
        | loop l body =>
            intro hdim
            obtain ⟨note, hnote⟩ := hwhy l body hm hfusion hdim
            obtain ⟨_, own, _, _, hown, _, hok, _, hbody⟩ := h.of_getLast?_loop hm
            obtain ⟨htime, hbars⟩ := bars_of_joinLoop hok hnote
            refine ⟨htime, ?_⟩
            rw [hown, show p.equationsOf own = _ from hbody.equationsOf_eq.symm] at hbars
            rwa [equationsOf_insert]
        | guard _ _ _ => trivial
        | statement _ => trivial
  | .guard g :: rest, way, cs, ns, h, hw, hd, hcompact => by
      have htail : (way c).tail = rest := by rw [hw]; rfl
      rw [Plan.insert, enter]
      rcases enterGuard_cases p g ns.getLast? with ⟨e, ds, body, hlast, _, _, hent⟩ | ⟨hent, hwhy⟩
      · obtain ⟨_, _, _, _, _, _, hbody⟩ := h.of_getLast?_guard hlast
        obtain ⟨before, rfl⟩ := List.getLast?_eq_some_iff.mp hlast
        obtain ⟨hbefore, hapart, hrows⟩ := Node.compact_concat.mp hcompact
        rw [hent, List.dropLast_concat]
        refine Node.compact_concat.mpr ⟨hbefore, fun m hm => ?_,
          compact_insert hfusion hne hlasts hbody htail hd hrows⟩
        have := hapart m hm
        cases m <;> exact this
      · rw [hent]
        refine Node.compact_concat.mpr ⟨hcompact, fun m hm => ?_,
          compact_insert hfusion hne hlasts (.nil : Laid p p.Coherent (fun c => (way c).tail) [] [])
            htail hd Node.compact_nil⟩
        cases m with
        | guard e ds body => exact hwhy e ds body hm hfusion
        | loop _ _ => trivial
        | statement _ => trivial

theorem compact_insertAll (h : p.Sound program) (hfusion : p.options.fusion = true)
    {cs done : List Nat} {ns : List Node} (hcs : ∀ c ∈ cs, c ∈ p.clusterIds)
    (hl : Laid p p.Coherent p.steps done ns) (hcompact : Node.Compact p.dims p.graph ns) :
    Node.Compact p.dims p.graph (p.insertAll ns cs).1 := by
  have hall : Laid p p.Coherent p.steps (done ++ cs) (p.insertAll ns cs).1 ∧
      Node.Compact p.dims p.graph (p.insertAll ns cs).1 := by
    refine foldl_induction (P := fun done (b : List Node × List Note) =>
      Laid p p.Coherent p.steps done b.1 ∧ Node.Compact p.dims p.graph b.1) ?_ ⟨hl, hcompact⟩
    intro c hc done b hb
    have hne := (h.cluster_sound (hcs c hc)).nonempty
    have hlasts := coherent_lasts h (hcs c hc)
    have hd : ∀ d ∈ dimsOf (p.steps c), d ∈ (p.cluster c).signature.loops := by
      intro d hd
      rwa [dimsOf_steps] at hd
    exact ⟨Laid.insert hne hlasts hb.1 rfl hd, hb.1.compact_insert hfusion hne hlasts rfl hd hb.2⟩
  exact hall.2

/-! ## The finished tree -/

mutual

theorem equationsOf_settle (p : Plan) : ∀ n : Node,
    Node.equationsOf [p.settle n] = Node.equationsOf [n]
  | .loop l body => by
      rw [settle, Node.equationsOf_loop, Node.equationsOf_loop, equationsOf_settleAll p body]
  | .guard e ds body => by
      rw [settle, Node.equationsOf_guard, Node.equationsOf_guard, equationsOf_settleAll p body]
  | .statement _ => rfl

theorem equationsOf_settleAll (p : Plan) : ∀ ns : List Node,
    Node.equationsOf (p.settleAll ns) = Node.equationsOf ns
  | [] => rfl
  | n :: ns => by
      rw [settleAll, Node.equationsOf_cons, Node.equationsOf_cons n, equationsOf_settle p n,
        equationsOf_settleAll p ns]

end

theorem apart_settle {m n : Node} (h : Node.Apart p.dims p.graph m n) :
    Node.Apart p.dims p.graph (p.settle m) (p.settle n) := by
  cases m <;> cases n <;> try exact h
  simp only [settle, Node.Apart, equationsOf_settleAll]
  exact h

mutual

theorem rows_settle (p : Plan) : ∀ n : Node, (p.settle n).rows = n.rows.map p.settleAll
  | .loop _ body | .guard _ _ body => congrArg (p.settleAll body :: ·) (rowsOf_settleAll p body)
  | .statement _ => rfl

theorem rowsOf_settleAll (p : Plan) : ∀ ns : List Node,
    Node.rowsOf (p.settleAll ns) = (Node.rowsOf ns).map p.settleAll
  | [] => rfl
  | n :: ns => by
      rw [settleAll, Node.rowsOf, Node.rowsOf, List.map_append, rows_settle p n,
        rowsOf_settleAll p ns]

end

theorem compact_settleAll {ns : List Node} (h : Node.Compact p.dims p.graph ns) :
    Node.Compact p.dims p.graph (p.settleAll ns) := by
  intro row hr
  rw [rowsOf_settleAll, ← List.map_cons] at hr
  obtain ⟨before, hb, rfl⟩ := List.mem_map.mp hr
  rw [settleAll_eq_map, List.isChain_map]
  exact (h before hb).imp fun _ _ => apart_settle

end Plan

/-! ## Neighbouring clusters -/

namespace Cluster

variable {t : DimTable} {g : DependenceGraph}

/-- What keeps two clusters from being one: they have different signatures, or equations that edges
keep out of one loop in space. -/
def Apart (t : DimTable) (g : DependenceGraph) (a b : Cluster) : Prop :=
  a.signature = b.signature → ∃ d ∈ a.signature.loops, t.isTimeLike (t.root d) = false ∧
    g.Bars (t.root d) a.equations b.equations

theorem bars_of_obstacle? {c : Cluster} {i : Nat} {note : Note}
    (h : obstacle? t g c i = some note) :
    ∃ d ∈ c.signature.loops, t.isTimeLike (t.root d) = false ∧
      g.Bars (t.root d) c.equations [i] := by
  obtain ⟨d, hd, h⟩ := List.exists_of_findSome?_eq_some h
  refine ⟨d, hd, ?_⟩
  simp only [obstacleAlong?] at h
  split at h
  · cases h
  · rename_i htime
    refine ⟨Bool.eq_false_iff.mpr htime, ?_⟩
    split at h
    · rename_i hany
      obtain ⟨e, he, hc⟩ := List.any_eq_true.mp hany
      exact DependenceGraph.bars_of_mem_between he (beq_iff_eq.mp hc)
    · split at h
      · rename_i hs
        exact DependenceGraph.bars_of_not_isSatisfiable (by simpa using hs)
      · cases h

/-- One more equation keeps neighbouring clusters apart, as a cluster that grows does. -/
theorem apart_add {s : Grouping} (h : s.clusters.IsChain (Apart t g))
    (hlast : s.last = none → s.clusters = []) (e : Lowered) :
    (Grouping.add t g s e).clusters.IsChain (Apart t g) := by
  rcases Grouping.add_clusters (t := t) (g := g) s e with
    ⟨heq, hwhy⟩ | ⟨before, c, hb, _, _, heq⟩
  · rw [heq, List.isChain_append]
    refine ⟨h, .singleton _, fun c hc d hd => ?_⟩
    cases hd
    have hc' : s.last = some c := by
      cases hs : s.last with
      | none =>
          rw [hlast hs] at hc
          cases hc
      | some c' =>
          rw [Grouping.clusters, hs, Option.toList_some, List.getLast?_concat] at hc
          exact hc
    intro hsig
    obtain ⟨note, hnote⟩ := hwhy c hc' hsig
    exact bars_of_obstacle? hnote
  · rw [hb, List.isChain_append] at h
    rw [heq, List.isChain_append]
    refine ⟨h.1, .singleton _, fun a ha b hb => ?_⟩
    cases hb
    intro hsig
    obtain ⟨d, hd, htime, hbars⟩ := h.2.2 a ha c rfl hsig
    exact ⟨d, hd, htime, hbars.mono (List.subset_append_left _ _)⟩

theorem apart_group (t : DimTable) (g : DependenceGraph) (es : List Lowered) :
    (group t g es).clusters.IsChain (Apart t g) := by
  have hall : (group t g es).clusters.IsChain (Apart t g) ∧
      ((group t g es).last = none → (group t g es).clusters = []) := by
    refine List.foldlRecOn (motive := fun s : Grouping => s.clusters.IsChain (Apart t g) ∧
      (s.last = none → s.clusters = [])) es (Grouping.add t g) ⟨.nil, fun _ => rfl⟩ ?_
    rintro s ⟨hchain, hnone⟩ e _
    refine ⟨apart_add hchain hnone e, fun hlast => ?_⟩
    obtain ⟨c, hc⟩ := Grouping.last_add (t := t) (g := g) s e
    rw [hlast] at hc
    cases hc
  exact hall.1

end Cluster

/-! ## Compact schedules -/

namespace ScheduleTree

/-- Neighbours of the tree, and clusters next to each other, could not be one. -/
structure Compact (t : DimTable) (g : DependenceGraph) (tree : ScheduleTree) : Prop where
  nodes : ∀ row ∈ tree.roots :: Node.rowsOf tree.roots, row.IsChain (Node.Apart t g)
  clusters : tree.clusters.IsChain fun a b => a.signature = b.signature →
    ∃ d ∈ a.signature.loops, t.isTimeLike (t.root d) = false ∧
      g.Bars (t.root d) a.equations b.equations

end ScheduleTree

theorem Plan.Sound.compact {p : Plan} {program : Program} (h : p.Sound program)
    (hfusion : p.options.fusion = true) : p.tree.Compact p.dims p.graph where
  nodes := compact_settleAll
    (compact_insertAll h hfusion (fun c (hc : c ∈ p.clusterIds) => hc) Laid.nil Node.compact_nil)
  clusters := by
    have hbuild : p.clusters =
        (Cluster.group p.dims p.graph (Cluster.order p.graph p.equations)).clusters :=
      h.clusters.trans (if_pos hfusion)
    have hchain := Cluster.apart_group p.dims p.graph (Cluster.order p.graph p.equations)
    rw [← hbuild, ← map_cluster p, List.isChain_map] at hchain
    rw [tree, List.isChain_map]
    exact hchain

/-- With fusion no two neighbours of the tree could have been one node, and no two clusters next to
each other one cluster. -/
theorem compact_of_schedule {program : Program} {options : Options} {tree : ScheduleTree}
    {es : List Lowered} {g : DependenceGraph}
    (hschedule : (program.schedule options).result = .ok tree) (hfusion : options.fusion = true)
    (hlower : program.lower.result = .ok es)
    (hanalyze : (Lowered.analyze program.dims es).result = .ok g) :
    tree.Compact program.dims g := by
  obtain ⟨p, hp, rfl, rfl, rfl⟩ := Program.exists_plan_of_schedule hschedule hlower
  have hgraph := Program.analyze_eq_ok.mp hanalyze
  rw [← hp.dims] at hgraph ⊢
  cases hp.graph.symm.trans hgraph
  exact hp.compact hfusion

/-- Three neighbouring loops over one dimension: no direction suits the first two together, and the
distance between the last two is not known. -/
theorem compact_of_schedule_sweeps :
    ∃ tree es g, (sweeps.schedule default).result = .ok tree ∧ sweeps.lower.result = .ok es ∧
      (Lowered.analyze sweeps.dims es).result = .ok g ∧
      tree.loops.map (fun l => (l.dim, tree.equationsOf l.clusters)) =
        [(⟨0⟩, [0]), (⟨0⟩, [1]), (⟨0⟩, [2])] ∧
      tree.Compact sweeps.dims g := by
  have facts : ∃ tree es g, (sweeps.schedule default).result = .ok tree ∧
      sweeps.lower.result = .ok es ∧ (Lowered.analyze sweeps.dims es).result = .ok g ∧
      tree.loops.map (fun l => (l.dim, tree.equationsOf l.clusters)) =
        [(⟨0⟩, [0]), (⟨0⟩, [1]), (⟨0⟩, [2])] :=
    ⟨_, _, _, rfl, rfl, rfl, by decide +kernel⟩
  obtain ⟨tree, es, g, ht, hl, hg, hloops⟩ := facts
  exact ⟨tree, es, g, ht, hl, hg, hloops, compact_of_schedule ht rfl hl hg⟩

end LoopNest
