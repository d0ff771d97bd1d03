import LoopNest.Proofs.Settled
/-!
# The tree honours every edge

An edge between two equations puts the statement of its source first.  Where their distance along
a root in space is not known, no loop over that root holds both.  Where an edge is carried along a
root in one direction, the loops over that root that hold both its ends run that way and are
sequential.  `honours_edge` says all three of the finished tree, whatever the options.
-/

namespace LoopNest

open Lowered

/-- All places of `a` in a list come before all places of `b`, and both have one. -/
def Precedes (xs : List Nat) (a b : Nat) : Prop :=
  a ∈ xs ∧ b ∈ xs ∧ ∀ i j : Nat, xs[i]? = some a → xs[j]? = some b → i < j

namespace ScheduleTree

/-- The equations of some clusters of a tree. -/
def equationsOf (tree : ScheduleTree) (cs : List Nat) : List Nat :=
  cs.flatMap fun c => (tree.clusters.getD c default).equations

/-- What an edge asks of a tree. -/
structure Honours (t : DimTable) (tree : ScheduleTree) (e : Edge) : Prop where
  ordered : e.isSelf = false →
    Precedes (tree.statements.map Statement.equation) e.source e.sink
  apart : e.isSelf = false → ∀ root, e.carrier = .unknown root → t.isTimeLike root = false →
    ∀ l ∈ tree.loops, t.root l.dim = root →
      ¬(e.source ∈ tree.equationsOf l.clusters ∧ e.sink ∈ tree.equationsOf l.clusters)
  directed : ∀ root d, e.carrier = .carried root d → ∀ l ∈ tree.loops, t.root l.dim = root →
    e.source ∈ tree.equationsOf l.clusters → e.sink ∈ tree.equationsOf l.clusters →
      l.direction = d ∧ l.properties.sequential = true

end ScheduleTree

theorem precedes_of_respects {g : DependenceGraph} {xs : List Nat} (h : Cluster.Respects g xs)
    {e : Edge} (he : e ∈ g.edges) (hself : e.isSelf = false) (hsource : e.source ∈ xs)
    (hsink : e.sink ∈ xs) : Precedes xs e.source e.sink := by
  refine ⟨hsource, hsink, fun i j hi hj => ?_⟩
  obtain ⟨hil, his⟩ := List.getElem?_eq_some_iff.mp hi
  obtain ⟨hjl, hjs⟩ := List.getElem?_eq_some_iff.mp hj
  rcases Nat.lt_trichotomy i j with hlt | rfl | hgt
  · exact hlt
  · have : e.source = e.sink := his.symm.trans hjs
    simp [Edge.isSelf, this] at hself
  · exact absurd ⟨his.symm, hjs.symm⟩ (List.pairwise_iff_getElem.mp h j i hjl hil hgt e he)

namespace Plan.Sound

variable {p : Plan} {program : Program}

theorem equationsOf_tree (p : Plan) {cs : List Nat} (h : ∀ c ∈ cs, c ∈ p.clusterIds) :
    p.tree.equationsOf cs = p.equationsOf cs := by
  refine List.flatMap_congr ?_
  intro c hc
  have hlt := mem_clusterIds.mp (h c hc)
  simp [tree, clusterIds, summary, List.getD_eq_getElem?_getD, hlt]

theorem mem_members (h : p.Sound program) {i : Nat} :
    i ∈ Cluster.members p.clusters ↔ i < p.equations.length := by
  rw [h.members_perm.mem_iff, List.mem_range]

theorem settled_of_mem_loops (h : p.Sound program) {l : Loop} (hl : l ∈ p.tree.loops) :
    p.Settled l :=
  h.laid.loops_ok l hl

theorem honours (h : p.Sound program) {e : Edge} (he : e ∈ p.graph.edges) :
    p.tree.Honours p.dims e := by
  have hends := source_lt_length h.graph h.numbered he
  refine ⟨fun hself => ?_, fun hself root hc ht l hl hroot => ?_,
    fun root d hc l hl hroot hsource hsink => ?_⟩
  · rw [show p.tree.statements.map Statement.equation = _ from h.equationsOf_eq]
    exact precedes_of_respects h.members_respects he hself (h.mem_members.mpr hends.1)
      (h.mem_members.mpr hends.2)
  · subst hroot
    have hl' := h.settled_of_mem_loops hl
    rw [equationsOf_tree p hl'.issued]
    have := (hl'.fusible ht).known e he hself hc
    simpa [Edge.isWithin] using this
  · subst hroot
    have hl' := h.settled_of_mem_loops hl
    rw [equationsOf_tree p hl'.issued] at hsource hsink
    exact hl'.direction_of_carried h he (by simp [Edge.isWithin, hsource, hsink]) hc

end Plan.Sound

/-- The tree of a program honours every edge of the program's graph. -/
theorem honours_edge {program : Program} {options : Options} {tree : ScheduleTree}
    {es : List Lowered} {g : DependenceGraph}
    (hschedule : (program.schedule options).result = .ok tree)
    (hlower : program.lower.result = .ok es)
    (hanalyze : (Lowered.analyze program.dims es).result = .ok g) {e : Edge} (he : e ∈ g.edges) :
    tree.Honours program.dims e := by
  obtain ⟨p, hp, _, rfl, rfl⟩ := Program.exists_plan_of_schedule hschedule hlower
  have hgraph := Program.analyze_eq_ok.mp hanalyze
  rw [← hp.dims] at hgraph ⊢
  cases hp.graph.symm.trans hgraph
  exact hp.honours he

/-- A sweep, a sweep the other way that reads it, and a gather at a distance that is not known. -/
def sweeps : Program where
  dims := match DimTable.empty.space "x" (some 8) with
    | .ok (t, _) => t
    | .error _ => .empty
  scalars := ["s"]
  equations :=
    let cell := fun (tensor : String) (shift : Int) => Expr.access tensor [.fixed ⟨0⟩ shift]
    [⟨⟨"u", [.fixed ⟨0⟩ 0]⟩, cell "u" (-1), [], []⟩,
     ⟨⟨"v", [.fixed ⟨0⟩ 0]⟩, cell "u" 1, [], []⟩,
     ⟨⟨"w", [.fixed ⟨0⟩ 0]⟩, .access "v" [.symbolic ⟨0⟩ (.symbol "s")], [], []⟩]

theorem honours_edge_sweeps :
    ∃ tree es g, (sweeps.schedule default).result = .ok tree ∧ sweeps.lower.result = .ok es ∧
      (Lowered.analyze sweeps.dims es).result = .ok g ∧
      g.edges.map Edge.carrier =
        [.carried ⟨0⟩ .forward, .carried ⟨0⟩ .backward, .unknown ⟨0⟩] ∧
      ∀ e ∈ g.edges, tree.Honours sweeps.dims e := by
  have hschedule : ∃ tree, (sweeps.schedule default).result = .ok tree := ⟨_, rfl⟩
  have hanalyze : ∃ es g, sweeps.lower.result = .ok es ∧
      (Lowered.analyze sweeps.dims es).result = .ok g ∧ g.edges.map Edge.carrier =
        [.carried ⟨0⟩ .forward, .carried ⟨0⟩ .backward, .unknown ⟨0⟩] := ⟨_, _, rfl, rfl, rfl⟩
  obtain ⟨tree, ht⟩ := hschedule
  obtain ⟨es, g, hl, hg, hedges⟩ := hanalyze
  exact ⟨tree, es, g, ht, hl, hg, hedges, fun e he => honours_edge ht hl hg he⟩

end LoopNest
