import LoopNest.Proofs.Hoisting
import Mathlib.Data.List.Pairwise
/-!
# Clusters on paths of their own

The way of a cluster leads through the loops of its signature, and where the guards ascend it meets
each of them once, in order (`Plan.guardsOn_stepsFrom`).  The tree lays each cluster at the end of
its way, so the loops and guards around a statement are those of its cluster, whatever they are
shared with (`Plan.Laid.of_mem_placementsOf`).  As each cluster is laid once, its statements have the
very same loops around them (`Plan.Laid.sameLoops`): what a summary reads off the first of them holds
of all.
-/

namespace LoopNest

open Lowered

theorem filter_beq_append_filter_le {α : Type} {f : α → Nat} {k : Nat} : ∀ {xs : List α},
    xs.Pairwise (fun x y => f x < f y) →
      (xs.filter fun x => f x == k) ++ (xs.filter fun x => decide (k + 1 ≤ f x)) =
        xs.filter fun x => decide (k ≤ f x)
  | [], _ => rfl
  | x :: xs, h => by
      obtain ⟨hx, hxs⟩ := List.pairwise_cons.mp h
      have ih := filter_beq_append_filter_le (k := k) hxs
      rcases Nat.lt_trichotomy (f x) k with hlt | rfl | hgt
      · rw [List.filter_cons_of_neg (by simp; omega), List.filter_cons_of_neg (by simp; omega),
          List.filter_cons_of_neg (by simp; omega), ih]
      · rw [List.filter_cons_of_pos (by simp), List.filter_cons_of_neg (by simp),
          List.filter_cons_of_pos (by simp), List.cons_append, ih]
      · have hnone : (xs.filter fun y => f y == k) = [] := by
          rw [List.filter_eq_nil_iff]
          intro y hy
          have := hx y hy
          simp
          omega
        rw [hnone, List.nil_append] at ih
        rw [List.filter_cons_of_neg (by simp; omega), hnone, List.nil_append,
          List.filter_cons_of_pos (by simp; omega), List.filter_cons_of_pos (by simp; omega), ih]

namespace Plan

variable {p : Plan} {program : Program}

/-! ## The guards on a way -/

theorem guardsOn_append (xs ys : List Step) : guardsOn (xs ++ ys) = guardsOn xs ++ guardsOn ys :=
  List.filterMap_append

theorem mem_guardsOn {steps : List Step} {g : Guard} :
    g ∈ guardsOn steps ↔ .guard g ∈ steps := by
  rw [guardsOn, List.mem_filterMap]
  constructor
  · rintro ⟨step, hs, heq⟩
    cases step with
    | loop d => cases heq
    | guard g' =>
        cases heq
        exact hs
  · intro hs
    exact ⟨_, hs, rfl⟩

theorem guardsOn_guardSteps (gs : List Guard) (level : Nat) :
    guardsOn (guardSteps gs level) = gs.filter fun g => g.level == level := by
  rw [guardsOn, guardSteps, List.filterMap_map]
  exact List.filterMap_some

/-- From a level on, a way through all loops meets the guards of that level and of all after it, in
their order. -/
theorem guardsOn_stepsFrom {gs : List Guard} (hasc : gs.Pairwise fun g h => g.level < h.level) :
    ∀ {level : Nat} {loops : List DimId}, (∀ g ∈ gs, g.level ≤ level + loops.length) →
      guardsOn (stepsFrom gs level loops) = gs.filter fun g => decide (level ≤ g.level)
  | level, [], h => by
      rw [stepsFrom, guardsOn_guardSteps]
      refine List.filter_congr fun g hg => ?_
      have : g.level ≤ level := h g hg
      rw [Bool.eq_iff_iff, beq_iff_eq, decide_eq_true_iff]
      omega
  | level, l :: ls, h => by
      have hrest : guardsOn (.loop l :: stepsFrom gs (level + 1) ls) =
          gs.filter fun g => decide (level + 1 ≤ g.level) := by
        refine (guardsOn_of_head?_loop rfl).trans (guardsOn_stepsFrom hasc fun g hg => ?_)
        have := h g hg
        rw [List.length_cons] at this
        omega
      rw [stepsFrom, guardsOn_append, guardsOn_guardSteps, hrest]
      exact filter_beq_append_filter_le hasc

/-- The way of a cluster meets the guards of the cluster. -/
theorem Sound.guardsOn_steps (h : p.Sound program) {c : Nat} (hc : c ∈ p.clusterIds) :
    guardsOn (p.steps c) = p.guardsOf c := by
  have hplaced := Guard.placed_of_ofCluster (h.ofCluster_guardsOf hc)
  rw [steps, guardsOn_stepsFrom hplaced.ascending fun g hg => ?_]
  · exact List.filter_eq_self.mpr fun g _ => decide_eq_true (Nat.zero_le _)
  · rw [Nat.zero_add]
    exact Guard.level_le_of_ofCluster (h.ofCluster_guardsOf hc) hg

theorem Sound.mem_steps (h : p.Sound program) {c : Nat} (hc : c ∈ p.clusterIds) {g : Guard} :
    Step.guard g ∈ p.steps c ↔ g ∈ p.guardsOf c := by
  rw [← mem_guardsOn, h.guardsOn_steps hc]

/-! ## One path for each cluster -/

/-- Statements of one cluster have the same loops around them. -/
def SameLoops (qs : List Placement) : Prop :=
  qs.Pairwise fun q r => q.statement.cluster = r.statement.cluster → q.loops = r.loops

theorem SameLoops.append {before own : List Nat} {qs rs : List Placement} (hq : SameLoops qs)
    (hr : SameLoops rs) (hn : (before ++ own).Nodup)
    (hbefore : ∀ q ∈ qs, q.statement.cluster ∈ before)
    (hown : ∀ r ∈ rs, r.statement.cluster ∈ own) : SameLoops (qs ++ rs) := by
  refine List.pairwise_append.mpr ⟨hq, hr, fun q hqm r hrm heq => ?_⟩
  exact absurd heq ((List.nodup_append.mp hn).2.2 _ (hbefore q hqm) _ (hown r hrm))

theorem SameLoops.eq_of_mem {qs : List Placement} (h : SameLoops qs) {q r : Placement} (hq : q ∈ qs)
    (hr : r ∈ qs) (heq : q.statement.cluster = r.statement.cluster) : q.loops = r.loops := by
  have : Std.Symm fun q r : Placement =>
      q.statement.cluster = r.statement.cluster → q.loops = r.loops :=
    ⟨fun _ _ h heq => (h heq.symm).symm⟩
  exact List.Pairwise.forall_of_forall (fun _ _ _ => rfl) h hq hr heq

namespace Laid

variable {ok : Loop → Prop} {way : Nat → List Step} {cs : List Nat} {ns : List Node}

theorem cluster_mem (h : Laid p ok way cs ns) {q : Placement} (hq : q ∈ Node.placementsOf ns) :
    q.statement.cluster ∈ cs :=
  h.mem_clusters_iff.mpr ⟨q, hq, rfl⟩

/-- As each cluster is laid once, its statements have the same loops around them. -/
theorem sameLoops (h : Laid p ok way cs ns) (hn : cs.Nodup) : SameLoops (Node.placementsOf ns) := by
  induction h with
  | nil => exact .nil
  | here hl _ _ ih =>
      rw [Node.placementsOf_append]
      refine (ih (List.nodup_append.mp hn).1).append ?_ hn (fun q hq => hl.cluster_mem hq) ?_
      · rw [placementsOf_statements]
        exact List.pairwise_map.mpr (List.pairwise_of_forall fun _ _ _ => rfl)
      · intro r hr
        rw [placementsOf_statements] at hr
        obtain ⟨i, _, rfl⟩ := List.mem_map.mp hr
        exact List.mem_singleton.mpr rfl
  | loop hl _ _ _ _ hbody ih ihbody =>
      rw [Node.placementsOf_append, Node.placementsOf, Node.placementsOf, List.append_nil,
        Node.placements]
      obtain ⟨hbefore, hown, _⟩ := List.nodup_append.mp hn
      refine (ih hbefore).append ?_ hn (fun q hq => hl.cluster_mem hq) ?_
      · exact List.pairwise_map.mpr ((ihbody hown).imp fun h heq => congrArg _ (h heq))
      · intro r hr
        obtain ⟨q, hq, rfl⟩ := List.mem_map.mp hr
        exact hbody.cluster_mem (q := q) hq
  | guard hl _ _ hbody ih ihbody =>
      rw [Node.placementsOf_append, Node.placementsOf, Node.placementsOf, List.append_nil,
        Node.placements]
      obtain ⟨hbefore, hown, _⟩ := List.nodup_append.mp hn
      refine (ih hbefore).append ?_ hn (fun q hq => hl.cluster_mem hq) ?_
      · exact List.pairwise_map.mpr ((ihbody hown).imp fun h heq => h heq)
      · intro r hr
        obtain ⟨q, hq, rfl⟩ := List.mem_map.mp hr
        exact hbody.cluster_mem (q := q) hq

end Laid

/-! ## Summaries -/

theorem spaceOf_eq {qs : List Placement} (h : SameLoops qs) {q : Placement} (hq : q ∈ qs) :
    spaceOf qs q.statement.cluster = q.loops := by
  rw [spaceOf]
  cases hfind : qs.find? fun r => r.statement.cluster == q.statement.cluster with
  | none =>
      have := List.find?_eq_none.mp hfind q hq
      simp at this
  | some r =>
      have hr : r.statement.cluster = q.statement.cluster := by simpa using List.find?_some hfind
      exact h.eq_of_mem (List.mem_of_find?_eq_some hfind) hq hr

theorem getElem?_clusters_tree (p : Plan) {c : Nat} (hc : c ∈ p.clusterIds) :
    p.tree.clusters[c]? = some (p.summary (Node.placementsOf p.tree.roots) c) := by
  have hlt := Sound.mem_clusterIds.mp hc
  rw [tree, List.getElem?_map, clusterIds, List.getElem?_range hlt]
  rfl

end Plan

/-- Predicates of the same trees are equal, unless one of them holds a constant that is no
number. -/
theorem beq_of_forall₂_alike {es fs : List Expr} (h : List.Forall₂ Expr.Alike es fs)
    (hself : ∀ f ∈ fs, (f == f) = true) : (es == fs) = true := by
  induction h with
  | nil => rfl
  | cons halike _ ih =>
      rw [List.cons_beq_cons, Bool.and_eq_true]
      refine ⟨?_, ih fun f hf => hself f (List.mem_cons_of_mem _ hf)⟩
      rcases halike with rfl | hbeq
      · exact hself _ List.mem_cons_self
      · exact hbeq

/-! ## Laid out trees -/

/-- A placement is where the summary of its cluster says. -/
structure Placement.Fits (q : Placement) (info : ClusterSummary) : Prop where
  equation : q.statement.equation ∈ info.equations
  loops : q.loops.map Loop.dim = info.signature.loops
  space : info.space = q.loops
  /-- A guard around several clusters has the predicate of the first of them. -/
  alike : List.Forall₂ Expr.Alike q.guards info.guards
  /-- A predicate with a constant that is no number differs from itself; others are equal. -/
  guards : (∀ e ∈ info.guards, (e == e) = true) → (q.guards == info.guards) = true

/-- The tree lays each cluster out on a path of its own, in order. -/
structure ScheduleTree.LaysOut (program : Program) (tree : ScheduleTree) : Prop where
  ordered : tree.statements.map Statement.equation =
    tree.clusters.flatMap ClusterSummary.equations
  every : (tree.statements.map Statement.equation).Perm (List.range program.equations.length)
  placed : ∀ q ∈ tree.placements, ∃ info,
    tree.clusters[q.statement.cluster]? = some info ∧ q.Fits info
  ascending : ∀ site ∈ Node.sitesOf tree.roots, site.loop.clusters.Pairwise (· < ·)
  holds : ∀ site ∈ Node.sitesOf tree.roots, ∀ c,
    c ∈ site.loop.clusters ↔ ∃ q ∈ Node.placementsOf site.body, q.statement.cluster = c

namespace Plan.Sound

variable {p : Plan} {program : Program}

theorem fits (h : p.Sound program) {q : Placement} (hq : q ∈ p.tree.placements) :
    ∃ info, p.tree.clusters[q.statement.cluster]? = some info ∧ q.Fits info := by
  obtain ⟨c, hc, i, hi, hst, hloops, hguards⟩ := h.laid.of_mem_placementsOf q hq
  obtain rfl : q.statement.cluster = c := congrArg Statement.cluster hst
  rw [h.guardsOn_steps hc] at hguards
  refine ⟨_, getElem?_clusters_tree p hc, ?_⟩
  refine ⟨?_, hloops.trans (dimsOf_steps p _), ?_, hguards, beq_of_forall₂_alike hguards⟩
  · rw [hst]
    exact hi
  · exact spaceOf_eq (h.laid.sameLoops List.nodup_range) hq

theorem laysOut (h : p.Sound program) : p.tree.LaysOut program := by
  have hequations : p.tree.statements.map Statement.equation = Cluster.members p.clusters :=
    h.equationsOf_eq
  have hsummaries : p.tree.clusters.flatMap ClusterSummary.equations =
      Cluster.members p.clusters := by
    rw [← members_eq, tree, List.flatMap_map]
    rfl
  refine ⟨hequations.trans hsummaries.symm, ?_, fun q hq => h.fits hq, fun site hs => ?_,
    fun site hs c => ?_⟩
  · rw [hequations, ← Program.length_lower h.lowered]
    exact h.members_perm
  · obtain ⟨_, _, _, hsub, _⟩ := h.laid.laid_of_mem_sitesOf site hs
    exact List.pairwise_lt_range.sublist hsub
  · obtain ⟨_, _, hbody, _⟩ := h.laid.laid_of_mem_sitesOf site hs
    exact hbody.mem_clusters_iff

end Plan.Sound

/-- A schedule lays every cluster out on its own path, in order. -/
theorem laysOut_of_schedule {program : Program} {options : Options} {tree : ScheduleTree}
    (hschedule : (program.schedule options).result = .ok tree) : tree.LaysOut program := by
  obtain ⟨p, hp, _, rfl⟩ := Program.sound_of_schedule hschedule
  exact hp.laysOut

/-- Two equations under one stride, of which one has a further loop and a further guard inside, and
one equation beside the guard. -/
def strips : Program where
  dims := (do
    let (t, x) ← DimTable.empty.space "x" (some 4)
    let (t, y) ← t.space "y" (some 4)
    let (t, even) ← t.conditional "even" x (some 2) none
    let (t, _) ← t.conditional "late" even none (some (.compare .ge (.dim y) (.symbol "s")))
    return t : Except ModelError DimTable).toOption.getD .empty
  scalars := ["s"]
  equations :=
    [⟨⟨"u", [.fixed ⟨3⟩ 0, .fixed ⟨1⟩ 0]⟩, .int 0, [], []⟩, ⟨⟨"v", [.fixed ⟨2⟩ 0]⟩, .int 0, [], []⟩,
      ⟨⟨"w", [.fixed ⟨0⟩ 0]⟩, .int 0, [], []⟩]

theorem laysOut_of_schedule_strips :
    ∃ tree, (strips.schedule default).result = .ok tree ∧
      tree.loops.map (fun l => (l.dim, l.clusters)) = [(⟨0⟩, [0, 1, 2]), (⟨1⟩, [0])] ∧
      tree.clusters.map (fun c => (c.equations, c.guards.map (Expr.text strips.dims))) =
        [([0], ["x % even_factor == 0", "y >= s"]), ([1], ["x % even_factor == 0"]), ([2], [])] ∧
      tree.LaysOut strips := by
  have facts : ∃ tree, (strips.schedule default).result = .ok tree ∧
      tree.loops.map (fun l => (l.dim, l.clusters)) = [(⟨0⟩, [0, 1, 2]), (⟨1⟩, [0])] ∧
      tree.clusters.map (fun c => (c.equations, c.guards.map (Expr.text strips.dims))) =
        [([0], ["x % even_factor == 0", "y >= s"]), ([1], ["x % even_factor == 0"]), ([2], [])] :=
    ⟨_, rfl, by decide +kernel, by decide +kernel⟩
  obtain ⟨tree, ht, hloops, hclusters⟩ := facts
  exact ⟨tree, ht, hloops, hclusters, laysOut_of_schedule ht⟩

/-- Two equations under a predicate with a constant that is no number. -/
def unordered : Program where
  dims := (do
    let (t, x) ← DimTable.empty.space "x" (some 4)
    let (t, _) ← t.space "y" (some 2)
    let (t, _) ← t.conditional "c" x none (some (.compare .lt (.float (0 / 0)) (.dim x)))
    return t : Except ModelError DimTable).toOption.getD .empty
  scalars := []
  equations :=
    [⟨⟨"u", [.fixed ⟨2⟩ 0]⟩, .int 1, [], []⟩,
      ⟨⟨"v", [.fixed ⟨2⟩ 0, .fixed ⟨1⟩ 0]⟩, .int 1, [], []⟩]

/-- Such a predicate differs from itself, so the guards around a statement need not equal those of
its cluster, nor one guard the next. -/
theorem not_beq_guards_unordered :
    ∃ tree, (unordered.schedule default).result = .ok tree ∧
      tree.gates.map Gate.conditions = [[⟨2⟩], [⟨2⟩]] ∧
      ¬∀ q ∈ tree.placements, ∃ info, tree.clusters[q.statement.cluster]? = some info ∧
        (q.guards == info.guards) = true := by
  have facts : ∃ tree, (unordered.schedule default).result = .ok tree ∧
      tree.gates.map Gate.conditions = [[⟨2⟩], [⟨2⟩]] ∧
      ∃ q ∈ tree.placements, ∀ info, tree.clusters[q.statement.cluster]? = some info →
        (q.guards == info.guards) = false := by
    refine ⟨_, rfl, by decide +kernel, _, List.mem_cons_self, ?_⟩
    rintro _ ⟨⟩
    decide +kernel
  obtain ⟨tree, ht, hgates, q, hq, hne⟩ := facts
  refine ⟨tree, ht, hgates, fun h => ?_⟩
  obtain ⟨info, hinfo, heq⟩ := h q hq
  rw [hne info hinfo] at heq
  cases heq

end LoopNest
