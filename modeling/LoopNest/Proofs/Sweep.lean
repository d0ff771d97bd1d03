import LoopNest.Proofs.Conflict
import LoopNest.Proofs.EdgeOrder
/-!
# Loops that a known distance runs through

A dependence is carried by the first loop along which its accesses are apart.  Where that is a loop
in space over a known distance, the loop runs in the direction of the distance and is sequential
(`sweeps_of_distance`).  A distance that is not known along a loop outside takes its place, and
hides the inner one.  Between two equations that does no harm if the outer loop is in space, as no
loop over it holds both; within one equation, or along time, the inner loop may end up parallel
(`not_sweeps_relaxation`).
-/

namespace LoopNest

open Lowered

/-- Every loop over the root that holds both equations is sequential and runs this way. -/
def ScheduleTree.Sweeps (t : DimTable) (tree : ScheduleTree) (root : DimId) (i j : Nat)
    (d : Direction) : Prop :=
  ∀ l ∈ tree.loops, t.root l.dim = root → i ∈ tree.equationsOf l.clusters →
    j ∈ tree.equationsOf l.clusters → l.properties.sequential = true ∧ l.direction = d

namespace Plan.Sound

variable {p : Plan} {program : Program}

/-- The loops over the root of a known distance run in its direction, where every root before is
one along which the accesses meet, or a root in space along which two equations are at no known
distance. -/
theorem sweeps (h : p.Sound program) {a b : Lowered} (ha : a ∈ p.equations) (hb : b ∈ p.equations)
    {q : AccessPair} (hq : Compares p.dims a b q) {root : DimId} {pre inner : List DimId}
    (hroots : commonRoots p.dims a b = pre ++ root :: inner)
    (hspace : p.dims.isTimeLike root = false) {d : Int} (hd : d ≠ 0)
    (hdist : q.first.distance? p.dims q.unindexed root q.second = some d)
    (hpre : ∀ s ∈ pre, q.first.distance? p.dims q.unindexed s q.second = some 0 ∨
      (q.first.distance? p.dims q.unindexed s q.second = none ∧ a ≠ b ∧
        p.dims.isTimeLike s = false)) :
    p.tree.Sweeps p.dims root a.index b.index (.ofDistance d) := by
  intro l hl hlroot hain hbin
  obtain ⟨site, hs, rfl⟩ := exists_site hl
  subst hlroot
  have hissued := (h.settled_of_mem_loops hl).issued
  rw [equationsOf_tree p hissued] at hain hbin
  obtain ⟨hsource, hsink, _⟩ := hq.spec
  obtain ⟨c, hc, hedge⟩ := hq.exists_edge h.graph h.numbered ha hb
  rcases AccessPair.carrier_of_zero_or_none fun s hs => (hpre s hs).imp_right And.left with
    hzero | ⟨s, hsp, hnone, hcs⟩
  · rw [hroots, AccessPair.carrier_append _ hzero, AccessPair.carrier_of_ne inner hd hdist] at hc
    have hroot := AccessPair.root?_of_carrierAt hc
    rcases AccessPair.carrierAt_eq_ok hc with ⟨htime, _⟩ | ⟨_, rfl⟩
    · rw [hspace] at htime
      cases htime
    · have hhonours := h.honours (hedge (Or.inr (by rw [hroot]; rfl)))
      rw [← equationsOf_tree p hissued, ← hsource] at hain
      rw [← equationsOf_tree p hissued, ← hsink] at hbin
      exact (hhonours.directed _ _ rfl site.loop hl rfl hain hbin).symm
  · -- The loop over `s` around this one would hold both, which an unknown distance rules out.
    exfalso
    rcases hpre s hsp with hzero | ⟨_, hab, hsspace⟩
    · rw [hnone] at hzero
      cases hzero
    · rw [h.outer_of_commonRoots hs ha hb hain hbin hroots] at hsp
      obtain ⟨o, ho, rfl⟩ := List.mem_map.mp hsp
      obtain ⟨hok, hao⟩ := (h.roots_of_mem_site hs ha hain).1 o ho
      obtain ⟨_, hbo⟩ := (h.roots_of_mem_site hs hb hbin).1 o ho
      refine h.carrier_ne_unknown ha hb hab hq hok hao hbo hsspace ?_
      rw [hroots]
      exact hcs _

end Plan.Sound

/-- Loops over the root of a known distance other than zero are sequential and run in its direction,
if every root before is one along which the accesses meet, or one in space along which two
equations are at no known distance. -/
theorem sweeps_of_distance {program : Program} {options : Options} {tree : ScheduleTree}
    {es : List Lowered} (hschedule : (program.schedule options).result = .ok tree)
    (hlower : program.lower.result = .ok es) {a b : Lowered} (ha : a ∈ es) (hb : b ∈ es)
    {q : AccessPair} (hq : Compares program.dims a b q) {root : DimId} {pre inner : List DimId}
    (hroots : commonRoots program.dims a b = pre ++ root :: inner)
    (hspace : program.dims.isTimeLike root = false) {d : Int} (hd : d ≠ 0)
    (hdist : q.first.distance? program.dims q.unindexed root q.second = some d)
    (hpre : ∀ s ∈ pre, q.first.distance? program.dims q.unindexed s q.second = some 0 ∨
      (q.first.distance? program.dims q.unindexed s q.second = none ∧ a ≠ b ∧
        program.dims.isTimeLike s = false)) :
    tree.Sweeps program.dims root a.index b.index (.ofDistance d) := by
  obtain ⟨p, hp, _, rfl, rfl⟩ := Program.exists_plan_of_schedule hschedule hlower
  rw [← hp.dims] at hq hroots hspace hdist hpre ⊢
  exact hp.sweeps ha hb hq hroots hspace hd hdist hpre

/-- One equation along `time` and `x`. -/
def overTime (target : Access) (source : Expr) : Program where
  dims := (do
    let (t, _) ← DimTable.empty.time "time" (some 2)
    let (t, _) ← t.space "x" (some 3)
    return t : Except ModelError DimTable).toOption.getD .empty
  scalars := []
  equations := [⟨target, source, [], []⟩]

/-- Each point takes the value of the next one at the same time. -/
def backSweep : Program :=
  overTime ⟨"u", [.fixed ⟨0⟩ 0, .fixed ⟨1⟩ 0]⟩ (.access "u" [.fixed ⟨0⟩ 0, .fixed ⟨1⟩ 1])

/-- Each point takes the value of the one before, in place at all times. -/
def relaxation : Program :=
  overTime ⟨"u", [.fixed ⟨1⟩ 0]⟩
    (.binary .add (.access "u" [.fixed ⟨1⟩ (-1)]) (.access "f" [.fixed ⟨0⟩ 0, .fixed ⟨1⟩ 0]))

theorem sweeps_of_distance_backSweep :
    ∃ tree es, (backSweep.schedule default).result = .ok tree ∧
      backSweep.lower.result = .ok es ∧
      tree.loops.map (fun l => (l.dim, tree.equationsOf l.clusters)) =
        [(⟨0⟩, [0]), (⟨1⟩, [0])] ∧
      ∃ e ∈ es, ∃ read ∈ e.readsOf backSweep.dims e.write.tensor,
        commonRoots backSweep.dims e e = [⟨0⟩] ++ ⟨1⟩ :: [] ∧
        e.write.distance? backSweep.dims (e.selfPair read).unindexed ⟨0⟩ read = some 0 ∧
        e.write.distance? backSweep.dims (e.selfPair read).unindexed ⟨1⟩ read = some (-1) ∧
        tree.Sweeps backSweep.dims ⟨1⟩ e.index e.index .backward := by
  have facts : ∃ tree es, (backSweep.schedule default).result = .ok tree ∧
      backSweep.lower.result = .ok es ∧
      tree.loops.map (fun l => (l.dim, tree.equationsOf l.clusters)) =
        [(⟨0⟩, [0]), (⟨1⟩, [0])] ∧
      ∃ e ∈ es, ∃ read ∈ e.readsOf backSweep.dims e.write.tensor,
        commonRoots backSweep.dims e e = [⟨0⟩] ++ ⟨1⟩ :: [] ∧
        e.write.distance? backSweep.dims (e.selfPair read).unindexed ⟨0⟩ read = some 0 ∧
        e.write.distance? backSweep.dims (e.selfPair read).unindexed ⟨1⟩ read = some (-1) :=
    ⟨_, _, rfl, rfl, rfl, by decide +kernel⟩
  obtain ⟨tree, es, ht, hl, hloops, e, he, read, hr, hroots, hzero, hd⟩ := facts
  refine ⟨tree, es, ht, hl, hloops, e, he, read, hr, hroots, hzero, hd, ?_⟩
  have hq : Compares backSweep.dims e e (e.selfPair read) := Or.inr ⟨rfl, read, hr, rfl⟩
  refine sweeps_of_distance ht hl he he hq hroots rfl (by decide) hd ?_
  intro s hs
  rw [List.mem_singleton.mp hs]
  exact Or.inl hzero

/-- Behind a loop along which the distance is not known, a known distance does not keep a loop from
being parallel. -/
theorem not_sweeps_relaxation :
    ∃ tree es, (relaxation.schedule default).result = .ok tree ∧
      relaxation.lower.result = .ok es ∧
      ∃ e ∈ es, ∃ read ∈ e.readsOf relaxation.dims e.write.tensor,
        commonRoots relaxation.dims e e = [⟨0⟩] ++ ⟨1⟩ :: [] ∧
        relaxation.dims.isTimeLike ⟨1⟩ = false ∧
        e.write.distance? relaxation.dims (e.selfPair read).unindexed ⟨0⟩ read = none ∧
        e.write.distance? relaxation.dims (e.selfPair read).unindexed ⟨1⟩ read = some 1 ∧
        ¬tree.Sweeps relaxation.dims ⟨1⟩ e.index e.index (.ofDistance 1) := by
  have facts : ∃ tree es, (relaxation.schedule default).result = .ok tree ∧
      relaxation.lower.result = .ok es ∧
      (∃ l ∈ tree.loops, relaxation.dims.root l.dim = ⟨1⟩ ∧ 0 ∈ tree.equationsOf l.clusters ∧
        l.properties.sequential = false ∧ l.properties.parallel = true) ∧
      ∃ e ∈ es, ∃ read ∈ e.readsOf relaxation.dims e.write.tensor, e.index = 0 ∧
        commonRoots relaxation.dims e e = [⟨0⟩] ++ ⟨1⟩ :: [] ∧
        e.write.distance? relaxation.dims (e.selfPair read).unindexed ⟨0⟩ read = none ∧
        e.write.distance? relaxation.dims (e.selfPair read).unindexed ⟨1⟩ read = some 1 :=
    ⟨_, _, rfl, rfl, by decide +kernel, by decide +kernel⟩
  obtain ⟨tree, es, ht, hl, ⟨l, hm, hroot, hin, hseq, _⟩, e, he, read, hr, hi, hroots, hnone, hd⟩ :=
    facts
  refine ⟨tree, es, ht, hl, e, he, read, hr, hroots, rfl, hnone, hd, fun hsweeps => ?_⟩
  rw [← hi] at hin
  have := (hsweeps l hm hroot hin hin).1
  rw [hseq] at this
  cases this

end LoopNest
