import LoopNest.Proofs.Conflict
import LoopNest.Proofs.EdgeOrder
/-!
# Elements that one equation writes over and over

Along a loop that the write of an equation does not index, every iteration writes the same elements.
The analysis looks for such a root from the outermost loop in and leaves an edge along the first
one, so the loop over it is sequential (`Plan.Sound.sequential_of_rewriteRoot`).  Along a loop that
the write does index, iterations write apart as long as the displacement along it is worth the same
in both.  `writesApart` puts the two together.

Two things are not covered, and not true.  Behind a first root that the write does not index, a
second one has no edge, and its loop may be parallel.  And no edge at all is left for a displacement
that is worth something else in each iteration.  `not_writesApart` has a program for each.
-/

namespace LoopNest

open Lowered

/-- Some index along a root is displaced by the same amount under two worths of the symbolic
displacements. -/
def Access.Steady (t : DimTable) (root : DimId) (worth worth' : Expr → Option Int)
    (a : Access) : Prop :=
  ∃ i ∈ a.indices, t.root i.dim = root ∧ i.shift? worth = i.shift? worth'

/-- No two iterations of the loop that may overlap write one element of the equation: the loop is
sequential if the write does not index it, and if it is parallel, iterations at equal values of the
loops outside write different elements. -/
structure Site.WritesApart (t : DimTable) (site : Site) (e : Lowered) : Prop where
  sequential : t.root site.loop.dim ∉ e.write.roots t →
    site.loop.properties.sequential = true ∧ site.loop.properties.parallel = false
  apart : site.loop.properties.parallel = true → ∀ {us : List Int} {v w : Int} {x y : Instance},
    v ≠ w → site.Runs us v x → site.Runs us w y → x.equation = e.index → y.equation = e.index →
      ∀ {worth worth' : Expr → Option Int},
        e.write.Steady t (t.root site.loop.dim) worth worth' →
          ∀ el, e.elementBy? worth t x.values e.write = some el →
            e.elementBy? worth' t y.values e.write ≠ some el

namespace Lowered

variable {t : DimTable} {e : Lowered}

theorem along?_eq_none_iff {a : Access} {root : DimId} :
    a.along? t root = none ↔ root ∉ a.roots t := by
  simp [Access.along?, Access.roots, List.find?_eq_none]

theorem rewriteRoot?_of_append {outer inner : List DimId} {root : DimId}
    (hroots : e.roots t = outer ++ root :: inner) (houter : ∀ r ∈ outer, r ∈ e.write.roots t)
    (hroot : root ∉ e.write.roots t) : e.rewriteRoot? t = some root := by
  rw [rewriteRoot?, hroots]
  refine List.find?_eq_some_iff_append.mpr ⟨?_, outer, inner, rfl, ?_⟩
  · rw [along?_eq_none_iff.mpr hroot]
    rfl
  · intro r hr
    have : e.write.along? t r ≠ none := mt along?_eq_none_iff.mp (not_not_intro (houter r hr))
    simpa using Option.ne_none_iff_isSome.mp this

end Lowered

namespace Plan.Sound

variable {p : Plan} {program : Program}

theorem rewriteEdge_mem (h : p.Sound program) {e : Lowered} (he : e ∈ p.equations) {root : DimId}
    (hroot : e.rewriteRoot? p.dims = some root) :
    (⟨e.index, e.index, e.write.tensor, .output, .unknown root⟩ : Edge) ∈ p.graph.edges := by
  obtain ⟨own, hown⟩ := selfEdges_of_graph h.graph he
  refine (mem_graph_iff h.graph _).mpr (Or.inl ⟨e, he, own, hown, ?_⟩)
  exact (mem_selfEdges_iff hown _).mpr (Or.inr (mem_rewriteEdges_iff.mpr ⟨root, hroot, rfl⟩))

/-- The loop over the first root that the write does not index runs forward and in sequence. -/
theorem sequential_of_rewriteRoot (h : p.Sound program) {e : Lowered} (he : e ∈ p.equations)
    {l : Loop} (hl : p.Settled l) (hin : e.index ∈ p.equationsOf l.clusters)
    (hroot : e.rewriteRoot? p.dims = some (p.dims.root l.dim)) :
    l.direction = .forward ∧ l.properties.sequential = true ∧ l.properties.parallel = false := by
  cases ht : p.dims.isTimeLike (p.dims.root l.dim) with
  | true => exact hl.of_timeLike ht
  | false =>
      obtain ⟨hdir, hprops⟩ := hl.of_edge ht (h.rewriteEdge_mem he hroot)
        (by simp [Edge.isWithin, hin]) rfl
      exact ⟨Option.some.inj hdir, hprops⟩

theorem writesApart (h : p.Sound program) {site : Site} (hs : site ∈ Node.sitesOf p.tree.roots)
    {e : Lowered} (he : e ∈ p.equations) (hin : e.index ∈ p.equationsOf site.loop.clusters)
    (hfirst : p.dims.root site.loop.dim ∈ e.write.roots p.dims ∨
      ∀ l ∈ site.outer, p.dims.root l.dim ∈ e.write.roots p.dims) :
    site.WritesApart p.dims e where
  sequential hroot := by
    obtain ⟨_, inner, hroots⟩ := h.roots_of_mem_site hs he hin
    have houter : ∀ r ∈ site.outer.map fun l => p.dims.root l.dim, r ∈ e.write.roots p.dims := by
      intro r hr
      obtain ⟨l, hl, rfl⟩ := List.mem_map.mp hr
      exact hfirst.resolve_left hroot l hl
    exact (h.sequential_of_rewriteRoot he (h.laid.of_mem_sitesOf site hs).1 hin
      (rewriteRoot?_of_append hroots houter hroot)).2
  apart _ us v w x y hvw hx hy hxe hye worth worth' hsteady el hel hel' := by
    obtain ⟨_, hpx⟩ := h.passes hs hx he hxe.symm
    obtain ⟨_, hpy⟩ := h.passes hs hy he hye.symm
    have hnodup := (h.shaped he).roots_nodup
    obtain ⟨i, hi, hroot, hshift⟩ := hsteady
    obtain ⟨n, hn⟩ := List.mem_iff_getElem?.mp hi
    obtain ⟨v', k, hv, hk, hc⟩ := coordinate_of_elementBy? hel hn
    obtain ⟨w', l, hw, hl, hc'⟩ := coordinate_of_elementBy? hel' hn
    rw [hroot, hpx.valueAt?_root hnodup] at hv
    rw [hroot, hpy.valueAt?_root hnodup] at hw
    cases hv
    cases hw
    obtain rfl : k = l := Option.some.inj (hk.symm.trans (hshift.trans hl))
    have hsum : v + k = w + k := Option.some.inj (hc.symm.trans hc')
    omega

end Plan.Sound

/-- A loop writes the elements of an equation apart if the equation's write indexes it, or indexes
all loops around it. -/
theorem writesApart_of_schedule {program : Program} {options : Options} {tree : ScheduleTree}
    {es : List Lowered} (hschedule : (program.schedule options).result = .ok tree)
    (hlower : program.lower.result = .ok es) {site : Site} (hs : site ∈ Node.sitesOf tree.roots)
    {e : Lowered} (he : e ∈ es) (hin : e.index ∈ tree.equationsOf site.loop.clusters)
    (hfirst : program.dims.root site.loop.dim ∈ e.write.roots program.dims ∨
      ∀ l ∈ site.outer, program.dims.root l.dim ∈ e.write.roots program.dims) :
    site.WritesApart program.dims e := by
  obtain ⟨p, hp, _, rfl, rfl⟩ := Program.exists_plan_of_schedule hschedule hlower
  rw [← hp.dims] at hfirst ⊢
  rw [Plan.Sound.equationsOf_tree p ((hp.laid.of_mem_sitesOf site hs).1).issued] at hin
  exact hp.writesApart hs he hin hfirst

/-- Sums along `y`, each kept at a place that is displaced by a scalar. -/
def displacedSums : Program :=
  overPlane ["k"]
    [⟨⟨"s", [.symbolic ⟨0⟩ (.symbol "k")]⟩, .access "f" [.fixed ⟨0⟩ 0, .fixed ⟨1⟩ 0], [], []⟩]

/-- A sum along `x` and `y`. -/
def wholeSum : Program :=
  overPlane [] [⟨⟨"s", []⟩, .access "f" [.fixed ⟨0⟩ 0, .fixed ⟨1⟩ 0], [], []⟩]

/-- Each point of `x` is displaced to the same place. -/
def collapse : Program :=
  overPlane [] [⟨⟨"u", [.symbolic ⟨0⟩ (.neg (.dim ⟨0⟩))]⟩, .int 1, [], []⟩]

/-- What an expression is worth where the loop over the first dimension has a value. -/
def worthAt (t : DimTable) (v : Int) (e : Expr) : Option Int :=
  (Scope.int ⟨t, [], [(⟨0⟩, v)]⟩ e).toOption

theorem writesApart_of_schedule_displacedSums :
    ∃ tree es, (displacedSums.schedule default).result = .ok tree ∧
      displacedSums.lower.result = .ok es ∧
      ∃ e ∈ es, e.write.roots displacedSums.dims = [⟨0⟩] ∧
      ∃ x ∈ Node.sitesOf tree.roots, ∃ y ∈ Node.sitesOf tree.roots,
        x.loop.dim = ⟨0⟩ ∧ x.loop.properties.parallel = true ∧ x.WritesApart displacedSums.dims e ∧
        y.loop.dim = ⟨1⟩ ∧ y.loop.properties.sequential = true := by
  have facts : ∃ tree es, (displacedSums.schedule default).result = .ok tree ∧
      displacedSums.lower.result = .ok es ∧
      ∃ e ∈ es, e.write.roots displacedSums.dims = [⟨0⟩] ∧
      ∃ x ∈ Node.sitesOf tree.roots, ∃ y ∈ Node.sitesOf tree.roots,
        x.loop.dim = ⟨0⟩ ∧ x.loop.properties.parallel = true ∧
        y.loop.dim = ⟨1⟩ ∧ y.outer.map (fun l => displacedSums.dims.root l.dim) = [⟨0⟩] ∧
        e.index ∈ tree.equationsOf x.loop.clusters ∧ e.index ∈ tree.equationsOf y.loop.clusters :=
    ⟨_, _, rfl, rfl, by decide +kernel⟩
  obtain ⟨tree, es, ht, hl, e, he, hroots, x, hx, y, hy, hxd, hpar, hyd, houter, hex, hey⟩ := facts
  have hxroot : displacedSums.dims.root x.loop.dim = ⟨0⟩ := by rw [hxd]; decide
  have hyroot : displacedSums.dims.root y.loop.dim = ⟨1⟩ := by rw [hyd]; decide
  have hyouter : ∀ l ∈ y.outer, displacedSums.dims.root l.dim ∈ e.write.roots displacedSums.dims := by
    intro l hm
    rw [hroots, ← houter]
    exact List.mem_map_of_mem hm
  refine ⟨tree, es, ht, hl, e, he, hroots, x, hx, y, hy, hxd, hpar,
    writesApart_of_schedule ht hl hx he hex (Or.inl ?_), hyd,
    ((writesApart_of_schedule ht hl hy he hey (Or.inr hyouter)).sequential ?_).1⟩
  · rw [hroots, hxroot]
    decide
  · rw [hroots, hyroot]
    decide

/-- The loop over `y` of a sum along both dimensions is parallel, and its iterations write one
element.  So is the loop over `x` that writes every point to one place. -/
theorem not_writesApart :
    (∃ tree es, (wholeSum.schedule default).result = .ok tree ∧ wholeSum.lower.result = .ok es ∧
      ∃ e ∈ es, ∃ site ∈ Node.sitesOf tree.roots,
        e.index ∈ tree.equationsOf site.loop.clusters ∧ site.loop.dim = ⟨1⟩ ∧
        wholeSum.dims.root site.loop.dim ∉ e.write.roots wholeSum.dims ∧
        site.loop.properties.parallel = true ∧ site.loop.properties.sequential = false ∧
        site.Runs [0] 0 ⟨0, [0, 0]⟩ ∧ site.Runs [0] 1 ⟨0, [0, 1]⟩ ∧
        Instance.Writes wholeSum.dims es ⟨0, [0, 0]⟩ ⟨"s", []⟩ ∧
        Instance.Writes wholeSum.dims es ⟨0, [0, 1]⟩ ⟨"s", []⟩) ∧
    ∃ tree es, (collapse.schedule default).result = .ok tree ∧ collapse.lower.result = .ok es ∧
      ∃ e ∈ es, ∃ site ∈ Node.sitesOf tree.roots,
        e.index ∈ tree.equationsOf site.loop.clusters ∧
        site.loop.properties.parallel = true ∧
        site.Runs [] 0 ⟨0, [0]⟩ ∧ site.Runs [] 1 ⟨0, [1]⟩ ∧
        e.elementBy? (worthAt collapse.dims 0) collapse.dims [0] e.write = some ⟨"u", [0]⟩ ∧
        e.elementBy? (worthAt collapse.dims 1) collapse.dims [1] e.write = some ⟨"u", [0]⟩ :=
  ⟨⟨_, _, rfl, rfl, by decide +kernel⟩, _, _, rfl, rfl, by decide +kernel⟩

end LoopNest
