import LoopNest.Proofs.Conflict
/-!
# Parallel loops are independent

What one iteration of a parallel loop writes no other iteration writes or reads, as long as the
loops around it stand still.  A conflict would leave an edge along the loop, and a loop with an
edge along it is not tagged parallel.

The instances compared are all that stand in the body at some values of the loops, those that
bounds and guards rule out included.
-/

namespace LoopNest

open Lowered

namespace Plan.Sound

variable {p : Plan} {program : Program}

/-- Nothing that the analysis compares conflicts across iterations of a parallel loop. -/
theorem not_conflict_of_parallel (h : p.Sound program) (hreg : Regular p.dims p.equations)
    {site : Site} (hs : site ∈ Node.sitesOf p.tree.roots)
    (hpar : site.loop.properties.parallel = true) {us : List Int} {v w : Int} (hvw : v ≠ w)
    {x y : Instance} (hx : site.Runs us v x) (hy : site.Runs us w y) {a b : Lowered}
    (ha : a ∈ p.equations) (hax : a.index = x.equation) (hb : b ∈ p.equations)
    (hby : b.index = y.equation) {q : AccessPair} (hq : Compares p.dims a b q) {el : Element}
    (hf : a.element? p.dims x.values q.first = some el)
    (hsec : b.element? p.dims y.values q.second = some el) : False := by
  obtain ⟨_, _, _, _, _, c, hedge, hin, hroot, _⟩ :=
    h.edge_of_conflict hreg hs hvw hx hy ha hax hb hby hq hf hsec
  exact (h.laid.of_mem_sitesOf site hs).1.root?_ne_of_parallel hpar hedge hin hroot

theorem eq_of_write (h : p.Sound program) (hreg : Regular p.dims p.equations) {site : Site}
    (hs : site ∈ Node.sitesOf p.tree.roots) {us : List Int} {v w : Int} {x y : Instance}
    (hx : site.Runs us v x) (hy : site.Runs us w y) {a : Lowered} (ha : a ∈ p.equations)
    (hax : a.index = x.equation) (hay : a.index = y.equation) {el : Element}
    (hwx : a.element? p.dims x.values a.write = some el)
    (hwy : a.element? p.dims y.values a.write = some el) : v = w := by
  obtain ⟨_, hpx⟩ := h.passes hs hx ha hax
  obtain ⟨_, hpy⟩ := h.passes hs hy ha hay
  have hnodup := (h.shaped ha).roots_nodup
  have hroot := hreg.covered a ha _
    (hpx.mem_roots _ (List.mem_append_right _ (List.mem_singleton.mpr rfl)))
  have := valueAt?_eq_of_element? hwx hwy hroot
  rw [hpx.valueAt?_root hnodup, hpy.valueAt?_root hnodup] at this
  exact Option.some.inj this

theorem independent (h : p.Sound program) (hreg : Regular p.dims p.equations) {site : Site}
    (hs : site ∈ Node.sitesOf p.tree.roots) (hpar : site.loop.properties.parallel = true)
    {us : List Int} {v w : Int} (hvw : v ≠ w) {x y : Instance} (hx : site.Runs us v x)
    (hy : site.Runs us w y) {el : Element} (hwrite : x.Writes p.dims p.equations el) :
    ¬y.Touches p.dims p.equations (Lowered.accesses p.dims) el := by
  rintro ⟨b, hb, hby, second, hsecond, hsec⟩
  obtain ⟨a, ha, hax, first, hfirst, hf⟩ := hwrite
  obtain rfl : first = a.write := List.mem_singleton.mp hfirst
  have ht : a.write.tensor = second.tensor :=
    (element?_eq_some hf).1.symm.trans (element?_eq_some hsec).1
  rcases Nat.lt_trichotomy a.index b.index with hlt | heq | hgt
  · obtain ⟨_, hq⟩ :=
      exists_compares hlt (write_mem_accesses p.dims a) hsecond ht (Or.inl rfl)
    exact h.not_conflict_of_parallel hreg hs hpar hvw hx hy ha hax hb hby hq hf hsec
  · obtain rfl : a = b := h.numbered.eq_of_index_eq ha hb heq
    rcases List.mem_cons.mp hsecond with rfl | hread
    · exact hvw (h.eq_of_write hreg hs hx hy ha hax hby hf hsec)
    · have hq : Compares p.dims a a (a.selfPair second) :=
        Or.inr ⟨rfl, second, mem_readsOf.mpr ⟨hread, ht.symm⟩, rfl⟩
      exact h.not_conflict_of_parallel hreg hs hpar hvw hx hy ha hax hb hby hq hf hsec
  · obtain ⟨_, hq⟩ :=
      exists_compares hgt hsecond (write_mem_accesses p.dims a) ht.symm (Or.inr rfl)
    exact h.not_conflict_of_parallel hreg hs hpar hvw.symm hy hx hb hby ha hax hq hsec hf

end Plan.Sound

/-- In a regular program, what an instance writes in one iteration of a parallel loop no instance
of another iteration writes or reads, the loops outside at equal values. -/
theorem independent_of_parallel {program : Program} {options : Options} {tree : ScheduleTree}
    {es : List Lowered} (hschedule : (program.schedule options).result = .ok tree)
    (hlower : program.lower.result = .ok es) (hreg : Regular program.dims es) {site : Site}
    (hs : site ∈ Node.sitesOf tree.roots) (hpar : site.loop.properties.parallel = true)
    {us : List Int} {v w : Int} (hvw : v ≠ w) {x y : Instance} (hx : site.Runs us v x)
    (hy : site.Runs us w y) {el : Element} (hwrite : x.Writes program.dims es el) :
    ¬y.Writes program.dims es el ∧ ¬y.Reads program.dims es el := by
  obtain ⟨p, hp, _, rfl, rfl⟩ := Program.exists_plan_of_schedule hschedule hlower
  rw [← hp.dims] at hreg hwrite ⊢
  have hfree := hp.independent hreg hs hpar hvw hx hy hwrite
  constructor
  · rintro ⟨e, he, hey, access, ha, hel⟩
    exact hfree ⟨e, he, hey, access, List.mem_singleton.mp ha ▸ write_mem_accesses _ e, hel⟩
  · rintro ⟨e, he, hey, access, ha, hel⟩
    exact hfree ⟨e, he, hey, access, mem_accesses_of_mem_reads ha, hel⟩

/-- A sweep along one of two dimensions, and an equation that reads it in place. -/
def sweepAndCopy : Program where
  dims := (do
    let (t, _) ← DimTable.empty.space "x" (some 8)
    let (t, _) ← t.space "y" (some 8)
    return t : Except ModelError DimTable).toOption.getD .empty
  scalars := []
  equations :=
    let cell := fun (tensor : String) (shift : Int) =>
      Access.mk tensor [.fixed ⟨0⟩ shift, .fixed ⟨1⟩ 0]
    [⟨cell "u" 0, (cell "u" (-1)).toExpr, [], []⟩, ⟨cell "v" 0, (cell "u" 0).toExpr, [], []⟩]

theorem independent_of_parallel_sweepAndCopy :
    ∃ tree es, (sweepAndCopy.schedule default).result = .ok tree ∧
      sweepAndCopy.lower.result = .ok es ∧ Regular sweepAndCopy.dims es ∧
      ∃ site ∈ Node.sitesOf tree.roots, site.loop.properties.parallel = true ∧
        site.Runs [3] 1 ⟨0, [3, 1]⟩ ∧ site.Runs [3] 2 ⟨1, [3, 2]⟩ ∧
        Instance.Writes sweepAndCopy.dims es ⟨0, [3, 1]⟩ ⟨"u", [3, 1]⟩ ∧
        ¬Instance.Writes sweepAndCopy.dims es ⟨1, [3, 2]⟩ ⟨"u", [3, 1]⟩ ∧
        ¬Instance.Reads sweepAndCopy.dims es ⟨1, [3, 2]⟩ ⟨"u", [3, 1]⟩ := by
  have facts : ∃ tree es, (sweepAndCopy.schedule default).result = .ok tree ∧
      sweepAndCopy.lower.result = .ok es ∧ Regular sweepAndCopy.dims es ∧
      Instance.Writes sweepAndCopy.dims es ⟨0, [3, 1]⟩ ⟨"u", [3, 1]⟩ ∧
      ∃ site ∈ Node.sitesOf tree.roots, site.loop.properties.parallel = true ∧
        site.outer.length = 1 ∧
        (∃ q ∈ Node.placementsOf site.body, q.statement.equation = 0 ∧ q.loops.length = 0) ∧
        ∃ q ∈ Node.placementsOf site.body, q.statement.equation = 1 ∧ q.loops.length = 0 :=
    ⟨_, _, rfl, rfl, by decide +kernel, by decide +kernel, by decide +kernel⟩
  obtain ⟨tree, es, ht, hl, hreg, hw, site, hs, hpar, houter, ⟨q, hq, hq0, hql⟩, r, hr, hr1, hrl⟩ :=
    facts
  have hx : site.Runs [3] 1 ⟨0, [3, 1]⟩ := ⟨houter.symm, q, hq, ⟨0, []⟩, ⟨hq0.symm, hql.symm⟩, rfl⟩
  have hy : site.Runs [3] 2 ⟨1, [3, 2]⟩ := ⟨houter.symm, r, hr, ⟨1, []⟩, ⟨hr1.symm, hrl.symm⟩, rfl⟩
  exact ⟨tree, es, ht, hl, hreg, site, hs, hpar, hx, hy, hw,
    independent_of_parallel ht hl hreg hs hpar (by decide) hx hy hw⟩

end LoopNest
