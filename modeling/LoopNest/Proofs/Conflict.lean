import LoopNest.Proofs.Element
/-!
# Conflicting accesses inside one loop

Two accesses conflict if they touch one element and one of them writes it.  The analysis compares
any two that may conflict, so each conflict leaves an edge.  `Plan.Sound.edge_of_conflict` is what
independence and order both start from: where the instances of a conflict part at a loop of the
finished tree, the edge runs along that loop, at the distance of the two instances.
-/

namespace LoopNest

/-- The distance assumed along a root that neither access indexes: an equation may meet itself at
any distance, two equations meet where they are. -/
def AccessPair.unindexed (p : AccessPair) : Option Int := if p.source = p.sink then none else some 0

namespace Lowered

variable {t : DimTable} {es : List Lowered} {g : DependenceGraph} {a b : Lowered}

/-- The analysis compares the accesses of the pair, the first by `a` and the second by `b`. -/
def Compares (t : DimTable) (a b : Lowered) (p : AccessPair) : Prop :=
  (a.index < b.index ∧ p ∈ crossPairs t a b) ∨
    (a = b ∧ ∃ read ∈ a.readsOf t a.write.tensor, p = a.selfPair read)

theorem mem_readsOf {tensor : String} {read : Access} :
    read ∈ a.readsOf t tensor ↔ read ∈ a.reads t ∧ read.tensor = tensor := by
  rw [readsOf, List.mem_filter, beq_iff_eq]

theorem write_mem_accesses (t : DimTable) (a : Lowered) : a.write ∈ a.accesses t :=
  List.mem_cons_self

theorem mem_accesses_of_mem_reads {read : Access} (h : read ∈ a.reads t) : read ∈ a.accesses t :=
  List.mem_cons_of_mem _ h

theorem exists_compares (hab : a.index < b.index) {first second : Access}
    (hf : first ∈ a.accesses t) (hs : second ∈ b.accesses t) (ht : first.tensor = second.tensor)
    (hw : first = a.write ∨ second = b.write) :
    ∃ kind, Compares t a b ⟨a.index, b.index, kind, first, second⟩ := by
  suffices h : ∃ kind, (⟨a.index, b.index, kind, first, second⟩ : AccessPair) ∈ crossPairs t a b by
    obtain ⟨kind, h⟩ := h
    exact ⟨kind, Or.inl ⟨hab, h⟩⟩
  have both (hfw : first = a.write) (hsw : second = b.write) :
      (⟨a.index, b.index, .output, first, second⟩ : AccessPair) ∈ crossPairs t a b := by
    refine List.mem_append_right _ ?_
    rw [if_pos (beq_iff_eq.mpr (hfw ▸ hsw ▸ ht)), hfw, hsw]
    exact List.mem_singleton.mpr rfl
  rcases hw with rfl | rfl
  · rcases List.mem_cons.mp hs with hs | hs
    · exact ⟨.output, both rfl hs⟩
    · exact ⟨.flow, List.mem_append_left _ (List.mem_append_left _
        (List.mem_map.mpr ⟨second, mem_readsOf.mpr ⟨hs, ht.symm⟩, rfl⟩))⟩
  · rcases List.mem_cons.mp hf with hf | hf
    · exact ⟨.output, both hf rfl⟩
    · exact ⟨.anti, List.mem_append_left _ (List.mem_append_right _
        (List.mem_map.mpr ⟨first, mem_readsOf.mpr ⟨hf, ht⟩, rfl⟩))⟩

theorem Compares.spec {p : AccessPair} (h : Compares t a b p) :
    p.source = a.index ∧ p.sink = b.index ∧ p.first ∈ a.accesses t ∧ p.second ∈ b.accesses t ∧
      p.first.tensor = p.second.tensor ∧ (p.first = a.write ∨ p.second = b.write) := by
  rcases h with ⟨_, h⟩ | ⟨rfl, read, hr, rfl⟩
  · rcases List.mem_append.mp h with h | h
    · rcases List.mem_append.mp h with h | h
      · obtain ⟨read, hr, rfl⟩ := List.mem_map.mp h
        obtain ⟨hr, ht⟩ := mem_readsOf.mp hr
        exact ⟨rfl, rfl, write_mem_accesses t a, mem_accesses_of_mem_reads hr, ht.symm, Or.inl rfl⟩
      · obtain ⟨read, hr, rfl⟩ := List.mem_map.mp h
        obtain ⟨hr, ht⟩ := mem_readsOf.mp hr
        exact ⟨rfl, rfl, mem_accesses_of_mem_reads hr, write_mem_accesses t b, ht, Or.inr rfl⟩
    · split at h
      · rename_i ht
        rw [List.mem_singleton.mp h]
        exact ⟨rfl, rfl, write_mem_accesses t a, write_mem_accesses t b, beq_iff_eq.mp ht,
          Or.inl rfl⟩
      · cases h
  · obtain ⟨hr, ht⟩ := mem_readsOf.mp hr
    exact ⟨rfl, rfl, write_mem_accesses t a, mem_accesses_of_mem_reads hr, ht.symm, Or.inl rfl⟩

theorem Compares.isSelf_toEdge {p : AccessPair} (h : Compares t a b p) (hne : a.index ≠ b.index)
    (c : Carrier) : (p.toEdge c).isSelf = false := by
  obtain ⟨hsource, hsink, _⟩ := h.spec
  show (p.source == p.sink) = false
  rw [hsource, hsink]
  exact beq_eq_false_iff_ne.mpr hne

theorem Compares.isWithin_toEdge {p : AccessPair} (h : Compares t a b p) {is : List Nat}
    (ha : a.index ∈ is) (hb : b.index ∈ is) (c : Carrier) : (p.toEdge c).isWithin is = true := by
  obtain ⟨hsource, hsink, _⟩ := h.spec
  simp [Edge.isWithin, AccessPair.toEdge, hsource, hsink, ha, hb]

theorem commonRoots_self (t : DimTable) (a : Lowered) : commonRoots t a a = a.roots t :=
  List.filter_eq_self.mpr fun _ hr => List.contains_iff_mem.mpr hr

/-- What the analysis compares leaves an edge, unless the accesses of one equation meet in one
iteration. -/
theorem Compares.exists_edge {p : AccessPair} (h : Compares t a b p) (hg : graph t es = .ok g)
    (hn : Numbered es) (ha : a ∈ es) (hb : b ∈ es) :
    ∃ c, p.carrier t p.unindexed (commonRoots t a b) = .ok c ∧
      (a ≠ b ∨ c.root?.isSome = true → p.toEdge c ∈ g.edges) := by
  rcases h with ⟨hab, h⟩ | ⟨rfl, read, hr, rfl⟩
  · obtain ⟨hsource, hsink⟩ := ends_of_mem_crossPairs h
    have hne : p.source ≠ p.sink := by
      rw [hsource, hsink]
      exact Nat.ne_of_lt hab
    obtain ⟨c, hc, he⟩ := exists_edge_of_mem_crossPairs hg hn ha hb hab h
    rw [AccessPair.unindexed, if_neg hne]
    exact ⟨c, hc, fun _ => he⟩
  · obtain ⟨c, hc, he⟩ := exists_edge_of_mem_readsOf hg ha hr
    rw [commonRoots_self, show (a.selfPair read).unindexed = none from if_pos rfl]
    exact ⟨c, hc, fun h => he (h.resolve_left fun h => h rfl)⟩

/-- In a regular program, accesses that are compared index every root that the loops of both
equations run along. -/
theorem Compares.mem_roots {p : AccessPair} (h : Compares t a b p) (hreg : Regular t es)
    (ha : a ∈ es) (hb : b ∈ es) {r : DimId} (hra : r ∈ a.roots t) (hrb : r ∈ b.roots t) :
    r ∈ p.first.roots t := by
  obtain ⟨_, _, hf, hs, ht, hw⟩ := h.spec
  rcases hw with hw | hw
  · rw [hw]
    exact hreg.covered a ha r hra
  · rw [hreg.aligned a ha _ hf b hb _ hs ht, hw]
    exact hreg.covered b hb r hrb

end Lowered

namespace Plan.Sound

open Lowered

variable {p : Plan} {program : Program}

theorem roots_of_mem_site (h : p.Sound program) {site : Site}
    (hs : site ∈ Node.sitesOf p.tree.roots) {e : Lowered} (he : e ∈ p.equations)
    (hin : e.index ∈ p.equationsOf site.loop.clusters) :
    (∀ l ∈ site.outer, p.Settled l ∧ e.index ∈ p.equationsOf l.clusters) ∧
      ∃ inner, e.roots p.dims =
        site.outer.map (fun l => p.dims.root l.dim) ++ p.dims.root site.loop.dim :: inner := by
  obtain ⟨c, hc, hi⟩ := List.mem_flatMap.mp hin
  obtain ⟨_, within, _, hsub, hsite⟩ := h.laid.laid_of_mem_sitesOf site hs
  obtain ⟨houter, hd⟩ := hsite c hc
  refine ⟨fun l hl => ?_, (dimsOf (within c)).map p.dims.root, ?_⟩
  · obtain ⟨hok, hcl⟩ := houter l hl
    exact ⟨hok, List.mem_flatMap.mpr ⟨c, hcl, hi⟩⟩
  · rw [dimsOf_steps, h.signature_eq (hsub.subset hc) he hi] at hd
    rw [roots, loops, hd, List.map_append, List.map_map]
    rfl

theorem holds_of_mem_loops (h : p.Sound program) {site : Site}
    (hs : site ∈ Node.sitesOf p.tree.roots) {e : Lowered} (he : e ∈ p.equations)
    (hin : e.index ∈ p.equationsOf site.loop.clusters) :
    ∀ l ∈ site.loops, p.Settled l ∧ e.index ∈ p.equationsOf l.clusters := by
  intro l hl
  rcases List.mem_append.mp hl with hl | hl
  · exact (h.roots_of_mem_site hs he hin).1 l hl
  · rw [List.mem_singleton.mp hl]
    exact ⟨(h.laid.of_mem_sitesOf site hs).1, hin⟩

theorem exists_site {l : Loop} (hl : l ∈ p.tree.loops) :
    ∃ site ∈ Node.sitesOf p.tree.roots, site.loop = l := by
  rw [ScheduleTree.loops, ← Node.map_loop_sitesOf] at hl
  exact List.mem_map.mp hl

theorem mem_loops_of_mem_sitesOf {site : Site} (hs : site ∈ Node.sitesOf p.tree.roots) :
    site.loop ∈ p.tree.loops := by
  rw [ScheduleTree.loops, ← Node.map_loop_sitesOf]
  exact List.mem_map_of_mem hs

theorem loops_of_mem_sitesOf {site : Site} (hs : site ∈ Node.sitesOf p.tree.roots) :
    site.loops ⊆ p.tree.loops :=
  List.append_subset.mpr ⟨Node.outer_sitesOf _ site hs,
    List.cons_subset.mpr ⟨mem_loops_of_mem_sitesOf hs, List.nil_subset _⟩⟩

theorem outer_of_commonRoots (h : p.Sound program) {site : Site}
    (hs : site ∈ Node.sitesOf p.tree.roots) {a b : Lowered} (ha : a ∈ p.equations)
    (hb : b ∈ p.equations) (hain : a.index ∈ p.equationsOf site.loop.clusters)
    (hbin : b.index ∈ p.equationsOf site.loop.clusters) {pre inner : List DimId}
    (hroots : commonRoots p.dims a b = pre ++ p.dims.root site.loop.dim :: inner) :
    pre = site.outer.map fun l => p.dims.root l.dim := by
  obtain ⟨_, hpa⟩ := h.roots_of_mem_site hs ha hain
  obtain ⟨_, hpb⟩ := h.roots_of_mem_site hs hb hbin
  obtain ⟨inner', hroots'⟩ := commonRoots_of_prefix hpa hpb
  have hnodup : (commonRoots p.dims a b).Nodup := (h.shaped ha).roots_nodup.filter _
  rw [hroots] at hnodup
  obtain ⟨_, hinner, hpre⟩ := List.nodup_append.mp hnodup
  have hbefore : p.dims.root site.loop.dim ∉ pre := by
    intro hm
    exact hpre _ hm _ List.mem_cons_self rfl
  have hafter : p.dims.root site.loop.dim ∉ inner := (List.nodup_cons.mp hinner).1
  exact ((List.append_cons_inj_of_notMem hbefore hafter).mp (hroots.symm.trans hroots')).1

/-- No loop in space holds two equations that are at no known distance along it. -/
theorem carrier_ne_unknown (h : p.Sound program) {a b : Lowered} (ha : a ∈ p.equations)
    (hb : b ∈ p.equations) (hab : a ≠ b) {q : AccessPair} (hq : Compares p.dims a b q) {l : Loop}
    (hl : p.Settled l) (hain : a.index ∈ p.equationsOf l.clusters)
    (hbin : b.index ∈ p.equationsOf l.clusters)
    (hspace : p.dims.isTimeLike (p.dims.root l.dim) = false) :
    q.carrier p.dims q.unindexed (commonRoots p.dims a b) ≠ .ok (.unknown (p.dims.root l.dim)) := by
  intro hc
  obtain ⟨c, hc', hedge⟩ := hq.exists_edge h.graph h.numbered ha hb
  obtain rfl : c = .unknown (p.dims.root l.dim) := Except.ok.inj (hc'.symm.trans hc)
  have hne : a.index ≠ b.index := fun hi => hab (h.numbered.eq_of_index_eq ha hb hi)
  have hout := (hl.fusible hspace).known _ (hedge (Or.inl hab)) (hq.isSelf_toEdge hne _) rfl
  rw [hq.isWithin_toEdge hain hbin] at hout
  cases hout

/-- Along a loop in space that holds two equations their distance is known, if it is zero along the
loops around it or at least along none of them another one. -/
theorem exists_distance (h : p.Sound program) {a b : Lowered} (ha : a ∈ p.equations)
    (hb : b ∈ p.equations) (hab : a ≠ b) {q : AccessPair} (hq : Compares p.dims a b q) {site : Site}
    (hs : site ∈ Node.sitesOf p.tree.roots) (hain : a.index ∈ p.equationsOf site.loop.clusters)
    (hbin : b.index ∈ p.equationsOf site.loop.clusters)
    (hspace : ∀ l ∈ site.loops, p.dims.isTimeLike (p.dims.root l.dim) = false)
    (houter : ∀ l ∈ site.outer,
      q.first.distance? p.dims q.unindexed (p.dims.root l.dim) q.second = some 0 ∨
        q.first.distance? p.dims q.unindexed (p.dims.root l.dim) q.second = none) :
    ∃ d, q.first.distance? p.dims q.unindexed (p.dims.root site.loop.dim) q.second = some d := by
  refine Option.ne_none_iff_exists'.mp fun hnone => ?_
  obtain ⟨_, hpa⟩ := h.roots_of_mem_site hs ha hain
  obtain ⟨_, hpb⟩ := h.roots_of_mem_site hs hb hbin
  obtain ⟨inner, hroots⟩ := commonRoots_of_prefix hpa hpb
  have hpre : commonRoots p.dims a b = site.loops.map (fun l => p.dims.root l.dim) ++ inner := by
    rw [hroots, Site.loops, List.map_append, List.append_assoc]
    rfl
  have hall : ∀ r ∈ site.loops.map fun l => p.dims.root l.dim,
      q.first.distance? p.dims q.unindexed r q.second = some 0 ∨
        q.first.distance? p.dims q.unindexed r q.second = none := by
    intro r hr
    obtain ⟨l, hl, rfl⟩ := List.mem_map.mp hr
    rcases List.mem_append.mp hl with hl | hl
    · exact houter l hl
    · rw [List.mem_singleton.mp hl]
      exact Or.inr hnone
  rcases AccessPair.carrier_of_zero_or_none hall with hzero | ⟨r, hr, _, hc⟩
  · have := hzero _ (List.mem_map_of_mem (List.mem_append_right _ (List.mem_singleton.mpr rfl)))
    rw [hnone] at this
    cases this
  · obtain ⟨l, hl, rfl⟩ := List.mem_map.mp hr
    obtain ⟨hok, hal⟩ := h.holds_of_mem_loops hs ha hain l hl
    obtain ⟨_, hbl⟩ := h.holds_of_mem_loops hs hb hbin l hl
    refine h.carrier_ne_unknown ha hb hab hq hok hal hbl (hspace l hl) ?_
    rw [hpre]
    exact hc inner

/-- An equation of which an instance runs inside a loop is one of the loop's clusters, and the values
of the instance begin with those of the loops around it. -/
theorem passes (h : p.Sound program) {site : Site} (hs : site ∈ Node.sitesOf p.tree.roots)
    {us : List Int} {v : Int} {x : Instance} (hx : site.Runs us v x) {e : Lowered}
    (he : e ∈ p.equations) (hex : e.index = x.equation) :
    e.index ∈ p.equationsOf site.loop.clusters ∧
      e.Passes p.dims (site.outer.map fun l => p.dims.root l.dim) (p.dims.root site.loop.dim)
        us v x.values := by
  obtain ⟨hlen, q, hq, y, ⟨heq, _⟩, rfl⟩ := hx
  obtain ⟨c, hc, hcl, i, hi, hst, hdims⟩ := (h.laid.of_mem_sitesOf site hs).2 q hq
  have hei : e.index = i := by
    rw [hex, show (y.within (us ++ [v])).equation = y.equation from rfl, heq, hst]
    rfl
  subst hei
  refine ⟨List.mem_flatMap.mpr ⟨c, hcl, hi⟩, by simpa using hlen,
    ⟨q.loops.map fun l => p.dims.root l.dim, ?_⟩, ⟨y.values, ?_⟩⟩
  · rw [dimsOf_steps, h.signature_eq hc he hi] at hdims
    simp only [roots, loops, ← hdims, List.map_append, List.map_cons, List.map_map]
    rfl
  · simp [Instance.within]

/-- Two accesses that conflict in different iterations of a loop, the loops outside at equal values,
leave an edge along the loop, at the distance of the iterations where that fits a word. -/
theorem edge_of_conflict (h : p.Sound program) (hreg : Regular p.dims p.equations) {site : Site}
    (hs : site ∈ Node.sitesOf p.tree.roots) {us : List Int} {v w : Int} (hvw : v ≠ w)
    {x y : Instance} (hx : site.Runs us v x) (hy : site.Runs us w y) {a b : Lowered}
    (ha : a ∈ p.equations) (hax : a.index = x.equation) (hb : b ∈ p.equations)
    (hby : b.index = y.equation) {q : AccessPair} (hq : Compares p.dims a b q) {el : Element}
    (hf : a.element? p.dims x.values q.first = some el)
    (hsec : b.element? p.dims y.values q.second = some el) :
    ∃ k ∈ q.first.shifts, ∃ l ∈ q.second.shifts, k - l = w - v ∧
      ∃ c, q.toEdge c ∈ p.graph.edges ∧
        (q.toEdge c).isWithin (p.equationsOf site.loop.clusters) = true ∧
        c.root? = some (p.dims.root site.loop.dim) ∧
        (Word.Fits (w - v) →
          q.carrierAt p.dims (p.dims.root site.loop.dim) (w - v) = .ok c) := by
  obtain ⟨hain, hpa⟩ := h.passes hs hx ha hax
  obtain ⟨hbin, hpb⟩ := h.passes hs hy hb hby
  obtain ⟨_, _, hfm, hsm, _, _⟩ := hq.spec
  obtain ⟨c, hc, hedge⟩ := hq.exists_edge h.graph h.numbered ha hb
  obtain ⟨inner, hroots⟩ := hpa.commonRoots_eq hpb
  obtain ⟨k, hk, l, hl, hkl, hcarrier⟩ := hpa.carrier_of_element? hpb hreg ha hb
    (h.shaped ha).roots_nodup (h.shaped hb).roots_nodup hfm hsm hf hsec
    (fun r hr => hq.mem_roots hreg ha hb (hpa.mem_roots r hr) (hpb.mem_roots r hr)) hvw
    q.unindexed inner
  rw [hroots, hcarrier] at hc
  have hroot : c.root? = some (p.dims.root site.loop.dim) := by
    split at hc
    · exact AccessPair.root?_of_carrierAt hc
    · cases hc
      rfl
  refine ⟨k, hk, l, hl, hkl, c, hedge (Or.inr (by rw [hroot]; rfl)), hq.isWithin_toEdge hain hbin c,
    hroot, ?_⟩
  intro hfits
  rwa [if_pos hfits] at hc

end Plan.Sound

/-- A program over two dimensions in space, of two points each. -/
def overPlane (scalars : List String) (equations : List Equation) : Program where
  dims := (do
    let (t, _) ← DimTable.empty.space "x" (some 2)
    let (t, _) ← t.space "y" (some 2)
    return t : Except ModelError DimTable).toOption.getD .empty
  scalars := scalars
  equations := equations

end LoopNest
