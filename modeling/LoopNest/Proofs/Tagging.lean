import LoopNest.Proofs.EdgeOrder
/-!
# The tags of a loop

A loop of the finished tree is tagged for what its equations demand of it, and for nothing else
(`tagged_of_schedule`).  While the tree grows the demand of a loop is put together piece by piece,
as clusters join; `Coherent` says that the pieces amount to the edges among all equations of the
loop, and that one direction suits them.  What is known of the level besides is read off the loop's
equations and its body before settling, and settling keeps both: each loop of the finished tree
comes from one of the layout (`Node.exists_site_of_settleAll`), and has loops inside exactly if that
one has.
-/

namespace LoopNest

open Lowered

/-! ## Judging a level -/

namespace Level

variable (level : Level) (demand : Demand) (vectorize : Bool)

theorem judge_exclusive :
    (level.judge demand vectorize).2.parallel = !(level.judge demand vectorize).2.sequential := by
  unfold judge
  split
  · rfl
  · split <;> rfl

theorem judge_affine : (level.judge demand vectorize).2.affine = level.affine := by
  unfold judge
  split
  · rfl
  · split <;> rfl

theorem judge_sequential (h : level.timeLike = false) :
    (level.judge demand vectorize).2.sequential = demand.isMade := by
  cases hm : demand.isMade <;> simp [judge, h, hm]

theorem judge_vectorizable :
    (level.judge demand vectorize).2.vectorizable =
      (vectorize && (level.judge demand vectorize).2.parallel && level.affine &&
        level.innermost) := by
  unfold judge
  split
  · simp
  · split
    · simp
    · cases vectorize <;> cases level.innermost <;> cases level.affine <;> rfl

end Level

/-! ## Settled sites -/

namespace Node

variable (p : Plan)

mutual

theorem exists_site_of_settle : ∀ n : Node, ∀ site ∈ (p.settle n).sites,
    ∃ before ∈ n.sites, site.loop = p.settleLoop before.loop before.body ∧
      site.body = p.settleAll before.body
  | .loop l body, site, hs => by
      rcases List.mem_cons.mp hs with rfl | hs
      · exact ⟨_, List.mem_cons_self, rfl, rfl⟩
      · obtain ⟨inner, hi, rfl⟩ := List.mem_map.mp hs
        obtain ⟨before, hb, hl, hbody⟩ := exists_site_of_settleAll body inner hi
        exact ⟨_, List.mem_cons_of_mem _ (List.mem_map_of_mem hb), hl, hbody⟩
  | .guard _ _ body, site, hs => exists_site_of_settleAll body site hs
  | .statement _, site, hs => absurd hs List.not_mem_nil

theorem exists_site_of_settleAll : ∀ ns : List Node, ∀ site ∈ sitesOf (p.settleAll ns),
    ∃ before ∈ sitesOf ns, site.loop = p.settleLoop before.loop before.body ∧
      site.body = p.settleAll before.body
  | [], site, hs => absurd hs List.not_mem_nil
  | n :: ns, site, hs => by
      rcases List.mem_append.mp hs with hs | hs
      · obtain ⟨before, hb, h⟩ := exists_site_of_settle n site hs
        exact ⟨before, List.mem_append_left _ hb, h⟩
      · obtain ⟨before, hb, h⟩ := exists_site_of_settleAll ns site hs
        exact ⟨before, List.mem_append_right _ hb, h⟩

end

mutual

theorem map_dim_loops_settle : ∀ n : Node, (p.settle n).loops.map Loop.dim = n.loops.map Loop.dim
  | .loop l body => congrArg (l.dim :: ·) (map_dim_loopsOf_settleAll body)
  | .guard _ _ body => map_dim_loopsOf_settleAll body
  | .statement _ => rfl

theorem map_dim_loopsOf_settleAll : ∀ ns : List Node,
    (loopsOf (p.settleAll ns)).map Loop.dim = (loopsOf ns).map Loop.dim
  | [] => rfl
  | n :: ns => by
      rw [Plan.settleAll, loopsOf, loopsOf, List.map_append, List.map_append,
        map_dim_loops_settle n, map_dim_loopsOf_settleAll ns]

end

theorem loopsOf_settleAll_eq_nil (ns : List Node) :
    loopsOf (p.settleAll ns) = [] ↔ loopsOf ns = [] := by
  rw [← List.map_eq_nil_iff (f := Loop.dim), map_dim_loopsOf_settleAll, List.map_eq_nil_iff]

end Node

/-! ## What a loop is tagged for -/

theorem Lowered.areAffine_iff {t : DimTable} {es : List Lowered} {root : DimId} :
    areAffine t es root = true ↔
      ∀ e ∈ es, ∀ a ∈ e.accesses t, ∀ i ∈ a.indices, t.root i.dim = root →
        i.fixed?.isSome = true := by
  simp only [areAffine, List.all_eq_true, List.mem_filter, beq_iff_eq, and_imp]

namespace ScheduleTree

/-- The edges among the equations of a loop that run along its root. -/
def carriedBy (tree : ScheduleTree) (t : DimTable) (g : DependenceGraph) (l : Loop) : List Edge :=
  (g.within (tree.equationsOf l.clusters)).filter fun e => e.carrier.root? == some (t.root l.dim)

theorem mem_carriedBy {tree : ScheduleTree} {t : DimTable} {g : DependenceGraph} {l : Loop}
    {e : Edge} :
    e ∈ tree.carriedBy t g l ↔ e ∈ g.edges ∧ e.isWithin (tree.equationsOf l.clusters) = true ∧
      e.carrier.root? = some (t.root l.dim) := by
  rw [carriedBy, List.mem_filter, Demand.mem_within, beq_iff_eq, and_assoc]

/-- A loop is tagged for what the edges and accesses of its equations ask of it. -/
structure Tagged (tree : ScheduleTree) (t : DimTable) (es : List Lowered) (g : DependenceGraph)
    (options : Options) (site : Site) : Prop where
  exclusive : site.loop.properties.parallel = !site.loop.properties.sequential
  timely : t.isTimeLike (t.root site.loop.dim) = true →
    site.loop.properties.sequential = true ∧ site.loop.direction = .forward
  satisfiable : t.isTimeLike (t.root site.loop.dim) = false →
    site.loop.demand.isSatisfiable = true
  agreeing : t.isTimeLike (t.root site.loop.dim) = false →
    ∀ x ∈ tree.carriedBy t g site.loop, ∀ y ∈ tree.carriedBy t g site.loop,
      x.carrier.direction? = y.carrier.direction?
  sequential_iff : t.isTimeLike (t.root site.loop.dim) = false →
    (site.loop.properties.sequential = true ↔ tree.carriedBy t g site.loop ≠ [])
  directed : t.isTimeLike (t.root site.loop.dim) = false →
    ∀ e ∈ tree.carriedBy t g site.loop, e.carrier.direction? = some site.loop.direction
  free : t.isTimeLike (t.root site.loop.dim) = false → tree.carriedBy t g site.loop = [] →
    site.loop.properties.parallel = true ∧ site.loop.direction = .forward
  affine_iff : site.loop.properties.affine = true ↔
    ∀ e ∈ es, e.index ∈ tree.equationsOf site.loop.clusters →
      ∀ a ∈ e.accesses t, ∀ i ∈ a.indices, t.root i.dim = t.root site.loop.dim →
        i.fixed?.isSome = true
  vectorizable_iff : site.loop.properties.vectorizable = true ↔
    options.vectorize = true ∧ site.loop.properties.parallel = true ∧
      site.loop.properties.affine = true ∧ Node.loopsOf site.body = []

end ScheduleTree

namespace Plan.Sound

variable {p : Plan} {program : Program}

theorem forall_equationsOf (h : p.Sound program) {cs : List Nat} (hcs : ∀ c ∈ cs, c ∈ p.clusterIds)
    {P : Lowered → Prop} :
    (∀ e ∈ (p.equationsOf cs).map fun i => p.equations.getD i default, P e) ↔
      ∀ e ∈ p.equations, e.index ∈ p.equationsOf cs → P e := by
  constructor
  · intro hall e he hi
    exact hall e (List.mem_map.mpr ⟨e.index, hi, h.numbered.getD_index he⟩)
  · intro hall e hm
    obtain ⟨i, hi, rfl⟩ := List.mem_map.mp hm
    obtain ⟨c, hc, hic⟩ := List.mem_flatMap.mp hi
    obtain ⟨e, he, rfl, _⟩ := (h.cluster_sound (hcs c hc)).uniform i hic
    rw [h.numbered.getD_index he]
    exact hall e he hi

/-- What the accesses of its equations and the loops inside make of a loop. -/
theorem level_of_site (h : p.Sound program) {site : Site}
    (hs : site ∈ Node.sitesOf p.tree.roots) :
    ∃ level : Level, site.loop.properties =
        (level.judge site.loop.demand p.options.vectorize).2 ∧
      (level.innermost = true ↔ Node.loopsOf site.body = []) ∧
      (level.affine = true ↔
        ∀ e ∈ p.equations, e.index ∈ p.equationsOf site.loop.clusters →
          ∀ a ∈ e.accesses p.dims, ∀ i ∈ a.indices,
            p.dims.root i.dim = p.dims.root site.loop.dim → i.fixed?.isSome = true) := by
  have hlaid := insertAll_laid h (fun c (hc : c ∈ p.clusterIds) => hc) Laid.nil
  obtain ⟨before, hb, hloop, hbody⟩ := Node.exists_site_of_settleAll p _ site hs
  have hl : p.Coherent before.loop := (hlaid.of_mem_sitesOf before hb).1
  rw [hloop, hbody]
  refine ⟨p.level before.loop before.body, rfl, ?_, ?_⟩
  · rw [Node.loopsOf_settleAll_eq_nil]
    exact List.isEmpty_iff
  · exact areAffine_iff.trans (h.forall_equationsOf hl.issued)

theorem tagged (h : p.Sound program) {site : Site} (hs : site ∈ Node.sitesOf p.tree.roots) :
    p.tree.Tagged p.dims p.equations p.graph p.options site := by
  have hl : p.Settled site.loop := (h.laid.of_mem_sitesOf site hs).1
  have hmem {e : Edge} : e ∈ p.tree.carriedBy p.dims p.graph site.loop ↔
      e ∈ p.graph.edges ∧ e.isWithin (p.equationsOf site.loop.clusters) = true ∧
        e.carrier.root? = some (p.dims.root site.loop.dim) := by
    rw [ScheduleTree.mem_carriedBy, equationsOf_tree p hl.issued]
  obtain ⟨level, hprops, hinner, haffine⟩ := h.level_of_site hs
  have hexclusive : site.loop.properties.parallel = !site.loop.properties.sequential := by
    rw [hprops, level.judge_exclusive]
  have hsequential (ht : p.dims.isTimeLike (p.dims.root site.loop.dim) = false) :
      site.loop.properties.sequential = true ↔
        p.tree.carriedBy p.dims p.graph site.loop ≠ [] := by
    obtain ⟨judged, htime, _, hjudged⟩ := hl.judged
    have hne : p.tree.carriedBy p.dims p.graph site.loop ≠ [] ↔
        ∃ e, e ∈ p.tree.carriedBy p.dims p.graph site.loop :=
      ⟨List.exists_mem_of_ne_nil _, fun ⟨_, he⟩ => List.ne_nil_of_mem he⟩
    rw [hjudged, judged.judge_sequential _ _ (htime.trans ht), hl.demand ht, Demand.among,
      Demand.isMade_ofEdges, hne]
    simp only [hmem, Demand.mem_within, and_assoc]
  refine
    { exclusive := hexclusive
      timely := fun ht => ⟨(hl.of_timeLike ht).2.1, (hl.of_timeLike ht).1⟩
      satisfiable := fun ht => hl.demand ht ▸ (hl.fusible ht).satisfiable
      agreeing := fun ht x hx y hy => ?_
      sequential_iff := hsequential
      directed := fun ht e he => ?_
      free := fun ht hnil => ?_
      affine_iff := ?_
      vectorizable_iff := ?_ }
  · obtain ⟨hx, hxw, hxr⟩ := hmem.mp hx
    obtain ⟨hy, hyw, hyr⟩ := hmem.mp hy
    rw [← (hl.fusible ht).direction?_eq hx hxw hxr, (hl.fusible ht).direction?_eq hy hyw hyr]
  · obtain ⟨he, hw, hr⟩ := hmem.mp he
    exact (hl.of_edge ht he hw hr).1.symm
  · have hseq : site.loop.properties.sequential = false :=
      Bool.eq_false_iff.mpr fun hseq => (hsequential ht).mp hseq hnil
    refine ⟨by rw [hexclusive, hseq]; rfl, hl.forward_of_forall fun e he hw hr => ?_⟩
    have : e ∈ p.tree.carriedBy p.dims p.graph site.loop := hmem.mpr ⟨he, hw, hr⟩
    rw [hnil] at this
    cases this
  · rw [equationsOf_tree p hl.issued, hprops, level.judge_affine]
    exact haffine
  · rw [hprops, level.judge_vectorizable, level.judge_affine, Bool.and_eq_true, Bool.and_eq_true,
      Bool.and_eq_true, hinner, and_assoc, and_assoc]

end Plan.Sound

/-- Every loop of a schedule is tagged for what the edges and accesses of its equations ask of
it. -/
theorem tagged_of_schedule {program : Program} {options : Options} {tree : ScheduleTree}
    {es : List Lowered} {g : DependenceGraph}
    (hschedule : (program.schedule options).result = .ok tree)
    (hlower : program.lower.result = .ok es)
    (hanalyze : (analyze program.dims es).result = .ok g) {site : Site}
    (hs : site ∈ Node.sitesOf tree.roots) : tree.Tagged program.dims es g options site := by
  obtain ⟨p, hp, rfl, rfl, rfl⟩ := Program.exists_plan_of_schedule hschedule hlower
  have hgraph := Program.analyze_eq_ok.mp hanalyze
  rw [← hp.dims] at hgraph ⊢
  cases hp.graph.symm.trans hgraph
  exact hp.tagged hs

theorem tagged_of_schedule_sweeps :
    ∃ tree es g, (sweeps.schedule default).result = .ok tree ∧ sweeps.lower.result = .ok es ∧
      (analyze sweeps.dims es).result = .ok g ∧
      tree.loops.map (fun l => l.properties.text) =
        ["sequential,affine", "parallel,affine,vector", "parallel"] ∧
      ∀ site ∈ Node.sitesOf tree.roots, tree.Tagged sweeps.dims es g default site := by
  have facts : ∃ tree es g, (sweeps.schedule default).result = .ok tree ∧
      sweeps.lower.result = .ok es ∧ (analyze sweeps.dims es).result = .ok g ∧
      tree.loops.map (fun l => l.properties.text) =
        ["sequential,affine", "parallel,affine,vector", "parallel"] :=
    ⟨_, _, _, rfl, rfl, rfl, by decide +kernel⟩
  obtain ⟨tree, es, g, ht, hl, hg, htags⟩ := facts
  exact ⟨tree, es, g, ht, hl, hg, htags, fun site hs => tagged_of_schedule ht hl hg hs⟩

end LoopNest
