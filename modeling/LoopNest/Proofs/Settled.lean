import LoopNest.Schedule
import LoopNest.Proofs.Layout
/-!
# The finished tree

`Plan.Sound` says what a plan inherits from the stages before the tree; `Program.sound_of_plan`
says that scheduling starts from such a plan.  From there the tree grows cluster by cluster
through coherent loops, and settling turns them into settled ones: `Plan.Sound.laid` is the one
fact about the finished tree from which the results on its loops, statements and runs are read off.
-/

namespace LoopNest

open Lowered

/-! ## Plans -/

/-- What a plan is made of. -/
structure Plan.Sound (program : Program) (p : Plan) : Prop where
  dims : p.dims = program.dims
  lowered : program.lower.result = .ok p.equations
  graph : Lowered.graph p.dims p.equations = .ok p.graph
  clusters : p.clusters = Cluster.build p.dims p.graph p.options p.equations
  guards : List.Forall₂ (fun c gs => Guard.ofCluster program c = .ok gs) p.clusters p.guards

namespace Program

variable {program : Program} {options : Options}

theorem analyze_eq_ok {t : DimTable} {es : List Lowered} {g : DependenceGraph} :
    (Lowered.analyze t es).result = .ok g ↔ Lowered.graph t es = .ok g := by
  simp only [Lowered.analyze, Logged.result_bind, Logged.result_ofExcept, Logged.result_note,
    Logged.result_pure]
  cases Lowered.graph t es <;> simp [Except.bind]

theorem sound_of_plan {p : Plan} (h : (program.plan options).result = .ok p) :
    p.Sound program ∧ p.options = options := by
  simp only [plan, Logged.result_bind, Logged.result_ofExcept, Logged.result_mapError,
    Logged.result_noteAll, Logged.result_pure] at h
  obtain ⟨_, _, h⟩ := bind_eq_ok.mp h
  obtain ⟨es, hes, h⟩ := bind_eq_ok.mp h
  obtain ⟨g, hg, h⟩ := bind_eq_ok.mp h
  obtain ⟨_, _, h⟩ := bind_eq_ok.mp h
  obtain ⟨guards, hguards, h⟩ := bind_eq_ok.mp h
  cases h
  exact ⟨⟨rfl, mapError_eq_ok.mp hes, analyze_eq_ok.mp (mapError_eq_ok.mp hg), rfl,
    mapM_eq_ok.mp hguards⟩, rfl⟩

/-- A schedule is the tree of a sound plan. -/
theorem sound_of_schedule {tree : ScheduleTree}
    (h : (program.schedule options).result = .ok tree) :
    ∃ p : Plan, p.Sound program ∧ p.options = options ∧ p.tree = tree := by
  simp only [schedule, Logged.result_bind, Logged.result_noteAll, Logged.result_note,
    Logged.result_pure] at h
  obtain ⟨p, hp, h⟩ := bind_eq_ok.mp h
  obtain ⟨hs, ho⟩ := sound_of_plan hp
  cases h
  exact ⟨p, hs, ho, rfl⟩

theorem exists_plan_of_schedule {tree : ScheduleTree} {es : List Lowered}
    (h : (program.schedule options).result = .ok tree) (hlower : program.lower.result = .ok es) :
    ∃ p : Plan, p.Sound program ∧ p.options = options ∧ p.tree = tree ∧ p.equations = es := by
  obtain ⟨p, hs, ho, ht⟩ := sound_of_schedule h
  exact ⟨p, hs, ho, ht, Except.ok.inj (hs.lowered.symm.trans hlower)⟩

end Program

namespace Plan

variable {p : Plan} {program : Program}

namespace Sound

theorem numbered (h : p.Sound program) : Numbered p.equations := (Program.lower_shaped h.lowered).1

theorem shaped (h : p.Sound program) {e : Lowered} (he : e ∈ p.equations) : e.Shaped p.dims :=
  h.dims ▸ (Program.lower_shaped h.lowered).2 e he

theorem mem_clusterIds {c : Nat} : c ∈ p.clusterIds ↔ c < p.clusters.length := List.mem_range

theorem cluster_mem {c : Nat} (hc : c ∈ p.clusterIds) : p.cluster c ∈ p.clusters := by
  have hlt := mem_clusterIds.mp hc
  rw [cluster, List.getD_eq_getElem?_getD, List.getElem?_eq_getElem hlt]
  exact List.getElem_mem hlt

theorem cluster_sound (h : p.Sound program) {c : Nat} (hc : c ∈ p.clusterIds) :
    (p.cluster c).Sound p.dims p.graph p.equations :=
  Cluster.build_sound h.graph h.numbered p.options _ (h.clusters ▸ cluster_mem hc)

theorem map_cluster (p : Plan) : p.clusterIds.map p.cluster = p.clusters := by
  refine List.ext_getElem (by simp [clusterIds]) ?_
  intro i hi hj
  simp [clusterIds, cluster, List.getD_eq_getElem?_getD, List.getElem?_eq_getElem hj]

theorem members_eq (p : Plan) :
    (p.clusterIds.flatMap fun c => (p.cluster c).equations) = Cluster.members p.clusters := by
  rw [Cluster.members]
  conv => rhs; rw [← map_cluster p]
  rw [List.flatMap_map]

/-- Each equation is in one cluster, and in an order that no edge runs against. -/
theorem members_perm (h : p.Sound program) :
    (Cluster.members p.clusters).Perm (List.range p.equations.length) :=
  h.clusters ▸ (Cluster.build_respects h.graph h.numbered p.options).1

theorem members_respects (h : p.Sound program) :
    Cluster.Respects p.graph (Cluster.members p.clusters) :=
  h.clusters ▸ (Cluster.build_respects h.graph h.numbered p.options).2

theorem members_nodup (h : p.Sound program) : (Cluster.members p.clusters).Nodup :=
  h.members_perm.nodup_iff.mpr List.nodup_range

theorem exists_cluster (h : p.Sound program) {e : Lowered} (he : e ∈ p.equations) :
    ∃ c ∈ p.clusterIds, e.index ∈ (p.cluster c).equations := by
  have hm : e.index ∈ Cluster.members p.clusters :=
    h.members_perm.mem_iff.mpr (List.mem_range.mpr (h.numbered.index_lt he))
  rw [← members_eq] at hm
  exact List.mem_flatMap.mp hm

theorem ofCluster_guardsOf (h : p.Sound program) {c : Nat} (hc : c ∈ p.clusterIds) :
    Guard.ofCluster program (p.cluster c) = .ok (p.guardsOf c) := by
  have hlt := mem_clusterIds.mp hc
  have hlt' : c < p.guards.length := h.guards.length_eq ▸ hlt
  have := List.forall₂_iff_get.mp h.guards |>.2 c hlt hlt'
  simpa [cluster, guardsOf, List.getD_eq_getElem?_getD, hlt, hlt'] using this

theorem signature_eq (h : p.Sound program) {c : Nat} (hc : c ∈ p.clusterIds) {e : Lowered}
    (he : e ∈ p.equations) (hi : e.index ∈ (p.cluster c).equations) :
    (p.cluster c).signature = e.signature := by
  obtain ⟨f, hf, hfi, hsig⟩ := (h.cluster_sound hc).uniform _ hi
  rw [← h.numbered.eq_of_index_eq hf he hfi]
  exact hsig.symm

theorem statementOf_eq (h : p.Sound program) {c : Nat} (hc : c ∈ p.clusterIds) {e : Lowered}
    (he : e ∈ p.equations) (hi : e.index ∈ (p.cluster c).equations) :
    p.statementOf c e.index = ⟨e.index, c, (⟨p.dims, e.loops⟩ : Nest).access e.equation.lhs,
      (⟨p.dims, e.loops⟩ : Nest).expr e.equation.rhs⟩ := by
  rw [statementOf, h.signature_eq hc he hi, h.numbered.getD_index he]
  rfl

end Sound

/-! ## Coherent loops -/

/-- What holds of a loop while the tree grows. -/
structure Coherent (p : Plan) (l : Loop) : Prop where
  bounds : l.bounds = p.dims.interval l.dim
  issued : ∀ c ∈ l.clusters, c ∈ p.clusterIds
  fusible : p.dims.isTimeLike (p.dims.root l.dim) = false →
    Fusible p.graph (p.equationsOf l.clusters) (p.dims.root l.dim)
  demand : p.dims.isTimeLike (p.dims.root l.dim) = false →
    l.demand = Demand.among p.graph (p.equationsOf l.clusters) (p.dims.root l.dim)
  alone : p.options.fusion = false → ∃ c, l.clusters = [c]

theorem equationsOf_append (p : Plan) (cs ds : List Nat) :
    p.equationsOf (cs ++ ds) = p.equationsOf cs ++ p.equationsOf ds :=
  List.flatMap_append

theorem equationsOf_singleton (p : Plan) (c : Nat) :
    p.equationsOf [c] = (p.cluster c).equations := by
  simp [equationsOf]

theorem coherent_lasts (h : p.Sound program) {c : Nat} (hc : c ∈ p.clusterIds) :
    Laid.Lasts p p.Coherent c (p.cluster c).signature.loops where
  fresh d hd := by
    refine ⟨rfl, fun a ha => List.mem_singleton.mp ha ▸ hc, fun ht => ?_, fun _ => ?_,
      fun _ => ⟨c, rfl⟩⟩
    · simp only [freshLoop, equationsOf_singleton]
      exact (h.cluster_sound hc).fusible d hd ht
    · simp only [freshLoop, equationsOf_singleton]
  join l demand hd hl hfusion hj := by
    refine ⟨hl.bounds, fun a ha => ?_, fun ht => ?_, fun ht => ?_,
      fun hoff => nomatch hfusion.symm.trans hoff⟩
    · rcases List.mem_append.mp ha with ha | ha
      · exact hl.issued a ha
      · exact List.mem_singleton.mp ha ▸ hc
    all_goals
      simp only [joined] at ht
      obtain ⟨hbetween, hdemand, hs⟩ := joinLoop_eq_ok hj ht
      rw [hl.demand ht, ← Demand.among_append] at hdemand
      simp only [joined, equationsOf_append, equationsOf_singleton]
    · exact (hl.fusible ht).append ((h.cluster_sound hc).fusible _ hd ht) hbetween (hdemand ▸ hs)
    · exact hdemand

theorem insertAll_laid (h : p.Sound program) {cs done : List Nat} {ns : List Node}
    (hcs : ∀ c ∈ cs, c ∈ p.clusterIds) (hl : Laid p p.Coherent p.steps done ns) :
    Laid p p.Coherent p.steps (done ++ cs) (p.insertAll ns cs).1 := by
  refine foldl_induction
    (P := fun done (b : List Node × List Note) => Laid p p.Coherent p.steps done b.1) ?_ hl
  intro c hc done b hb
  refine Laid.insert (h.cluster_sound (hcs c hc)).nonempty (coherent_lasts h (hcs c hc)) hb rfl ?_
  intro d hd
  rwa [dimsOf_steps] at hd

/-! ## Settled loops -/

/-- What holds of a loop of the finished tree. -/
structure Settled (p : Plan) (l : Loop) : Prop extends Coherent p l where
  judged : ∃ level : Level, level.timeLike = p.dims.isTimeLike (p.dims.root l.dim) ∧
    l.direction = (level.judge l.demand p.options.vectorize).1 ∧
    l.properties = (level.judge l.demand p.options.vectorize).2

theorem settleLoop_settled {l : Loop} (h : p.Coherent l) (body : List Node) :
    p.Settled (p.settleLoop l body) :=
  ⟨⟨h.bounds, h.issued, h.fusible, h.demand, h.alone⟩, p.level l body, rfl, rfl, rfl⟩

theorem settleAll_append (p : Plan) (ns ms : List Node) :
    p.settleAll (ns ++ ms) = p.settleAll ns ++ p.settleAll ms := by
  simp only [settleAll_eq_map, List.map_append]

theorem settleAll_statements (p : Plan) (c : Nat) :
    p.settleAll (p.statements c) = p.statements c := by
  rw [settleAll_eq_map, statements_eq_map, List.map_map]
  rfl

theorem Laid.settle {way : Nat → List Step} {cs : List Nat} {ns : List Node}
    (h : Laid p p.Coherent way cs ns) : Laid p p.Settled way cs (p.settleAll ns) := by
  induction h with
  | nil => exact .nil
  | here _ hw hne ih =>
      rw [settleAll_append, settleAll_statements]
      exact .here ih hw hne
  | loop _ hc hne hok hhead _ ih ihbody =>
      rw [settleAll_append]
      exact .loop ih hc hne (settleLoop_settled hok _) hhead ihbody
  | guard _ hne hhead _ ih ihbody =>
      rw [settleAll_append]
      exact .guard ih hne hhead ihbody

/-- The finished tree holds every cluster in order, each at the end of its way. -/
theorem Sound.laid (h : p.Sound program) : Laid p p.Settled p.steps p.clusterIds p.tree.roots := by
  have hl := insertAll_laid h (fun c (hc : c ∈ p.clusterIds) => hc) Laid.nil
  rw [List.nil_append] at hl
  exact hl.settle

theorem Sound.equationsOf_eq (h : p.Sound program) :
    Node.equationsOf p.tree.roots = Cluster.members p.clusters :=
  h.laid.equationsOf_eq.trans (members_eq p)

theorem Sound.equationsOf_nodup (h : p.Sound program) : (Node.equationsOf p.tree.roots).Nodup := by
  rw [h.equationsOf_eq]
  exact h.members_nodup

theorem Sound.equationsOf_alone (h : p.Sound program) (hoff : p.options.fusion = false) {l : Loop}
    (hl : p.Coherent l) : ∃ e ∈ p.equations, p.equationsOf l.clusters = [e.index] := by
  obtain ⟨c, hc⟩ := hl.alone hoff
  have hmem := cluster_mem (hl.issued c (hc ▸ List.mem_singleton.mpr rfl))
  rw [h.clusters, Cluster.build, if_neg (by rw [hoff]; exact Bool.false_ne_true)] at hmem
  obtain ⟨e, he, hsingle⟩ := List.mem_map.mp hmem
  refine ⟨e, he, ?_⟩
  rw [hc, equationsOf_singleton, ← hsingle]
  rfl

/-! ## What settled loops keep -/

namespace Settled

variable {l : Loop}

theorem of_timeLike (h : p.Settled l) (ht : p.dims.isTimeLike (p.dims.root l.dim) = true) :
    l.direction = .forward ∧ l.properties.sequential = true ∧ l.properties.parallel = false := by
  obtain ⟨level, htime, hdir, hprops⟩ := h.judged
  rw [hdir, hprops]
  exact Level.judge_of_timeLike (htime.trans ht)

/-- An edge among the equations of a loop in space makes the loop's demand. -/
theorem of_edge (h : p.Settled l) (ht : p.dims.isTimeLike (p.dims.root l.dim) = false) {e : Edge}
    (he : e ∈ p.graph.edges) (hw : e.isWithin (p.equationsOf l.clusters) = true)
    (hroot : e.carrier.root? = some (p.dims.root l.dim)) :
    some l.direction = e.carrier.direction? ∧ l.properties.sequential = true ∧
      l.properties.parallel = false := by
  obtain ⟨level, htime, hdir, hprops⟩ := h.judged
  have hmade : l.demand.isMade = true := by
    rw [h.demand ht]
    exact Demand.isMade_ofEdges.mpr ⟨e, Demand.mem_within.mpr ⟨he, hw⟩, hroot⟩
  have hdemand : l.demand.direction? = e.carrier.direction? := by
    rw [h.demand ht, (h.fusible ht).direction?_eq he hw hroot]
  obtain ⟨d, hd⟩ := Carrier.exists_direction hroot
  rw [hdir, hprops]
  obtain ⟨hjudged, hseq, hpar⟩ := Level.judge_of_isMade (htime.trans ht) hmade
  refine ⟨?_, hseq, hpar⟩
  rw [hjudged, hdemand, hd]
  rfl

/-- A loop runs forward if the edges among its equations ask nothing else of it. -/
theorem forward_of_forall (h : p.Settled l)
    (hall : ∀ e ∈ p.graph.edges, e.isWithin (p.equationsOf l.clusters) = true →
      e.carrier.root? = some (p.dims.root l.dim) → e.carrier.direction? = some .forward) :
    l.direction = .forward := by
  cases ht : p.dims.isTimeLike (p.dims.root l.dim) with
  | true => exact (h.of_timeLike ht).1
  | false =>
      obtain ⟨level, htime, hdir, _⟩ := h.judged
      cases hm : l.demand.isMade with
      | false => rw [hdir, Level.judge_of_not_isMade (htime.trans ht) hm]
      | true =>
          rw [h.demand ht] at hm
          obtain ⟨e, he, hroot⟩ := Demand.isMade_ofEdges.mp hm
          obtain ⟨he, hw⟩ := Demand.mem_within.mp he
          have hforward := (h.of_edge ht he hw hroot).1
          rw [hall e he hw hroot] at hforward
          exact Option.some.inj hforward

theorem direction_of_carried (h : p.Settled l) (hp : p.Sound program) {e : Edge}
    (he : e ∈ p.graph.edges) (hw : e.isWithin (p.equationsOf l.clusters) = true) {d : Direction}
    (hc : e.carrier = .carried (p.dims.root l.dim) d) :
    l.direction = d ∧ l.properties.sequential = true := by
  cases ht : p.dims.isTimeLike (p.dims.root l.dim) with
  | true =>
      obtain ⟨hdir, hseq, _⟩ := h.of_timeLike ht
      exact ⟨hdir.trans (forward_of_timeLike hp.graph hp.numbered he hc ht).symm, hseq⟩
  | false =>
      obtain ⟨hdir, hseq, _⟩ := h.of_edge ht he hw (by rw [hc]; rfl)
      rw [hc] at hdir
      exact ⟨Option.some.inj hdir, hseq⟩

theorem root?_ne_of_parallel (h : p.Settled l) (hpar : l.properties.parallel = true) {e : Edge}
    (he : e ∈ p.graph.edges) (hw : e.isWithin (p.equationsOf l.clusters) = true) :
    e.carrier.root? ≠ some (p.dims.root l.dim) := by
  intro hroot
  cases ht : p.dims.isTimeLike (p.dims.root l.dim) with
  | true => exact absurd hpar (by rw [(h.of_timeLike ht).2.2]; exact Bool.false_ne_true)
  | false => exact absurd hpar (by rw [(h.of_edge ht he hw hroot).2.2]; exact Bool.false_ne_true)

end Settled

end Plan

end LoopNest
