import LoopNest.Proofs.Paths
import LoopNest.Proofs.Ways
/-!
# The domain of an equation

The domain of an equation is what the program says of it: values of its loops within the bounds of
their dimensions that meet its conditions.  A trace holds one event for each of them and no other,
however the tree shares loops and guards among equations (`exact_of_trace`).
-/

namespace LoopNest

open Lowered

namespace Lowered

/-- The scope inside the loops of an equation. -/
def scope (t : DimTable) (b : Bindings) (e : Lowered) (vs : List Int) : Scope :=
  ⟨t, b, e.loops.zip vs⟩

/-- The values of the loops of an equation at which it is evaluated. -/
structure InDomain (t : DimTable) (b : Bindings) (e : Lowered) (vs : List Int) : Prop where
  length : vs.length = e.loops.length
  bounded : ∀ pair ∈ e.loops.zip vs, t.InRange b pair.1 pair.2
  met : ∀ c ∈ e.conditions, (e.scope t b vs).Meets ⟨t, e.loops⟩ c

/-- The event is that of the equation at the values of its loops. -/
structure IsEvent (t : DimTable) (b : Bindings) (e : Lowered) (vs : List Int) (event : Event) :
    Prop where
  equation : event.equation = e.index
  point : event.point = (e.loops.zip vs).map fun pair => (t.name pair.1, pair.2)
  tensor : event.tensor = e.write.tensor
  index : ((⟨t, e.loops⟩ : Nest).indices e.write.indices).mapM (e.scope t b vs).int =
    .ok event.index

/-- Of the events, those of the equation are one for each value of its domain. -/
structure Exact (t : DimTable) (b : Bindings) (events : List Event) (e : Lowered) : Prop where
  exactly_one : ∀ vs, e.InDomain t b vs → ∃ event,
    (events.filter fun x => x.instance = ⟨e.index, vs⟩) = [event] ∧ e.IsEvent t b vs event
  no_other : ∀ event ∈ events, event.equation = e.index →
    ∃ vs, e.InDomain t b vs ∧ e.IsEvent t b vs event

theorem IsEvent.instance_eq {t : DimTable} {b : Bindings} {e : Lowered} {vs : List Int}
    {event : Event} (h : e.IsEvent t b vs event) (hlen : vs.length = e.loops.length) :
    event.instance = ⟨e.index, vs⟩ := by
  rw [Event.instance, h.equation, h.point, List.map_map]
  exact congrArg _ (List.map_snd_zip (Nat.le_of_eq hlen))

end Lowered

theorem filter_eq_singleton {α β : Type} [DecidableEq β] {f : α → β} : ∀ {xs : List α},
    (xs.map f).Nodup → ∀ {x : α}, x ∈ xs → (xs.filter fun y => f y = f x) = [x]
  | y :: ys, hn, x, hx => by
      obtain ⟨hy, hys⟩ := List.nodup_cons.mp hn
      rcases List.mem_cons.mp hx with rfl | hx
      · rw [List.filter_cons_of_pos (by simp), List.filter_eq_nil_iff.mpr]
        intro z hz hzx
        exact hy (List.mem_map.mpr ⟨z, hz, of_decide_eq_true hzx⟩)
      · have hne : f y ≠ f x := fun h => hy (List.mem_map.mpr ⟨x, hx, h.symm⟩)
        rw [List.filter_cons_of_neg (by simpa using hne)]
        exact filter_eq_singleton hys hx

namespace Plan

variable {p : Plan} {program : Program}

namespace Sound

/-! ## Each instance once -/

theorem nodup_of_executes (h : p.Sound program) {xs : List Instance}
    (hxs : Executes p.tree.roots xs) : xs.Nodup := by
  refine hxs.pairwise.imp fun {x y} hbefore hxy => ?_
  subst hxy
  rcases hbefore with ⟨site, _, us, v, w, hv, hw, hvw⟩ | hsub
  · exact hvw.ne (hv.value_unique hw)
  · have := h.equationsOf_nodup.sublist hsub
    simp at this

/-! ## Exactness -/

variable {b : Bindings} {e : Lowered} {c : Nat} {vs : List Int}

theorem inside_steps (h : p.Sound program) (hc : c ∈ p.clusterIds) (he : e ∈ p.equations)
    (hi : e.index ∈ (p.cluster c).equations) (vs : List Int) :
    inside ⟨p.dims, b, []⟩ (dimsOf (p.steps c)) vs = e.scope p.dims b vs := by
  rw [dimsOf_steps, h.signature_eq hc he hi]
  rfl

theorem isEvent_of_event (h : p.Sound program) (hc : c ∈ p.clusterIds) (he : e ∈ p.equations)
    (hi : e.index ∈ (p.cluster c).equations) {event : Event}
    (hev : (p.statementOf c e.index).event (e.scope p.dims b vs) = .ok event) :
    e.IsEvent p.dims b vs event := by
  obtain ⟨tensor, indices, hlhs, hequation, hpoint, htensor, hindex⟩ :=
    Statement.event_eq_ok hev
  have hlhs' : (p.statementOf c e.index).lhs =
      .element e.write.tensor ((⟨p.dims, e.loops⟩ : Nest).indices e.write.indices) := by
    rw [h.statementOf_eq hc he hi]
    rfl
  rw [hlhs'] at hlhs
  cases hlhs
  exact ⟨hequation, hpoint, htensor, hindex⟩

/-- To pass all guards on the way of a cluster is to meet the conditions of its equations. -/
theorem inDomain_of_passes (h : p.Sound program) (hc : c ∈ p.clusterIds) (he : e ∈ p.equations)
    (hi : e.index ∈ (p.cluster c).equations)
    (hvs : Passes (· = .ok true) ⟨p.dims, b, []⟩ (p.steps c) vs) : e.InDomain p.dims b vs := by
  have hsig := h.signature_eq hc he hi
  have hmeets := Guard.meets_of_ofCluster (h.ofCluster_guardsOf hc) fun g hg =>
    hvs.decided g ((h.mem_steps hc).mpr hg)
  rw [h.inside_steps hc he hi, hsig, ← h.dims] at hmeets
  obtain ⟨hlen, hbounded, _⟩ := hvs
  rw [dimsOf_steps, hsig] at hlen hbounded
  exact ⟨hlen, hbounded, hmeets⟩

/-- Where the conditions of an equation are met, no guard on its way decides against it. -/
theorem passes_of_inDomain (h : p.Sound program) (hc : c ∈ p.clusterIds) (he : e ∈ p.equations)
    (hi : e.index ∈ (p.cluster c).equations) (hvs : e.InDomain p.dims b vs) :
    Passes (· ≠ .ok false) ⟨p.dims, b, []⟩ (p.steps c) vs := by
  have hsig := h.signature_eq hc he hi
  refine ⟨?_, ?_, fun g hg => ?_⟩
  · rw [dimsOf_steps, hsig]
    exact hvs.length
  · rw [dimsOf_steps, hsig]
    exact hvs.bounded
  · rw [h.inside_steps hc he hi]
    refine Guard.ne_false_of_ofCluster (h.ofCluster_guardsOf hc) ?_ g ((h.mem_steps hc).mp hg)
    rw [hsig, ← h.dims]
    exact hvs.met

theorem fresh_steps (h : p.Sound program) (hc : c ∈ p.clusterIds) :
    Fresh ⟨p.dims, b, []⟩ (p.steps c) := by
  obtain ⟨i, hi⟩ := List.exists_mem_of_ne_nil _ (h.cluster_sound hc).nonempty
  obtain ⟨e, he, _, hsig⟩ := (h.cluster_sound hc).uniform i hi
  rw [Fresh, dimsOf_steps, ← hsig]
  exact (h.shaped he).loops_nodup

theorem exact (h : p.Sound program) {events : List Event}
    (hrun : Node.runAll ⟨p.dims, b, []⟩ p.tree.roots = .ok events) (he : e ∈ p.equations) :
    e.Exact p.dims b events := by
  have hbounds : ∀ l, p.Settled l → l.bounds = p.dims.interval l.dim := fun l hl => hl.bounds
  constructor
  · intro vs hvs
    obtain ⟨c, hc, hi⟩ := h.exists_cluster he
    obtain ⟨event, hm, hev⟩ := h.laid.exists_event hbounds rfl hrun c hc (h.fresh_steps hc) e.index
      hi vs (h.passes_of_inDomain hc he hi hvs)
    rw [h.inside_steps hc he hi] at hev
    have hevent := h.isEvent_of_event hc he hi hev
    have hnodup := h.nodup_of_executes (Node.executes_of_events hrun)
    refine ⟨event, ?_, hevent⟩
    rw [← hevent.instance_eq hvs.length]
    exact filter_eq_singleton hnodup hm
  · intro event hm hequation
    obtain ⟨c, hc, i, hi, vs, hvs, hev⟩ :=
      h.laid.exists_way hbounds rfl (fun c hc => h.fresh_steps hc) hrun event hm
    obtain ⟨_, _, _, heq, _⟩ := Statement.event_eq_ok hev
    obtain rfl : i = e.index := heq.symm.trans hequation
    rw [h.inside_steps hc he hi] at hev
    exact ⟨vs, h.inDomain_of_passes hc he hi hvs, h.isEvent_of_event hc he hi hev⟩

end Sound

end Plan

/-- A trace holds one event of an equation for each point of the equation's domain, and no other. -/
theorem exact_of_trace {program : Program} {options : Options} {tree : ScheduleTree}
    {es : List Lowered} {bindings : Bindings} {events : List Event}
    (hschedule : (program.schedule options).result = .ok tree)
    (hlower : program.lower.result = .ok es)
    (htrace : tree.events program.dims bindings = .ok events) {e : Lowered} (he : e ∈ es) :
    e.Exact program.dims (defaultBindings tree.parameters ++ bindings) events := by
  obtain ⟨p, hp, _, rfl, rfl⟩ := Program.exists_plan_of_schedule hschedule hlower
  rw [← hp.dims] at htrace ⊢
  exact hp.exact htrace he

/-- One equation at every point, one at every other point, and one from a point on that a run
binds. -/
def gated : Program where
  dims := (do
    let (t, x) ← DimTable.empty.space "x" (some 4)
    let (t, _) ← t.conditional "even" x (some 2) none
    let (t, _) ← t.conditional "late" x none (some (.compare .ge (.dim x) (.symbol "s")))
    return t : Except ModelError DimTable).toOption.getD .empty
  scalars := ["s"]
  equations :=
    [⟨⟨"u", [.fixed ⟨0⟩ 0]⟩, .int 0, [], []⟩, ⟨⟨"v", [.fixed ⟨1⟩ 0]⟩, .int 0, [], []⟩,
      ⟨⟨"w", [.fixed ⟨2⟩ 0]⟩, .int 0, [], []⟩]

theorem exact_of_trace_gated :
    ∃ tree es events, (gated.schedule default).result = .ok tree ∧
      gated.lower.result = .ok es ∧
      tree.events gated.dims [("x_M", 4), ("s", 3)] = .ok events ∧
      events.map (fun event => (event.instance, event.index)) =
        [(⟨0, [0]⟩, [0]), (⟨1, [0]⟩, [0]), (⟨0, [1]⟩, [1]), (⟨0, [2]⟩, [2]), (⟨1, [2]⟩, [1]),
          (⟨0, [3]⟩, [3]), (⟨2, [3]⟩, [3]), (⟨0, [4]⟩, [4]), (⟨1, [4]⟩, [2]), (⟨2, [4]⟩, [4])] ∧
      ∀ e ∈ es, e.Exact gated.dims
        (defaultBindings tree.parameters ++ [("x_M", 4), ("s", 3)]) events := by
  have hlower : ∃ es, gated.lower.result = .ok es := ⟨_, rfl⟩
  have hrun : ((gated.schedule default).result.toOption.bind fun tree =>
      (tree.events gated.dims [("x_M", 4), ("s", 3)]).toOption.map fun events =>
        events.map fun event => (event.instance, event.index)) = some
        [(⟨0, [0]⟩, [0]), (⟨1, [0]⟩, [0]), (⟨0, [1]⟩, [1]), (⟨0, [2]⟩, [2]), (⟨1, [2]⟩, [1]),
          (⟨0, [3]⟩, [3]), (⟨2, [3]⟩, [3]), (⟨0, [4]⟩, [4]), (⟨1, [4]⟩, [2]), (⟨2, [4]⟩, [4])] := by
    decide +kernel
  obtain ⟨es, hl⟩ := hlower
  obtain ⟨tree, ht, hrun⟩ := Option.bind_eq_some_iff.mp hrun
  obtain ⟨events, he, hevents⟩ := Option.map_eq_some_iff.mp hrun
  have ht := toOption_eq_some.mp ht
  have he := toOption_eq_some.mp he
  exact ⟨tree, es, events, ht, hl, he, hevents, fun e hm => exact_of_trace ht hl he hm⟩

end LoopNest
