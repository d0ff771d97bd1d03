import LoopNest.Tree.Build
import LoopNest.Proofs.Clustering
import LoopNest.Proofs.Evaluation
import LoopNest.Proofs.Places
/-!
# How clusters lie in the tree

`Laid p ok way cs ns` says that the nodes `ns` hold the statements of the clusters `cs`, in order,
each cluster at the end of its own way: `way c` is what is left of the way of `c` at this place,
and every loop passes the test `ok`.  A node holds a run of clusters whose ways begin with one
step, and inside it each way is one step shorter.  The list grows at its end, as the tree does, so
that `Laid.insert` follows the recursion of `Plan.insert`.

The test that matters is `Plan.Coherent`: the demand of a loop in space is that of all edges among
its equations, and they are fusible along it.  Settling turns it into `Plan.Settled`, which fixes
the direction and the properties too.
-/

namespace LoopNest

open Lowered

namespace Plan

variable {p : Plan}

/-- The statement of an equation in a cluster. -/
def statementOf (p : Plan) (c i : Nat) : Statement :=
  let nest : Nest := ⟨p.dims, (p.cluster c).signature.loops⟩
  let eq := (p.equations.getD i default).equation
  ⟨i, c, nest.access eq.lhs, nest.expr eq.rhs⟩

theorem statements_eq_map (p : Plan) (c : Nat) :
    p.statements c = (p.cluster c).equations.map fun i => .statement (p.statementOf c i) := rfl

/-! ## Ways -/

/-- The dimension of a step that leads into a loop. -/
def Step.dim? : Step → Option DimId
  | .loop d => some d
  | .guard _ => none

/-- The loops on a way, outermost first. -/
def dimsOf (steps : List Step) : List DimId := steps.filterMap Step.dim?

theorem dimsOf_append (xs ys : List Step) : dimsOf (xs ++ ys) = dimsOf xs ++ dimsOf ys :=
  List.filterMap_append

theorem dimsOf_guardSteps (gs : List Guard) (level : Nat) : dimsOf (guardSteps gs level) = [] := by
  simp only [dimsOf, guardSteps, List.filterMap_map, List.filterMap_eq_nil_iff]
  intro _ _
  exact rfl

theorem dimsOf_stepsFrom (gs : List Guard) : ∀ (level : Nat) (loops : List DimId),
    dimsOf (stepsFrom gs level loops) = loops
  | level, [] => dimsOf_guardSteps gs level
  | level, l :: ls => by
      rw [stepsFrom, dimsOf_append, dimsOf_guardSteps, List.nil_append]
      exact congrArg (l :: ·) (dimsOf_stepsFrom gs (level + 1) ls)

theorem dimsOf_steps (p : Plan) (c : Nat) : dimsOf (p.steps c) = (p.cluster c).signature.loops :=
  dimsOf_stepsFrom _ 0 _

theorem dimsOf_of_head?_loop {steps : List Step} {d : DimId} (h : steps.head? = some (.loop d)) :
    dimsOf steps = d :: dimsOf steps.tail := by
  obtain ⟨rest, rfl⟩ := List.head?_eq_some_iff.mp h
  rfl

theorem dimsOf_of_head?_guard {steps : List Step} {g : Guard}
    (h : steps.head? = some (.guard g)) : dimsOf steps = dimsOf steps.tail := by
  obtain ⟨rest, rfl⟩ := List.head?_eq_some_iff.mp h
  rfl

/-- The guard of a step that leads into one. -/
def Step.guard? : Step → Option Guard
  | .loop _ => none
  | .guard g => some g

/-- The guards on a way, outermost first. -/
def guardsOn (steps : List Step) : List Guard := steps.filterMap Step.guard?

theorem guardsOn_of_head?_loop {steps : List Step} {d : DimId}
    (h : steps.head? = some (.loop d)) : guardsOn steps = guardsOn steps.tail := by
  obtain ⟨rest, rfl⟩ := List.head?_eq_some_iff.mp h
  rfl

theorem guardsOn_of_head?_guard {steps : List Step} {g : Guard}
    (h : steps.head? = some (.guard g)) : guardsOn steps = g :: guardsOn steps.tail := by
  obtain ⟨rest, rfl⟩ := List.head?_eq_some_iff.mp h
  rfl

/-! ## One step into the tree -/

/-- A loop that one more cluster has joined. -/
def joined (l : Loop) (c : Nat) (demand : Demand) : Loop :=
  ⟨l.dim, l.bounds, l.direction, l.properties, l.clusters ++ [c], demand⟩

/-- A step into a loop joins the last node, if that is a loop over the dimension which the cluster
may share, or opens a fresh loop. -/
theorem enterLoop_cases (p : Plan) (c : Nat) (dim : DimId) (last : Option Node) :
    (∃ l body demand, last = some (.loop l body) ∧ p.options.fusion = true ∧ l.dim = dim ∧
      p.joinLoop l c = .ok demand ∧
      p.enterLoop c dim last = .join body (.loop (joined l c demand))) ∨
    (∃ notes, p.enterLoop c dim last = .new (.loop (p.freshLoop c dim)) notes) ∧
      ∀ l body, last = some (.loop l body) → p.options.fusion = true → l.dim = dim →
        ∃ note, p.joinLoop l c = .error note := by
  unfold enterLoop
  match last with
  | none | some (.guard _ _ _) | some (.statement _) =>
      exact Or.inr ⟨⟨[], rfl⟩, fun _ _ h => nomatch h⟩
  | some (.loop l body) =>
      by_cases h : (p.options.fusion && l.dim == dim) = true
      · simp only [h, if_true]
        have h' : p.options.fusion = true ∧ l.dim = dim := by simpa using h
        cases hj : p.joinLoop l c with
        | ok demand => exact Or.inl ⟨l, body, demand, rfl, h'.1, h'.2, hj, rfl⟩
        | error note =>
            refine Or.inr ⟨⟨[note], rfl⟩, fun l' body' hlast _ _ => ?_⟩
            cases hlast
            exact ⟨note, hj⟩
      · simp only [h]
        refine Or.inr ⟨⟨[], rfl⟩, fun l' body' hlast hfusion hdim => ?_⟩
        cases hlast
        exact absurd (by simpa using ⟨hfusion, hdim⟩) h

theorem enterGuard_cases (p : Plan) (g : Guard) (last : Option Node) :
    (∃ e ds body, last = some (.guard e ds body) ∧ p.options.fusion = true ∧
      (e == g.predicate) = true ∧
      p.enterGuard g last = .join body (.guard e (addConditions ds g.conditions))) ∨
    p.enterGuard g last = .new (.guard g.predicate g.conditions) [] ∧
      ∀ e ds body, last = some (.guard e ds body) → p.options.fusion = true →
        (e == g.predicate) = false := by
  unfold enterGuard
  match last with
  | none | some (.loop _ _) | some (.statement _) => exact Or.inr ⟨rfl, fun _ _ _ h => nomatch h⟩
  | some (.guard e ds body) =>
      by_cases h : (p.options.fusion && e == g.predicate) = true
      · have h' : p.options.fusion = true ∧ (e == g.predicate) = true := by simpa using h
        exact Or.inl ⟨e, ds, body, rfl, h'.1, h'.2, by simp [h]⟩
      · refine Or.inr ⟨by simp [h], fun e' ds' body' hlast hfusion => ?_⟩
        cases hlast
        simpa [hfusion] using h

/-- What keeps a cluster out of a loop: time is always shared, and in space a distance between the
two is not known or no direction suits both. -/
theorem joinLoop_eq_error {l : Loop} {c : Nat} {note : Note} (h : p.joinLoop l c = .error note) :
    let root := p.dims.root l.dim
    let own := (p.cluster c).equations
    let between := p.graph.between (p.equationsOf l.clusters) own
    p.dims.isTimeLike root = false ∧ ((∃ e ∈ between, e.carrier = .unknown root) ∨
      ((l.demand.merge (Demand.among p.graph own root)).merge
        (Demand.ofEdges root between)).isSatisfiable = false) := by
  intro root own between
  rw [joinLoop] at h
  split at h
  · cases h
  · rename_i ht
    refine ⟨Bool.eq_false_iff.mpr ht, ?_⟩
    simp only at h
    split at h
    · rename_i hany
      obtain ⟨e, he, hunknown⟩ := List.any_eq_true.mp hany
      obtain ⟨he, hroot⟩ := List.mem_filter.mp he
      refine Or.inl ⟨e, he, ?_⟩
      cases hc : e.carrier <;> simp [hc, Carrier.isUnknown, Carrier.root?] at hunknown hroot
      rw [hroot]
    · rw [Demand.ofEdges_filter_root] at h
      split at h
      · cases h
      · rename_i hs
        exact Or.inr (Bool.eq_false_iff.mpr hs)

theorem joinLoop_eq_ok {l : Loop} {c : Nat} {demand : Demand} (h : p.joinLoop l c = .ok demand)
    (ht : p.dims.isTimeLike (p.dims.root l.dim) = false) :
    let root := p.dims.root l.dim
    let own := (p.cluster c).equations
    let between := p.graph.between (p.equationsOf l.clusters) own
    (∀ e ∈ between, e.carrier ≠ .unknown root) ∧
      demand = (l.demand.merge (Demand.among p.graph own root)).merge
        (Demand.ofEdges root between) ∧
      demand.isSatisfiable = true := by
  intro root own between
  rw [joinLoop] at h
  simp only [ht, Bool.false_eq_true, if_false] at h
  split at h
  · cases h
  · rename_i hany
    rw [Demand.ofEdges_filter_root] at h
    split at h
    · rename_i hs
      cases h
      refine ⟨fun e he hc => hany (List.any_eq_true.mpr ⟨e, ?_, by simp [hc, Carrier.isUnknown]⟩),
        rfl, hs⟩
      exact List.mem_filter.mpr ⟨he, by simp [hc, Carrier.root?]; rfl⟩
    · cases h

/-! ## Laid nodes -/

/-- The nodes hold the statements of clusters in order, each at the end of its way. -/
inductive Laid (p : Plan) (ok : Loop → Prop) : (Nat → List Step) → List Nat → List Node → Prop where
  | nil {way : Nat → List Step} : Laid p ok way [] []
  /-- The way of the last cluster ends here. -/
  | here {way : Nat → List Step} {cs : List Nat} {ns : List Node} {c : Nat} :
      Laid p ok way cs ns → way c = [] → (p.cluster c).equations ≠ [] →
      Laid p ok way (cs ++ [c]) (ns ++ p.statements c)
  /-- The ways of the last clusters lead into one loop. -/
  | loop {way : Nat → List Step} {cs own : List Nat} {ns body : List Node} {l : Loop} :
      Laid p ok way cs ns → l.clusters = own → own ≠ [] → ok l →
      (∀ c ∈ own, (way c).head? = some (.loop l.dim)) →
      Laid p ok (fun c => (way c).tail) own body →
      Laid p ok way (cs ++ own) (ns ++ [.loop l body])
  /-- The ways of the last clusters lead into one guard. -/
  | guard {way : Nat → List Step} {cs own : List Nat} {ns body : List Node} {e : Expr}
      {ds : List DimId} :
      Laid p ok way cs ns → own ≠ [] →
      (∀ c ∈ own, ∃ g, (way c).head? = some (.guard g) ∧ Expr.Alike e g.predicate) →
      Laid p ok (fun c => (way c).tail) own body →
      Laid p ok way (cs ++ own) (ns ++ [.guard e ds body])

namespace Laid

variable {ok : Loop → Prop} {way : Nat → List Step} {cs : List Nat} {ns : List Node}

theorem getLast?_append_statements {c : Nat} (h : (p.cluster c).equations ≠ []) :
    ∃ s, (ns ++ p.statements c).getLast? = some (.statement s) := by
  rw [statements_eq_map, List.getLast?_append, List.getLast?_map]
  obtain ⟨i, hi⟩ := Option.ne_none_iff_exists'.mp (mt List.getLast?_eq_none_iff.mp h)
  exact ⟨p.statementOf c i, by simp [hi]⟩

theorem of_getLast?_loop (h : Laid p ok way cs ns) {l : Loop} {body : List Node}
    (hl : ns.getLast? = some (.loop l body)) :
    ∃ before own, cs = before ++ own ∧ Laid p ok way before ns.dropLast ∧ l.clusters = own ∧
      own ≠ [] ∧ ok l ∧ (∀ c ∈ own, (way c).head? = some (.loop l.dim)) ∧
      Laid p ok (fun c => (way c).tail) own body := by
  cases h with
  | nil => cases hl
  | here h hw hne =>
      obtain ⟨s, hs⟩ := getLast?_append_statements hne
      rw [hs] at hl
      cases hl
  | loop h hc hne hok hhead hbody =>
      rw [List.getLast?_concat] at hl
      cases hl
      exact ⟨_, _, rfl, by simpa using h, hc, hne, hok, hhead, hbody⟩
  | guard h hne hhead hbody =>
      rw [List.getLast?_concat] at hl
      cases hl

theorem of_getLast?_guard (h : Laid p ok way cs ns) {e : Expr} {ds : List DimId}
    {body : List Node} (hl : ns.getLast? = some (.guard e ds body)) :
    ∃ before own, cs = before ++ own ∧ Laid p ok way before ns.dropLast ∧ own ≠ [] ∧
      (∀ c ∈ own, ∃ g, (way c).head? = some (.guard g) ∧ Expr.Alike e g.predicate) ∧
      Laid p ok (fun c => (way c).tail) own body := by
  cases h with
  | nil => cases hl
  | here h hw hne =>
      obtain ⟨s, hs⟩ := getLast?_append_statements hne
      rw [hs] at hl
      cases hl
  | loop h hc hne hok hhead hbody =>
      rw [List.getLast?_concat] at hl
      cases hl
  | guard h hne hhead hbody =>
      rw [List.getLast?_concat] at hl
      cases hl
      exact ⟨_, _, rfl, by simpa using h, hne, hhead, hbody⟩

/-- A test of loops that a cluster's own loops pass, and that lasts when the cluster joins one, as
fusion lets it. -/
structure Lasts (p : Plan) (ok : Loop → Prop) (c : Nat) (dims : List DimId) : Prop where
  fresh : ∀ d ∈ dims, ok (p.freshLoop c d)
  join : ∀ l demand, l.dim ∈ dims → ok l → p.options.fusion = true →
    p.joinLoop l c = .ok demand → ok (joined l c demand)

/-- One more cluster enters along its way. -/
theorem insert {c : Nat} {dims : List DimId} (hne : (p.cluster c).equations ≠ [])
    (hlasts : Lasts p ok c dims) :
    ∀ {steps : List Step} {way : Nat → List Step} {cs : List Nat} {ns : List Node},
      Laid p ok way cs ns → way c = steps → (∀ d ∈ dimsOf steps, d ∈ dims) →
      Laid p ok way (cs ++ [c]) (p.insert c steps ns).1
  | [], way, cs, ns, h, hw, _ => .here h hw hne
  | .loop dim :: rest, way, cs, ns, h, hw, hd => by
      have hin : dim ∈ dims := hd dim List.mem_cons_self
      have hrest : ∀ d ∈ dimsOf rest, d ∈ dims := fun d hm => hd d (List.mem_cons_of_mem _ hm)
      have htail : (way c).tail = rest := by rw [hw]; rfl
      rw [Plan.insert, enter]
      rcases enterLoop_cases p c dim ns.getLast? with
        ⟨l, body, demand, hlast, hfusion, rfl, hj, hent⟩ | ⟨⟨notes, hent⟩, _⟩
      · obtain ⟨before, own, rfl, hbefore, hc, _, hok, hhead, hbody⟩ := h.of_getLast?_loop hlast
        rw [hent, List.append_assoc]
        refine .loop hbefore (by simp [joined, hc]) (by simp)
          (hlasts.join l demand hin hok hfusion hj) ?_ (insert hne hlasts hbody htail hrest)
        intro a ha
        rcases List.mem_append.mp ha with ha | ha
        · exact hhead a ha
        · rw [List.mem_singleton.mp ha, hw]
          rfl
      · rw [hent]
        refine .loop h rfl (by simp) (hlasts.fresh dim hin) ?_
          (insert hne hlasts (.nil : Laid p ok _ [] []) htail hrest)
        intro a ha
        rw [List.mem_singleton.mp ha, hw]
        rfl
  | .guard g :: rest, way, cs, ns, h, hw, hd => by
      have htail : (way c).tail = rest := by rw [hw]; rfl
      rw [Plan.insert, enter]
      rcases enterGuard_cases p g ns.getLast? with ⟨e, ds, body, hlast, _, heq, hent⟩ | ⟨hent, _⟩
      · obtain ⟨before, own, rfl, hbefore, _, hhead, hbody⟩ := h.of_getLast?_guard hlast
        rw [hent, List.append_assoc]
        refine .guard hbefore (by simp) ?_ (insert hne hlasts hbody htail hd)
        intro a ha
        rcases List.mem_append.mp ha with ha | ha
        · exact hhead a ha
        · rw [List.mem_singleton.mp ha, hw]
          exact ⟨g, rfl, Or.inr heq⟩
      · rw [hent]
        refine .guard h (by simp) ?_ (insert hne hlasts (.nil : Laid p ok _ [] []) htail hd)
        intro a ha
        rw [List.mem_singleton.mp ha, hw]
        exact ⟨g, rfl, Or.inl rfl⟩

/-! ## What laid nodes hold -/

theorem placementsOf_statements (p : Plan) (c : Nat) :
    Node.placementsOf (p.statements c) =
      (p.cluster c).equations.map fun i => ⟨[], [], p.statementOf c i⟩ := by
  rw [statements_eq_map, Node.placementsOf_eq_flatMap, List.flatMap_map]
  exact List.flatMap_pure_eq_map _ _

theorem sitesOf_statements (p : Plan) (c : Nat) : Node.sitesOf (p.statements c) = [] := by
  rw [statements_eq_map]
  induction (p.cluster c).equations with
  | nil => rfl
  | cons i is ih => exact ih

/-- A statement stands inside the loops and the guards on the way of its cluster. -/
theorem of_mem_placementsOf (h : Laid p ok way cs ns) :
    ∀ q ∈ Node.placementsOf ns, ∃ c ∈ cs, ∃ i ∈ (p.cluster c).equations,
      q.statement = p.statementOf c i ∧ q.loops.map Loop.dim = dimsOf (way c) ∧
        List.Forall₂ Expr.Alike q.guards ((guardsOn (way c)).map Guard.predicate) := by
  induction h with
  | nil =>
      intro q hq
      exact absurd hq List.not_mem_nil
  | here _ hw _ ih =>
      intro q hq
      rw [Node.placementsOf_append, List.mem_append, placementsOf_statements] at hq
      rcases hq with hq | hq
      · obtain ⟨c, hc, h⟩ := ih q hq
        exact ⟨c, List.mem_append_left _ hc, h⟩
      · obtain ⟨i, hi, rfl⟩ := List.mem_map.mp hq
        refine ⟨_, List.mem_append_right _ (List.mem_singleton.mpr rfl), i, hi, rfl, ?_⟩
        rw [hw]
        exact ⟨rfl, .nil⟩
  | loop _ _ _ _ hhead _ ih ihbody =>
      intro q hq
      rw [Node.placementsOf_append, List.mem_append, Node.placementsOf, Node.placementsOf,
        List.append_nil, Node.placements] at hq
      rcases hq with hq | hq
      · obtain ⟨c, hc, h⟩ := ih q hq
        exact ⟨c, List.mem_append_left _ hc, h⟩
      · obtain ⟨r, hr, rfl⟩ := List.mem_map.mp hq
        obtain ⟨c, hc, i, hi, hs, hd, hg⟩ := ihbody r hr
        refine ⟨c, List.mem_append_right _ hc, i, hi, hs, ?_, ?_⟩
        · exact (congrArg _ hd).trans (dimsOf_of_head?_loop (hhead c hc)).symm
        · rw [guardsOn_of_head?_loop (hhead c hc)]
          exact hg
  | guard _ _ hhead _ ih ihbody =>
      intro q hq
      rw [Node.placementsOf_append, List.mem_append, Node.placementsOf, Node.placementsOf,
        List.append_nil, Node.placements] at hq
      rcases hq with hq | hq
      · obtain ⟨c, hc, h⟩ := ih q hq
        exact ⟨c, List.mem_append_left _ hc, h⟩
      · obtain ⟨r, hr, rfl⟩ := List.mem_map.mp hq
        obtain ⟨c, hc, i, hi, hs, hd, hg⟩ := ihbody r hr
        obtain ⟨g, hstep, halike⟩ := hhead c hc
        refine ⟨c, List.mem_append_right _ hc, i, hi, hs, ?_, ?_⟩
        · exact hd.trans (dimsOf_of_head?_guard hstep).symm
        · rw [guardsOn_of_head?_guard hstep, List.map_cons]
          exact .cons halike hg

/-- A loop passes the test, and its body is laid with the clusters of the loop, in their order.  The
ways of these clusters lead through the loops around, which hold them too, and through the loop
itself. -/
theorem laid_of_mem_sitesOf (h : Laid p ok way cs ns) :
    ∀ site ∈ Node.sitesOf ns, ok site.loop ∧ ∃ inner,
      Laid p ok inner site.loop.clusters site.body ∧ site.loop.clusters.Sublist cs ∧
        ∀ c ∈ site.loop.clusters, (∀ l ∈ site.outer, ok l ∧ c ∈ l.clusters) ∧
          dimsOf (way c) = site.outer.map Loop.dim ++ site.loop.dim :: dimsOf (inner c) := by
  induction h with
  | nil =>
      intro site hs
      exact absurd hs List.not_mem_nil
  | here _ _ _ ih =>
      intro site hs
      rw [Node.sitesOf_append, sitesOf_statements, List.append_nil] at hs
      obtain ⟨hok, inner, hbody, hsub, hc⟩ := ih site hs
      exact ⟨hok, inner, hbody, List.sublist_append_of_sublist_left hsub, hc⟩
  | @loop way _ _ _ _ _ _ hown _ hok hhead hbody ih ihbody =>
      intro site hs
      rw [Node.sitesOf_append, List.mem_append, Node.sitesOf, Node.sitesOf, List.append_nil,
        Node.sites, List.mem_cons] at hs
      rcases hs with hs | rfl | hs
      · obtain ⟨hok, inner, hbody, hsub, hc⟩ := ih site hs
        exact ⟨hok, inner, hbody, List.sublist_append_of_sublist_left hsub, hc⟩
      · subst hown
        refine ⟨hok, fun c => (way c).tail, hbody, List.sublist_append_right _ _, fun c h => ?_⟩
        exact ⟨fun l hl => absurd hl List.not_mem_nil, dimsOf_of_head?_loop (hhead c h)⟩
      · obtain ⟨within, hi, rfl⟩ := List.mem_map.mp hs
        obtain ⟨hok', inner, hbody', hsub, hc⟩ := ihbody within hi
        refine ⟨hok', inner, hbody', List.sublist_append_of_sublist_right hsub, fun c h => ?_⟩
        obtain ⟨houter, hd⟩ := hc c h
        have hin := hsub.subset h
        refine ⟨fun l hl => ?_, ?_⟩
        · rcases List.mem_cons.mp hl with rfl | hl
          · exact ⟨hok, hown ▸ hin⟩
          · exact houter l hl
        · rw [dimsOf_of_head?_loop (hhead c hin), hd]
          rfl
  | guard _ _ hhead _ ih ihbody =>
      intro site hs
      rw [Node.sitesOf_append, List.mem_append, Node.sitesOf, Node.sitesOf, List.append_nil,
        Node.sites] at hs
      rcases hs with hs | hs
      · obtain ⟨hok, inner, hbody, hsub, hc⟩ := ih site hs
        exact ⟨hok, inner, hbody, List.sublist_append_of_sublist_left hsub, hc⟩
      · obtain ⟨hok, inner, hbody, hsub, hc⟩ := ihbody site hs
        refine ⟨hok, inner, hbody, List.sublist_append_of_sublist_right hsub, fun c h => ?_⟩
        obtain ⟨houter, hd⟩ := hc c h
        obtain ⟨g, hg, _⟩ := hhead c (hsub.subset h)
        exact ⟨houter, (dimsOf_of_head?_guard hg).trans hd⟩

theorem of_mem_sitesOf (h : Laid p ok way cs ns) :
    ∀ site ∈ Node.sitesOf ns, ok site.loop ∧ ∀ q ∈ Node.placementsOf site.body,
      ∃ c ∈ cs, c ∈ site.loop.clusters ∧ ∃ i ∈ (p.cluster c).equations,
        q.statement = p.statementOf c i ∧
          site.outer.map Loop.dim ++ site.loop.dim :: q.loops.map Loop.dim = dimsOf (way c) := by
  intro site hs
  obtain ⟨hok, inner, hbody, hsub, hc⟩ := h.laid_of_mem_sitesOf site hs
  refine ⟨hok, fun q hq => ?_⟩
  obtain ⟨c, hin, i, hi, hst, hd, _⟩ := hbody.of_mem_placementsOf q hq
  exact ⟨c, hsub.subset hin, hin, i, hi, hst, by rw [hd, (hc c hin).2]⟩

theorem loops_ok (h : Laid p ok way cs ns) : ∀ l ∈ Node.loopsOf ns, ok l := by
  intro l hl
  rw [← Node.map_loop_sitesOf] at hl
  obtain ⟨site, hs, rfl⟩ := List.mem_map.mp hl
  exact (h.of_mem_sitesOf site hs).1

theorem statementsOf_statements (p : Plan) (c : Nat) :
    Node.statementsOf (p.statements c) = (p.cluster c).equations.map (p.statementOf c) := by
  rw [Node.statementsOf, placementsOf_statements, List.map_map]
  rfl

/-- The statements are those of the clusters, in order. -/
theorem statementsOf_eq (h : Laid p ok way cs ns) :
    Node.statementsOf ns = cs.flatMap fun c => (p.cluster c).equations.map (p.statementOf c) := by
  induction h with
  | nil => rfl
  | here _ _ _ ih =>
      rw [Node.statementsOf_append, ih, statementsOf_statements, List.flatMap_append,
        List.flatMap_singleton]
  | loop _ _ _ _ _ _ ih ihbody =>
      rw [Node.statementsOf_append, ih, Node.statementsOf_loop, ihbody, List.flatMap_append]
  | guard _ _ _ _ ih ihbody =>
      rw [Node.statementsOf_append, ih, Node.statementsOf_guard, ihbody, List.flatMap_append]

theorem equationsOf_eq (h : Laid p ok way cs ns) :
    Node.equationsOf ns = cs.flatMap fun c => (p.cluster c).equations := by
  rw [Node.equationsOf, h.statementsOf_eq, List.map_flatMap]
  refine List.flatMap_congr ?_
  intro c _
  rw [List.map_map]
  exact List.map_id' _

theorem equations_ne_nil (h : Laid p ok way cs ns) : ∀ c ∈ cs, (p.cluster c).equations ≠ [] := by
  induction h with
  | nil =>
      intro c hc
      cases hc
  | here _ _ hne ih =>
      intro c hc
      rcases List.mem_append.mp hc with hc | hc
      · exact ih c hc
      · exact List.mem_singleton.mp hc ▸ hne
  | loop _ _ _ _ _ _ ih ihbody =>
      intro c hc
      exact (List.mem_append.mp hc).elim (ih c) (ihbody c)
  | guard _ _ _ _ ih ihbody =>
      intro c hc
      exact (List.mem_append.mp hc).elim (ih c) (ihbody c)

theorem mem_clusters_iff (h : Laid p ok way cs ns) {c : Nat} :
    c ∈ cs ↔ ∃ q ∈ Node.placementsOf ns, q.statement.cluster = c := by
  have hstatements : (∃ q ∈ Node.placementsOf ns, q.statement.cluster = c) ↔
      ∃ st ∈ Node.statementsOf ns, st.cluster = c := by
    simp only [Node.statementsOf, List.mem_map, exists_exists_and_eq_and]
  rw [hstatements, h.statementsOf_eq]
  simp only [List.mem_flatMap, List.mem_map]
  constructor
  · intro hc
    obtain ⟨i, hi⟩ := List.exists_mem_of_ne_nil _ (h.equations_ne_nil c hc)
    exact ⟨_, ⟨c, hc, i, hi, rfl⟩, rfl⟩
  · rintro ⟨_, ⟨c', hc, i, _, rfl⟩, rfl⟩
    exact hc

end Laid

end Plan

end LoopNest
