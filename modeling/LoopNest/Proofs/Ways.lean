import LoopNest.Proofs.Execution
import LoopNest.Proofs.Settled
/-!
# Runs along ways

A run of laid nodes is followed along the ways of their clusters.  An event lies at the end of the
way of its cluster, every guard on the way decided for it (`Laid.exists_way`).  Conversely a way
that no guard decides against ends in an event (`Laid.exists_event`): the run has come to each
guard on the way and decided it, as it would not have succeeded otherwise.

Guards are decided early, inside some of the loops of the way.  What is found there is still found
inside all of them, because the loops of a way are over different dimensions (`Fresh.extends`).
-/

namespace LoopNest

/-- The value lies between the bounds of the dimension. -/
def DimTable.InRange (t : DimTable) (b : Bindings) (d : DimId) (v : Int) : Prop :=
  ∃ lo hi, (⟨t, b, []⟩ : Scope).int (t.interval d).min = .ok lo ∧
    (⟨t, b, []⟩ : Scope).int (t.interval d).max = .ok hi ∧ lo ≤ v ∧ v ≤ hi

namespace Plan

variable {p : Plan} {ok : Loop → Prop} {way : Nat → List Step} {cs : List Nat} {ns : List Node}

/-! ## Along a way -/

/-- The scope inside more loops. -/
def inside (s : Scope) (ds : List DimId) (vs : List Int) : Scope :=
  ⟨s.dims, s.bindings, s.point ++ ds.zip vs⟩

theorem inside_nil (s : Scope) (vs : List Int) : inside s [] vs = s := by
  simp [inside]

/-- The values of the loops along a way are within bounds, and guards on it are decided as `P` says
inside all its loops. -/
structure Passes (P : Except TraceError Bool → Prop) (s : Scope) (steps : List Step)
    (vs : List Int) : Prop where
  length : vs.length = (dimsOf steps).length
  bounded : ∀ pair ∈ (dimsOf steps).zip vs, s.dims.InRange s.bindings pair.1 pair.2
  decided : ∀ g, Step.guard g ∈ steps → P ((inside s (dimsOf steps) vs).truth g.predicate)

/-- No loop along a way hides a value that is known where it begins. -/
def Fresh (s : Scope) (steps : List Step) : Prop :=
  (s.point.map Prod.fst ++ dimsOf steps).Nodup

theorem Fresh.extends {s : Scope} {steps : List Step} (h : Fresh s steps) (vs : List Int) :
    Scope.Extends s (inside s (dimsOf steps) vs) := by
  refine Scope.extends_append ?_
  intro d hd hm
  obtain ⟨pair, hp, rfl⟩ := List.mem_map.mp hm
  exact (List.nodup_append.mp h).2.2 pair.1 hd pair.1 (List.of_mem_zip hp).1 rfl

section Steps

variable {P : Except TraceError Bool → Prop} {s : Scope} {steps : List Step} {d : DimId} {g : Guard}
  {v : Int} {vs : List Int}

theorem passes_nil (P : Except TraceError Bool → Prop) (s : Scope) : Passes P s [] [] :=
  ⟨rfl, fun _ hp => absurd hp List.not_mem_nil, fun _ hg => absurd hg List.not_mem_nil⟩

theorem inside_loop (h : steps.head? = some (.loop d)) :
    inside s (dimsOf steps) (v :: vs) = inside (s.bind d v) (dimsOf steps.tail) vs := by
  rw [dimsOf_of_head?_loop h]
  simp [inside, Scope.bind]

theorem passes_loop (h : steps.head? = some (.loop d)) :
    Passes P s steps (v :: vs) ↔
      s.dims.InRange s.bindings d v ∧ Passes P (s.bind d v) steps.tail vs := by
  obtain ⟨rest, rfl⟩ := List.head?_eq_some_iff.mp h
  constructor
  · intro hp
    refine ⟨hp.bounded (d, v) List.mem_cons_self, Nat.succ.inj hp.length,
      fun pair hm => hp.bounded pair (List.mem_cons_of_mem _ hm), fun g hg => ?_⟩
    rw [← inside_loop h]
    exact hp.decided g (List.mem_cons_of_mem _ hg)
  · rintro ⟨hv, hp⟩
    refine ⟨congrArg (· + 1) hp.length, fun pair hm => ?_, fun g hg => ?_⟩
    · rcases List.mem_cons.mp hm with rfl | hm
      · exact hv
      · exact hp.bounded pair hm
    · rw [inside_loop h]
      rcases List.mem_cons.mp hg with hg | hg
      · cases hg
      · exact hp.decided g hg

theorem fresh_loop (h : steps.head? = some (.loop d)) (hf : Fresh s steps) :
    Fresh (s.bind d v) steps.tail := by
  rw [Fresh, dimsOf_of_head?_loop h] at hf
  simpa [Fresh, Scope.bind] using hf

theorem passes_guard (h : steps.head? = some (.guard g)) :
    Passes P s steps vs ↔
      P ((inside s (dimsOf steps) vs).truth g.predicate) ∧ Passes P s steps.tail vs := by
  obtain ⟨rest, rfl⟩ := List.head?_eq_some_iff.mp h
  constructor
  · intro hp
    exact ⟨hp.decided g List.mem_cons_self, hp.length, hp.bounded,
      fun g hg => hp.decided g (List.mem_cons_of_mem _ hg)⟩
  · rintro ⟨hg, hp⟩
    refine ⟨hp.length, hp.bounded, fun g' hg' => ?_⟩
    rcases List.mem_cons.mp hg' with hg' | hg'
    · cases hg'
      exact hg
    · exact hp.decided g' hg'

theorem fresh_guard (h : steps.head? = some (.guard g)) (hf : Fresh s steps) :
    Fresh s steps.tail := by
  rwa [Fresh, dimsOf_of_head?_guard h] at hf

end Steps

/-! ## Events of laid nodes -/

/-- The events of a cluster's statements are those of its equations. -/
theorem runAll_statements_eq_ok {s : Scope} {c : Nat} {events : List Event}
    (h : Node.runAll s (p.statements c) = .ok events) :
    List.Forall₂ (fun i event => (p.statementOf c i).event s = .ok event)
      (p.cluster c).equations events := by
  rw [statements_eq_map] at h
  generalize (p.cluster c).equations = is at h
  induction is generalizing events with
  | nil =>
      cases h
      exact .nil
  | cons i is ih =>
      obtain ⟨first, hfirst, h⟩ := bind_eq_ok.mp h
      obtain ⟨rest, hrest, h⟩ := bind_eq_ok.mp h
      obtain ⟨event, he, hfirst⟩ := bind_eq_ok.mp hfirst
      cases hfirst
      cases h
      exact .cons he (ih hrest)

theorem inRange_iff {s : Scope} {d : DimId} {lo hi v : Int}
    (hlo : s.int (s.dims.interval d).min = .ok lo) (hhi : s.int (s.dims.interval d).max = .ok hi) :
    s.dims.InRange s.bindings d v ↔ lo ≤ v ∧ v ≤ hi := by
  obtain ⟨hmin, hmax⟩ := s.dims.interval_constant d
  have hlo' := (hmin s.dims s.bindings s.point).symm.trans hlo
  have hhi' := (hmax s.dims s.bindings s.point).symm.trans hhi
  constructor
  · rintro ⟨lo', hi', hl, hh, hv⟩
    cases hl.symm.trans hlo'
    cases hh.symm.trans hhi'
    exact hv
  · rintro hv
    exact ⟨lo, hi, hlo', hhi', hv⟩

namespace Laid

/-- An event of laid nodes lies at the end of its cluster's way, every guard on it decided for
the event. -/
theorem exists_way (hok : ∀ l, ok l → l.bounds = p.dims.interval l.dim)
    (h : Laid p ok way cs ns) : ∀ {s : Scope} {events : List Event}, s.dims = p.dims →
      (∀ c ∈ cs, Fresh s (way c)) → Node.runAll s ns = .ok events → ∀ event ∈ events,
        ∃ c ∈ cs, ∃ i ∈ (p.cluster c).equations, ∃ vs, Passes (· = .ok true) s (way c) vs ∧
          (p.statementOf c i).event (inside s (dimsOf (way c)) vs) = .ok event := by
  induction h with
  | nil =>
      intro s events _ _ hrun event he
      cases hrun
      cases he
  | @here way cs ns c _ hw _ ih =>
      intro s events hs hfresh hrun event he
      rw [Node.runAll_append] at hrun
      obtain ⟨first, hfirst, hrun⟩ := bind_eq_ok.mp hrun
      obtain ⟨rest, hrest, rfl⟩ := map_eq_ok.mp hrun
      rcases List.mem_append.mp he with he | he
      · obtain ⟨c, hc, h⟩ :=
          ih hs (fun c hc => hfresh c (List.mem_append_left _ hc)) hfirst event he
        exact ⟨c, List.mem_append_left _ hc, h⟩
      · obtain ⟨i, hi, hev⟩ := exists_of_forall₂_right (runAll_statements_eq_ok hrest) he
        refine ⟨c, List.mem_append_right _ (List.mem_singleton.mpr rfl), i, hi, [], ?_, ?_⟩
        · exact hw ▸ passes_nil _ s
        · rw [hw]
          exact (inside_nil s []).symm ▸ hev
  | @loop way cs own ns body l _ _ _ hl hhead _ ih ihbody =>
      intro s events hs hfresh hrun event he
      obtain ⟨first, rest, hfirst, hrest, rfl⟩ := Node.runAll_concat_eq_ok.mp hrun
      rcases List.mem_append.mp he with he | he
      · obtain ⟨c, hc, h⟩ :=
          ih hs (fun c hc => hfresh c (List.mem_append_left _ hc)) hfirst event he
        exact ⟨c, List.mem_append_left _ hc, h⟩
      · obtain ⟨lo, hi, hlo, hhi, visited, f, _, hmem, hbody, rfl⟩ := Node.run_loop_eq_ok hrest
        obtain ⟨v, hv, he⟩ := List.mem_flatMap.mp he
        obtain ⟨c, hc, i, hi', vs, hvs, hev⟩ := ihbody (s := s.bind l.dim v) hs
          (fun c hc => fresh_loop (hhead c hc) (hfresh c (List.mem_append_right _ hc)))
          (hbody v hv) event he
        rw [hok l hl, ← hs] at hlo hhi
        have hin := (inRange_iff hlo hhi).mpr ((hmem v).mp hv)
        refine ⟨c, List.mem_append_right _ hc, i, hi', v :: vs, ?_, ?_⟩
        · exact (passes_loop (hhead c hc)).mpr ⟨hin, hvs⟩
        · rw [inside_loop (hhead c hc)]
          exact hev
  | @guard way cs own ns body e ds _ _ hhead _ ih ihbody =>
      intro s events hs hfresh hrun event he
      obtain ⟨first, rest, hfirst, hrest, rfl⟩ := Node.runAll_concat_eq_ok.mp hrun
      rcases List.mem_append.mp he with he | he
      · obtain ⟨c, hc, h⟩ :=
          ih hs (fun c hc => hfresh c (List.mem_append_left _ hc)) hfirst event he
        exact ⟨c, List.mem_append_left _ hc, h⟩
      · rcases Node.run_guard_eq_ok hrest with ⟨htrue, hbody⟩ | ⟨_, rfl⟩
        · have hf := fun c hc => hfresh c (List.mem_append_right cs hc)
          obtain ⟨c, hc, i, hi, vs, hvs, hev⟩ := ihbody hs
            (fun c hc => by
              obtain ⟨g, hg, _⟩ := hhead c hc
              exact fresh_guard hg (hf c hc)) hbody event he
          obtain ⟨g, hg, halike⟩ := hhead c hc
          refine ⟨c, List.mem_append_right _ hc, i, hi, vs, (passes_guard hg).mpr ⟨?_, hvs⟩, ?_⟩
          · exact (Scope.truth_of_alike _ halike true).mp (((hf c hc).extends vs).truth htrue)
          · rw [dimsOf_of_head?_guard hg]
            exact hev
        · cases he

/-- A way that no guard decides against ends in an event. -/
theorem exists_event (hok : ∀ l, ok l → l.bounds = p.dims.interval l.dim)
    (h : Laid p ok way cs ns) : ∀ {s : Scope} {events : List Event}, s.dims = p.dims →
      Node.runAll s ns = .ok events → ∀ c ∈ cs, Fresh s (way c) →
        ∀ i ∈ (p.cluster c).equations, ∀ vs, Passes (· ≠ .ok false) s (way c) vs →
          ∃ event ∈ events,
            (p.statementOf c i).event (inside s (dimsOf (way c)) vs) = .ok event := by
  induction h with
  | nil =>
      intro s events _ _ c hc
      cases hc
  | @here way cs ns c' _ hw _ ih =>
      intro s events hs hrun c hc hfresh i hi vs hvs
      rw [Node.runAll_append] at hrun
      obtain ⟨first, hfirst, hrun⟩ := bind_eq_ok.mp hrun
      obtain ⟨rest, hrest, rfl⟩ := map_eq_ok.mp hrun
      rcases List.mem_append.mp hc with hc | hc
      · obtain ⟨event, he, hev⟩ := ih hs hfirst c hc hfresh i hi vs hvs
        exact ⟨event, List.mem_append_left _ he, hev⟩
      · obtain rfl := List.mem_singleton.mp hc
        obtain ⟨event, he, hev⟩ := exists_of_forall₂_left (runAll_statements_eq_ok hrest) hi
        refine ⟨event, List.mem_append_right _ he, ?_⟩
        rw [hw]
        exact (inside_nil s vs).symm ▸ hev
  | @loop way cs own ns body l _ _ _ hl hhead _ ih ihbody =>
      intro s events hs hrun c hc hfresh i hi' vs hvs
      obtain ⟨first, rest, hfirst, hrest, rfl⟩ := Node.runAll_concat_eq_ok.mp hrun
      rcases List.mem_append.mp hc with hc | hc
      · obtain ⟨event, he, hev⟩ := ih hs hfirst c hc hfresh i hi' vs hvs
        exact ⟨event, List.mem_append_left _ he, hev⟩
      · obtain ⟨lo, hi, hlo, hhi, visited, f, _, hmem, hbody, rfl⟩ := Node.run_loop_eq_ok hrest
        have hhead := hhead c hc
        cases vs with
        | nil =>
            have := hvs.length
            rw [dimsOf_of_head?_loop hhead] at this
            cases this
        | cons v us =>
            obtain ⟨hv, hus⟩ := (passes_loop hhead).mp hvs
            rw [hok l hl, ← hs] at hlo hhi
            have hvis := (hmem v).mpr ((inRange_iff hlo hhi).mp hv)
            obtain ⟨event, he, hev⟩ := ihbody (s := s.bind l.dim v) hs (hbody v hvis) c hc
              (fresh_loop hhead hfresh) i hi' us hus
            refine ⟨event, List.mem_append_right _ (List.mem_flatMap.mpr ⟨v, hvis, he⟩), ?_⟩
            rw [inside_loop hhead]
            exact hev
  | @guard way cs own ns body e ds _ _ hhead _ ih ihbody =>
      intro s events hs hrun c hc hfresh i hi vs hvs
      obtain ⟨first, rest, hfirst, hrest, rfl⟩ := Node.runAll_concat_eq_ok.mp hrun
      rcases List.mem_append.mp hc with hc | hc
      · obtain ⟨event, he, hev⟩ := ih hs hfirst c hc hfresh i hi vs hvs
        exact ⟨event, List.mem_append_left _ he, hev⟩
      · obtain ⟨g, hg, halike⟩ := hhead c hc
        obtain ⟨hfree, hvs⟩ := (passes_guard hg).mp hvs
        rcases Node.run_guard_eq_ok hrest with ⟨_, hbody⟩ | ⟨hfalse, _⟩
        · obtain ⟨event, he, hev⟩ := ihbody hs hbody c hc (fresh_guard hg hfresh) i hi vs hvs
          refine ⟨event, List.mem_append_right _ he, ?_⟩
          rw [dimsOf_of_head?_guard hg]
          exact hev
        · exact absurd ((Scope.truth_of_alike _ halike false).mp ((hfresh.extends vs).truth hfalse))
            hfree

end Laid

end Plan

end LoopNest
