import LoopNest.Proofs.Alone
import LoopNest.Proofs.ConflictOrder
/-!
# What fusion leaves alone

Fusion decides which equations share a cluster and which clusters share loops and guards.  It
decides neither whether a program is accepted nor what a run executes.

A program is accepted if its equations can be lowered and analyzed and the guards of each equation
placed (`Program.exists_schedule_iff`): clusters are of equations with one signature, and guards
hang on the signature alone.  What the trees of both schedules run is what the equations run alone
(`agree_of_schedule`), so both runs fail or both yield the same events, in two orders
(`fusion_keeps_runs`).
-/

namespace LoopNest

open Lowered

namespace Program

variable {program : Program} {options : Options}

theorem exists_schedule_iff_exists_plan :
    (∃ tree, (program.schedule options).result = .ok tree) ↔
      ∃ p, (program.plan options).result = .ok p := by
  simp only [schedule, Logged.result_bind, Logged.result_noteAll, Logged.result_note,
    Logged.result_pure]
  constructor
  · rintro ⟨tree, h⟩
    obtain ⟨p, hp, _⟩ := bind_eq_ok.mp h
    exact ⟨p, hp⟩
  · rintro ⟨p, hp⟩
    exact ⟨p.tree, bind_eq_ok.mpr ⟨p, hp, rfl⟩⟩

theorem plan_eq_ok {es : List Lowered} {g : DependenceGraph} {guards : List (List Guard)}
    (hcheck : options.check = .ok ()) (hlower : program.lower.result = .ok es)
    (hgraph : Lowered.graph program.dims es = .ok g)
    (hguards : (Cluster.build program.dims g options es).mapM (Guard.ofCluster program) =
      .ok guards) :
    ∃ p, (program.plan options).result = .ok p := by
  simp only [plan, Logged.result_bind, Logged.result_ofExcept, Logged.result_mapError,
    Logged.result_noteAll, Logged.result_pure]
  refine ⟨⟨program.dims, es, g, Cluster.build program.dims g options es, guards, options⟩, ?_⟩
  refine bind_eq_ok.mpr ⟨(), hcheck, bind_eq_ok.mpr ⟨es, mapError_eq_ok.mpr hlower, ?_⟩⟩
  refine bind_eq_ok.mpr ⟨g, mapError_eq_ok.mpr (analyze_eq_ok.mpr hgraph), ?_⟩
  exact bind_eq_ok.mpr ⟨(), rfl, bind_eq_ok.mpr ⟨guards, hguards, rfl⟩⟩

theorem check_of_plan {p : Plan} (h : (program.plan options).result = .ok p) :
    options.check = .ok () := by
  simp only [plan, Logged.result_bind, Logged.result_ofExcept] at h
  obtain ⟨_, hcheck, _⟩ := bind_eq_ok.mp h
  exact hcheck

/-- Which programs are accepted: neither clusters nor any option but the stride matter. -/
theorem exists_schedule_iff :
    (∃ tree, (program.schedule options).result = .ok tree) ↔
      options.check = .ok () ∧ ∃ es g, program.lower.result = .ok es ∧
        Lowered.graph program.dims es = .ok g ∧
        ∀ e ∈ es, ∃ gs, Guard.ofCluster program (Cluster.single e) = .ok gs := by
  rw [exists_schedule_iff_exists_plan]
  constructor
  · rintro ⟨p, hp⟩
    obtain ⟨hs, _⟩ := sound_of_plan hp
    refine ⟨check_of_plan hp, p.equations, p.graph, hs.lowered, hs.dims ▸ hs.graph, ?_⟩
    intro e he
    obtain ⟨c, hc, hi⟩ := hs.exists_cluster he
    refine ⟨p.guardsOf c, ?_⟩
    rw [← hs.ofCluster_guardsOf hc]
    exact Guard.ofCluster_congr program (hs.signature_eq hc he hi).symm
  · rintro ⟨hcheck, es, g, hlower, hgraph, hsingle⟩
    have hguards : ∀ c ∈ Cluster.build program.dims g options es,
        ∃ gs, Guard.ofCluster program c = .ok gs := by
      intro c hc
      have hsound := Cluster.build_sound hgraph (lower_shaped hlower).1 options c hc
      obtain ⟨i, hi⟩ := List.exists_mem_of_ne_nil _ hsound.nonempty
      obtain ⟨e, he, _, hsig⟩ := hsound.uniform i hi
      obtain ⟨gs, hgs⟩ := hsingle e he
      exact ⟨gs, (Guard.ofCluster_congr program hsig.symm).trans hgs⟩
    obtain ⟨guards, hguards⟩ := exists_mapM_eq_ok hguards
    exact plan_eq_ok hcheck hlower hgraph hguards

end Program

theorem parameters_of_schedule {program : Program} {options : Options} {tree : ScheduleTree}
    (h : (program.schedule options).result = .ok tree) :
    tree.parameters = Plan.parameters program.dims options := by
  obtain ⟨_, es, _, hlower, _⟩ := Program.exists_schedule_iff.mp ⟨tree, h⟩
  obtain ⟨p, hp, rfl, rfl, _⟩ := Program.exists_plan_of_schedule h hlower
  exact congrArg (Plan.parameters · p.options) hp.dims

/-- The runs with and without fusion fail together or yield the same events up to order. -/
theorem agree_of_fusion {program : Program} {factor : Int} {vectorize : Bool}
    {fused separate : ScheduleTree}
    (hfused : (program.schedule ⟨factor, true, vectorize⟩).result = .ok fused)
    (hseparate : (program.schedule ⟨factor, false, vectorize⟩).result = .ok separate)
    (bindings : Bindings) :
    Agree (fused.events program.dims bindings) (separate.events program.dims bindings) := by
  obtain ⟨_, es, _, hlower, _⟩ := Program.exists_schedule_iff.mp ⟨fused, hfused⟩
  have hparameters : fused.parameters = separate.parameters :=
    (parameters_of_schedule hfused).trans (parameters_of_schedule hseparate).symm
  have hagree := agree_of_schedule hfused hlower bindings
  rw [hparameters] at hagree
  exact hagree.trans (agree_of_schedule hseparate hlower bindings).symm

/-- Fusion changes neither whether a program is accepted, nor whether its trace succeeds under any
bindings, nor which events the trace holds. -/
theorem fusion_keeps_runs (program : Program) (factor : Int) (vectorize : Bool) :
    ((∃ tree, (program.schedule ⟨factor, true, vectorize⟩).result = .ok tree) ↔
      ∃ tree, (program.schedule ⟨factor, false, vectorize⟩).result = .ok tree) ∧
    ∀ fused separate, (program.schedule ⟨factor, true, vectorize⟩).result = .ok fused →
      (program.schedule ⟨factor, false, vectorize⟩).result = .ok separate → ∀ bindings,
        ((∃ xs, fused.events program.dims bindings = .ok xs) ↔
          ∃ ys, separate.events program.dims bindings = .ok ys) ∧
        ∀ xs ys, fused.events program.dims bindings = .ok xs →
          separate.events program.dims bindings = .ok ys → xs.Perm ys := by
  refine ⟨?_, fun fused separate hfused hseparate bindings => ?_⟩
  · rw [Program.exists_schedule_iff, Program.exists_schedule_iff]
    rfl
  · have hagree := agree_of_fusion hfused hseparate bindings
    refine ⟨hagree.isOk_iff, fun xs ys hxs hys => ?_⟩
    rw [hxs, hys] at hagree
    exact hagree.perm

/-- With fusion the second equation runs backward beside the first, without it forward after it. -/
theorem fusion_keeps_runs_sweepAndShift :
    ∃ fused separate xs ys, (sweepAndShift.schedule ⟨1, true, true⟩).result = .ok fused ∧
      (sweepAndShift.schedule ⟨1, false, true⟩).result = .ok separate ∧
      fused.events sweepAndShift.dims [] = .ok xs ∧
      separate.events sweepAndShift.dims [] = .ok ys ∧
      xs.map Event.instance =
        [⟨0, [2]⟩, ⟨1, [2]⟩, ⟨0, [1]⟩, ⟨1, [1]⟩, ⟨0, [0]⟩, ⟨1, [0]⟩] ∧
      ys.map Event.instance =
        [⟨0, [2]⟩, ⟨0, [1]⟩, ⟨0, [0]⟩, ⟨1, [0]⟩, ⟨1, [1]⟩, ⟨1, [2]⟩] ∧
      xs.Perm ys := by
  have facts : ∃ fused separate xs ys,
      (sweepAndShift.schedule ⟨1, true, true⟩).result = .ok fused ∧
      (sweepAndShift.schedule ⟨1, false, true⟩).result = .ok separate ∧
      fused.events sweepAndShift.dims [] = .ok xs ∧
      separate.events sweepAndShift.dims [] = .ok ys ∧
      xs.map Event.instance =
        [⟨0, [2]⟩, ⟨1, [2]⟩, ⟨0, [1]⟩, ⟨1, [1]⟩, ⟨0, [0]⟩, ⟨1, [0]⟩] ∧
      ys.map Event.instance =
        [⟨0, [2]⟩, ⟨0, [1]⟩, ⟨0, [0]⟩, ⟨1, [0]⟩, ⟨1, [1]⟩, ⟨1, [2]⟩] :=
    ⟨_, _, _, _, rfl, rfl, rfl, rfl, by decide +kernel, by decide +kernel⟩
  obtain ⟨fused, separate, xs, ys, hf, hs, hxs, hys, hfirst, hsecond⟩ := facts
  have hperm := ((fusion_keeps_runs sweepAndShift 1 true).2 fused separate hf hs []).2 xs ys hxs hys
  exact ⟨fused, separate, xs, ys, hf, hs, hxs, hys, hfirst, hsecond, hperm⟩

end LoopNest
