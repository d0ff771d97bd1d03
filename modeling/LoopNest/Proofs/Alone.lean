import LoopNest.Proofs.Settled
import LoopNest.Proofs.Turns
/-!
# Equations in nests of their own

A tree shares loops and guards among equations and runs some loops backward.  None of that decides
what runs: up to order a tree runs what its equations do, each in a nest of its own
(`agree_of_schedule`).  The nest of an equation alone hangs on the program and on nothing else; its
loops run forward, and its guards stand where those of a cluster of one equation do.

A loop shared by several equations has bounds that all of them would evaluate, and a shared guard a
predicate with the same value for each (`Plan.agree_loop`, `Plan.agree_guard`).  So a run of the
tree fails if and only if one of the nests does.
-/

namespace LoopNest

open Lowered

namespace Plan

variable {p : Plan} {way : Nat → List Step} {s : Scope}

/-! ## One statement along a way -/

/-- A statement alone at the end of a way. -/
def thread (t : DimTable) (st : Statement) : List Step → Node
  | [] => .statement st
  | .loop d :: rest => .loop ⟨d, t.interval d, .forward, .none, [], .none⟩ [thread t st rest]
  | .guard g :: rest => .guard g.predicate g.conditions [thread t st rest]

theorem run_thread_loop (t : DimTable) (st : Statement) (d : DimId) (rest : List Step)
    (s : Scope) :
    (thread t st (.loop d :: rest)).run s =
      (s.int (t.interval d).min).bind fun lo => (s.int (t.interval d).max).bind fun hi =>
        inTurn (fun v => (thread t st rest).run (s.bind d v)) (Direction.forward.values lo hi) := by
  rw [thread, Node.run_loop]
  simp only [Node.runAll_singleton]

theorem run_thread_guard (t : DimTable) (st : Statement) (g : Guard) (rest : List Step)
    (s : Scope) :
    (thread t st (.guard g :: rest)).run s =
      (s.truth g.predicate).bind fun holds =>
        if holds then (thread t st rest).run s else .ok [] := by
  rw [thread, Node.run_guard]
  simp only [Node.runAll_singleton]

/-- A run sees the equation of a statement and its left-hand side, nothing else. -/
theorem run_thread_congr (t : DimTable) {st st' : Statement} (he : st.equation = st'.equation)
    (hl : st.lhs = st'.lhs) : ∀ (steps : List Step) (s : Scope),
    (thread t st steps).run s = (thread t st' steps).run s
  | [], s => by
      show (do return [← st.event s]) = (do return [← st'.event s])
      rw [Statement.event, Statement.event, he, hl]
  | .loop d :: rest, s => by
      rw [run_thread_loop, run_thread_loop]
      simp only [run_thread_congr t he hl rest]
  | .guard g :: rest, s => by
      rw [run_thread_guard, run_thread_guard, run_thread_congr t he hl rest]

/-! ## Seats -/

/-- The equations of clusters, each with its cluster. -/
def seats (p : Plan) (cs : List Nat) : List (Nat × Nat) :=
  cs.flatMap fun c => (p.cluster c).equations.map fun i => (c, i)

theorem mem_seats {cs : List Nat} {seat : Nat × Nat} :
    seat ∈ p.seats cs ↔ seat.1 ∈ cs ∧ seat.2 ∈ (p.cluster seat.1).equations := by
  rw [seats, List.mem_flatMap]
  constructor
  · rintro ⟨c, hc, h⟩
    obtain ⟨i, hi, rfl⟩ := List.mem_map.mp h
    exact ⟨hc, hi⟩
  · rintro ⟨hc, hi⟩
    exact ⟨seat.1, hc, List.mem_map.mpr ⟨seat.2, hi, rfl⟩⟩

theorem seats_append (p : Plan) (cs ds : List Nat) :
    p.seats (cs ++ ds) = p.seats cs ++ p.seats ds :=
  List.flatMap_append

theorem seats_singleton (p : Plan) (c : Nat) :
    p.seats [c] = (p.cluster c).equations.map fun i => (c, i) :=
  List.flatMap_singleton _ _

theorem map_snd_seats (p : Plan) (cs : List Nat) :
    (p.seats cs).map Prod.snd = cs.flatMap fun c => (p.cluster c).equations := by
  rw [seats, List.map_flatMap]
  refine List.flatMap_congr ?_
  intro c _
  rw [List.map_map]
  exact List.map_id' _

/-- What the equation of a seat runs alone, along the way of its cluster. -/
def own (p : Plan) (way : Nat → List Step) (s : Scope) (seat : Nat × Nat) :
    Except TraceError (List Event) :=
  (thread p.dims (p.statementOf seat.1 seat.2) (way seat.1)).run s

theorem own_loop {seat : Nat × Nat} {d : DimId}
    (h : (way seat.1).head? = some (.loop d)) :
    p.own way s seat =
      (s.int (p.dims.interval d).min).bind fun lo => (s.int (p.dims.interval d).max).bind fun hi =>
        inTurn (fun v => p.own (fun c => (way c).tail) (s.bind d v) seat)
          (Direction.forward.values lo hi) := by
  obtain ⟨rest, hw⟩ := List.head?_eq_some_iff.mp h
  simp only [own, hw, run_thread_loop, List.tail_cons]

theorem own_guard {seat : Nat × Nat} {g : Guard} (h : (way seat.1).head? = some (.guard g)) :
    p.own way s seat =
      (s.truth g.predicate).bind fun holds =>
        if holds then p.own (fun c => (way c).tail) s seat else .ok [] := by
  obtain ⟨rest, hw⟩ := List.head?_eq_some_iff.mp h
  simp only [own, hw, run_thread_guard, List.tail_cons]

/-! ## Shared loops and guards -/

section Shared

variable {seated : List (Nat × Nat)} {body : List Node}

/-- A loop runs what the equations inside do, each in a loop of its own. -/
theorem agree_loop {l : Loop} (hb : l.bounds = p.dims.interval l.dim) (hne : seated ≠ [])
    (hhead : ∀ seat ∈ seated, (way seat.1).head? = some (.loop l.dim))
    (hbody : ∀ v, Agree (Node.runAll (s.bind l.dim v) body)
      (inTurn (p.own (fun c => (way c).tail) (s.bind l.dim v)) seated)) :
    Agree ((Node.loop l body).run s) (inTurn (p.own way s) seated) := by
  obtain ⟨seat, hseat⟩ := List.exists_mem_of_ne_nil _ hne
  rw [Node.run_loop, inTurn_congr fun x hx => own_loop (hhead x hx), hb]
  cases s.int (p.dims.interval l.dim).min with
  | error e => exact error_agree_inTurn e hseat ⟨e, rfl⟩
  | ok lo =>
      cases s.int (p.dims.interval l.dim).max with
      | error e => exact error_agree_inTurn e hseat ⟨e, rfl⟩
      | ok hi =>
          show Agree (inTurn _ (l.direction.values lo hi))
            (inTurn (fun x => inTurn (fun v => p.own _ (s.bind l.dim v) x) _) seated)
          refine (inTurn_perm _ (l.direction.values_perm .forward lo hi)).trans ?_
          refine (inTurn_agree fun v _ => hbody v).trans ?_
          exact inTurn_swap (fun v x => p.own (fun c => (way c).tail) (s.bind l.dim v) x) _ seated

/-- A guard runs what the equations inside do, each in a guard of its own. -/
theorem agree_guard {e : Expr} {ds : List DimId} (hne : seated ≠ [])
    (hhead : ∀ seat ∈ seated, ∃ g, (way seat.1).head? = some (.guard g) ∧
      Expr.Alike e g.predicate)
    (hbody : Agree (Node.runAll s body) (inTurn (p.own (fun c => (way c).tail) s) seated)) :
    Agree ((Node.guard e ds body).run s) (inTurn (p.own way s) seated) := by
  rw [Node.run_guard]
  cases he : s.truth e with
  | error err =>
      obtain ⟨seat, hseat⟩ := List.exists_mem_of_ne_nil _ hne
      obtain ⟨g, hg, halike⟩ := hhead seat hseat
      refine error_agree_inTurn err hseat ?_
      rw [own_guard hg]
      cases hgt : s.truth g.predicate with
      | error err' => exact ⟨err', rfl⟩
      | ok b =>
          rw [(Scope.truth_of_alike s halike b).mpr hgt] at he
          cases he
  | ok holds =>
      have hown : ∀ seat ∈ seated, p.own way s seat =
          if holds then p.own (fun c => (way c).tail) s seat else .ok [] := by
        intro seat hseat
        obtain ⟨g, hg, halike⟩ := hhead seat hseat
        rw [own_guard hg, (Scope.truth_of_alike s halike holds).mp he]
        rfl
      rw [inTurn_congr hown]
      cases holds with
      | true => exact hbody
      | false => exact .of_eq (inTurn_eq_ok_nil fun _ _ => rfl).symm

end Shared

namespace Laid

variable {ok : Loop → Prop} {cs : List Nat} {ns : List Node}

theorem seats_ne_nil (h : Laid p ok way cs ns) (hne : cs ≠ []) : p.seats cs ≠ [] := by
  obtain ⟨c, hc⟩ := List.exists_mem_of_ne_nil _ hne
  obtain ⟨i, hi⟩ := List.exists_mem_of_ne_nil _ (h.equations_ne_nil c hc)
  exact List.ne_nil_of_mem (a := (c, i)) (mem_seats.mpr ⟨hc, hi⟩)

/-- Laid nodes run what their equations do, each alone along its way. -/
theorem agree (hok : ∀ l, ok l → l.bounds = p.dims.interval l.dim) (h : Laid p ok way cs ns) :
    ∀ s : Scope, Agree (Node.runAll s ns) (inTurn (p.own way s) (p.seats cs)) := by
  induction h with
  | nil =>
      intro s
      exact .refl _
  | @here way cs ns c _ hw _ ih =>
      intro s
      rw [Node.runAll_append, seats_append, inTurn_append]
      refine (ih s).both (.of_eq ?_)
      rw [Node.runAll_eq_inTurn, statements_eq_map, seats_singleton, inTurn_map, inTurn_map]
      refine inTurn_congr fun i _ => ?_
      rw [own, hw]
      rfl
  | @loop way cs own ns body l _ _ hne hl hhead hbody ih ihbody =>
      intro s
      rw [Node.runAll_append, seats_append, inTurn_append, Node.runAll_singleton]
      refine (ih s).both (agree_loop (hok l hl) (hbody.seats_ne_nil hne) ?_ fun v => ihbody _)
      intro seat hseat
      exact hhead _ (mem_seats.mp hseat).1
  | @guard way cs own ns body e ds _ hne hhead hbody ih ihbody =>
      intro s
      rw [Node.runAll_append, seats_append, inTurn_append, Node.runAll_singleton]
      refine (ih s).both (agree_guard (hbody.seats_ne_nil hne) ?_ (ihbody s))
      intro seat hseat
      exact hhead _ (mem_seats.mp hseat).1

end Laid

end Plan

/-! ## Equations of a program -/

theorem Guard.ofCluster_congr (program : Program) {c d : Cluster} (h : c.signature = d.signature) :
    Guard.ofCluster program c = Guard.ofCluster program d := by
  rw [ofCluster, ofCluster, h]

namespace Lowered

/-- The way of an equation that is a cluster of its own. -/
def way (program : Program) (e : Lowered) : List Plan.Step :=
  Plan.stepsFrom ((Guard.ofCluster program (Cluster.single e)).toOption.getD []) 0 e.loops

/-- The nest of an equation alone. -/
def alone (program : Program) (e : Lowered) : Node :=
  let nest : Nest := ⟨program.dims, e.loops⟩
  Plan.thread program.dims
    ⟨e.index, 0, nest.access e.equation.lhs, nest.expr e.equation.rhs⟩ (e.way program)

end Lowered

namespace Plan.Sound

variable {p : Plan} {program : Program} {c : Nat} {e : Lowered}

/-- A cluster has the way of each of its equations. -/
theorem steps_eq (h : p.Sound program) (hc : c ∈ p.clusterIds) (he : e ∈ p.equations)
    (hi : e.index ∈ (p.cluster c).equations) : p.steps c = e.way program := by
  have hsig := h.signature_eq hc he hi
  have hguards := h.ofCluster_guardsOf hc
  rw [Guard.ofCluster_congr program (d := Cluster.single e) hsig] at hguards
  rw [steps, Lowered.way, hguards, hsig]
  rfl

theorem own_eq (h : p.Sound program) (hc : c ∈ p.clusterIds) (he : e ∈ p.equations)
    (hi : e.index ∈ (p.cluster c).equations) (s : Scope) :
    p.own p.steps s (c, e.index) = (e.alone program).run s := by
  rw [own, h.steps_eq hc he hi, Lowered.alone, ← h.dims]
  refine run_thread_congr p.dims ?_ ?_ _ s
  · rfl
  · rw [h.statementOf_eq hc he hi]

/-- A finished tree runs what the equations do, each in a nest of its own. -/
theorem agree (h : p.Sound program) (s : Scope) :
    Agree (Node.runAll s p.tree.roots)
      (Node.runAll s (p.equations.map (Lowered.alone program))) := by
  have hlaid := h.laid.agree (fun _ hl => hl.bounds) s
  have hown : ∀ seat ∈ p.seats p.clusterIds, p.own p.steps s seat =
      ((p.equations.getD seat.2 default).alone program).run s := by
    intro seat hseat
    obtain ⟨hc, hi⟩ := mem_seats.mp hseat
    obtain ⟨e, he, hei, _⟩ := (h.cluster_sound hc).uniform _ hi
    rw [← hei, h.numbered.getD_index he]
    rw [← hei] at hi
    rw [← h.own_eq hc he hi, hei]
  rw [inTurn_congr hown,
    ← inTurn_map (fun i => ((p.equations.getD i default).alone program).run s) Prod.snd,
    map_snd_seats, members_eq] at hlaid
  refine hlaid.trans ((inTurn_perm _ h.members_perm).trans (.of_eq ?_))
  rw [← h.numbered, Node.runAll_eq_inTurn, inTurn_map, inTurn_map]
  refine inTurn_congr fun e he => ?_
  rw [h.numbered.getD_index he]

end Plan.Sound

/-- A trace of a schedule and the runs of the program's equations, each in a nest of its own, fail
together or yield the same events up to order. -/
theorem agree_of_schedule {program : Program} {options : Options} {tree : ScheduleTree}
    {es : List Lowered} (hschedule : (program.schedule options).result = .ok tree)
    (hlower : program.lower.result = .ok es) (bindings : Bindings) :
    Agree (tree.events program.dims bindings)
      (Node.runAll ⟨program.dims, defaultBindings tree.parameters ++ bindings, []⟩
        (es.map (Lowered.alone program))) := by
  obtain ⟨p, hp, _, rfl, rfl⟩ := Program.exists_plan_of_schedule hschedule hlower
  exact hp.agree _

end LoopNest
