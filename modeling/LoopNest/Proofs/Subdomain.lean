import LoopNest.Proofs.Construction
import LoopNest.Proofs.Domain
import LoopNest.Proofs.Failure
import LoopNest.Proofs.Substitution
/-!
# Where a subdomain restricts an equation

A pair of a subdomain puts a part in the place of a dimension wherever the equation mentions that
dimension itself.  The loops are chosen afterwards, so what counts is whether the equation still
mentions something derived from the part: exactly then one of its loops runs over the part or over
what derives from it (`Restricts.loops`), and each of its events lies within the part
(`Restricts.events`).  A dimension that the pair does replace is such a something, since whatever
later pairs put in its place derives from it again (`Restricts.replaced`).

An equation that reaches a dimension through another one alone, say through the index of a circular
buffer, has nothing to replace: the pair passes the checks and the loop runs over the whole range
(`not_restricts_rewound`).
-/

namespace LoopNest

open Lowered

/-! ## Parts within parts -/

namespace DimTable

variable {t : DimTable}

/-- Under the bindings each part lies within what it is a part of. -/
def NestedParts (t : DimTable) (b : Bindings) : Prop :=
  ∀ d p side left right, (t.get d).kind = .sub p side left right →
    ∀ v, t.InRange b d v → t.InRange b p v

/-- The bounds of a dimension, if they have values. -/
def bounds? (t : DimTable) (b : Bindings) (d : DimId) : Option (Int × Int) := do
  let lo ← ((⟨t, b, []⟩ : Scope).int (t.interval d).min).toOption
  let hi ← ((⟨t, b, []⟩ : Scope).int (t.interval d).max).toOption
  return (lo, hi)

theorem inRange_iff_bounds? {b : Bindings} {d : DimId} {v : Int} :
    t.InRange b d v ↔ ∃ ends ∈ t.bounds? b d, ends.1 ≤ v ∧ v ≤ ends.2 := by
  simp only [InRange, bounds?, Option.mem_def, Option.bind_eq_bind, Option.bind_eq_some_iff,
    toOption_eq_some]
  constructor
  · rintro ⟨lo, hi, hlo, hhi, hv⟩
    exact ⟨(lo, hi), ⟨lo, hlo, hi, hhi, rfl⟩, hv⟩
  · rintro ⟨_, ⟨lo, hlo, hi, hhi, h⟩, hv⟩
    cases h
    exact ⟨lo, hi, hlo, hhi, hv⟩

instance (t : DimTable) (b : Bindings) (d : DimId) (v : Int) : Decidable (t.InRange b d v) :=
  decidable_of_iff _ inRange_iff_bounds?.symm

/-- A part has bounds within those of its parent. -/
def nestsIn (t : DimTable) (b : Bindings) (d : DimId) : Bool :=
  match (t.get d).kind with
  | .sub p _ _ _ =>
    match t.bounds? b d, t.bounds? b p with
    | some ends, some whole => whole.1 ≤ ends.1 && ends.2 ≤ whole.2
    | _, _ => false
  | _ => true

theorem nestedParts_of_nestsIn {b : Bindings} (h : ∀ d ∈ t.ids, t.nestsIn b d = true) :
    t.NestedParts b := by
  intro d p side left right hkind v hv
  have hlt : d.index < t.size := by
    by_contra hge
    rw [get, Dimension.lookup, List.getElem?_eq_none (Nat.le_of_not_lt hge)] at hkind
    cases hkind
  have hnests := h d (List.mem_map.mpr ⟨d.index, List.mem_range.mpr hlt, rfl⟩)
  obtain ⟨ends, hends, hlo, hhi⟩ := inRange_iff_bounds?.mp hv
  unfold nestsIn at hnests
  rw [hkind, Option.mem_def.mp hends] at hnests
  cases hwhole : t.bounds? b p with
  | none => simp [hwhole] at hnests
  | some whole =>
      simp only [hwhole, Bool.and_eq_true, decide_eq_true_eq] at hnests
      exact inRange_iff_bounds?.mpr ⟨whole, hwhole, by omega, by omega⟩

theorem NestedParts.inRange_of_derives {b : Bindings} (h : t.NestedParts b) {l a : DimId} {v : Int}
    (hd : t.derives l a = true) (hl : (t.get l).ridesOnParent = false)
    (hv : t.InRange b l v) : t.InRange b a v := by
  induction hn : l.index using Nat.strongRecOn generalizing l with
  | ind n ih =>
      have hmem := List.contains_iff_mem.mp hd
      cases hp : t.parent? l with
      | none =>
          rw [chain_of_root hp, List.mem_singleton] at hmem
          exact hmem ▸ hv
      | some p =>
          rw [chain_of_parent hp] at hmem
          rcases List.mem_cons.mp hmem with rfl | hmem
          · exact hv
          · obtain ⟨side, left, right, hkind⟩ := kind_of_not_rides hl hp
            exact ih p.index (hn ▸ parent_lt hp) (List.contains_iff_mem.mpr hmem)
              (ridesOnParent_of_sub hkind) (h l p side left right hkind v hv) rfl

end DimTable

/-! ## Pairs of a subdomain -/

namespace Lowered

/-- The equation mentions the part, or something derived from it, after all replacements. -/
def Keeps (t : DimTable) (e : Lowered) (part : DimId) : Prop :=
  ∃ d, e.equation.RunsAlong d ∧ t.derives d part = true

instance (t : DimTable) (e : Lowered) (part : DimId) : Decidable (e.Keeps t part) :=
  decidable_of_iff (∃ d ∈ e.equation.dims, t.derives d part = true) <| by
    simp only [Keeps, Equation.mem_dims_iff]

/-- The event of the equation lies, along the root of the pair, within the part. -/
def Within (t : DimTable) (b : Bindings) (e : Lowered) (pair : DimId × DimId) (event : Event) :
    Prop :=
  ∃ vs, e.IsEvent t b vs event ∧ vs.length = e.loops.length ∧ t.root pair.1 ∈ e.roots t ∧
    ∀ x ∈ e.loops.zip vs, t.root x.1 = t.root pair.1 → t.InRange b pair.2 x.2

/-- What becomes of a pair of an equation's subdomain. -/
structure Restricts (t : DimTable) (b : Bindings) (events : List Event) (eq : Equation)
    (e : Lowered) (pair : DimId × DimId) : Prop where
  /-- A dimension that the pair replaces, in whichever turn, leaves something of the part. -/
  replaced : ∀ before after, eq.subdomain = before ++ pair :: after →
    (∃ d, eq.RunsAlong d ∧ Equation.replacement before d = pair.1) → e.Keeps t pair.2
  loops : (∃ l ∈ e.loops, t.derives l pair.2 = true) ↔ e.Keeps t pair.2
  events : e.Keeps t pair.2 → t.NestedParts b → ∀ event ∈ events, event.equation = e.index →
    e.Within t b pair event

end Lowered

section Pair

variable {t : DimTable} {i : Nat} {eq : Equation} {e : Lowered} {pair : DimId × DimId}

theorem checkMapping_of_ofEquation (h : (ofEquation t i eq).result = .ok e)
    (hp : pair ∈ eq.subdomain) : Equation.checkMapping t pair = .ok () :=
  forM_eq_ok.mp (ofEquation_eq_ok h).1 pair hp

theorem keeps_of_replaced (h : (ofEquation t i eq).result = .ok e)
    {before after : List (DimId × DimId)} (hsplit : eq.subdomain = before ++ pair :: after)
    {d : DimId} (hd : eq.RunsAlong d) (hr : Equation.replacement before d = pair.1) :
    e.Keeps t pair.2 := by
  have hafter : ∀ q ∈ after, t.derives q.2 q.1 = true := fun q hq =>
    (Equation.checkMapping_eq_ok.mp (checkMapping_of_ofEquation h (by simp [hsplit, hq]))).2.2.2.1
  -- The pair's turn comes when the dimension has become its first component.
  have hwhole : Equation.replacement eq.subdomain d = Equation.replacement after pair.2 := by
    rw [hsplit, Equation.replacement, List.foldl_append, List.foldl_cons]
    unfold Equation.replacement at hr
    rw [hr, DimId.subst, if_pos rfl, Equation.replacement]
  refine ⟨_, ?_, DimTable.derives_replacement hafter pair.2⟩
  rw [(ofEquation_eq_ok h).2.1]
  exact Equation.runsAlong_restricted.mpr ⟨d, hd, hwhole⟩

theorem exists_loop_iff_keeps (h : (ofEquation t i eq).result = .ok e)
    (hp : pair ∈ eq.subdomain) :
    (∃ l ∈ e.loops, t.derives l pair.2 = true) ↔ e.Keeps t pair.2 := by
  constructor
  · rintro ⟨l, hl, hderives⟩
    obtain ⟨d, hd, rfl⟩ := (ofEquation_eq_ok h).2.2 l hl
    refine ⟨d, Equation.mem_dims_iff.mp hd, DimTable.derives_trans ?_ hderives⟩
    exact List.contains_iff_mem.mpr (t.loopOf_mem_chain d)
  · rintro ⟨d, hd, hderives⟩
    obtain ⟨-, -, -, -, hrides⟩ :=
      Equation.checkMapping_eq_ok.mp (checkMapping_of_ofEquation h hp)
    obtain ⟨l, hl, hnarrow⟩ := (ofEquation_shaped h).2.narrow d (Equation.mem_dims_iff.mpr hd)
    exact ⟨l, hl, DimTable.derives_trans hnarrow (DimTable.derives_loopOf hderives hrides)⟩

end Pair

/-- In a run each event of an equation lies within the parts of its subdomain that the equation
still mentions after all replacements, and a part is mentioned if there was something to replace. -/
theorem restricts_of_trace {program : Program} {options : Options} {tree : ScheduleTree}
    {es : List Lowered} {bindings : Bindings} {events : List Event}
    (hschedule : (program.schedule options).result = .ok tree)
    (hlower : program.lower.result = .ok es)
    (htrace : tree.events program.dims bindings = .ok events) {e : Lowered} (he : e ∈ es) :
    ∃ eq, program.equations[e.index]? = some eq ∧ ∀ pair ∈ eq.subdomain,
      e.Restricts program.dims (defaultBindings tree.parameters ++ bindings) events eq pair := by
  obtain ⟨eq, heq, hof⟩ := Program.exists_ofEquation hlower he
  refine ⟨eq, heq, fun pair hp => ⟨fun before after hsplit hr => ?_,
    exists_loop_iff_keeps hof hp, fun hkeeps hnested event hm hequation => ?_⟩⟩
  · obtain ⟨d, hd, hr⟩ := hr
    exact keeps_of_replaced hof hsplit hd hr
  · obtain ⟨p, hsound, _, rfl, rfl⟩ := Program.exists_plan_of_schedule hschedule hlower
    rw [← hsound.dims] at htrace hnested hof hkeeps ⊢
    obtain ⟨vs, hdomain, hevent⟩ := (hsound.exact htrace he).no_other event hm hequation
    obtain ⟨l, hl, hderives⟩ := (exists_loop_iff_keeps hof hp).mpr hkeeps
    obtain ⟨-, -, -, hpart, -⟩ := Equation.checkMapping_eq_ok.mp (checkMapping_of_ofEquation hof hp)
    have hroot : p.dims.root l = p.dims.root pair.1 :=
      DimTable.root_eq_of_derives (DimTable.derives_trans hderives hpart)
    refine ⟨vs, hevent, hdomain.length, List.mem_map.mpr ⟨l, hl, hroot⟩, fun x hx hxroot => ?_⟩
    have hsame : x.1 = l := List.inj_on_of_nodup_map (hsound.shaped he).roots_nodup
      (List.of_mem_zip hx).1 hl (hxroot.trans hroot.symm)
    obtain ⟨d, _, hd⟩ := (ofEquation_eq_ok hof).2.2 l hl
    refine hnested.inRange_of_derives (hsame ▸ hderives) ?_ (hdomain.bounded x hx)
    rw [hsame, hd]
    exact p.dims.ridesOnParent_loopOf d

/-- An equation over the left margin of the interior of a range, restricted in two turns. -/
def margin : Program where
  dims := (do
    let (t, x) ← DimTable.empty.space "x" (some 8)
    let (t, xi) ← t.subMiddle "xi" x 1 1
    let (t, _) ← t.subLeft "xil" xi 2
    return t : Except ModelError DimTable).toOption.getD .empty
  scalars := []
  equations := [⟨⟨"u", [.fixed ⟨0⟩ 0]⟩, .access "u" [.fixed ⟨0⟩ (-1)], [(⟨0⟩, ⟨1⟩), (⟨1⟩, ⟨2⟩)], []⟩]

theorem restricts_of_trace_margin :
    ∃ tree es events, (margin.schedule default).result = .ok tree ∧
      margin.lower.result = .ok es ∧ tree.events margin.dims [] = .ok events ∧
      events.map Event.point = [[("xil", 1)], [("xil", 2)]] ∧
      margin.dims.NestedParts (defaultBindings tree.parameters ++ []) ∧
      ∀ e ∈ es, ∃ eq, margin.equations[e.index]? = some eq ∧ ∀ pair ∈ eq.subdomain,
        e.Keeps margin.dims pair.2 ∧
          e.Restricts margin.dims (defaultBindings tree.parameters ++ []) events eq pair := by
  have facts : ((margin.schedule default).result.toOption.bind fun tree =>
      margin.lower.result.toOption.bind fun es =>
        (tree.events margin.dims []).toOption.map fun events =>
          (events.map Event.point,
            decide (∀ d ∈ margin.dims.ids,
              margin.dims.nestsIn (defaultBindings tree.parameters ++ []) d = true),
            decide (∀ e ∈ es, ∀ eq ∈ margin.equations[e.index]?, ∀ pair ∈ eq.subdomain,
              e.Keeps margin.dims pair.2))) =
      some ([[("xil", 1)], [("xil", 2)]], true, true) := by
    decide +kernel
  obtain ⟨tree, ht, facts⟩ := Option.bind_eq_some_iff.mp facts
  obtain ⟨es, hl, facts⟩ := Option.bind_eq_some_iff.mp facts
  obtain ⟨events, hrun, facts⟩ := Option.map_eq_some_iff.mp facts
  obtain ⟨hpoints, facts⟩ := Prod.mk.inj facts
  obtain ⟨hnested, hkeeps⟩ := Prod.mk.inj facts
  replace ht := toOption_eq_some.mp ht
  replace hl := toOption_eq_some.mp hl
  replace hrun := toOption_eq_some.mp hrun
  refine ⟨tree, es, events, ht, hl, hrun, hpoints,
    DimTable.nestedParts_of_nestsIn (of_decide_eq_true hnested), fun e he => ?_⟩
  obtain ⟨eq, heq, hall⟩ := restricts_of_trace ht hl hrun he
  exact ⟨eq, heq, fun pair hp => ⟨of_decide_eq_true hkeeps e he eq heq pair hp, hall pair hp⟩⟩

/-- An equation that runs over time through a buffer's index, with the last two points of time to
take the place of time. -/
def rewound : Program where
  dims := (do
    let (t, time) ← DimTable.empty.time "time" (some 4)
    let (t, _) ← t.stepping "t" time 2
    let (t, _) ← t.subRight "tail" time 2
    return t : Except ModelError DimTable).toOption.getD .empty
  scalars := []
  equations := [⟨⟨"u", [.fixed ⟨1⟩ 0]⟩, .int 1, [(⟨0⟩, ⟨2⟩)], []⟩]

/-- A pair of a subdomain need not restrict its equation. -/
theorem not_restricts_rewound :
    ∃ tree es events, (rewound.schedule default).result = .ok tree ∧
      rewound.lower.result = .ok es ∧ tree.events rewound.dims [] = .ok events ∧
      rewound.dims.NestedParts (defaultBindings tree.parameters ++ []) ∧
      ∃ e ∈ es, ∃ eq, rewound.equations[e.index]? = some eq ∧ ∃ pair ∈ eq.subdomain,
        rewound.dims.root pair.1 ∈ e.roots rewound.dims ∧
          ∃ event ∈ events, event.equation = e.index ∧
            ¬ e.Within rewound.dims (defaultBindings tree.parameters ++ []) pair event := by
  have facts : ((rewound.schedule default).result.toOption.bind fun tree =>
      rewound.lower.result.toOption.bind fun es =>
        (tree.events rewound.dims []).toOption.map fun events =>
          decide (es.map (fun e => (e.index, e.loops)) = [(0, [⟨0⟩])] ∧
            events.map Event.point = [[("time", 0)], [("time", 1)], [("time", 2)], [("time", 3)]] ∧
            (∀ event ∈ events, event.equation = 0) ∧
            (∀ d ∈ rewound.dims.ids,
              rewound.dims.nestsIn (defaultBindings tree.parameters ++ []) d = true) ∧
            ¬ rewound.dims.InRange (defaultBindings tree.parameters ++ []) ⟨2⟩ 0)) =
      some true := by
    decide +kernel
  obtain ⟨tree, ht, facts⟩ := Option.bind_eq_some_iff.mp facts
  obtain ⟨es, hl, facts⟩ := Option.bind_eq_some_iff.mp facts
  obtain ⟨events, hrun, facts⟩ := Option.map_eq_some_iff.mp facts
  obtain ⟨hloops, hpoints, hequation, hnested, hout⟩ := of_decide_eq_true facts
  obtain ⟨e, he, heloops⟩ : ∃ e ∈ es, (e.index, e.loops) = (0, [⟨0⟩]) :=
    List.mem_map.mp (hloops ▸ List.mem_singleton.mpr rfl)
  obtain ⟨hindex, hloop⟩ := Prod.mk.inj heloops
  obtain ⟨event, hevent, hpoint⟩ : ∃ event ∈ events, event.point = [("time", 0)] :=
    List.mem_map.mp (hpoints ▸ List.mem_cons_self)
  refine ⟨tree, es, events, toOption_eq_some.mp ht, toOption_eq_some.mp hl,
    toOption_eq_some.mp hrun, DimTable.nestedParts_of_nestsIn hnested, e, he,
    rewound.equations.headD default, by rw [hindex]; rfl, (⟨0⟩, ⟨2⟩), List.mem_singleton.mpr rfl,
    ?_, event, hevent, by rw [hequation event hevent, hindex], ?_⟩
  · rw [roots, hloop]
    decide
  · -- The event is at the first point of time, which is not in the tail.
    rintro ⟨vs, his, hlen, -, hwithin⟩
    have hvs := his.point
    rw [hpoint, hloop] at hvs
    rw [hloop] at hlen hwithin
    obtain ⟨v, rfl⟩ := List.length_eq_one_iff.mp hlen
    simp only [List.zip_cons_cons, List.zip_nil_right, List.map_cons, List.map_nil,
      List.cons.injEq, Prod.mk.injEq, and_true] at hvs
    obtain ⟨-, rfl⟩ := hvs
    exact hout (hwithin _ List.mem_cons_self rfl)

end LoopNest
