import LoopNest.Proofs.Domain
import LoopNest.Proofs.IndexValues
import LoopNest.Proofs.Narrowing
import LoopNest.Proofs.Substitution
/-!
# Snapshots through strides

An equation that writes through a stride runs at the points that the stride divides, and writes the
element of the quotient.  No two of its points share an element as long as the guard divides what the
index divides: then each division above the index is one without remainder, and the way from the loop
variable to the number is injective (`DimTable.eq_of_number_eq`).

Guard and index divide the same number wherever the stride's parent is no buffer
(`Snapshots.same_parent`).  Over a buffer the guard tests the slot and the index divides the number
before it is wrapped.  The two still agree where the stride divides the number of slots
(`DimTable.StridesAlign`), and an element can be written twice where it does not
(`not_snapshots_apart`).
-/

namespace LoopNest

/-! ## Divisions without remainder -/

namespace DimTable

variable {t : DimTable} {b : Bindings} {v w : Int} {c p : DimId}

/-- Each stride above a dimension, its own included, whose parent is a buffer divides the number of
the buffer's slots. -/
def StridesAlign (t : DimTable) (b : Bindings) (c : DimId) : Prop :=
  ∀ a ∈ t.chain c, (t.get a).strides = true → ∀ p ∈ t.parent? a, ∀ m ∈ (t.get p).modulo?,
    ∀ f ∈ b.find? (t.get a).factorName, f ∣ (m : Int)

instance (t : DimTable) (b : Bindings) (c : DimId) : Decidable (t.StridesAlign b c) := by
  unfold StridesAlign
  infer_instance

/-- Where the loop is at `v`, each stride above a dimension, its own included, divides the number of
its parent. -/
def Divides (t : DimTable) (b : Bindings) (v : Int) (c : DimId) : Prop :=
  ∀ a ∈ t.chain c, (t.get a).strides = true → ∀ p ∈ t.parent? a,
    ∃ f ∈ b.find? (t.get a).factorName, f ≠ 0 ∧ f ∣ t.number b v p

theorem Divides.of_parent? (h : t.Divides b v c) (hp : t.parent? c = some p) :
    t.Divides b v p := fun a ha =>
  h a (chain_of_parent hp ▸ List.mem_cons_of_mem _ ha)

/-- Where no division leaves a remainder, the number tells the value of the loop. -/
theorem eq_of_number_eq (t : DimTable) (c : DimId) (hv : t.Divides b v c) (hw : t.Divides b w c)
    (h : t.number b v c = t.number b w c) : v = w := by
  rcases t.number_cases c with ⟨_, hnumber⟩ | ⟨p, factor, hk, hp, hnumber⟩ | ⟨p, _, hp, hnumber⟩
  · rwa [hnumber, hnumber] at h
  · have hlt := parent_lt hp
    have hstrides := Dimension.strides_iff.mpr ⟨p, factor, hk⟩
    obtain ⟨f, hf, hf0, x, hx⟩ := hv c (mem_chain_self t c) hstrides p hp
    obtain ⟨g, hg, _, y, hy⟩ := hw c (mem_chain_self t c) hstrides p hp
    obtain rfl : f = g := Option.some.inj (hf.symm.trans hg)
    rw [hnumber, hnumber, hf, Option.getD_some, hx, hy, Int.mul_fdiv_cancel_left _ hf0,
      Int.mul_fdiv_cancel_left _ hf0] at h
    refine eq_of_number_eq t p (hv.of_parent? hp) (hw.of_parent? hp) ?_
    rw [hx, hy, h]
  · have hlt := parent_lt hp
    rw [hnumber, hnumber] at h
    exact eq_of_number_eq t p (hv.of_parent? hp) (hw.of_parent? hp) h
termination_by c.index

theorem derives_loopOf_of_rides {a : DimId} (ha : t.derives c a = true)
    (hrides : (t.get a).ridesOnParent = true) : t.derives a (t.loopOf c) = true := by
  rcases derives_total ha (List.contains_iff_mem.mpr (t.loopOf_mem_chain c)) with h | h
  · exact h
  · rw [not_rides_of_derives h (t.ridesOnParent_loopOf c)] at hrides
    cases hrides

end DimTable

/-! ## Points and indices -/

theorem Point.find?_zip {ls : List DimId} {vs : List Int} {i : Nat} {l : DimId} {v : Int}
    (hn : ls.Nodup) (hl : ls[i]? = some l) (hv : vs[i]? = some v) :
    Point.find? (ls.zip vs) l = some v := by
  have hmem : (l, v) ∈ ls.zip vs :=
    List.mem_of_getElem? (List.getElem?_zip_eq_some.mpr ⟨hl, hv⟩)
  rw [find?]
  cases hf : (ls.zip vs).reverse.find? fun pair => pair.1 == l with
  | none =>
      have := List.find?_eq_none.mp hf (l, v) (List.mem_reverse.mpr hmem)
      simp at this
  | some pair =>
      have hkey : pair.1 = l := by simpa using List.find?_some hf
      obtain ⟨j, hj⟩ :=
        List.mem_iff_getElem?.mp (List.mem_reverse.mp (List.mem_of_find?_eq_some hf))
      obtain ⟨hjl, hjv⟩ := List.getElem?_zip_eq_some.mp hj
      have hij : i = j :=
        (List.getElem?_inj (List.getElem?_eq_some_iff.mp hl).1 hn).mp (by rw [hl, hjl, hkey])
      rw [← hij, hv] at hjv
      rw [Option.map_some, Option.some.inj hjv]

namespace Nest

variable {n : Nest} {s : Scope} {c l : DimId} {v : Int}

/-- What the guard of a stride tests is the number of the parent, wrapped if that is a buffer. -/
theorem dvd_of_meets (hl : n.loopFor? c = some l) (hv : s.point.find? l = some v)
    (hc : (n.dims.get c).strides = true) (hmeets : s.Meets n c) {p : DimId}
    (hp : n.dims.parent? c = some p) :
    ∃ f ∈ s.bindings.find? (n.dims.get c).factorName, f ≠ 0 ∧
      f ∣ wrapped (n.dims.get p).modulo? (n.dims.number s.bindings v p) := by
  obtain ⟨parent, factor, hk⟩ := Dimension.strides_iff.mp hc
  obtain rfl : parent = p := Option.some.inj ((DimTable.parent?_of_kind hk).symm.trans hp)
  rw [Scope.Meets, hk] at hmeets
  obtain ⟨z, f, hz, hf, hf0, hrem⟩ := hmeets
  have hindex : n.expr (.dim parent) = n.index (.fixed parent 0) := rfl
  rw [hindex] at hz
  have hval := eq_wrapped_of_int_index ((loopFor?_of_parent? hp).trans hl) hv hz
  rw [Int.add_zero] at hval
  exact ⟨f, hf, hf0, hval ▸ Int.dvd_of_emod_eq_zero hrem⟩

theorem onStride_eq (hl : n.loopFor? c = some l) (hc : (n.dims.get c).strides = true) {p : DimId}
    (hp : n.dims.parent? c = some p) (hbuffer : (n.dims.get p).modulo? = none) :
    let factor := Expr.symbol (n.dims.get c).factorName
    Guard.onStride n p (n.dims.get c).factorName =
        .compare .eq (.binary .mod (n.value p) factor) (.int 0) ∧
      n.value c = .binary .floorDiv (n.value p) factor := by
  obtain ⟨parent, stride, hk⟩ := Dimension.strides_iff.mp hc
  obtain rfl : parent = p := Option.some.inj ((DimTable.parent?_of_kind hk).symm.trans hp)
  have hvalue : n.displaced parent (.int 0) = n.value parent := by
    rw [displaced]
    rw [Dimension.modulo?] at hbuffer
    split
    · rename_i hstepping
      rw [hstepping] at hbuffer
      cases hbuffer
    · exact Expr.add_int_zero (n.value_ne_int parent ((loopFor?_of_parent? hp).trans hl))
  exact ⟨by rw [Guard.onStride, hvalue, Expr.fold_symbol (by simp) (by simp)], value_of_stride hk⟩

end Nest

/-! ## One equation -/

/-- Strides and predicates that a subdomain can neither take nor give stay where they are. -/
theorem Equation.fixed_mem_restricted {t : DimTable} {eq : Equation} {c : DimId} {k : Int}
    (hcheck : eq.checkMappings t = .ok ()) (hc : (t.get c).ridesOnParent = true)
    (hk : .fixed c k ∈ eq.lhs.indices) : .fixed c k ∈ eq.restricted.lhs.indices := by
  have hpairs : ∀ pair ∈ eq.subdomain, t.derives pair.2 pair.1 = true ∧
      (t.get pair.2).ridesOnParent = false := fun pair hp =>
    have hpair := Equation.checkMapping_eq_ok.mp (forM_eq_ok.mp hcheck pair hp)
    ⟨hpair.2.2.2.1, hpair.2.2.2.2⟩
  have hkeep : replacement eq.subdomain c = c := by
    rcases replacement_cases eq.subdomain c with h | ⟨pair, hp, h⟩
    · exact h
    · -- What replaces a dimension has a loop of its own, and so has what it derives from.
      have hderives := DimTable.derives_replacement (fun pair hp => (hpairs pair hp).1) c
      rw [h] at hderives
      rw [DimTable.not_rides_of_derives hderives (hpairs pair hp).2] at hc
      cases hc
  refine (foldl_subst (P := fun eq d => .fixed d k ∈ eq.lhs.indices) (fun old new eq d => ?_)
    eq.subdomain ⟨eq.lhs, eq.rhs, [], eq.implicit⟩ c).mpr ⟨c, hk, hkeep⟩
  rw [subst, Access.subst, Index.substAll_eq_map, List.mem_map]
  constructor
  · rintro ⟨i, hi, heq⟩
    cases i with
    | fixed a j =>
        cases heq
        exact ⟨a, hi, rfl⟩
    | symbolic _ _ => cases heq
  · rintro ⟨a, ha, rfl⟩
    exact ⟨_, ha, rfl⟩

namespace Lowered

variable {t : DimTable} {b : Bindings} {e : Lowered} {c : DimId} {vs : List Int}

/-- Two events are at the same values of the loops of the equation, but for the loop over
`root`. -/
def AgreeOff (t : DimTable) (e : Lowered) (root : DimId) (x y : Event) : Prop :=
  ∀ (i : Nat) (l : DimId), e.loops[i]? = some l → t.root l ≠ root → x.point[i]? = y.point[i]?

/-- Where strides align, all of those above an index divide what the index divides. -/
theorem InDomain.divides (h : e.InDomain t b vs) (hshape : e.Shaped t)
    (hc : c ∈ e.equation.dims) (halign : t.StridesAlign b c) {l : DimId} {v : Int}
    (hl : (⟨t, e.loops⟩ : Nest).loopFor? c = some l)
    (hv : Point.find? (e.loops.zip vs) l = some v) : t.Divides b v c := by
  intro a ha hstrides p hp
  obtain ⟨parent, factor, hk⟩ := Dimension.strides_iff.mp hstrides
  have hcond : (t.get a).isConditional = true := by
    rw [Dimension.isConditional, Dimension.condition?, hk]
    rfl
  have hrides : (t.get a).ridesOnParent = true := by
    rw [Dimension.ridesOnParent, hcond, Bool.true_or]
  have hderives : t.derives c a = true := List.contains_iff_mem.mpr ha
  have hmem : a ∈ e.conditions := (hshape.gated a).mpr ⟨c, hc, DimTable.mem_conditionsOf_iff.mpr
    ⟨hderives, DimTable.derives_loopOf_of_rides hderives hrides, hcond⟩⟩
  have hla : (⟨t, e.loops⟩ : Nest).loopFor? a = some l :=
    (Nest.loopFor?_eq (DimTable.root_eq_of_derives hderives).symm).trans hl
  obtain ⟨f, hf, hf0, hdvd⟩ := Nest.dvd_of_meets hla hv hstrides (h.met a hmem) hp
  refine ⟨f, hf, hf0, ?_⟩
  cases hm : (t.get p).modulo? with
  | none =>
      rw [hm] at hdvd
      exact hdvd
  | some m =>
      rw [hm] at hdvd
      refine Int.dvd_of_emod_eq_zero ?_
      rw [← Int.emod_emod_of_dvd _ (halign a ha hstrides p hp m hm f hf)]
      exact Int.emod_eq_zero_of_dvd hdvd

/-- Events that write one element through `c` have one number of `c`. -/
theorem number_eq_of_index_eq {k : Int} (hc : (t.get c).modulo? = none)
    (hk : .fixed c k ∈ e.write.indices) {l : DimId} {v w : Int} {vs ws : List Int}
    (hl : (⟨t, e.loops⟩ : Nest).loopFor? c = some l)
    (hv : Point.find? (e.loops.zip vs) l = some v) (hw : Point.find? (e.loops.zip ws) l = some w)
    {x y : Event} (hx : e.IsEvent t b vs x) (hy : e.IsEvent t b ws y) (h : x.index = y.index) :
    t.number b v c = t.number b w c := by
  have hxs := mapM_eq_ok.mp hx.index
  have hys := mapM_eq_ok.mp hy.index
  rw [← h] at hys
  have hmem : (⟨t, e.loops⟩ : Nest).index (.fixed c k) ∈
      (⟨t, e.loops⟩ : Nest).indices e.write.indices := by
    rw [Nest.indices_eq_map]
    exact List.mem_map_of_mem hk
  obtain ⟨z, hz, hz'⟩ := exists_of_forall₂_both hxs hys hmem
  have hplace : ∀ {us : List Int} {u : Int}, Point.find? (e.loops.zip us) l = some u →
      (e.scope t b us).int ((⟨t, e.loops⟩ : Nest).index (.fixed c k)) = .ok z →
        z = t.number b u c + k := by
    intro us u hu hz
    have hwrapped := Nest.eq_wrapped_of_int_index hl hu hz
    simp only [hc, wrapped] at hwrapped
    exact hwrapped
  have hxz := hplace hv hz
  have hyz := hplace hw hz'
  omega

/-- What becomes of writes through a stride. -/
structure Snapshots (t : DimTable) (b : Bindings) (events : List Event) (e : Lowered) (c : DimId) :
    Prop where
  /-- Above the index, the guard of each stride over anything but a buffer tests what the index
  divides. -/
  same_parent : ∀ a ∈ t.chain c, (t.get a).strides = true → ∀ p ∈ t.parent? a,
    (t.get p).modulo? = none →
      let parent := (⟨t, e.loops⟩ : Nest).value p
      let factor := Expr.symbol (t.get a).factorName
      Guard.onStride ⟨t, e.loops⟩ p (t.get a).factorName =
          .compare .eq (.binary .mod parent factor) (.int 0) ∧
        (⟨t, e.loops⟩ : Nest).value a = .binary .floorDiv parent factor
  /-- If no stride splits the slots of a buffer, events write different elements unless they are
  told apart by other loops. -/
  apart : t.StridesAlign b c → events.Pairwise fun x y =>
    x.equation = e.index → y.equation = e.index → e.AgreeOff t (t.root c) x y → x.index ≠ y.index

theorem IsEvent.getElem?_point {x : Event} (h : e.IsEvent t b vs x) {i : Nat} {l : DimId} {v : Int}
    (hl : e.loops[i]? = some l) (hv : vs[i]? = some v) : x.point[i]? = some (t.name l, v) := by
  have hzip : (e.loops.zip vs)[i]? = some (l, v) := List.getElem?_zip_eq_some.mpr ⟨hl, hv⟩
  rw [h.point, List.getElem?_map, hzip, Option.map_some]

theorem instance_eq_of_agreeOff {x y : Event} {ws : List Int} (hshape : e.Shaped t) {l : DimId}
    (hroot : t.root l = t.root c) (hl : l ∈ e.loops)
    (hsame : Point.find? (e.loops.zip vs) l = Point.find? (e.loops.zip ws) l)
    (hvs : vs.length = e.loops.length) (hws : ws.length = e.loops.length)
    (hx : e.IsEvent t b vs x) (hy : e.IsEvent t b ws y) (h : e.AgreeOff t (t.root c) x y) :
    x.instance = y.instance := by
  rw [hx.instance_eq hvs, hy.instance_eq hws]
  refine congrArg _ (List.ext_getElem? fun i => ?_)
  cases hi : e.loops[i]? with
  | none =>
      rw [List.getElem?_eq_none_iff] at hi
      rw [List.getElem?_eq_none (hvs ▸ hi), List.getElem?_eq_none (hws ▸ hi)]
  | some m =>
      have hlt := (List.getElem?_eq_some_iff.mp hi).1
      have hvi := List.getElem?_eq_getElem (hvs ▸ hlt : i < vs.length)
      have hwi := List.getElem?_eq_getElem (hws ▸ hlt : i < ws.length)
      by_cases hm : t.root m = t.root c
      · obtain rfl : m = l := List.inj_on_of_nodup_map hshape.roots_nodup
          (List.mem_of_getElem? hi) hl (hm.trans hroot.symm)
        rw [Point.find?_zip hshape.loops_nodup hi hvi,
          Point.find?_zip hshape.loops_nodup hi hwi] at hsame
        rw [hvi, hwi, hsame]
      · have hpoint := h i m hi hm
        rw [hx.getElem?_point hi hvi, hy.getElem?_point hi hwi] at hpoint
        rw [hvi, hwi]
        exact congrArg some (Prod.mk.inj (Option.some.inj hpoint)).2

theorem snapshots {events : List Event} {k : Int} (hshape : e.Shaped t)
    (hexact : e.Exact t b events) (hnodup : (events.map Event.instance).Nodup)
    (hc : (t.get c).strides = true) (hk : .fixed c k ∈ e.write.indices) :
    e.Snapshots t b events c := by
  have hdims : c ∈ e.equation.dims := by
    rw [Equation.dims, List.mem_eraseDups, List.mem_append, List.mem_append]
    exact Or.inl (Or.inl (List.mem_map.mpr ⟨_, hk, rfl⟩))
  obtain ⟨l, hl⟩ := Nest.exists_loopFor? (n := ⟨t, e.loops⟩) (hshape.covers c hdims)
  have hmem : l ∈ e.loops := List.mem_of_find?_eq_some hl
  have hroot : t.root l = t.root c := root_eq_of_find? hl
  constructor
  · intro a ha hstrides p hp hbuffer
    have hla := (Nest.loopFor?_eq (n := ⟨t, e.loops⟩)
      (DimTable.root_eq_of_mem_chain ha)).trans hl
    exact Nest.onStride_eq hla hstrides hp hbuffer
  · intro halign
    refine (List.pairwise_map.mp hnodup).imp_of_mem fun {x y} hx hy hne hxe hye hagree hindex => ?_
    obtain ⟨vs, hvs, hxv⟩ := hexact.no_other x hx hxe
    obtain ⟨ws, hws, hyw⟩ := hexact.no_other y hy hye
    obtain ⟨i, hi⟩ := List.mem_iff_getElem?.mp hmem
    have hlt := (List.getElem?_eq_some_iff.mp hi).1
    have hv := Point.find?_zip hshape.loops_nodup hi
      (List.getElem?_eq_getElem (hvs.length ▸ hlt : i < vs.length))
    have hw := Point.find?_zip hshape.loops_nodup hi
      (List.getElem?_eq_getElem (hws.length ▸ hlt : i < ws.length))
    have hbuffer : (t.get c).modulo? = none := by
      obtain ⟨p, factor, hkind⟩ := Dimension.strides_iff.mp hc
      rw [Dimension.modulo?, hkind]
    have hvw := t.eq_of_number_eq c (hvs.divides hshape hdims halign hl hv)
      (hws.divides hshape hdims halign hl hw)
      (number_eq_of_index_eq hbuffer hk hl hv hw hxv hyw hindex)
    refine hne (instance_eq_of_agreeOff hshape hroot hmem ?_ hvs.length hws.length hxv hyw hagree)
    rw [hv, hw, hvw]

end Lowered

/-- In a run, an equation that writes through a stride writes different elements at different points
of the stride's root, unless a stride splits the slots of a buffer. -/
theorem snapshots_of_trace {program : Program} {options : Options} {tree : ScheduleTree}
    {es : List Lowered} {bindings : Bindings} {events : List Event}
    (hschedule : (program.schedule options).result = .ok tree)
    (hlower : program.lower.result = .ok es)
    (htrace : tree.events program.dims bindings = .ok events) {e : Lowered} (he : e ∈ es) :
    ∃ eq, program.equations[e.index]? = some eq ∧
      ∀ c k, (program.dims.get c).strides = true → .fixed c k ∈ eq.lhs.indices →
        e.Snapshots program.dims (defaultBindings tree.parameters ++ bindings) events c := by
  obtain ⟨eq, heq, hof⟩ := Program.exists_ofEquation hlower he
  refine ⟨eq, heq, fun c k hc hk => ?_⟩
  obtain ⟨hcheck, hrestricted, -⟩ := Lowered.ofEquation_eq_ok hof
  obtain ⟨p, hsound, _, rfl, rfl⟩ := Program.exists_plan_of_schedule hschedule hlower
  rw [← hsound.dims] at htrace hc hcheck ⊢
  have hrides : (p.dims.get c).ridesOnParent = true := by
    obtain ⟨parent, factor, hkind⟩ := Dimension.strides_iff.mp hc
    rw [Dimension.ridesOnParent, Dimension.isConditional, Dimension.condition?, hkind]
    rfl
  refine Lowered.snapshots (hsound.shaped he) (hsound.exact htrace he)
    (hsound.nodup_of_executes (Node.executes_of_events htrace)) hc (k := k) ?_
  rw [Lowered.write, hrestricted]
  exact Equation.fixed_mem_restricted hcheck hrides hk

/-- Every fourth point of time is written, through a stride over a stride over a buffer of four
slots. -/
def frames : Program where
  dims := (do
    let (t, time) ← DimTable.empty.time "time" (some 8)
    let (t, slot) ← t.stepping "t" time 4
    let (t, even) ← t.conditional "c" slot (some 2) none
    let (t, _) ← t.conditional "d" even (some 2) none
    return t : Except ModelError DimTable).toOption.getD .empty
  scalars := []
  equations := [⟨⟨"u", [.fixed ⟨3⟩ 0]⟩, .int 1, [], []⟩]

theorem snapshots_of_trace_frames :
    ∃ tree es events, (frames.schedule default).result = .ok tree ∧
      frames.lower.result = .ok es ∧ tree.events frames.dims [] = .ok events ∧
      events.map (fun event => (event.point, event.index)) =
        [([("time", 0)], [0]), ([("time", 4)], [1])] ∧
      frames.dims.StridesAlign (defaultBindings tree.parameters ++ []) ⟨3⟩ ∧
      ∀ e ∈ es, ∃ eq, frames.equations[e.index]? = some eq ∧
        ∀ c k, (frames.dims.get c).strides = true → .fixed c k ∈ eq.lhs.indices →
          e.Snapshots frames.dims (defaultBindings tree.parameters ++ []) events c := by
  have facts : ((frames.schedule default).result.toOption.bind fun tree =>
      frames.lower.result.toOption.bind fun es =>
        (tree.events frames.dims []).toOption.map fun events =>
          decide (events.map (fun event => (event.point, event.index)) =
              [([("time", 0)], [0]), ([("time", 4)], [1])] ∧
            frames.dims.StridesAlign (defaultBindings tree.parameters ++ []) ⟨3⟩)) = some true := by
    decide +kernel
  obtain ⟨tree, ht, facts⟩ := Option.bind_eq_some_iff.mp facts
  obtain ⟨es, hl, facts⟩ := Option.bind_eq_some_iff.mp facts
  obtain ⟨events, hrun, facts⟩ := Option.map_eq_some_iff.mp facts
  obtain ⟨hevents, halign⟩ := of_decide_eq_true facts
  replace ht := toOption_eq_some.mp ht
  replace hl := toOption_eq_some.mp hl
  replace hrun := toOption_eq_some.mp hrun
  exact ⟨tree, es, events, ht, hl, hrun, hevents, halign, fun e he =>
    snapshots_of_trace ht hl hrun he⟩

/-- Points of time are written through a stride of two over a buffer of three slots. -/
def skipped : Program where
  dims := (do
    let (t, time) ← DimTable.empty.time "time" (some 4)
    let (t, slot) ← t.stepping "t" time 3
    let (t, _) ← t.conditional "c" slot (some 2) none
    return t : Except ModelError DimTable).toOption.getD .empty
  scalars := []
  equations := [⟨⟨"u", [.fixed ⟨2⟩ 0]⟩, .int 1, [], []⟩]

/-- Through a stride that does not divide the slots of a buffer, one element is written at two
points of time. -/
theorem not_snapshots_apart :
    ∃ tree es, (skipped.schedule default).result = .ok tree ∧ skipped.lower.result = .ok es ∧
      (defaultBindings tree.parameters).find? "c_factor" = some 2 ∧
      tree.events skipped.dims [] = .ok
        [⟨0, [("time", 0)], "u", [0]⟩, ⟨0, [("time", 2)], "u", [1]⟩,
          ⟨0, [("time", 3)], "u", [1]⟩] ∧
      ∃ e ∈ es, e.index = 0 ∧ e.AgreeOff skipped.dims (skipped.dims.root ⟨2⟩)
        ⟨0, [("time", 2)], "u", [1]⟩ ⟨0, [("time", 3)], "u", [1]⟩ := by
  refine ⟨_, _, rfl, rfl, by decide +kernel, by decide +kernel, _, List.mem_cons_self, rfl,
    fun i l hl hroot => absurd ?_ hroot⟩
  cases i with
  | zero =>
      cases hl
      decide +kernel
  | succ i => cases hl

end LoopNest
