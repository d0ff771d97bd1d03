import LoopNest.Proofs.Conflict
/-!
# Conflicting instances keep their order

Whatever a run of the tree does, two instances that conflict come in the order of declaration of
their equations, and an instance that writes an element comes before the others of its equation
that read it.  What decides the order of two instances is a loop that runs them in different
iterations, or their statements (`Executes.pairwise`).  The edge that the conflict leaves fixes
the direction of the loop, and the order of the statements.
-/

namespace LoopNest

open Lowered

namespace Lowered

/-- The displacements of all accesses. -/
def shifts (t : DimTable) (es : List Lowered) : List Int :=
  es.flatMap fun e => (e.accesses t).flatMap Access.shifts

/-- Any two displacements are less than half the range of words apart, that is less than the 63rd
power of two. -/
def Near (t : DimTable) (es : List Lowered) : Prop :=
  ∀ k ∈ shifts t es, ∀ l ∈ shifts t es, (k - l).natAbs < Nat.pow 2 63

instance (t : DimTable) (es : List Lowered) : Decidable (Near t es) :=
  inferInstanceAs (Decidable (∀ k ∈ shifts t es, ∀ l ∈ shifts t es, (k - l).natAbs < Nat.pow 2 63))

theorem mem_shifts {t : DimTable} {es : List Lowered} {e : Lowered} (he : e ∈ es) {a : Access}
    (ha : a ∈ e.accesses t) {k : Int} (hk : k ∈ a.shifts) : k ∈ shifts t es :=
  List.mem_flatMap.mpr ⟨e, he, List.mem_flatMap.mpr ⟨a, ha, hk⟩⟩

end Lowered

namespace Instance

/-- The instances stand at one point of time, as far as both have one. -/
def Simultaneous (t : DimTable) (es : List Lowered) (x y : Instance) : Prop :=
  ∀ a ∈ es, a.index = x.equation → ∀ b ∈ es, b.index = y.equation →
    ∀ r ∈ commonRoots t a b, t.isTimeLike r = true →
      a.valueAt? t x.values r = b.valueAt? t y.values r

/-- Both instances touch the element, and one of them writes it. -/
def Conflict (t : DimTable) (es : List Lowered) (x y : Instance) (el : Element) : Prop :=
  (x.Writes t es el ∧ y.Touches t es (Lowered.accesses t) el) ∨
    (x.Touches t es (Lowered.accesses t) el ∧ y.Writes t es el)

instance (t : DimTable) (es : List Lowered) (x y : Instance) (el : Element) :
    Decidable (x.Conflict t es y el) :=
  inferInstanceAs (Decidable ((x.Writes t es el ∧ y.Touches t es (Lowered.accesses t) el) ∨
    (x.Touches t es (Lowered.accesses t) el ∧ y.Writes t es el)))

end Instance

/-- A run in which conflicting instances come in the order that the program declares. -/
structure KeepsConflicts (t : DimTable) (es : List Lowered) (xs : List Instance) : Prop where
  across : ∀ {i j : Nat} {x y : Instance} {el : Element}, xs[i]? = some x → xs[j]? = some y →
    x.equation < y.equation → x.Simultaneous t es y → x.Conflict t es y el → i < j
  within : ∀ {i j : Nat} {x y : Instance} {el : Element}, xs[i]? = some x → xs[j]? = some y →
    x.equation = y.equation → x ≠ y → x.Writes t es el → y.Reads t es el → i < j

namespace Plan.Sound

variable {p : Plan} {program : Program}

/-- A loop that runs two conflicting instances in different iterations does not run the second
first. -/
theorem not_before_of_conflict (h : p.Sound program) (hreg : Regular p.dims p.equations)
    (hnear : Near p.dims p.equations) {site : Site} (hs : site ∈ Node.sitesOf p.tree.roots)
    {us : List Int} {v w : Int} {x y : Instance} (hx : site.Runs us w x) (hy : site.Runs us v y)
    {a b : Lowered} (ha : a ∈ p.equations) (hax : a.index = x.equation) (hb : b ∈ p.equations)
    (hby : b.index = y.equation) {q : AccessPair} (hq : Compares p.dims a b q) {el : Element}
    (hf : a.element? p.dims x.values q.first = some el)
    (hsec : b.element? p.dims y.values q.second = some el)
    (htime : a ≠ b → x.Simultaneous p.dims p.equations y) :
    ¬site.loop.direction.Before v w := by
  intro hvw
  obtain ⟨_, _, hfm, hsm, _, _⟩ := hq.spec
  obtain ⟨k, hk, l, hl, hkl, c, hedge, hin, _, hc⟩ :=
    h.edge_of_conflict hreg hs hvw.ne.symm hx hy ha hax hb hby hq hf hsec
  have hfits : Word.Fits (v - w) := by
    have := hnear k (mem_shifts ha hfm hk) l (mem_shifts hb hsm hl)
    unfold Word.Fits Word.least Word.greatest
    simp only [Nat.pow_eq] at this
    omega
  have hsettled := (h.laid.of_mem_sitesOf site hs).1
  rcases AccessPair.carrierAt_eq_ok (hc hfits) with ⟨ht, hfuture, rfl⟩ | ⟨_, rfl⟩
  · -- Time runs forward.  Two equations stand still in time, and one reads only what is past.
    rw [(hsettled.direction_of_carried h hedge hin rfl).1] at hvw
    have hlt : v < w := hvw
    by_cases hab : a = b
    · subst hab
      rcases hq with ⟨hlt, _⟩ | ⟨_, read, _, rfl⟩
      · exact absurd hlt (Nat.lt_irrefl _)
      · have : ¬v - w < 0 := by simpa [AccessPair.readsFuture, selfPair] using hfuture
        omega
    · obtain ⟨_, hpa⟩ := h.passes hs hx ha hax
      obtain ⟨_, hpb⟩ := h.passes hs hy hb hby
      obtain ⟨inner, hroots⟩ := hpa.commonRoots_eq hpb
      have heq := htime hab a ha hax b hb hby (p.dims.root site.loop.dim) (by simp [hroots]) ht
      rw [hpa.valueAt?_root (h.shaped ha).roots_nodup,
        hpb.valueAt?_root (h.shaped hb).roots_nodup] at heq
      cases heq
      exact absurd hlt (Int.lt_irrefl _)
  · rw [(hsettled.direction_of_carried h hedge hin rfl).1, Direction.ofDistance] at hvw
    split at hvw
    · have hlt : v < w := hvw
      omega
    · have hlt : w < v := hvw
      omega

theorem not_sublist_of_conflict (h : p.Sound program) {a b : Lowered} (ha : a ∈ p.equations)
    (hb : b ∈ p.equations) {q : AccessPair} (hq : Compares p.dims a b q) :
    ¬[b.index, a.index].Sublist (Node.equationsOf p.tree.roots) := by
  intro hsub
  by_cases hab : a = b
  · subst hab
    have := h.equationsOf_nodup.sublist hsub
    simp at this
  · obtain ⟨hsource, hsink, _⟩ := hq.spec
    obtain ⟨_, _, hedge⟩ := hq.exists_edge h.graph h.numbered ha hb
    rw [h.equationsOf_eq] at hsub
    have := List.Pairwise.sublist hsub h.members_respects
    exact (List.pairwise_pair.mp this) _ (hedge (Or.inl hab)) ⟨hsource, hsink⟩

/-- In any run, of two conflicting instances the first comes first. -/
theorem lt_of_conflict (h : p.Sound program) (hreg : Regular p.dims p.equations)
    (hnear : Near p.dims p.equations) {xs : List Instance} (hxs : Executes p.tree.roots xs)
    {i j : Nat} {x y : Instance} (hi : xs[i]? = some x) (hj : xs[j]? = some y) (hxy : x ≠ y)
    {a b : Lowered} (ha : a ∈ p.equations) (hax : a.index = x.equation) (hb : b ∈ p.equations)
    (hby : b.index = y.equation) {q : AccessPair} (hq : Compares p.dims a b q) {el : Element}
    (hf : a.element? p.dims x.values q.first = some el)
    (hsec : b.element? p.dims y.values q.second = some el)
    (htime : a ≠ b → x.Simultaneous p.dims p.equations y) : i < j := by
  refine lt_of_pairwise hxs.pairwise hi hj hxy ?_
  rintro (⟨site, hs, us, v, w, hy, hx, hvw⟩ | hsub)
  · exact h.not_before_of_conflict hreg hnear hs hx hy ha hax hb hby hq hf hsec htime hvw
  · rw [← hax, ← hby] at hsub
    exact h.not_sublist_of_conflict ha hb hq hsub

theorem keepsConflicts (h : p.Sound program) (hreg : Regular p.dims p.equations)
    (hnear : Near p.dims p.equations) {xs : List Instance} (hxs : Executes p.tree.roots xs) :
    KeepsConflicts p.dims p.equations xs where
  across {i j x y el} hi hj hlt htime hconflict := by
    have hxy : x ≠ y := fun h => absurd hlt (by rw [h]; exact Nat.lt_irrefl _)
    have key : ∀ {a b : Lowered} {first second : Access}, a ∈ p.equations →
        a.index = x.equation → b ∈ p.equations → b.index = y.equation →
        first ∈ a.accesses p.dims → second ∈ b.accesses p.dims →
        a.element? p.dims x.values first = some el →
        b.element? p.dims y.values second = some el →
        (first = a.write ∨ second = b.write) → i < j := by
      intro a b first second ha hax hb hby hf hs hfel hsel hw
      obtain ⟨_, hq⟩ := exists_compares (hax ▸ hby ▸ hlt) hf hs
        ((element?_eq_some hfel).1.symm.trans (element?_eq_some hsel).1) hw
      exact h.lt_of_conflict hreg hnear hxs hi hj hxy ha hax hb hby hq hfel hsel fun _ => htime
    rcases hconflict with
      ⟨⟨a, ha, hax, first, hf, hfel⟩, b, hb, hby, second, hs, hsel⟩ |
      ⟨⟨a, ha, hax, first, hf, hfel⟩, b, hb, hby, second, hs, hsel⟩
    · have hf := List.mem_singleton.mp hf
      exact key ha hax hb hby (hf ▸ write_mem_accesses _ a) hs hfel hsel (Or.inl hf)
    · have hs := List.mem_singleton.mp hs
      exact key ha hax hb hby hf (hs ▸ write_mem_accesses _ b) hfel hsel (Or.inr hs)
  within {i j x y el} hi hj heq hxy hwrite hread := by
    obtain ⟨a, ha, hax, first, hf, hfel⟩ := hwrite
    obtain ⟨b, hb, hby, second, hs, hsel⟩ := hread
    obtain rfl : a = b := h.numbered.eq_of_index_eq ha hb (hax.trans (heq.trans hby.symm))
    obtain rfl := List.mem_singleton.mp hf
    have hq : Compares p.dims a a (a.selfPair second) :=
      Or.inr ⟨rfl, second, mem_readsOf.mpr
        ⟨hs, (element?_eq_some hsel).1.symm.trans (element?_eq_some hfel).1⟩, rfl⟩
    exact h.lt_of_conflict hreg hnear hxs hi hj hxy ha hax hb hby hq hfel hsel
      fun hne => absurd rfl hne

end Plan.Sound

/-- Every run of a regular program keeps conflicts, and so does every trace. -/
theorem keepsConflicts_of_schedule {program : Program} {options : Options} {tree : ScheduleTree}
    {es : List Lowered} (hschedule : (program.schedule options).result = .ok tree)
    (hlower : program.lower.result = .ok es) (hreg : Regular program.dims es)
    (hnear : Near program.dims es) :
    (∀ xs, Executes tree.roots xs → KeepsConflicts program.dims es xs) ∧
      ∀ bindings events, tree.events program.dims bindings = .ok events →
        KeepsConflicts program.dims es (events.map Event.instance) := by
  obtain ⟨p, hp, _, rfl, rfl⟩ := Program.exists_plan_of_schedule hschedule hlower
  rw [← hp.dims] at hreg hnear ⊢
  exact ⟨fun xs hxs => hp.keepsConflicts hreg hnear hxs, fun bindings events h =>
    hp.keepsConflicts hreg hnear (Node.executes_of_events h)⟩

/-- A sweep from the last point to the first, and an equation that reads one point ahead. -/
def sweepAndShift : Program where
  dims := match DimTable.empty.space "x" (some 3) with
    | .ok (t, _) => t
    | .error _ => .empty
  scalars := []
  equations :=
    let cell := fun (tensor : String) (shift : Int) => Access.mk tensor [.fixed ⟨0⟩ shift]
    [⟨cell "u" 0, (cell "u" 1).toExpr, [], []⟩, ⟨cell "v" 0, (cell "u" 1).toExpr, [], []⟩]

theorem keepsConflicts_of_schedule_sweepAndShift :
    ∃ tree es events, (sweepAndShift.schedule default).result = .ok tree ∧
      sweepAndShift.lower.result = .ok es ∧ Regular sweepAndShift.dims es ∧
      Near sweepAndShift.dims es ∧ tree.events sweepAndShift.dims [] = .ok events ∧
      events.map Event.instance =
        [⟨0, [2]⟩, ⟨1, [2]⟩, ⟨0, [1]⟩, ⟨1, [1]⟩, ⟨0, [0]⟩, ⟨1, [0]⟩] ∧
      Instance.Conflict sweepAndShift.dims es ⟨0, [2]⟩ ⟨1, [1]⟩ ⟨"u", [2]⟩ ∧
      KeepsConflicts sweepAndShift.dims es (events.map Event.instance) := by
  have facts : ∃ tree es events, (sweepAndShift.schedule default).result = .ok tree ∧
      sweepAndShift.lower.result = .ok es ∧ tree.events sweepAndShift.dims [] = .ok events ∧
      Regular sweepAndShift.dims es ∧ Near sweepAndShift.dims es ∧
      events.map Event.instance =
        [⟨0, [2]⟩, ⟨1, [2]⟩, ⟨0, [1]⟩, ⟨1, [1]⟩, ⟨0, [0]⟩, ⟨1, [0]⟩] ∧
      Instance.Conflict sweepAndShift.dims es ⟨0, [2]⟩ ⟨1, [1]⟩ ⟨"u", [2]⟩ :=
    ⟨_, _, _, rfl, rfl, rfl, by decide +kernel, by decide +kernel, by decide +kernel,
      by decide +kernel⟩
  obtain ⟨tree, es, events, ht, hl, he, hreg, hnear, hxs, hconflict⟩ := facts
  exact ⟨tree, es, events, ht, hl, hreg, hnear, he, hxs, hconflict,
    (keepsConflicts_of_schedule ht hl hreg hnear).2 [] events he⟩

end LoopNest
