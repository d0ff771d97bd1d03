import Mathlib.Data.List.Nodup
import LoopNest.Lowered
import LoopNest.Proofs.Chain
import LoopNest.Proofs.Success
/-!
# What lowering settles

Lowered equations carry their places in the order of declaration.  The loops of each have pairwise
different roots, which are those of the dimensions that the equation mentions.  Each such dimension
has a loop that visits no more than its points, and the conditions are those met on the way to these
loops.  Narrowing a loop replaces it by another of the same root, which is why the roots are the part
of the loops that later arguments may hold on to.
-/

namespace LoopNest.Lowered

variable {t : DimTable}

/-! ## Loops -/

theorem root_eq_of_find? {loops : List DimId} {root l : DimId}
    (h : loops.find? (fun l => t.root l == root) = some l) : t.root l = root := by
  simpa using List.find?_some h

theorem map_root_addLoop {i : Nat} {loops loops' : List DimId} {d : DimId}
    (h : (addLoop t i loops d).result = .ok loops') :
    loops'.map t.root = loops.map t.root ∨
      (loops'.map t.root = loops.map t.root ++ [t.root d] ∧ t.root d ∉ loops.map t.root) := by
  rw [addLoop] at h
  simp only [DimTable.root_loopOf] at h
  cases hf : loops.find? fun l => t.root l == t.root d with
  | none =>
      simp only [hf, Logged.result_pure, Except.ok.injEq] at h
      subst h
      refine Or.inr ⟨by simp, fun hm => ?_⟩
      obtain ⟨l, hl, hr⟩ := List.mem_map.mp hm
      simpa [hr] using List.find?_eq_none.mp hf l hl
  | some existing =>
      have hroot : t.root existing = t.root d := root_eq_of_find? hf
      simp only [hf] at h
      split at h
      · cases h
        exact Or.inl rfl
      · split at h
        · cases h
          refine Or.inl ?_
          rw [List.map_map]
          refine List.map_congr_left ?_
          intro l _
          by_cases hl : l = existing
          · simp [hl, hroot]
          · simp [hl]
        · cases h

theorem mem_roots_of_addLoops {i : Nat} {r : DimId} : ∀ {ds loops loops' : List DimId},
    (addLoops t i loops ds).result = .ok loops' → r ∈ loops'.map t.root →
      r ∈ loops.map t.root ∨ ∃ d ∈ ds, t.root d = r
  | [], loops, loops', h, hr => by
      cases h
      exact Or.inl hr
  | d :: ds, loops, loops', h, hr => by
      rw [addLoops, Logged.result_bind] at h
      obtain ⟨mid, hm, h⟩ := bind_eq_ok.mp h
      rcases mem_roots_of_addLoops h hr with hr | ⟨c, hc, hr⟩
      · rcases map_root_addLoop hm with heq | ⟨heq, _⟩
        · exact Or.inl (heq ▸ hr)
        · rw [heq, List.mem_append, List.mem_singleton] at hr
          exact hr.imp id fun hr => ⟨d, List.mem_cons_self, hr.symm⟩
      · exact Or.inr ⟨c, List.mem_cons_of_mem _ hc, hr⟩

theorem nodup_addLoops {i : Nat} : ∀ {ds loops loops' : List DimId},
    (addLoops t i loops ds).result = .ok loops' → (loops.map t.root).Nodup →
      (loops'.map t.root).Nodup
  | [], loops, loops', h, hn => by
      cases h
      exact hn
  | d :: ds, loops, loops', h, hn => by
      rw [addLoops, Logged.result_bind] at h
      obtain ⟨mid, hm, h⟩ := bind_eq_ok.mp h
      refine nodup_addLoops h ?_
      rcases map_root_addLoop hm with heq | ⟨heq, hnew⟩
      · exact heq ▸ hn
      · rw [heq, List.nodup_append]
        refine ⟨hn, by simp, fun r hr s hs hrs => hnew ?_⟩
        rw [List.mem_singleton] at hs
        exact hs ▸ hrs ▸ hr

/-- One more dimension gets a loop over the range that its points are visited in, or over a part of
it, and no other dimension loses the one it has. -/
theorem derives_addLoop {i : Nat} {loops loops' : List DimId} {d : DimId}
    (h : (addLoop t i loops d).result = .ok loops') :
    (∃ l ∈ loops', t.derives l (t.loopOf d) = true) ∧
      ∀ a, (∃ l ∈ loops, t.derives l a = true) → ∃ l ∈ loops', t.derives l a = true := by
  rw [addLoop] at h
  simp only [DimTable.root_loopOf] at h
  cases hf : loops.find? fun l => t.root l == t.root d with
  | none =>
      simp only [hf, Logged.result_pure, Except.ok.injEq] at h
      subst h
      refine ⟨⟨_, by simp, t.derives_self _⟩, ?_⟩
      rintro a ⟨l, hl, ha⟩
      exact ⟨l, List.mem_append_left _ hl, ha⟩
  | some existing =>
      have hmem : existing ∈ loops := List.mem_of_find?_eq_some hf
      simp only [hf] at h
      split at h
      · rename_i hnarrow
        cases h
        exact ⟨⟨existing, hmem, hnarrow⟩, fun a ha => ha⟩
      · split at h
        · rename_i hnarrow
          cases h
          have hnew : t.loopOf d ∈ loops.map fun l => if l = existing then t.loopOf d else l :=
            List.mem_map.mpr ⟨existing, hmem, if_pos rfl⟩
          refine ⟨⟨_, hnew, t.derives_self _⟩, ?_⟩
          rintro a ⟨l, hl, ha⟩
          by_cases heq : l = existing
          · exact ⟨_, hnew, DimTable.derives_trans hnarrow (heq ▸ ha)⟩
          · exact ⟨l, List.mem_map.mpr ⟨l, hl, if_neg heq⟩, ha⟩
        · cases h

theorem derives_addLoops {i : Nat} : ∀ {ds loops loops' : List DimId},
    (addLoops t i loops ds).result = .ok loops' →
      (∀ d ∈ ds, ∃ l ∈ loops', t.derives l (t.loopOf d) = true) ∧
        ∀ a, (∃ l ∈ loops, t.derives l a = true) → ∃ l ∈ loops', t.derives l a = true
  | [], loops, loops', h => by
      cases h
      exact ⟨fun d hd => absurd hd List.not_mem_nil, fun a ha => ha⟩
  | d :: ds, loops, loops', h => by
      rw [addLoops, Logged.result_bind] at h
      obtain ⟨mid, hm, h⟩ := bind_eq_ok.mp h
      obtain ⟨hall, hkeep⟩ := derives_addLoops h
      obtain ⟨hd, hstep⟩ := derives_addLoop hm
      refine ⟨fun c hc => ?_, fun a ha => hkeep a (hstep a ha)⟩
      rcases List.mem_cons.mp hc with rfl | hc
      · exact hkeep _ hd
      · exact hall c hc

/-- A loop is there for some dimension, and over the range that its points are visited in. -/
theorem mem_addLoop {i : Nat} {loops loops' : List DimId} {d l : DimId}
    (h : (addLoop t i loops d).result = .ok loops') (hl : l ∈ loops') :
    l ∈ loops ∨ l = t.loopOf d := by
  rw [addLoop] at h
  simp only [DimTable.root_loopOf] at h
  cases hf : loops.find? fun l => t.root l == t.root d with
  | none =>
      simp only [hf, Logged.result_pure, Except.ok.injEq] at h
      subst h
      simpa using hl
  | some existing =>
      simp only [hf] at h
      split at h
      · cases h
        exact Or.inl hl
      · split at h
        · cases h
          obtain ⟨m, hm, rfl⟩ := List.mem_map.mp hl
          split
          · exact Or.inr rfl
          · exact Or.inl hm
        · cases h

theorem mem_addLoops {i : Nat} {l : DimId} : ∀ {ds loops loops' : List DimId},
    (addLoops t i loops ds).result = .ok loops' → l ∈ loops' →
      l ∈ loops ∨ ∃ d ∈ ds, l = t.loopOf d
  | [], loops, loops', h, hl => by
      cases h
      exact Or.inl hl
  | d :: ds, loops, loops', h, hl => by
      rw [addLoops, Logged.result_bind] at h
      obtain ⟨mid, hm, h⟩ := bind_eq_ok.mp h
      rcases mem_addLoops h hl with hl | ⟨c, hc, rfl⟩
      · exact (mem_addLoop hm hl).imp id fun hl => ⟨d, List.mem_cons_self, hl⟩
      · exact Or.inr ⟨c, List.mem_cons_of_mem _ hc, rfl⟩

theorem timeFirst_perm (t : DimTable) (loops : List DimId) : (timeFirst t loops).Perm loops :=
  List.filter_append_perm t.isTimeLike loops

theorem timeFirst_pairwise (t : DimTable) (loops : List DimId) :
    ((timeFirst t loops).map t.root).Pairwise fun r s =>
      t.isTimeLike s = true → t.isTimeLike r = true := by
  refine List.pairwise_map.mpr (List.pairwise_append.mpr ⟨?_, ?_, ?_⟩)
  · refine List.pairwise_of_forall_mem_list fun l hl _ _ _ => ?_
    rw [DimTable.isTimeLike_root]
    exact (List.mem_filter.mp hl).2
  · refine List.pairwise_of_forall_mem_list fun _ _ m hm htime => ?_
    rw [DimTable.isTimeLike_root] at htime
    have := (List.mem_filter.mp hm).2
    rw [htime] at this
    cases this
  · intro l hl _ _ _
    rw [DimTable.isTimeLike_root]
    exact (List.mem_filter.mp hl).2

/-! ## One equation -/

/-- What lowering settles about one equation. -/
structure Shaped (t : DimTable) (e : Lowered) : Prop where
  roots_nodup : (e.roots t).Nodup
  /-- No loop is there for nothing. -/
  rooted : ∀ r ∈ e.roots t, ∃ d ∈ e.equation.dims, t.root d = r
  /-- Each dimension that the equation mentions has a loop over the range that its points are
  visited in, or over a part of it. -/
  narrow : ∀ d ∈ e.equation.dims, ∃ l ∈ e.loops, t.derives l (t.loopOf d) = true
  gated : ∀ c, c ∈ e.conditions ↔ ∃ d ∈ e.equation.dims, c ∈ t.conditionsOf d
  /-- No loop over time stands inside one over space. -/
  time_first : (e.roots t).Pairwise fun r s => t.isTimeLike s = true → t.isTimeLike r = true

namespace Shaped

variable {e : Lowered}

theorem loops_nodup (h : e.Shaped t) : e.loops.Nodup :=
  List.Nodup.of_map _ h.roots_nodup

theorem covers (h : e.Shaped t) : ∀ d ∈ e.equation.dims, t.root d ∈ e.roots t := by
  intro d hd
  obtain ⟨l, hl, hderives⟩ := h.narrow d hd
  refine List.mem_map.mpr ⟨l, hl, ?_⟩
  rw [DimTable.root_eq_of_derives hderives, DimTable.root_loopOf]

theorem conditional (h : e.Shaped t) : ∀ c ∈ e.conditions, (t.get c).isConditional = true := by
  intro c hc
  obtain ⟨d, _, hd⟩ := (h.gated c).mp hc
  exact DimTable.isConditional_of_mem_conditionsOf hd

theorem root_mem_of_mem_conditions (h : e.Shaped t) :
    ∀ c ∈ e.conditions, t.root c ∈ e.roots t := by
  intro c hc
  obtain ⟨d, hd, hcd⟩ := (h.gated c).mp hc
  exact DimTable.root_eq_of_mem_conditionsOf hcd ▸ h.covers d hd

end Shaped

theorem mem_conditionsMet {ds : List DimId} {c : DimId} :
    c ∈ conditionsMet t ds ↔ ∃ d ∈ ds, c ∈ t.conditionsOf d := by
  rw [conditionsMet, SortedSet.mem_ofList, List.mem_flatMap]

theorem ofEquation_shaped {i : Nat} {eq : Equation} {e : Lowered}
    (h : (ofEquation t i eq).result = .ok e) : e.index = i ∧ e.Shaped t := by
  rw [ofEquation, Logged.result_bind] at h
  obtain ⟨restricted, _, h⟩ := bind_eq_ok.mp h
  rw [Logged.result_bind] at h
  obtain ⟨loops, hl, h⟩ := bind_eq_ok.mp h
  cases h
  have hperm := timeFirst_perm t loops
  refine ⟨rfl, (hperm.map t.root).nodup_iff.mpr (nodup_addLoops hl .nil), fun r hr => ?_,
    fun d hd => ?_, fun c => mem_conditionsMet, timeFirst_pairwise t loops⟩
  · rcases mem_roots_of_addLoops hl ((hperm.map t.root).mem_iff.mp hr) with hr | hd
    · cases hr
    · exact hd
  · obtain ⟨l, hm, hderives⟩ := (derives_addLoops hl).1 d hd
    exact ⟨l, hperm.mem_iff.mpr hm, hderives⟩

/-- Of the declared equation the lowered one keeps the restriction, and its loops are there for
dimensions that this mentions. -/
theorem ofEquation_eq_ok {i : Nat} {eq : Equation} {e : Lowered}
    (h : (ofEquation t i eq).result = .ok e) :
    eq.checkMappings t = .ok () ∧ e.equation = eq.restricted ∧
      ∀ l ∈ e.loops, ∃ d ∈ e.equation.dims, l = t.loopOf d := by
  rw [ofEquation, Logged.result_bind] at h
  obtain ⟨restricted, hr, h⟩ := bind_eq_ok.mp h
  rw [Logged.result_bind] at h
  obtain ⟨loops, hl, h⟩ := bind_eq_ok.mp h
  cases h
  obtain ⟨_, hcheck, hr⟩ := bind_eq_ok.mp (mapError_eq_ok.mp hr)
  cases hr
  refine ⟨hcheck, rfl, fun l hm => ?_⟩
  exact (mem_addLoops hl ((timeFirst_perm t loops).mem_iff.mp hm)).resolve_left List.not_mem_nil

/-! ## All equations -/

/-- The equations stand at the places they carry. -/
def Numbered (es : List Lowered) : Prop := es.map index = List.range es.length

namespace Numbered

variable {es : List Lowered}

theorem pairwise (h : Numbered es) : es.Pairwise fun a b => a.index < b.index := by
  have hp : (es.map index).Pairwise (· < ·) := by
    rw [h]
    exact List.pairwise_lt_range
  exact List.pairwise_map.mp hp

theorem eq_of_index_eq (h : Numbered es) {a b : Lowered} (ha : a ∈ es) (hb : b ∈ es)
    (hi : a.index = b.index) : a = b := by
  have hn : (es.map index).Nodup := by
    rw [h]
    exact List.nodup_range
  exact List.inj_on_of_nodup_map hn ha hb hi

theorem exists_of_lt (h : Numbered es) {i : Nat} (hi : i < es.length) : ∃ e ∈ es, e.index = i := by
  have : i ∈ es.map index := by
    rw [h]
    exact List.mem_range.mpr hi
  exact List.mem_map.mp this

theorem getElem?_index (h : Numbered es) {e : Lowered} (he : e ∈ es) : es[e.index]? = some e := by
  obtain ⟨i, hi, rfl⟩ := List.getElem_of_mem he
  have hidx : es[i].index = i := by
    have hg : (es.map index)[i]? = (List.range es.length)[i]? := by rw [h]
    simpa [hi] using hg
  rw [hidx, List.getElem?_eq_getElem hi]

theorem index_lt (h : Numbered es) {e : Lowered} (he : e ∈ es) : e.index < es.length :=
  (List.getElem?_eq_some_iff.mp (h.getElem?_index he)).1

theorem getD_index (h : Numbered es) {e : Lowered} (he : e ∈ es) :
    es.getD e.index default = e := by
  rw [List.getD_eq_getElem?_getD, h.getElem?_index he, Option.getD_some]

end Numbered

theorem ofEquations_shaped : ∀ {i : Nat} {eqs : List Equation} {es : List Lowered},
    (ofEquations t i eqs).result = .ok es →
      es.map index = List.range' i es.length ∧ ∀ e ∈ es, e.Shaped t
  | _, [], es, h => by
      cases h
      exact ⟨rfl, fun e he => by cases he⟩
  | i, eq :: eqs, es, h => by
      rw [ofEquations, Logged.result_bind] at h
      obtain ⟨e, he, h⟩ := bind_eq_ok.mp h
      rw [Logged.result_bind] at h
      obtain ⟨rest, hr, h⟩ := bind_eq_ok.mp h
      cases h
      obtain ⟨hi, hs⟩ := ofEquation_shaped he
      obtain ⟨hidx, hall⟩ := ofEquations_shaped hr
      refine ⟨by simp [hi, hidx, List.range'_succ], fun f hf => ?_⟩
      rcases List.mem_cons.mp hf with rfl | hf
      · exact hs
      · exact hall f hf

theorem length_ofEquations : ∀ {i : Nat} {eqs : List Equation} {es : List Lowered},
    (ofEquations t i eqs).result = .ok es → es.length = eqs.length
  | _, [], es, h => by
      cases h
      rfl
  | i, eq :: eqs, es, h => by
      rw [ofEquations, Logged.result_bind] at h
      obtain ⟨e, he, h⟩ := bind_eq_ok.mp h
      rw [Logged.result_bind] at h
      obtain ⟨rest, hr, h⟩ := bind_eq_ok.mp h
      cases h
      exact congrArg (· + 1) (length_ofEquations hr)

theorem getElem?_ofEquations {e : Lowered} : ∀ {i k : Nat} {eqs : List Equation}
    {es : List Lowered}, (ofEquations t i eqs).result = .ok es → es[k]? = some e →
      ∃ eq, eqs[k]? = some eq ∧ (ofEquation t (i + k) eq).result = .ok e
  | _, _, [], es, h, hk => by
      cases h
      cases hk
  | i, k, eq :: eqs, es, h, hk => by
      rw [ofEquations, Logged.result_bind] at h
      obtain ⟨first, hfirst, h⟩ := bind_eq_ok.mp h
      rw [Logged.result_bind] at h
      obtain ⟨rest, hrest, h⟩ := bind_eq_ok.mp h
      cases h
      cases k with
      | zero =>
          cases hk
          exact ⟨eq, rfl, hfirst⟩
      | succ k =>
          obtain ⟨eq', heq', he⟩ := getElem?_ofEquations hrest hk
          exact ⟨eq', heq', by rwa [Nat.add_assoc, Nat.add_comm 1] at he⟩

end LoopNest.Lowered

namespace LoopNest.Program

open Lowered

theorem lower_eq_ok {p : Program} {es : List Lowered} (h : p.lower.result = .ok es) :
    (ofEquations p.dims 0 p.equations).result = .ok es := by
  rw [lower, Logged.result_bind] at h
  obtain ⟨_, _, h⟩ := bind_eq_ok.mp h
  rw [Logged.result_bind] at h
  obtain ⟨fs, hf, h⟩ := bind_eq_ok.mp h
  simp only [Logged.result_bind, Logged.result_noteAll, Logged.result_note, Logged.result_pure,
    Except.bind, Except.ok.injEq] at h
  exact h ▸ hf

theorem lower_shaped {p : Program} {es : List Lowered} (h : p.lower.result = .ok es) :
    Numbered es ∧ ∀ e ∈ es, e.Shaped p.dims := by
  obtain ⟨hidx, hall⟩ := ofEquations_shaped (lower_eq_ok h)
  exact ⟨hidx.trans List.range_eq_range'.symm, hall⟩

theorem exists_ofEquation {p : Program} {es : List Lowered} (h : p.lower.result = .ok es)
    {e : Lowered} (he : e ∈ es) :
    ∃ eq, p.equations[e.index]? = some eq ∧ (ofEquation p.dims e.index eq).result = .ok e := by
  have := getElem?_ofEquations (lower_eq_ok h) ((lower_shaped h).1.getElem?_index he)
  rwa [Nat.zero_add] at this

theorem length_lower {p : Program} {es : List Lowered} (h : p.lower.result = .ok es) :
    es.length = p.equations.length :=
  length_ofEquations (lower_eq_ok h)

end LoopNest.Program
