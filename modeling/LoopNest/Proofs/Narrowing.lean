import LoopNest.Proofs.Construction
import LoopNest.Proofs.Failure
import LoopNest.Proofs.Lowering
/-!
# Which loop an equation gets for each root

Loops are chosen one mention after another, and each mention is compared only with the narrowest
range mentioned so far.  That this refuses exactly the mentions without a common loop, in whichever
order they come, rests on one fact about chains: of two dimensions that a third derives from, one
derives from the other (`DimTable.derives_total`).  As long as nothing is refused, the loop of a
root derives from every range mentioned of it, so any two of these are comparable
(`LoopsOver.not_conflicting`); and a mention that the loop of its root is not comparable with is
apart from the mention that the loop is there for (`addLoop_eq_error`).

Loops and conditions are described by membership in the list of mentions, which is why their order
does not matter (`Narrows.unordered`).  The order of the loops does depend on it: that of the first
mentions of their roots, with the roots of time in front (`Narrowed.roots`).
-/

namespace LoopNest

namespace DimTable

variable {t : DimTable}

/-- Of two dimensions that a third derives from, one derives from the other. -/
theorem derives_total {d a b : DimId} (ha : t.derives d a = true) (hb : t.derives d b = true) :
    t.derives a b = true ∨ t.derives b a = true := by
  have hsa := chain_suffix_of_mem (List.contains_iff_mem.mp ha)
  have hsb := chain_suffix_of_mem (List.contains_iff_mem.mp hb)
  rcases List.suffix_or_suffix_of_suffix hsa hsb with h | h
  · exact Or.inr (List.contains_iff_mem.mpr (h.subset (mem_chain_self t a)))
  · exact Or.inl (List.contains_iff_mem.mpr (h.subset (mem_chain_self t b)))

theorem derives_antisymm {a b : DimId} (hab : t.derives a b = true) (hba : t.derives b a = true) :
    a = b := by
  have hle := index_le_of_mem_chain (List.contains_iff_mem.mp hab)
  have hge := index_le_of_mem_chain (List.contains_iff_mem.mp hba)
  cases a
  cases b
  exact congrArg DimId.mk (Nat.le_antisymm hge hle)

/-! ## Conditions on the way to a loop -/

theorem conditionsOf_of_not_rides {d : DimId} (h : (t.get d).ridesOnParent = false) :
    t.conditionsOf d = [] := by
  obtain ⟨above, hchain⟩ := chain_eq_cons t d
  rw [conditionsOf, hchain, List.takeWhile_cons_of_neg (by simp [h]), List.filter_nil]

theorem conditionsOf_of_rides {d p : DimId} (h : (t.get d).ridesOnParent = true)
    (hp : t.parent? d = some p) :
    t.conditionsOf d = [d].filter (fun a => (t.get a).isConditional) ++ t.conditionsOf p := by
  rw [conditionsOf, chain_of_parent hp, List.takeWhile_cons, if_pos (by exact h),
    ← List.singleton_append, List.filter_append]
  rfl

theorem derives_iff_of_parent? {d p a : DimId} (hp : t.parent? d = some p) :
    t.derives d a = true ↔ a = d ∨ t.derives p a = true := by
  rw [derives, chain_of_parent hp, List.contains_iff_mem, List.mem_cons, derives,
    List.contains_iff_mem]

theorem mem_conditionsOf_iff {d c : DimId} :
    c ∈ t.conditionsOf d ↔ t.derives d c = true ∧ t.derives c (t.loopOf d) = true ∧
      (t.get c).isConditional = true := by
  -- The induction is on places in the table: a parent stands before its child.
  induction hn : d.index using Nat.strongRecOn generalizing d with
  | ind n ih =>
      cases hd : (t.get d).ridesOnParent with
      | false =>
          rw [conditionsOf_of_not_rides hd, loopOf_of_not_rides hd]
          refine iff_of_false List.not_mem_nil fun ⟨hdc, hcd, hcond⟩ => ?_
          rw [← derives_antisymm hdc hcd, Dimension.isConditional] at hcond
          simp [Dimension.ridesOnParent, Dimension.isConditional, hcond] at hd
      | true =>
          cases hp : t.parent? d with
          | none =>
              rw [ridesOnParent_of_parent?_eq_none hp] at hd
              cases hd
          | some p =>
              have hloop : t.derives d (t.loopOf p) = true :=
                (derives_iff_of_parent? hp).mpr
                  (Or.inr (List.contains_iff_mem.mpr (t.loopOf_mem_chain p)))
              rw [conditionsOf_of_rides hd hp, loopOf_of_rides hd hp, List.mem_append,
                ih p.index (hn ▸ parent_lt hp) rfl, derives_iff_of_parent? hp, List.mem_filter,
                List.mem_singleton]
              constructor
              · rintro (⟨rfl, hcond⟩ | ⟨hpc, hrest⟩)
                · exact ⟨Or.inl rfl, hloop, hcond⟩
                · exact ⟨Or.inr hpc, hrest⟩
              · rintro ⟨rfl | hpc, hcl, hcond⟩
                · exact Or.inl ⟨rfl, hcond⟩
                · exact Or.inr ⟨hpc, hcl, hcond⟩

end DimTable

namespace Lowered

variable {t : DimTable} {i : Nat}

/-- Two ranges over one root of which neither is a part of the other. -/
def Apart (t : DimTable) (k l : DimId) : Prop :=
  t.root k = t.root l ∧ t.derives k l = false ∧ t.derives l k = false

/-- Two of the mentioned dimensions have loops that no range narrows. -/
def Conflicting (t : DimTable) (ds : List DimId) : Prop :=
  ∃ a ∈ ds, ∃ b ∈ ds, Apart t (t.loopOf a) (t.loopOf b)

/-- The range of a mentioned dimension that narrows those of all mentioned dimensions of its root. -/
structure IsNarrowest (t : DimTable) (ds : List DimId) (l : DimId) : Prop where
  mentioned : ∃ d ∈ ds, l = t.loopOf d
  narrows : ∀ d ∈ ds, t.root d = t.root l → t.derives l (t.loopOf d) = true

/-! ## One mention after another -/

/-- A mention is refused if the loop over its root is neither part of its range nor contains it. -/
theorem addLoop_eq_error {loops : List DimId} {d : DimId} {err : AnalysisError}
    (h : (addLoop t i loops d).result = .error err) :
    ∃ l ∈ loops, Apart t l (t.loopOf d) ∧
      err = .conflictingSubdomains i (t.name (t.root d)) (t.name l) (t.name (t.loopOf d)) := by
  rw [addLoop] at h
  simp only [DimTable.root_loopOf] at h
  cases hf : loops.find? fun l => t.root l == t.root d with
  | none =>
      simp only [hf] at h
      cases h
  | some existing =>
      simp only [hf] at h
      split at h
      · cases h
      · rename_i hwide
        split at h
        · cases h
        · rename_i hnarrow
          cases h
          refine ⟨existing, List.mem_of_find?_eq_some hf, ⟨?_, by simpa using hwide,
            by simpa using hnarrow⟩, rfl⟩
          rw [root_eq_of_find? hf, DimTable.root_loopOf]

/-- The first mention that is refused. -/
theorem exists_of_addLoops_eq_error {err : AnalysisError} : ∀ {ds loops : List DimId},
    (addLoops t i loops ds).result = .error err →
      ∃ before d after mid, ds = before ++ d :: after ∧
        (addLoops t i loops before).result = .ok mid ∧ (addLoop t i mid d).result = .error err
  | [], _, h => by cases h
  | d :: ds, loops, h => by
      rw [addLoops, Logged.result_bind] at h
      rcases bind_eq_error.mp h with h | ⟨mid, hmid, h⟩
      · exact ⟨[], d, ds, loops, rfl, rfl, h⟩
      · obtain ⟨before, c, after, last, rfl, hlast, h⟩ := exists_of_addLoops_eq_error h
        refine ⟨d :: before, c, after, last, rfl, ?_, h⟩
        rw [addLoops, Logged.result_bind]
        exact bind_eq_ok.mpr ⟨mid, hmid, hlast⟩

theorem eraseDups_append_cons {rs : List DimId} {r : DimId} (h : r ∈ rs) (rest : List DimId) :
    (rs ++ r :: rest).eraseDups = (rs ++ rest).eraseDups := by
  simp [List.eraseDups_append, List.removeAll, h]

theorem eraseDups_concat {rs : List DimId} {r : DimId} (h : r ∉ rs) :
    (rs ++ [r]).eraseDups = rs.eraseDups ++ [r] := by
  simp [List.eraseDups_append, List.removeAll, h, List.eraseDups_cons]

theorem map_root_addLoops : ∀ {ds loops loops' : List DimId},
    (addLoops t i loops ds).result = .ok loops' →
      (loops.map t.root).eraseDups = loops.map t.root →
        loops'.map t.root = (loops.map t.root ++ ds.map t.root).eraseDups
  | [], loops, loops', h, hdistinct => by
      cases h
      rw [List.map_nil, List.append_nil, hdistinct]
  | d :: ds, loops, loops', h, hdistinct => by
      rw [addLoops, Logged.result_bind] at h
      obtain ⟨mid, hmid, h⟩ := bind_eq_ok.mp h
      rcases map_root_addLoop hmid with heq | ⟨heq, hnew⟩
      · obtain ⟨l, hl, hderives⟩ := (derives_addLoop hmid).1
        have hseen : t.root d ∈ loops.map t.root := by
          rw [← heq, ← t.root_loopOf d, ← DimTable.root_eq_of_derives hderives]
          exact List.mem_map_of_mem hl
        rw [map_root_addLoops h (heq ▸ hdistinct), heq, List.map_cons,
          eraseDups_append_cons hseen]
      · rw [map_root_addLoops h (by rw [heq, eraseDups_concat hnew, hdistinct]), heq,
          List.append_assoc, List.map_cons, List.singleton_append]

/-- The loops that stand for the mentioned dimensions. -/
structure LoopsOver (t : DimTable) (ds loops : List DimId) : Prop where
  roots : loops.map t.root = (ds.map t.root).eraseDups
  roots_nodup : (loops.map t.root).Nodup
  mentioned : ∀ l ∈ loops, ∃ d ∈ ds, l = t.loopOf d
  narrow : ∀ d ∈ ds, ∃ l ∈ loops, t.derives l (t.loopOf d) = true

theorem loopsOver_of_addLoops {ds loops : List DimId}
    (h : (addLoops t i [] ds).result = .ok loops) : LoopsOver t ds loops where
  roots := map_root_addLoops h rfl
  roots_nodup := nodup_addLoops h .nil
  mentioned := fun _ hl => (mem_addLoops h hl).resolve_left List.not_mem_nil
  narrow := (derives_addLoops h).1

namespace LoopsOver

variable {ds loops : List DimId}

theorem derives (h : LoopsOver t ds loops) {l d : DimId} (hl : l ∈ loops) (hd : d ∈ ds)
    (hroot : t.root d = t.root l) : t.derives l (t.loopOf d) = true := by
  obtain ⟨k, hk, hderives⟩ := h.narrow d hd
  have hkl : t.root k = t.root l := by
    rw [DimTable.root_eq_of_derives hderives, t.root_loopOf, hroot]
  rwa [← List.inj_on_of_nodup_map h.roots_nodup hk hl hkl]

/-- Dimensions with loops that stand for all of them are comparable where they share a root. -/
theorem not_conflicting (h : LoopsOver t ds loops) : ¬ Conflicting t ds := by
  rintro ⟨a, ha, b, hb, hroot, hab, hba⟩
  rw [t.root_loopOf, t.root_loopOf] at hroot
  obtain ⟨l, hl, hla⟩ := h.narrow a ha
  have hlb : t.derives l (t.loopOf b) = true := by
    refine h.derives hl hb ?_
    rw [DimTable.root_eq_of_derives hla, t.root_loopOf, hroot]
  rcases DimTable.derives_total hla hlb with h | h
  · rw [hab] at h
    cases h
  · rw [hba] at h
    cases h

theorem mem_iff (h : LoopsOver t ds loops) {l : DimId} : l ∈ loops ↔ IsNarrowest t ds l := by
  constructor
  · intro hl
    exact ⟨h.mentioned l hl, fun d hd hroot => h.derives hl hd hroot⟩
  · rintro ⟨⟨d, hd, rfl⟩, hnarrows⟩
    obtain ⟨l, hl, hderives⟩ := h.narrow d hd
    obtain ⟨c, hc, rfl⟩ := h.mentioned l hl
    -- Both loops are there for a mention, so each narrows the other.
    have hroot : t.root c = t.root (t.loopOf d) := by
      rw [← DimTable.root_eq_of_derives hderives, t.root_loopOf]
    rwa [DimTable.derives_antisymm (hnarrows c hc hroot) hderives]

end LoopsOver

/-! ## The shape of an equation -/

/-- Loops and conditions are those that the mentioned dimensions call for. -/
structure Narrowed (t : DimTable) (ds : List DimId) (s : Signature) : Prop where
  /-- One loop for each root, those of time first, and otherwise in the order of first mention. -/
  roots : s.loops.map t.root =
    (ds.map t.root).eraseDups.filter t.isTimeLike ++
      (ds.map t.root).eraseDups.filter fun r => !t.isTimeLike r
  loops_nodup : s.loops.Nodup
  loops : ∀ l, l ∈ s.loops ↔ IsNarrowest t ds l
  conditions : ∀ c, c ∈ s.conditions ↔ ∃ d ∈ ds, t.derives d c = true ∧
    t.derives c (t.loopOf d) = true ∧ (t.get c).isConditional = true
  ascending : s.conditions.Pairwise (· < ·)

theorem map_root_timeFirst (t : DimTable) (loops : List DimId) :
    (timeFirst t loops).map t.root =
      (loops.map t.root).filter t.isTimeLike ++
        (loops.map t.root).filter fun r => !t.isTimeLike r := by
  simp [timeFirst, List.filter_map, Function.comp_def]

theorem ascending_conditionsMet (t : DimTable) (ds : List DimId) :
    (conditionsMet t ds).Pairwise (· < ·) := by
  refine SortedSet.pairwise_ofList (fun {a b c : DimId} hab hbc => Nat.lt_trans hab hbc)
    (fun {a b : DimId} hnot hne => ?_) _
  refine Nat.lt_of_le_of_ne (Nat.le_of_not_lt hnot) fun heq => hne ?_
  cases a
  cases b
  exact congrArg DimId.mk heq.symm

theorem LoopsOver.narrowed {ds loops : List DimId} (h : LoopsOver t ds loops) :
    Narrowed t ds ⟨timeFirst t loops, conditionsMet t ds⟩ where
  roots := by rw [map_root_timeFirst, h.roots]
  loops_nodup := (timeFirst_perm t loops).nodup_iff.mpr (h.roots_nodup.of_map _)
  loops := fun l => (timeFirst_perm t loops).mem_iff.trans h.mem_iff
  conditions := fun c => by simp only [mem_conditionsMet, DimTable.mem_conditionsOf_iff]
  ascending := ascending_conditionsMet t ds

/-- The same dimensions, mentioned in another order, have the same loops and conditions. -/
theorem Narrowed.unordered {ds ds' : List DimId} {s s' : Signature} (h : Narrowed t ds s)
    (h' : Narrowed t ds' s') (hsame : ∀ d, d ∈ ds ↔ d ∈ ds') :
    s.loops.Perm s'.loops ∧ s.conditions = s'.conditions := by
  have hnodup : ∀ {cs : List DimId}, cs.Pairwise (· < ·) → cs.Nodup := fun hp =>
    hp.imp fun {a b} (hlt : a.index < b.index) =>
      fun heq : a = b => Nat.lt_irrefl a.index (by rwa [← heq] at hlt)
  constructor
  · refine (List.perm_ext_iff_of_nodup h.loops_nodup h'.loops_nodup).mpr fun l => ?_
    rw [h.loops, h'.loops]
    constructor
    · rintro ⟨⟨d, hd, hl⟩, hnarrows⟩
      exact ⟨⟨d, (hsame d).mp hd, hl⟩, fun c hc => hnarrows c ((hsame c).mpr hc)⟩
    · rintro ⟨⟨d, hd, hl⟩, hnarrows⟩
      exact ⟨⟨d, (hsame d).mpr hd, hl⟩, fun c hc => hnarrows c ((hsame c).mp hc)⟩
  · refine List.Perm.eq_of_pairwise (fun a b _ _ hab hba => absurd hab (Nat.lt_asymm hba))
      h.ascending h'.ascending ?_
    refine (List.perm_ext_iff_of_nodup (hnodup h.ascending) (hnodup h'.ascending)).mpr fun c => ?_
    rw [h.conditions, h'.conditions]
    exact exists_congr fun d => and_congr_left fun _ => hsame d

theorem Conflicting.congr {ds ds' : List DimId} (hsame : ∀ d, d ∈ ds ↔ d ∈ ds') :
    Conflicting t ds ↔ Conflicting t ds' := by
  unfold Conflicting
  simp only [hsame]

/-- What becomes of an equation with the restriction `r`. -/
structure Narrows (t : DimTable) (i : Nat) (r : Equation) (result : Except AnalysisError Lowered) :
    Prop where
  refused : (∃ root first second, result = .error (.conflictingSubdomains i root first second)) ↔
    Conflicting t r.dims
  /-- Nothing else is refused, and what is reported is the first mention that has no loop in common
  with one before it. -/
  reason : ∀ err, result = .error err → ∃ before b after, r.dims = before ++ b :: after ∧
    ¬ Conflicting t before ∧ ∃ a ∈ before, Apart t (t.loopOf a) (t.loopOf b) ∧
      err = .conflictingSubdomains i (t.name (t.root b)) (t.name (t.loopOf a))
        (t.name (t.loopOf b))
  narrowed : ∀ e, result = .ok e → e.index = i ∧ e.equation = r ∧ Narrowed t r.dims e.signature
  unordered : ∀ j eq r' e', Equation.restrict t eq = .ok r' → (∀ d, d ∈ r.dims ↔ d ∈ r'.dims) →
    (ofEquation t j eq).result = .ok e' →
      ∃ e, result = .ok e ∧ e.loops.Perm e'.loops ∧ e.conditions = e'.conditions

section Restricted

variable {eq r : Equation}

theorem result_ofEquation (hr : eq.restrict t = .ok r) :
    (ofEquation t i eq).result = (addLoops t i [] r.dims).result.map fun loops =>
      ⟨i, r, ⟨timeFirst t loops, conditionsMet t r.dims⟩⟩ := by
  rw [ofEquation, Logged.result_bind, Logged.result_ofExcept, hr]
  show (_ >>= _ : Logged AnalysisError Lowered).result = _
  rw [Logged.result_bind]
  cases (addLoops t i [] r.dims).result <;> rfl

theorem narrowed_of_ofEquation (hr : eq.restrict t = .ok r) {e : Lowered}
    (h : (ofEquation t i eq).result = .ok e) :
    ¬ Conflicting t r.dims ∧ e.index = i ∧ e.equation = r ∧ Narrowed t r.dims e.signature := by
  rw [result_ofEquation hr] at h
  obtain ⟨loops, hloops, rfl⟩ := map_eq_ok.mp h
  have hover := loopsOver_of_addLoops hloops
  exact ⟨hover.not_conflicting, rfl, rfl, hover.narrowed⟩

theorem reason_of_ofEquation_eq_error (hr : eq.restrict t = .ok r) {err : AnalysisError}
    (h : (ofEquation t i eq).result = .error err) :
    ∃ before b after, r.dims = before ++ b :: after ∧ ¬ Conflicting t before ∧
      ∃ a ∈ before, Apart t (t.loopOf a) (t.loopOf b) ∧
        err = .conflictingSubdomains i (t.name (t.root b)) (t.name (t.loopOf a))
          (t.name (t.loopOf b)) := by
  rw [result_ofEquation hr] at h
  obtain ⟨before, b, after, mid, hdims, hmid, h⟩ :=
    exists_of_addLoops_eq_error (map_eq_error.mp h)
  have hover := loopsOver_of_addLoops hmid
  obtain ⟨l, hl, hapart, herr⟩ := addLoop_eq_error h
  obtain ⟨a, ha, rfl⟩ := hover.mentioned l hl
  exact ⟨before, b, after, hdims, hover.not_conflicting, a, ha, hapart, herr⟩

end Restricted

/-- An equation has the narrowest loop of each root it mentions, unless it mentions two ranges of
one root that have no loop in common, or its subdomain is not as it must be. -/
theorem ofEquation_narrows (t : DimTable) (i : Nat) (eq : Equation) :
    match eq.restrict t with
    | .error fault => (ofEquation t i eq).result = .error (.model fault)
    | .ok r => Narrows t i r (ofEquation t i eq).result := by
  cases hr : eq.restrict t with
  | error fault =>
      show (ofEquation t i eq).result = .error (.model fault)
      rw [ofEquation, Logged.result_bind, Logged.result_ofExcept, hr]
      rfl
  | ok r =>
      have conflicting_of_error : ∀ err, (ofEquation t i eq).result = .error err →
          Conflicting t r.dims := by
        intro err h
        obtain ⟨before, b, after, hdims, -, a, ha, hapart, -⟩ := reason_of_ofEquation_eq_error hr h
        exact ⟨a, by simp [hdims, ha], b, by simp [hdims], hapart⟩
      refine ⟨⟨?_, fun hconflict => ?_⟩, fun err => reason_of_ofEquation_eq_error hr,
        fun e h => (narrowed_of_ofEquation hr h).2, fun j eq' r' e' hr' hsame h' => ?_⟩
      · rintro ⟨root, first, second, h⟩
        exact conflicting_of_error _ h
      · cases h : (ofEquation t i eq).result with
        | error err =>
            obtain ⟨_, _, _, -, -, _, -, -, rfl⟩ := reason_of_ofEquation_eq_error hr h
            exact ⟨_, _, _, rfl⟩
        | ok e => exact absurd hconflict (narrowed_of_ofEquation hr h).1
      · obtain ⟨hfree', -, -, hnarrowed'⟩ := narrowed_of_ofEquation hr' h'
        cases h : (ofEquation t i eq).result with
        | error err =>
            exact absurd ((Conflicting.congr hsame).mp (conflicting_of_error err h)) hfree'
        | ok e =>
            obtain ⟨-, -, -, hnarrowed⟩ := narrowed_of_ofEquation hr h
            exact ⟨e, rfl, hnarrowed.unordered hnarrowed' hsame⟩

end Lowered

end LoopNest
