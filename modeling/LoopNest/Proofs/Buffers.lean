import LoopNest.Proofs.Failure
/-!
# Circular buffers

A buffer of `m` slots keeps the level `z` of its tensor in the slot `z % m`, for as long as no other
level is written there.  The analysis asks of a buffer to have more slots than any two of the
displacements through it are apart, over all equations (`Lowered.checkBuffers_eq_ok`).  Then of two
levels that share a slot one is a whole turn ahead of what is read, and is not written until the
read is past: `KeepsLevels`.
-/

namespace LoopNest

/-! ## Slots -/

/-- A tensor is written at displacements `ws` and read at displacements `ks` through a buffer of `m`
slots, and a read finds the level that it asks for, if that was written. -/
structure KeepsLevels (m : Nat) (ws ks : List Int) : Prop where
  /-- What a slot holds is never ahead of what is read. -/
  never_newer : ∀ w ∈ ws, ∀ k ∈ ks, ∀ s q : Int, s ≤ q →
    (s + w) % m = (q + k) % m → s + w ≤ q + k
  /-- Between the write of a level and its read no other level is written to the slot. -/
  undisturbed : ∀ w ∈ ws, ∀ w' ∈ ws, ∀ k ∈ ks, ∀ s s' q : Int, s' ≤ q → s' + w' = q + k →
    s' ≤ s → s ≤ q → (s + w) % m = (q + k) % m → s + w = q + k

/-- Of two levels that share a slot, the one that is less than a turn ahead is not ahead. -/
theorem le_of_emod_eq {m : Nat} {a b : Int} (h : a % m = b % m) (hlt : a - b < m) : a ≤ b := by
  by_contra hgt
  have hdvd : (m : Int) ∣ a - b :=
    Int.dvd_of_emod_eq_zero (Int.emod_eq_emod_iff_emod_sub_eq_zero.mp h)
  have := Int.le_of_dvd (by omega) hdvd
  omega

theorem keepsLevels_of_span {m : Nat} {ws ks : List Int}
    (h : ∀ x ∈ ws ++ ks, ∀ y ∈ ws ++ ks, y - x < m) : KeepsLevels m ws ks where
  never_newer w hw k hk s q hsq hslot := by
    have := h k (List.mem_append_right _ hk) w (List.mem_append_left _ hw)
    exact le_of_emod_eq hslot (by omega)
  undisturbed w hw w' hw' k hk s s' q _ hlevel hs hsq hslot := by
    have hnew := h k (List.mem_append_right _ hk) w (List.mem_append_left _ hw)
    have hold := h w (List.mem_append_left _ hw) w' (List.mem_append_left _ hw')
    exact Int.le_antisymm (le_of_emod_eq hslot (by omega)) (le_of_emod_eq hslot.symm (by omega))

/-- The slots of buffers are counted in 32 bits. -/
def DimTable.SmallBuffers (t : DimTable) : Prop :=
  ∀ e ∈ t.entries, ∀ m ∈ e.modulo?, m < 4294967296

instance (t : DimTable) : Decidable t.SmallBuffers :=
  inferInstanceAs (Decidable (∀ e ∈ t.entries, ∀ m ∈ e.modulo?, m < 4294967296))

theorem DimTable.SmallBuffers.lt {t : DimTable} (h : t.SmallBuffers) {d : DimId} {m : Nat}
    (hm : (t.get d).modulo? = some m) : m < 4294967296 := by
  unfold DimTable.get Dimension.lookup at hm
  cases he : t.entries[d.index]? with
  | none =>
      rw [he] at hm
      cases hm
  | some e =>
      rw [he] at hm
      exact h e (List.mem_of_getElem? he) m hm

/-! ## Displacements through a buffer -/

/-- The constants by which an access is displaced through a dimension. -/
def Access.shiftsThrough (d : DimId) (a : Access) : List Int :=
  a.indices.filterMap fun i => if i.dim = d then i.fixed? else none

theorem Access.mem_shiftsThrough {a : Access} {d : DimId} {k : Int} :
    k ∈ a.shiftsThrough d ↔ .fixed d k ∈ a.indices := by
  rw [shiftsThrough, List.mem_filterMap]
  constructor
  · rintro ⟨i, hi, hk⟩
    split at hk
    · rename_i hd
      cases i with
      | fixed e l =>
          cases hk
          cases hd
          exact hi
      | symbolic _ _ => cases hk
    · cases hk
  · intro h
    exact ⟨_, h, if_pos rfl⟩

namespace Lowered

/-- The constants by which a tensor is written through a dimension. -/
def writtenShifts (es : List Lowered) (tensor : String) (d : DimId) : List Int :=
  ((es.map write).filter fun a => a.tensor == tensor).flatMap (Access.shiftsThrough d)

/-- The constants by which a tensor is read through a dimension. -/
def readShifts (t : DimTable) (es : List Lowered) (tensor : String) (d : DimId) : List Int :=
  (es.flatMap fun e => e.readsOf t tensor).flatMap (Access.shiftsThrough d)

/-- The constants by which a tensor is written or read through a dimension. -/
def accessedShifts (t : DimTable) (es : List Lowered) (tensor : String) (d : DimId) : List Int :=
  writtenShifts es tensor d ++ readShifts t es tensor d

variable {t : DimTable} {es : List Lowered} {tensor : String} {d : DimId}

theorem mem_accessedShifts {k : Int} :
    k ∈ accessedShifts t es tensor d ↔
      ∃ e ∈ es, ∃ a ∈ e.accesses t, a.tensor = tensor ∧ .fixed d k ∈ a.indices := by
  simp only [accessedShifts, writtenShifts, readShifts, List.mem_append, List.mem_flatMap,
    List.mem_filter, List.mem_map, beq_iff_eq, Access.mem_shiftsThrough, mem_readsOf]
  constructor
  · rintro (⟨_, ⟨⟨e, he, rfl⟩, ht⟩, hk⟩ | ⟨a, ⟨e, he, ha, ht⟩, hk⟩)
    · exact ⟨e, he, e.write, write_mem_accesses t e, ht, hk⟩
    · exact ⟨e, he, a, mem_accesses_of_mem_reads ha, ht, hk⟩
  · rintro ⟨e, he, a, ha, ht, hk⟩
    rcases List.mem_cons.mp ha with rfl | ha
    · exact Or.inl ⟨_, ⟨⟨e, he, rfl⟩, ht⟩, hk⟩
    · exact Or.inr ⟨a, ⟨e, he, ha, ht⟩, hk⟩

theorem mem_bufferUses {u : BufferUse} :
    u ∈ bufferUses t es ↔
      (t.get u.dim).isStepping = true ∧ u.shift ∈ accessedShifts t es u.tensor u.dim := by
  rw [mem_accessedShifts]
  simp only [bufferUses, List.mem_flatMap, List.mem_filterMap]
  constructor
  · rintro ⟨e, he, a, ha, i, hi, hu⟩
    cases i with
    | fixed d k =>
        simp only [bufferUse?] at hu
        split at hu
        · rename_i hd
          cases hu
          exact ⟨hd, e, he, a, ha, rfl, hi⟩
        · cases hu
    | symbolic _ _ => cases hu
  · rintro ⟨hd, e, he, a, ha, ht, hi⟩
    refine ⟨e, he, a, ha, _, hi, ?_⟩
    rw [bufferUse?, if_pos hd, ht]

/-- The displacements that the check of one buffer looks at. -/
def ownShifts (t : DimTable) (es : List Lowered) (tensor : String) (d : DimId) : List Int :=
  ((bufferUses t es).filter fun u => u.tensor == tensor && u.dim == d).map BufferUse.shift

theorem mem_ownShifts {k : Int} :
    k ∈ ownShifts t es tensor d ↔
      (t.get d).isStepping = true ∧ k ∈ accessedShifts t es tensor d := by
  simp only [ownShifts, List.mem_map, List.mem_filter, mem_bufferUses, Bool.and_eq_true, beq_iff_eq]
  constructor
  · rintro ⟨u, ⟨hu, rfl, rfl⟩, rfl⟩
    exact hu
  · intro hk
    exact ⟨⟨tensor, d, k⟩, ⟨hk, rfl, rfl⟩, rfl⟩

/-! ## The check -/

/-- The least and the greatest of some displacements. -/
structure Spans (xs : List Int) (lo hi : Int) : Prop where
  lo_mem : lo ∈ xs
  hi_mem : hi ∈ xs
  bounds : ∀ k ∈ xs, lo ≤ k ∧ k ≤ hi

theorem exists_spans {xs : List Int} {x : Int} (h : x ∈ xs) :
    ∃ lo hi, Spans xs lo hi ∧ levels xs = Word.clamp (hi - lo + 1) := by
  cases hlo : xs.min? with
  | none => exact absurd h (List.min?_eq_none_iff.mp hlo ▸ List.not_mem_nil)
  | some lo =>
      cases hhi : xs.max? with
      | none => exact absurd h (List.max?_eq_none_iff.mp hhi ▸ List.not_mem_nil)
      | some hi =>
          obtain ⟨hlm, hle⟩ := List.min?_eq_some_iff.mp hlo
          obtain ⟨hhm, hge⟩ := List.max?_eq_some_iff.mp hhi
          have := hle hi hhm
          refine ⟨lo, hi, ⟨hlm, hhm, fun k hk => ⟨hle k hk, hge k hk⟩⟩, ?_⟩
          rw [levels, hlo, hhi, Option.getD_some, Option.getD_some]
          unfold Word.clamp Word.least Word.greatest
          omega

/-- Buffers have fewer slots than words count, so saturation hides no level. -/
theorem levels_le_iff (xs : List Int) {m : Nat} (hpos : 0 < m) (hm : m < 4294967296) :
    levels xs ≤ m ↔ ∀ x ∈ xs, ∀ y ∈ xs, y - x < m := by
  cases xs with
  | nil =>
      have hone : levels [] = 1 := by decide
      rw [hone]
      exact iff_of_true (by omega) fun _ hx => absurd hx List.not_mem_nil
  | cons x xs =>
      have hx : x ∈ x :: xs := List.mem_cons_self
      obtain ⟨lo, hi, ⟨hlo, hhi, hall⟩, hlevels⟩ := exists_spans hx
      rw [hlevels]
      unfold Word.clamp Word.least Word.greatest
      constructor
      · intro h x hx y hy
        have := hall x hx
        have := hall y hy
        omega
      · intro h
        have := h lo hlo hi hhi
        omega

/-- A buffer passes if any two displacements through it are fewer levels apart than it has
slots. -/
theorem checkBuffer_eq_ok (hsmall : t.SmallBuffers) {m : Nat} (hm : (t.get d).modulo? = some m) :
    checkBuffer t (bufferUses t es) tensor d = .ok () ↔
      ∀ x ∈ accessedShifts t es tensor d, ∀ y ∈ accessedShifts t es tensor d, y - x < m := by
  have hstep : (t.get d).isStepping = true := by rw [Dimension.isStepping, hm]; rfl
  have hown : ∀ k, k ∈ ownShifts t es tensor d ↔ k ∈ accessedShifts t es tensor d := by
    intro k
    rw [mem_ownShifts, and_iff_right hstep]
  have hiff := levels_le_iff (ownShifts t es tensor d) (DimTable.modulo_pos hm)
    (hsmall.lt hm)
  simp only [hown] at hiff
  rw [← hiff, checkBuffer]
  simp only [hm, Option.getD_some]
  show (if levels (ownShifts t es tensor d) > m then _ else _) = _ ↔ _
  split
  · rename_i hgt
    constructor
    · intro h
      cases h
    · intro h
      omega
  · rename_i hle
    exact iff_of_true rfl (by omega)

theorem checkBuffers_eq_ok (hsmall : t.SmallBuffers) :
    checkBuffers t es = .ok () ↔
      ∀ tensor d m, (t.get d).modulo? = some m →
        ∀ x ∈ accessedShifts t es tensor d, ∀ y ∈ accessedShifts t es tensor d, y - x < m := by
  rw [checkBuffers]
  simp only [forM_eq_ok, SortedSet.mem_ofList, List.mem_map, List.mem_filter, beq_iff_eq]
  constructor
  · intro h tensor d m hm x hx
    have hstep : (t.get d).isStepping = true := by rw [Dimension.isStepping, hm]; rfl
    have hu : (⟨tensor, d, x⟩ : BufferUse) ∈ bufferUses t es := mem_bufferUses.mpr ⟨hstep, hx⟩
    exact (checkBuffer_eq_ok hsmall hm).mp (h tensor ⟨_, hu, rfl⟩ d ⟨_, ⟨hu, rfl⟩, rfl⟩) x hx
  · rintro h tensor - d ⟨u, ⟨hu, rfl⟩, rfl⟩
    obtain ⟨m, hm⟩ := Option.isSome_iff_exists.mp (mem_bufferUses.mp hu).1
    exact (checkBuffer_eq_ok hsmall hm).mpr (h u.tensor u.dim m hm)

/-- A refused buffer is named with its tensor, its slots, and the levels that it would have to
keep. -/
theorem exists_spans_of_checkBuffers {e : AnalysisError} (hsmall : t.SmallBuffers)
    (h : checkBuffers t es = .error e) :
    ∃ tensor d m lo hi, (t.get d).modulo? = some m ∧ Spans (accessedShifts t es tensor d) lo hi ∧
      m ≤ hi - lo ∧ e = .bufferTooSmall tensor (t.name d) (Word.clamp (hi - lo + 1)) m := by
  obtain ⟨tensor, _, h⟩ := exists_of_forM_eq_error h
  obtain ⟨d, hd, h⟩ := exists_of_forM_eq_error h
  obtain ⟨u, hu, rfl⟩ := List.mem_map.mp (SortedSet.mem_ofList.mp hd)
  obtain ⟨hstep, hshift⟩ := mem_bufferUses.mp (List.mem_filter.mp hu).1
  obtain rfl := beq_iff_eq.mp (List.mem_filter.mp hu).2
  obtain ⟨m, hm⟩ := Option.isSome_iff_exists.mp hstep
  obtain ⟨lo, hi, ⟨hlo, hhi, hall⟩, hlevels⟩ :=
    exists_spans (mem_ownShifts.mpr ⟨hstep, hshift⟩)
  refine ⟨u.tensor, u.dim, m, lo, hi, hm, ⟨(mem_ownShifts.mp hlo).2, (mem_ownShifts.mp hhi).2,
    fun k hk => hall k (mem_ownShifts.mpr ⟨hstep, hk⟩)⟩, ?_⟩
  rw [checkBuffer, ← ownShifts] at h
  simp only [hm, Option.getD_some, hlevels] at h
  split at h
  · rename_i hgt
    cases h
    refine ⟨?_, rfl⟩
    have := hsmall.lt hm
    have := hall lo hlo
    unfold Word.clamp Word.least Word.greatest at hgt
    omega
  · cases h

end Lowered

open Lowered

/-- A program that passes the analysis never reads a level other than the one asked for through a
buffer.  The analysis refuses a buffer exactly if two displacements through it, of writes or reads
of one tensor, are as many levels apart as it has slots. -/
theorem keepsLevels_of_analyze {program : Program} {es : List Lowered}
    (hlower : program.lower.result = .ok es) (hsmall : program.dims.SmallBuffers) :
    (∀ g, (analyze program.dims es).result = .ok g →
      ∀ tensor d m, (program.dims.get d).modulo? = some m →
        KeepsLevels m (writtenShifts es tensor d) (readShifts program.dims es tensor d)) ∧
    ((∃ tensor dim needed m,
        (analyze program.dims es).result = .error (.bufferTooSmall tensor dim needed m)) ↔
      ∃ tensor d m lo hi, (program.dims.get d).modulo? = some m ∧
        Spans (writtenShifts es tensor d ++ readShifts program.dims es tensor d) lo hi ∧
        m ≤ hi - lo) := by
  have hn := (Program.lower_shaped hlower).1
  constructor
  · intro g hg tensor d m hm
    obtain ⟨_, hok, _⟩ := bind_eq_ok.mp (Program.analyze_eq_ok.mp hg)
    exact keepsLevels_of_span ((checkBuffers_eq_ok hsmall).mp hok tensor d m hm)
  · constructor
    · rintro ⟨tensor, dim, needed, m, h⟩
      -- No other stage fails for the size of a buffer.
      rcases graph_eq_error hn (Program.analyze_eq_error.mp h) with
        h | ⟨_, _, _, _, h⟩ | ⟨_, _, _, _, p, _, h⟩
      · obtain ⟨tensor, d, m, lo, hi, hm, hspans, hle, _⟩ := exists_spans_of_checkBuffers hsmall h
        exact ⟨tensor, d, m, lo, hi, hm, hspans, hle⟩
      · cases h
      · obtain ⟨_, _, _, _, _, h⟩ := AccessPair.carrier_eq_error h
        cases (AccessPair.carrierAt_eq_error h).2.2
    · rintro ⟨tensor, d, m, lo, hi, hm, hspans, hle⟩
      cases h : checkBuffers program.dims es with
      | ok _ =>
          have := (checkBuffers_eq_ok hsmall).mp h tensor d m hm lo hspans.lo_mem hi hspans.hi_mem
          omega
      | error e =>
          obtain ⟨tensor, d, m, lo, hi, _, _, _, rfl⟩ := exists_spans_of_checkBuffers hsmall h
          exact ⟨_, _, _, _, Program.analyze_eq_error.mpr (bind_eq_error.mpr (Or.inl h))⟩

/-- A tensor of which each step of time writes two levels and reads two, through a buffer of some
slots. -/
def buffered (slots : Nat) : Program where
  dims := (do
    let (t, time) ← DimTable.empty.time "time" (some 8)
    let (t, _) ← t.stepping "t" time slots
    return t : Except ModelError DimTable).toOption.getD .empty
  scalars := []
  equations :=
    [⟨⟨"u", [.fixed ⟨1⟩ 1]⟩,
        .binary .add (.access "u" [.fixed ⟨1⟩ 0]) (.access "u" [.fixed ⟨1⟩ (-1)]), [], []⟩,
      ⟨⟨"u", [.fixed ⟨1⟩ 0]⟩, .int 1, [], []⟩]

theorem keepsLevels_of_analyze_buffered :
    (∃ es g, (buffered 3).lower.result = .ok es ∧
      (analyze (buffered 3).dims es).result = .ok g ∧
      writtenShifts es "u" ⟨1⟩ = [1, 0] ∧ readShifts (buffered 3).dims es "u" ⟨1⟩ = [0, -1] ∧
      KeepsLevels 3 [1, 0] [0, -1]) ∧
    ∃ es, (buffered 2).lower.result = .ok es ∧ ∃ tensor dim needed m,
      (analyze (buffered 2).dims es).result = .error (.bufferTooSmall tensor dim needed m) := by
  have accepted : ∃ es g, (buffered 3).lower.result = .ok es ∧
      (analyze (buffered 3).dims es).result = .ok g ∧
      writtenShifts es "u" ⟨1⟩ = [1, 0] ∧ readShifts (buffered 3).dims es "u" ⟨1⟩ = [0, -1] :=
    ⟨_, _, rfl, rfl, by decide +kernel⟩
  have refused : ∃ es, (buffered 2).lower.result = .ok es ∧
      writtenShifts es "u" ⟨1⟩ = [1, 0] ∧ readShifts (buffered 2).dims es "u" ⟨1⟩ = [0, -1] :=
    ⟨_, rfl, by decide +kernel⟩
  have hthree : (buffered 3).dims.SmallBuffers := by decide +kernel
  have htwo : (buffered 2).dims.SmallBuffers := by decide +kernel
  obtain ⟨es, g, hl, hg, hw, hr⟩ := accepted
  obtain ⟨fs, hfl, hfw, hfr⟩ := refused
  refine ⟨⟨es, g, hl, hg, hw, hr, ?_⟩, fs, hfl, ?_⟩
  · have := (keepsLevels_of_analyze hl hthree).1 g hg "u" ⟨1⟩ 3 (by decide +kernel)
    rwa [hw, hr] at this
  · refine (keepsLevels_of_analyze hfl htwo).2.mpr
      ⟨"u", ⟨1⟩, 2, -1, 1, by decide +kernel, ?_, by decide⟩
    rw [hfw, hfr]
    exact ⟨by decide, by decide, by decide⟩

end LoopNest
