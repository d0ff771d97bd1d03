import LoopNest.Proofs.Failure
/-!
# Reads of the future

A write and a read of one tensor are compared from whichever equation is declared first: as a flow
from the write, or as an anti dependence from the read, where the distance has the other sign
(`AccessPair.OfRead`).  Either way the comparison is refused if the read is ahead of the write along
a root of time (`OfRead.readsFuture_eq`).

Accesses that are apart along an outer loop are not looked at along the loops inside.  So a read of
the future is sure to be refused along the outermost loop only; but what is refused always reads the
future, whichever loop it is (`rejects_future_reads`).
-/

namespace LoopNest

open Lowered

variable {t : DimTable} {root : DimId}

/-! ## Constant displacements along a root -/

/-- The first indices of two accesses along a root are displaced by constants, through one stride or
none. -/
def Access.FixedAlong (t : DimTable) (root : DimId) (a b : Access) (k l : Int) : Prop :=
  ∃ d e, a.along? t root = some (.fixed d k) ∧ b.along? t root = some (.fixed e l) ∧
    t.stride? d = t.stride? e

namespace Access

variable {a b : Access} {k l d : Int} {unindexed : Option Int}

theorem FixedAlong.symm (h : a.FixedAlong t root b k l) : b.FixedAlong t root a l k := by
  obtain ⟨d, e, ha, hb, hstride⟩ := h
  exact ⟨e, d, hb, ha, hstride.symm⟩

theorem FixedAlong.distance?_eq (h : a.FixedAlong t root b k l) :
    a.distance? t unindexed root b = Word.sub? k l := by
  obtain ⟨d, e, ha, hb, hstride⟩ := h
  rw [distance?, ha, hb]
  simp only [Index.difference?, Index.dim, Index.shiftDifference?]
  exact if_pos hstride

theorem exists_fixedAlong (hun : unindexed = none ∨ unindexed = some 0) (hd : d ≠ 0)
    (h : a.distance? t unindexed root b = some d) :
    ∃ k l, a.FixedAlong t root b k l ∧ d = k - l := by
  rw [distance?] at h
  split at h
  · rename_i i j hi hj
    rw [Index.difference?] at h
    split at h
    · rename_i hstride
      cases i with
      | fixed i k =>
          cases j with
          | fixed j l =>
              exact ⟨k, l, ⟨i, j, hi, hj, hstride⟩, (Word.checked_eq_some_iff.mp h).2.symm⟩
          | symbolic _ _ => cases h
      | symbolic _ _ =>
          cases j with
          | fixed _ _ => cases h
          | symbolic _ _ =>
              simp only [Index.shiftDifference?] at h
              split at h
              · cases h
                exact absurd rfl hd
              · cases h
    · cases h
  · rcases hun with rfl | rfl
    · cases h
    · cases h
      exact absurd rfl hd
  · cases h

end Access

/-! ## A write and a read -/

/-- The pair compares the write of `a` with a read of `b`, from the equation declared first. -/
inductive AccessPair.OfRead (a b : Lowered) (read : Access) : AccessPair → Prop
  | flow : OfRead a b read ⟨a.index, b.index, .flow, a.write, read⟩
  | anti : OfRead a b read ⟨b.index, a.index, .anti, read, a.write⟩

namespace AccessPair.OfRead

variable {a b : Lowered} {read : Access} {p : AccessPair} {unindexed : Option Int} {k l d : Int}

theorem writerAndReader_eq (h : OfRead a b read p) : p.writerAndReader = (a.index, b.index) := by
  cases h <;> rfl

theorem tensor_eq (h : OfRead a b read p) (hr : read ∈ b.readsOf t a.write.tensor) :
    p.first.tensor = a.write.tensor := by
  cases h with
  | flow => rfl
  | anti => exact (mem_readsOf.mp hr).2

theorem exists_distance (h : OfRead a b read p) (unindexed : Option Int)
    (hfixed : a.write.FixedAlong t root read k l) (hnear : (k - l).natAbs ≤ Word.greatest) :
    ∃ d, p.first.distance? t unindexed root p.second = some d ∧ (d = 0 ↔ k = l) := by
  cases h with
  | flow =>
      refine ⟨k - l, ?_, by omega⟩
      rw [hfixed.distance?_eq]
      refine Word.checked_of_fits ?_
      unfold Word.greatest at hnear
      unfold Word.Fits Word.least Word.greatest
      omega
  | anti =>
      refine ⟨l - k, ?_, by omega⟩
      rw [hfixed.symm.distance?_eq]
      refine Word.checked_of_fits ?_
      unfold Word.greatest at hnear
      unfold Word.Fits Word.least Word.greatest
      omega

/-- The distance is refused along time if the read is ahead of the write. -/
theorem readsFuture_eq (h : OfRead a b read p) (hfixed : a.write.FixedAlong t root read k l)
    (hd : p.first.distance? t unindexed root p.second = some d) :
    readsFuture p.kind d = true ↔ k < l := by
  cases h with
  | flow =>
      rw [hfixed.distance?_eq] at hd
      obtain ⟨_, rfl⟩ := Word.checked_eq_some_iff.mp hd
      simp only [readsFuture, decide_eq_true_eq]
      omega
  | anti =>
      rw [hfixed.symm.distance?_eq] at hd
      obtain ⟨_, rfl⟩ := Word.checked_eq_some_iff.mp hd
      simp only [readsFuture, decide_eq_true_eq]
      omega

theorem exists_fixedAlong (h : OfRead a b read p) (hd : d ≠ 0)
    (hdist : p.first.distance? t p.unindexed root p.second = some d)
    (hfuture : readsFuture p.kind d = true) :
    ∃ k l, a.write.FixedAlong t root read k l ∧ k < l := by
  have hun : p.unindexed = none ∨ p.unindexed = some 0 := by
    rw [AccessPair.unindexed]
    split
    · exact Or.inl rfl
    · exact Or.inr rfl
  obtain ⟨k, l, hfixed, _⟩ := Access.exists_fixedAlong hun hd hdist
  cases h with
  | flow => exact ⟨k, l, hfixed, (OfRead.flow.readsFuture_eq hfixed hdist).mp hfuture⟩
  | anti => exact ⟨l, k, hfixed.symm, (OfRead.anti.readsFuture_eq hfixed.symm hdist).mp hfuture⟩

end AccessPair.OfRead

namespace Lowered

variable {es : List Lowered} {a b x y : Lowered} {read : Access} {p : AccessPair}

theorem exists_compares_ofRead (hn : Numbered es) (ha : a ∈ es) (hb : b ∈ es)
    (hr : read ∈ b.readsOf t a.write.tensor) :
    ∃ x y p, (x = a ∧ y = b ∨ x = b ∧ y = a) ∧ Compares t x y p ∧ AccessPair.OfRead a b read p := by
  rcases Nat.lt_trichotomy a.index b.index with hab | hab | hab
  · refine ⟨a, b, _, Or.inl ⟨rfl, rfl⟩, Or.inl ⟨hab, ?_⟩, .flow⟩
    exact List.mem_append_left _ (List.mem_append_left _ (List.mem_map.mpr ⟨read, hr, rfl⟩))
  · obtain rfl := hn.eq_of_index_eq ha hb hab
    exact ⟨a, a, _, Or.inl ⟨rfl, rfl⟩, Or.inr ⟨rfl, read, hr, rfl⟩, .flow⟩
  · refine ⟨b, a, _, Or.inr ⟨rfl, rfl⟩, Or.inl ⟨hab, ?_⟩, .anti⟩
    exact List.mem_append_left _ (List.mem_append_right _ (List.mem_map.mpr ⟨read, hr, rfl⟩))

theorem Compares.exists_ofRead (h : Compares t x y p) (hkind : p.kind ≠ .output) :
    ∃ a b read, (x = a ∧ y = b ∨ x = b ∧ y = a) ∧ read ∈ b.readsOf t a.write.tensor ∧
      AccessPair.OfRead a b read p := by
  rcases h with ⟨_, h⟩ | ⟨rfl, read, hr, rfl⟩
  · rcases List.mem_append.mp h with h | h
    · rcases List.mem_append.mp h with h | h
      · obtain ⟨read, hr, rfl⟩ := List.mem_map.mp h
        exact ⟨x, y, read, Or.inl ⟨rfl, rfl⟩, hr, .flow⟩
      · obtain ⟨read, hr, rfl⟩ := List.mem_map.mp h
        exact ⟨y, x, read, Or.inr ⟨rfl, rfl⟩, hr, .anti⟩
    · split at h
      · rw [List.mem_singleton.mp h] at hkind
        exact absurd rfl hkind
      · cases h
  · exact ⟨x, x, read, Or.inl ⟨rfl, rfl⟩, hr, .flow⟩

theorem commonRoots_of_head? (ha : (a.roots t).head? = some root)
    (hb : (b.roots t).head? = some root) : ∃ inner, commonRoots t a b = root :: inner := by
  obtain ⟨ra, hra⟩ := List.head?_eq_some_iff.mp ha
  obtain ⟨rb, hrb⟩ := List.head?_eq_some_iff.mp hb
  have hpre : ∃ inner, a.roots t = [] ++ root :: inner := ⟨ra, hra⟩
  exact commonRoots_of_prefix hpre ⟨rb, hrb⟩

/-- No read is ahead of a write along the time loop that both equations have outermost. -/
theorem le_of_graph {g : DependenceGraph} (hg : graph t es = .ok g) (hn : Numbered es)
    (ha : a ∈ es) (hb : b ∈ es) (hr : read ∈ b.readsOf t a.write.tensor)
    (htime : t.isTimeLike root = true) (hra : (a.roots t).head? = some root)
    (hrb : (b.roots t).head? = some root) {k l : Int}
    (hfixed : a.write.FixedAlong t root read k l) (hnear : (k - l).natAbs ≤ Word.greatest) :
    l ≤ k := by
  by_contra hlt
  obtain ⟨x, y, p, hxy, hp, hread⟩ := exists_compares_ofRead hn ha hb hr
  have hends : x ∈ es ∧ y ∈ es ∧ ∃ inner, commonRoots t x y = root :: inner := by
    rcases hxy with ⟨rfl, rfl⟩ | ⟨rfl, rfl⟩
    · exact ⟨ha, hb, commonRoots_of_head? hra hrb⟩
    · exact ⟨hb, ha, commonRoots_of_head? hrb hra⟩
  obtain ⟨hx, hy, inner, hcommon⟩ := hends
  obtain ⟨c, hc, _⟩ := hp.exists_edge hg hn hx hy
  obtain ⟨d, hd, hzero⟩ := hread.exists_distance p.unindexed hfixed hnear
  have hne : d ≠ 0 := by
    intro h
    have := hzero.mp h
    omega
  have hfuture := (hread.readsFuture_eq hfixed hd).mpr (by omega)
  -- The outermost loop is the first that is looked at, and nothing comes before it.
  rw [hcommon, AccessPair.carrier_of_ne inner hne hd] at hc
  rcases AccessPair.carrierAt_eq_ok hc with ⟨_, hpast, _⟩ | ⟨hspace, _⟩
  · rw [hfuture] at hpast
    cases hpast
  · rw [htime] at hspace
    cases hspace

/-- What is refused for a read of the future reads the future. -/
theorem exists_future_read {tensor dim : String} {writer reader : Nat} (hn : Numbered es)
    (h : graph t es = .error (.illegalDependence tensor dim writer reader .readsFuture)) :
    ∃ a ∈ es, ∃ b ∈ es, a.index = writer ∧ b.index = reader ∧ a.write.tensor = tensor ∧
      ∃ read ∈ b.readsOf t tensor, ∃ root, t.isTimeLike root = true ∧ t.name root = dim ∧
        root ∈ a.roots t ∧ root ∈ b.roots t ∧
        ∃ k l, a.write.FixedAlong t root read k l ∧ k < l := by
  rcases graph_eq_error hn h with h | ⟨_, _, _, _, h⟩ | ⟨x, hx, y, hy, p, hp, h⟩
  · obtain ⟨_, _, _, _, h⟩ := checkBuffers_eq_error h
    cases h
  · cases h
  · obtain ⟨root, hroot, d, hd, hne, h⟩ := AccessPair.carrier_eq_error h
    obtain ⟨htime, hfuture, he⟩ := AccessPair.carrierAt_eq_error h
    have hkind : p.kind ≠ .output := by
      intro hk
      rw [hk] at hfuture
      cases hfuture
    obtain ⟨a, b, read, hxy, hr, hread⟩ := hp.exists_ofRead hkind
    obtain ⟨k, l, hfixed, hlt⟩ := hread.exists_fixedAlong hne hd hfuture
    rw [hread.writerAndReader_eq, hread.tensor_eq hr] at he
    cases he
    obtain ⟨hrx, hry⟩ := List.mem_filter.mp hroot
    rw [List.contains_iff_mem] at hry
    have hends : (a ∈ es ∧ b ∈ es) ∧ root ∈ a.roots t ∧ root ∈ b.roots t := by
      rcases hxy with ⟨rfl, rfl⟩ | ⟨rfl, rfl⟩
      · exact ⟨⟨hx, hy⟩, hrx, hry⟩
      · exact ⟨⟨hy, hx⟩, hry, hrx⟩
    exact ⟨a, hends.1.1, b, hends.1.2, rfl, rfl, rfl, read, hr, root, htime, rfl, hends.2.1,
      hends.2.2, k, l, hfixed, hlt⟩

end Lowered

/-- In a program that passes the analysis no read is ahead of a write along the time loop that both
equations have outermost.  A program that is refused for a read of the future has such a read: the
equations named write and read the tensor named, and along the time named the read is ahead. -/
theorem rejects_future_reads {program : Program} {es : List Lowered}
    (hlower : program.lower.result = .ok es) :
    (∀ g, (analyze program.dims es).result = .ok g →
      ∀ a ∈ es, ∀ b ∈ es, ∀ read ∈ b.readsOf program.dims a.write.tensor, ∀ root,
        program.dims.isTimeLike root = true →
        (a.roots program.dims).head? = some root → (b.roots program.dims).head? = some root →
        ∀ k l, a.write.FixedAlong program.dims root read k l →
          (k - l).natAbs ≤ Word.greatest → l ≤ k) ∧
    ∀ tensor dim writer reader,
      (analyze program.dims es).result =
          .error (.illegalDependence tensor dim writer reader .readsFuture) →
        ∃ a ∈ es, ∃ b ∈ es, a.index = writer ∧ b.index = reader ∧ a.write.tensor = tensor ∧
          ∃ read ∈ b.readsOf program.dims tensor, ∃ root,
            program.dims.isTimeLike root = true ∧ program.dims.name root = dim ∧
            root ∈ a.roots program.dims ∧ root ∈ b.roots program.dims ∧
            ∃ k l, a.write.FixedAlong program.dims root read k l ∧ k < l := by
  have hn := (Program.lower_shaped hlower).1
  constructor
  · intro g hg a ha b hb read hr root htime hra hrb k l hfixed hnear
    exact le_of_graph (Program.analyze_eq_ok.mp hg) hn ha hb hr htime hra hrb hfixed hnear
  · intro tensor dim writer reader h
    exact exists_future_read hn (Program.analyze_eq_error.mp h)

/-- Two tensors over time, of which the first reads the second some steps ahead. -/
def exchange (ahead : Int) : Program where
  dims := (do
    let (t, _) ← DimTable.empty.time "time" (some 4)
    return t : Except ModelError DimTable).toOption.getD .empty
  scalars := []
  equations :=
    [⟨⟨"v", [.fixed ⟨0⟩ 0]⟩, .access "u" [.fixed ⟨0⟩ ahead], [], []⟩,
      ⟨⟨"u", [.fixed ⟨0⟩ 0]⟩, .access "v" [.fixed ⟨0⟩ 0], [], []⟩]

theorem rejects_future_reads_exchange :
    (∃ es g, (exchange (-1)).lower.result = .ok es ∧
      (analyze (exchange (-1)).dims es).result = .ok g ∧
      ∃ a ∈ es, ∃ b ∈ es, b.index < a.index ∧
        ∃ read ∈ b.readsOf (exchange (-1)).dims a.write.tensor, ∃ k l,
          a.write.FixedAlong (exchange (-1)).dims ⟨0⟩ read k l ∧ l ≤ k) ∧
    ∃ es, (exchange 1).lower.result = .ok es ∧
      (analyze (exchange 1).dims es).result =
        .error (.illegalDependence "u" "time" 1 0 .readsFuture) ∧
      ∃ a ∈ es, ∃ b ∈ es, a.index = 1 ∧ b.index = 0 ∧ a.write.tensor = "u" ∧
        ∃ read ∈ b.readsOf (exchange 1).dims "u", ∃ root, (exchange 1).dims.name root = "time" ∧
          ∃ k l, a.write.FixedAlong (exchange 1).dims root read k l ∧ k < l := by
  have accepted : ∃ es g, (exchange (-1)).lower.result = .ok es ∧
      (analyze (exchange (-1)).dims es).result = .ok g ∧
      ∃ a ∈ es, ∃ b ∈ es, b.index < a.index ∧
        ∃ read ∈ b.readsOf (exchange (-1)).dims a.write.tensor,
          (exchange (-1)).dims.isTimeLike ⟨0⟩ = true ∧
          (a.roots (exchange (-1)).dims).head? = some ⟨0⟩ ∧
          (b.roots (exchange (-1)).dims).head? = some ⟨0⟩ ∧
          a.write.distance? (exchange (-1)).dims none ⟨0⟩ read = some 1 :=
    ⟨_, _, rfl, rfl, by decide +kernel⟩
  have refused : ∃ es, (exchange 1).lower.result = .ok es ∧
      (analyze (exchange 1).dims es).result =
        .error (.illegalDependence "u" "time" 1 0 .readsFuture) :=
    ⟨_, rfl, rfl⟩
  obtain ⟨es, g, hl, hg, a, ha, b, hb, hba, read, hr, htime, hra, hrb, hd⟩ := accepted
  obtain ⟨fs, hfl, hfail⟩ := refused
  refine ⟨⟨es, g, hl, hg, a, ha, b, hb, hba, read, hr, ?_⟩, fs, hfl, hfail, ?_⟩
  · obtain ⟨k, l, hfixed, hkl⟩ := Access.exists_fixedAlong (Or.inl rfl) (by decide) hd
    have hnear : ((k - l).natAbs : Int) ≤ Word.greatest := by
      rw [← hkl]
      decide
    exact ⟨k, l, hfixed, (rejects_future_reads hl).1 g hg a ha b hb read hr ⟨0⟩ htime hra hrb k l
      hfixed hnear⟩
  · obtain ⟨a, ha, b, hb, hw, hr, ht, read, hread, root, _, hname, _, _, k, l, hfixed, hlt⟩ :=
      (rejects_future_reads hfl).2 "u" "time" 1 0 hfail
    exact ⟨a, ha, b, hb, hw, hr, ht, read, hread, root, hname, k, l, hfixed, hlt⟩

end LoopNest
