import LoopNest.Proofs.Parameters
import LoopNest.Proofs.Parts
/-!
# How many points a dimension has

A dimension has a size that is known beforehand, bounds and a size in terms of parameters, and
defaults for these.  Each is computed on its own along the chain of parents, the first with natural
numbers, the others with words.  With the parameters at their defaults all of them agree as long as
the size of the root is a word (`Scope.exists_measures`): a part was admitted only where its parent
has room for it, so every sum stays between minus one and the size of the root.
-/

namespace LoopNest

/-! ## Sizes -/

namespace DimTable

variable {t : DimTable} {d p : DimId}

theorem knownSize_eq (t : DimTable) (d : DimId) :
    t.knownSize d = Dimension.sizeAlong (t.lineage d) := rfl

theorem knownSize_of_sub {side : Side} {left right : Int}
    (h : (t.get d).kind = .sub p side left right) :
    t.knownSize d = match side with
      | .left => some left.toNat
      | .middle => (t.knownSize p).bind fun size =>
          if left + right ≤ size then some (size - (left + right).toNat) else none
      | .right => some right.toNat := by
  rw [knownSize_eq, lineage_of_parent (parent?_of_kind h), Dimension.sizeAlong]
  simp only [h]
  cases side <;> rfl

theorem sizeExpr_of_not_sub (h : (t.get d).isSub = false) :
    t.sizeExpr d = (t.interval d).max - (t.interval d).min + .int 1 := by
  unfold Dimension.isSub at h
  unfold sizeExpr
  dsimp only
  split <;> simp_all

theorem sizeExpr_of_sub {side : Side} {left right : Int}
    (h : (t.get d).kind = .sub p side left right) :
    t.sizeExpr d = match side with
      | .left => .symbol (t.get d).leftName
      | .middle => (t.interval p).max - (t.interval p).min - .symbol (t.get d).leftName -
          .symbol (t.get d).rightName + .int 1
      | .right => .symbol (t.get d).rightName := by
  unfold sizeExpr
  simp only [h]
  cases side <;> rfl

end DimTable

namespace Scope

variable {s : Scope} {d p : DimId} {lo hi : Int} {size : Nat}

/-- The dimension runs from `lo` to `hi`, which makes `size` points, as both the size in terms of
parameters and the size known beforehand tell. -/
structure Measures (s : Scope) (d : DimId) (lo hi : Int) (size : Nat) : Prop
    extends s.Spans d lo hi where
  counted : hi - lo + 1 = size
  sized : s.int (s.dims.sizeExpr d) = .ok (size : Int)
  known : s.dims.knownSize d = some size

theorem cuts_of_atDefaults (hb : s.dims.AtDefaults s.bindings) (hd : s.dims.contains d = true)
    {side : Side} {left right : Int} (h : (s.dims.get d).kind = .sub p side left right) :
    s.Cuts d left right side where
  left hside := hb d hd _ (DimTable.left_mem_parameters h hside) left rfl
  right hside := hb d hd _ (DimTable.right_mem_parameters h hside) right rfl

/-- The number of points between the bounds of a dimension. -/
theorem int_points (h : s.Spans d lo hi) (hdifference : Word.Fits (hi - lo))
    (hpoints : Word.Fits (hi - lo + 1)) :
    s.int ((s.dims.interval d).max - (s.dims.interval d).min + .int 1) = .ok (hi - lo + 1) := by
  obtain ⟨hmin, hmax⟩ := s.dims.interval_varies d
  have hsub := int_difference h.max h.min
  rw [fitting_of_fits hdifference] at hsub
  rw [Expr.sub_of_ne_int hmax hmin, Expr.add_one (Expr.binary_ne_int _ _ _)]
  exact (int_sum hsub rfl).trans (fitting_of_fits hpoints)

theorem int_points_between (h : s.Spans d lo hi) {l r : String} {left right : Int}
    (hl : s.bindings.find? l = some left) (hr : s.bindings.find? r = some right)
    (hdifference : Word.Fits (hi - lo)) (hleft : Word.Fits (hi - lo - left))
    (hright : Word.Fits (hi - lo - left - right))
    (hpoints : Word.Fits (hi - lo - left - right + 1)) :
    s.int ((s.dims.interval d).max - (s.dims.interval d).min - .symbol l - .symbol r + .int 1) =
      .ok (hi - lo - left - right + 1) := by
  obtain ⟨hmin, hmax⟩ := s.dims.interval_varies d
  have hsub := int_difference h.max h.min
  rw [fitting_of_fits hdifference] at hsub
  have hsubleft := int_difference hsub (int_symbol hl)
  rw [fitting_of_fits hleft] at hsubleft
  have hsubright := int_difference hsubleft (int_symbol hr)
  rw [fitting_of_fits hright] at hsubright
  rw [Expr.sub_of_ne_int hmax hmin,
    Expr.sub_of_ne_int (Expr.binary_ne_int _ _ _) (Expr.symbol_ne_int l),
    Expr.sub_of_ne_int (Expr.binary_ne_int _ _ _) (Expr.symbol_ne_int r),
    Expr.add_one (Expr.binary_ne_int _ _ _)]
  exact (int_sum hsubright rfl).trans (fitting_of_fits hpoints)

/-- Roots and what rides on its parent are measured by their bounds. -/
theorem Spans.measures {n : Nat} (h : s.Spans d lo hi) (hsub : (s.dims.get d).isSub = false)
    (hknown : s.dims.knownSize d = some size) (hcounted : hi - lo + 1 = size) (hlo : 0 ≤ lo)
    (hhi : hi < n) (hn : (n : Int) ≤ Word.greatest) : s.Measures d lo hi size := by
  refine ⟨h, hcounted, ?_, hknown⟩
  rw [DimTable.sizeExpr_of_not_sub hsub, ← hcounted]
  unfold Word.greatest at hn
  refine int_points h ?_ ?_ <;> unfold Word.Fits Word.least Word.greatest <;> omega

theorem measures_of_root {n : Nat} (hb : s.dims.AtDefaults s.bindings)
    (hd : s.dims.contains d = true) (hroot : s.dims.parent? d = none)
    (hsize : s.dims.knownSize d = some n) (hn : (n : Int) ≤ Word.greatest) :
    s.Measures d 0 (n - 1) n := by
  obtain ⟨size, hk⟩ := Dimension.size_of_root ((DimTable.parent?_eq _ d).symm.trans hroot)
  obtain rfl : size = some n := by
    rw [DimTable.knownSize_eq, DimTable.lineage_of_root hroot, Dimension.sizeAlong] at hsize
    rcases hk with hk | hk <;> simpa only [hk] using hsize
  have hword : Word.checked n = some (n : Int) := by
    refine Word.checked_of_fits ⟨?_, hn⟩
    unfold Word.least
    omega
  have hparameters : s.dims.parameters d =
      [⟨(s.dims.get d).minName, .min, d, some 0⟩,
        ⟨(s.dims.get d).maxName, .max, d, some (n - 1)⟩] := by
    unfold DimTable.parameters
    rcases hk with hk | hk <;> simp only [hk, Option.bind_some, hword, Option.map_some]
  have hbound := hb d hd
  rw [hparameters] at hbound
  have hspans : s.Spans d 0 (n - 1) := by
    constructor <;> rw [DimTable.interval_of_root hroot]
    · exact int_symbol (hbound _ List.mem_cons_self 0 rfl)
    · exact int_symbol (hbound _ (List.mem_cons_of_mem _ List.mem_cons_self) (n - 1) rfl)
  refine hspans.measures ?_ hsize (by omega) (by omega) (by omega) hn
  unfold Dimension.isSub
  rcases hk with hk | hk <;> rw [hk]

section Step

variable {n : Nat} (h : s.Measures p lo hi size) (hlo : 0 ≤ lo) (hhi : hi < n)
  (hn : (n : Int) ≤ Word.greatest)

include h hlo hhi hn

theorem Measures.rides (hp : s.dims.parent? d = some p)
    (hd : (s.dims.get d).ridesOnParent = true) : s.Measures d lo hi size := by
  obtain ⟨_, hk⟩ := Dimension.kind_of_rides hd
  have hspans : s.Spans d lo hi := by
    constructor <;> rw [DimTable.interval_of_rides hp hd]
    · exact h.min
    · exact h.max
  refine hspans.measures ?_ ?_ h.counted hlo hhi hn
  · unfold Dimension.isSub
    rcases hk with ⟨_, hk⟩ | ⟨_, hk⟩ <;> rw [hk]
  · rw [DimTable.knownSize_eq, DimTable.lineage_of_parent hp, Dimension.sizeAlong]
    rcases hk with ⟨_, hk⟩ | ⟨_, hk⟩ <;> rw [hk] <;> exact h.known

theorem Measures.part (hb : s.dims.AtDefaults s.bindings) (hd : s.dims.contains d = true)
    {side : Side} {left right : Int} (hkind : (s.dims.get d).kind = .sub p side left right) :
    ∃ lo' hi' size', s.Measures d lo' hi' size' ∧ lo ≤ lo' ∧ hi' ≤ hi := by
  obtain ⟨hleft, hright, hroom⟩ := s.dims.consistent.room d _ p side left right
    (DimTable.get?_of_lt (DimTable.contains_iff.mp hd)) hkind
  have hroom := hroom size h.known
  have hcounted := h.counted
  have hcuts := cuts_of_atDefaults hb hd hkind
  have hfits : side.Fits lo hi left right := by
    unfold Word.greatest at hn
    cases side <;> unfold Side.Fits Word.Fits Word.least Word.greatest <;> omega
  have hspans := h.toSpans.part hkind hcuts hfits
  have hknown := DimTable.knownSize_of_sub hkind
  have hsize := DimTable.sizeExpr_of_sub hkind
  cases side with
  | left =>
      refine ⟨_, _, left.toNat, ⟨hspans, ?_, ?_, hknown⟩, ?_, ?_⟩
      · simp only [Side.lower, Side.upper]
        omega
      · rw [hsize, Int.toNat_of_nonneg hleft]
        exact int_symbol (hcuts.left (by decide))
      · exact Int.le_refl _
      · simp only [Side.upper]
        omega
  | middle =>
      have hsum := int_points_between h.toSpans (hcuts.left (by decide)) (hcuts.right (by decide))
      rw [h.known, Option.bind_some, if_pos hroom] at hknown
      refine ⟨_, _, _, ⟨hspans, ?_, ?_, hknown⟩, ?_, ?_⟩
      · simp only [Side.lower, Side.upper]
        omega
      · unfold Word.greatest at hn
        unfold Word.Fits Word.least Word.greatest at hsum
        rw [hsize, hsum (by omega) (by omega) (by omega) (by omega)]
        exact congrArg Except.ok (by omega)
      · simp only [Side.lower]
        omega
      · simp only [Side.upper]
        omega
  | right =>
      refine ⟨_, _, right.toNat, ⟨hspans, ?_, ?_, hknown⟩, ?_, ?_⟩
      · simp only [Side.lower, Side.upper]
        omega
      · rw [hsize, Int.toNat_of_nonneg hright]
        exact int_symbol (hcuts.right (by decide))
      · simp only [Side.lower]
        omega
      · exact Int.le_refl _

end Step

/-- With the parameters at their defaults every dimension whose root has a size is measured, and
lies within its parent. -/
theorem exists_measures {n : Nat} (hb : s.dims.AtDefaults s.bindings)
    (hd : s.dims.contains d = true) (hsize : s.dims.knownSize (s.dims.root d) = some n)
    (hn : (n : Int) ≤ Word.greatest) : ∃ lo hi size, s.Measures d lo hi size ∧ 0 ≤ lo ∧ hi < n ∧
      ∀ p, s.dims.parent? d = some p → ∃ lo' hi', s.Spans p lo' hi' ∧ lo' ≤ lo ∧ hi ≤ hi' := by
  -- The induction is on places in the table: a parent stands before its child.
  induction hi : d.index using Nat.strongRecOn generalizing d with
  | ind i ih =>
      cases hp : s.dims.parent? d with
      | none =>
          rw [DimTable.root, DimTable.chain_of_root hp] at hsize
          refine ⟨0, n - 1, n, measures_of_root hb hd hp hsize hn, Int.le_refl _, by omega, ?_⟩
          intro p h
          cases h
      | some p =>
          have hlt := DimTable.parent_lt hp
          have hpin : s.dims.contains p = true :=
            DimTable.contains_iff.mpr (Nat.lt_trans hlt (DimTable.contains_iff.mp hd))
          rw [← DimTable.root_eq_of_parent? hp] at hsize
          obtain ⟨lo, hi', size, h, hlo, hhi, -⟩ := ih p.index (hi ▸ hlt) hpin hsize rfl
          cases hrides : (s.dims.get d).ridesOnParent with
          | true =>
              refine ⟨lo, hi', size, h.rides hlo hhi hn hp hrides, hlo, hhi, ?_⟩
              intro q hq
              cases hq
              exact ⟨lo, hi', h.toSpans, Int.le_refl _, Int.le_refl _⟩
          | false =>
              obtain ⟨side, left, right, hkind⟩ := DimTable.kind_of_not_rides hrides hp
              obtain ⟨lo', hi'', size', h', hle, hle'⟩ := h.part hlo hhi hn hb hd hkind
              refine ⟨lo', hi'', size', h', by omega, by omega, ?_⟩
              intro q hq
              cases hq
              exact ⟨lo, hi', h.toSpans, hle, hle'⟩

end Scope

/-- The ways to tell how many points dimensions have agree. -/
structure DimTable.Extents (t : DimTable) : Prop where
  /-- A run without bindings of its own has the parameters at their defaults. -/
  defaults : ∀ options, t.AtDefaults (defaultBindings (Plan.parameters t options))
  /-- Bounds, size and the size known beforehand have values that agree, and a dimension lies
  within its parent. -/
  measured : ∀ (b : Bindings) (pt : Point) (d : DimId) (n : Nat), t.AtDefaults b →
    t.contains d = true → t.knownSize (t.root d) = some n → (n : Int) ≤ Word.greatest →
      ∃ lo hi size, (⟨t, b, pt⟩ : Scope).Measures d lo hi size ∧
        ∀ p, t.parent? d = some p →
          ∃ lo' hi', (⟨t, b, pt⟩ : Scope).Spans p lo' hi' ∧ lo' ≤ lo ∧ hi ≤ hi'
  /-- A first, a middle and a last part that have room split their parent. -/
  split : ∀ (b : Bindings) (p first middle last : DimId) (left right lo hi : Int),
    t.CutInThree b p first middle last left right → (⟨t, b, []⟩ : Scope).Spans p lo hi →
      (∀ d ∈ [first, middle, last], (⟨t, b, []⟩ : Scope).NoOverflow d) → 0 ≤ left → 0 ≤ right →
        left + right ≤ hi - lo + 1 → t.Splits b p [first, middle, last]

theorem extents_agree (t : DimTable) : t.Extents where
  defaults := t.atDefaults_defaultBindings
  measured b pt d n hb hd hsize hn := by
    obtain ⟨lo, hi, size, h, -, -, hwithin⟩ :=
      Scope.exists_measures (s := ⟨t, b, pt⟩) hb hd hsize hn
    exact ⟨lo, hi, size, h, hwithin⟩
  split b p first middle last left right lo hi h hp hno hleft hright hroom :=
    DimTable.splits_of_room h hp hno hleft hright hroom

/-- A root of the greatest size that is a word, cut in three, and the first point of its middle. -/
def longest : DimTable :=
  (do
    let (t, x) ← DimTable.empty.space "x" (some 9223372036854775807)
    let (t, _) ← t.subLeft "first" x 2
    let (t, inner) ← t.subMiddle "inner" x 2 3
    let (t, _) ← t.subRight "last" x 3
    let (t, _) ← t.subLeft "edge" inner 1
    return t : Except ModelError DimTable).toOption.getD .empty

theorem extents_agree_longest :
    let b := defaultBindings (Plan.parameters longest default)
    let rebound :=
      b ++ [("x_m", -4), ("x_M", 3), ("inner_ltkn", 2), ("last_rtkn", 6), ("inner_rtkn", 6)]
    (∃ lo hi size, (⟨longest, b, []⟩ : Scope).Measures ⟨2⟩ lo hi size ∧
        lo = 2 ∧ hi = 9223372036854775803) ∧
      (∃ lo hi size, (⟨longest, b, []⟩ : Scope).Measures ⟨4⟩ lo hi size ∧ size = 1 ∧
        ∀ p, longest.parent? ⟨4⟩ = some p →
          ∃ lo' hi', (⟨longest, b, []⟩ : Scope).Spans p lo' hi' ∧ lo' ≤ lo ∧ hi ≤ hi') ∧
      -- All eight points are in the first or the last part, and the middle has none.
      longest.Splits rebound ⟨0⟩ [⟨1⟩, ⟨2⟩, ⟨3⟩] := by
  have h := extents_agree longest
  have hn : ((9223372036854775807 : Nat) : Int) ≤ Word.greatest := by decide
  refine ⟨?_, ?_, ?_⟩
  · obtain ⟨lo, hi, size, hm, -⟩ := h.measured _ [] ⟨2⟩ _ (h.defaults default) rfl rfl hn
    have hlo : (⟨longest, defaultBindings (Plan.parameters longest default), []⟩ : Scope).int
      (longest.interval ⟨2⟩).min = .ok 2 := rfl
    have hhi : (⟨longest, defaultBindings (Plan.parameters longest default), []⟩ : Scope).int
      (longest.interval ⟨2⟩).max = .ok 9223372036854775803 := rfl
    exact ⟨lo, hi, size, hm, Except.ok.inj (hm.min.symm.trans hlo),
      Except.ok.inj (hm.max.symm.trans hhi)⟩
  · obtain ⟨lo, hi, size, hm, hwithin⟩ :=
      h.measured _ [] ⟨4⟩ _ (h.defaults default) rfl rfl hn
    have hknown : longest.knownSize ⟨4⟩ = some 1 := rfl
    exact ⟨lo, hi, size, hm, Option.some.inj (hm.known.symm.trans hknown), hwithin⟩
  · refine h.split _ ⟨0⟩ ⟨1⟩ ⟨2⟩ ⟨3⟩ 2 6 (-4) 3 ?_ ⟨rfl, rfl⟩ ?_ (by decide) (by decide) (by decide)
    · exact ⟨⟨_, _, rfl⟩, ⟨_, _, rfl⟩, ⟨_, _, rfl⟩, rfl, rfl, rfl, rfl⟩
    · refine List.forall_mem_cons.mpr ⟨⟨?_, ?_⟩, List.forall_mem_cons.mpr ⟨⟨?_, ?_⟩,
        List.forall_mem_cons.mpr ⟨⟨?_, ?_⟩, nofun⟩⟩⟩ <;>
        exact nofun

end LoopNest
