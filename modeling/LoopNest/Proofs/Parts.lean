import LoopNest.Proofs.SameTree
import LoopNest.Proofs.Subdomain
/-!
# Parts of a range

The bounds of a part come out of those of its parent by two rules, `Side.lower` and `Side.upper`,
as long as none of the sums on the way overflows (`Scope.Spans.part`, `Scope.fits_of_noOverflow`).
That folding leaves these sums as they are written is due to bounds never being constants
(`DimTable.interval_varies`).

Whatever a run binds, a first, a middle and a last part with the same two thicknesses then split
their parent, provided the thicknesses leave room in it (`DimTable.splits_of_room`).
-/

namespace LoopNest

/-! ## Sums that do not overflow -/

namespace Expr

variable {op : BinOp} {a b : Expr}

theorem fold_of_ne_int (ha : ∀ k, a ≠ .int k) (hb : ∀ k, b ≠ .int k) :
    fold op a b = .binary op a b := by
  rw [fold, constant?_eq_none op (Or.inl ha)]
  simp only [flipped?_eq_none op hb]
  unfold dropNeutral
  split <;> simp_all

theorem symbol_ne_int (name : String) : ∀ k, Expr.symbol name ≠ .int k := by
  intro k h
  cases h

theorem binary_ne_int (op : BinOp) (a b : Expr) : ∀ k, Expr.binary op a b ≠ .int k := by
  intro k h
  cases h

theorem sub_of_ne_int (ha : ∀ k, a ≠ .int k) (hb : ∀ k, b ≠ .int k) :
    a - b = .binary .sub a b :=
  fold_of_ne_int ha hb

theorem fold_one (hop : op = .add ∨ op = .sub) (ha : ∀ k, a ≠ .int k) :
    fold op a (.int 1) = .binary op a (.int 1) := by
  have hsign : flipped? op (.int 1) = none := rfl
  rw [fold, constant?_eq_none op (Or.inl ha)]
  simp only [hsign]
  unfold dropNeutral
  split <;> simp_all

theorem add_one (ha : ∀ k, a ≠ .int k) : a + .int 1 = .binary .add a (.int 1) :=
  fold_one (Or.inl rfl) ha

end Expr

namespace Scope

variable {s : Scope} {op : BinOp} {a b : Expr} {x y : Int}

theorem int_sum (ha : s.int a = .ok x) (hb : s.int b = .ok y) :
    s.int (.binary .add a b) = fitting (Word.checked (x + y)) := by
  rw [int, ha, hb]
  rfl

theorem int_difference (ha : s.int a = .ok x) (hb : s.int b = .ok y) :
    s.int (.binary .sub a b) = fitting (Word.checked (x - y)) := by
  rw [int, ha, hb]
  rfl

theorem ne_overflow_left (h : s.int (.binary op a b) ≠ .error .overflow) :
    s.int a ≠ .error .overflow := by
  intro ha
  rw [int, ha] at h
  exact h rfl

theorem fits_of_ne_overflow {v : Int} (h : fitting (Word.checked v) ≠ .error .overflow) :
    Word.Fits v := by
  by_contra hv
  rw [Word.checked, if_neg hv] at h
  exact h rfl

theorem fitting_of_fits {v : Int} (h : Word.Fits v) : fitting (Word.checked v) = .ok v := by
  rw [Word.checked_of_fits h, fitting]

theorem int_symbol {name : String} (h : s.bindings.find? name = some x) :
    s.int (.symbol name) = .ok x := by
  rw [int, h, known]

end Scope

/-! ## Bounds of parts -/

namespace Side

/-- The bounds of a part in terms of those of the whole and of the thicknesses that the side has. -/
def cut (left right : String) (whole : Interval) : Side → Interval
  | .left => ⟨whole.min, .binary .sub (.binary .add whole.min (.symbol left)) (.int 1)⟩
  | .middle =>
    ⟨.binary .add whole.min (.symbol left), .binary .sub whole.max (.symbol right)⟩
  | .right => ⟨.binary .add (.binary .sub whole.max (.symbol right)) (.int 1), whole.max⟩

/-- The least point of a part of the points from `lo` to `hi`. -/
def lower (lo hi left right : Int) : Side → Int
  | .left => lo
  | .middle => lo + left
  | .right => hi - right + 1

/-- The greatest point of a part of the points from `lo` to `hi`. -/
def upper (lo hi left right : Int) : Side → Int
  | .left => lo + left - 1
  | .middle => hi - right
  | .right => hi

/-- The sums that the bounds of a part consist of are words. -/
def Fits (lo hi left right : Int) : Side → Prop
  | .left => Word.Fits (lo + left) ∧ Word.Fits (lo + left - 1)
  | .middle => Word.Fits (lo + left) ∧ Word.Fits (hi - right)
  | .right => Word.Fits (hi - right) ∧ Word.Fits (hi - right + 1)

end Side

/-- No bound is a constant. -/
def Interval.Varies (i : Interval) : Prop := (∀ k, i.min ≠ .int k) ∧ ∀ k, i.max ≠ .int k

theorem Interval.Varies.cut {whole : Interval} (h : whole.Varies) (side : Side)
    (left right : String) : (side.cut left right whole).Varies := by
  cases side with
  | left => exact ⟨h.1, Expr.binary_ne_int _ _ _⟩
  | middle => exact ⟨Expr.binary_ne_int _ _ _, Expr.binary_ne_int _ _ _⟩
  | right => exact ⟨Expr.binary_ne_int _ _ _, h.2⟩

namespace Dimension

theorem kind_of_rides {e : Dimension} (h : e.ridesOnParent = true) :
    ∃ p, (∃ modulo, e.kind = .stepping p modulo) ∨
      ∃ condition, e.kind = .conditional p condition := by
  cases e with
  | mk name kind => cases kind with
    | stepping p modulo => exact ⟨p, Or.inl ⟨modulo, rfl⟩⟩
    | conditional p condition => exact ⟨p, Or.inr ⟨condition, rfl⟩⟩
    | _ => cases h

theorem size_of_root {e : Dimension} (h : e.parent? = none) :
    ∃ size, e.kind = .space size ∨ e.kind = .time size := by
  cases e with
  | mk name kind => cases kind with
    | space size => exact ⟨size, Or.inl rfl⟩
    | time size => exact ⟨size, Or.inr rfl⟩
    | _ => cases h

end Dimension

namespace DimTable

variable {t : DimTable} {d p : DimId}

theorem lineage_of_parent (h : t.parent? d = some p) : t.lineage d = t.get d :: t.lineage p := by
  have hchain := chain_of_parent h
  unfold chain at hchain
  unfold lineage Dimension.lineageIn
  rw [hchain, List.map_cons]
  rfl

theorem lineage_of_root (h : t.parent? d = none) : t.lineage d = [t.get d] := by
  have hchain := chain_of_root h
  unfold chain at hchain
  unfold lineage Dimension.lineageIn
  rw [hchain, List.map_singleton]
  rfl

theorem interval_of_root (h : t.parent? d = none) :
    t.interval d = ⟨.symbol (t.get d).minName, .symbol (t.get d).maxName⟩ := by
  rw [interval, lineage_of_root h, intervalAlong]
  obtain ⟨size, hk | hk⟩ := Dimension.size_of_root ((parent?_eq t d).symm.trans h) <;> rw [hk]

theorem interval_of_rides (hp : t.parent? d = some p) (h : (t.get d).ridesOnParent = true) :
    t.interval d = t.interval p := by
  rw [interval, lineage_of_parent hp, intervalAlong]
  obtain ⟨_, ⟨_, hk⟩ | ⟨_, hk⟩⟩ := Dimension.kind_of_rides h <;> rw [hk] <;> rfl

theorem interval_of_sub {side : Side} {left right : Int}
    (h : (t.get d).kind = .sub p side left right) (hp : (t.interval p).Varies) :
    t.interval d = side.cut (t.get d).leftName (t.get d).rightName (t.interval p) := by
  have hsum : ∀ name, (t.interval p).min + .symbol name = .binary .add _ (.symbol name) :=
    fun name => Expr.fold_of_ne_int hp.1 (Expr.symbol_ne_int name)
  have hdifference : ∀ name, (t.interval p).max - .symbol name = .binary .sub _ (.symbol name) :=
    fun name => Expr.fold_of_ne_int hp.2 (Expr.symbol_ne_int name)
  rw [interval, lineage_of_parent (parent?_of_kind h), intervalAlong]
  unfold interval at hsum hdifference ⊢
  simp only [h]
  cases side with
  | left =>
      refine congrArg (Interval.mk _) ?_
      rw [hsum]
      exact Expr.fold_one (Or.inr rfl) (Expr.binary_ne_int _ _ _)
  | middle => exact congrArg₂ Interval.mk (hsum _) (hdifference _)
  | right =>
      refine congrArg (Interval.mk · _) ?_
      rw [hdifference]
      exact Expr.fold_one (Or.inl rfl) (Expr.binary_ne_int _ _ _)

theorem interval_varies (t : DimTable) (d : DimId) : (t.interval d).Varies := by
  -- The induction is on places in the table: a parent stands before its child.
  induction hn : d.index using Nat.strongRecOn generalizing d with
  | ind n ih =>
      cases hp : t.parent? d with
      | none =>
          rw [interval_of_root hp]
          exact ⟨Expr.symbol_ne_int _, Expr.symbol_ne_int _⟩
      | some p =>
          have hwhole := ih p.index (hn ▸ parent_lt hp) p rfl
          cases hd : (t.get d).ridesOnParent with
          | true =>
              rw [interval_of_rides hp hd]
              exact hwhole
          | false =>
              obtain ⟨side, left, right, hkind⟩ := kind_of_not_rides hd hp
              rw [interval_of_sub hkind hwhole]
              exact hwhole.cut side _ _

end DimTable

namespace Scope

variable {s : Scope} {d p : DimId} {lo hi left right : Int} {side : Side}

/-- The dimension runs from `lo` to `hi`. -/
structure Spans (s : Scope) (d : DimId) (lo hi : Int) : Prop where
  min : s.int (s.dims.interval d).min = .ok lo
  max : s.int (s.dims.interval d).max = .ok hi

/-- The thicknesses that a part on the side has are bound to these. -/
structure Cuts (s : Scope) (d : DimId) (left right : Int) (side : Side) : Prop where
  left : side ≠ .right → s.bindings.find? (s.dims.get d).leftName = some left
  right : side ≠ .left → s.bindings.find? (s.dims.get d).rightName = some right

/-- No bound of the dimension overflows. -/
structure NoOverflow (s : Scope) (d : DimId) : Prop where
  min : s.int (s.dims.interval d).min ≠ .error .overflow
  max : s.int (s.dims.interval d).max ≠ .error .overflow

section Part

variable {l r : Int} (hkind : (s.dims.get d).kind = .sub p side l r) (hp : s.Spans p lo hi)
  (hcuts : s.Cuts d left right side)

include hkind hp hcuts

theorem Spans.part (hfits : side.Fits lo hi left right) :
    s.Spans d (side.lower lo hi left right) (side.upper lo hi left right) := by
  have hinterval := DimTable.interval_of_sub hkind (s.dims.interval_varies p)
  cases side with
  | left =>
      have hsum := int_sum hp.min (int_symbol (hcuts.left (by decide)))
      rw [fitting_of_fits hfits.1] at hsum
      constructor <;> rw [hinterval]
      · exact hp.min
      · exact (int_difference hsum rfl).trans (fitting_of_fits hfits.2)
  | middle =>
      have hsum := int_sum hp.min (int_symbol (hcuts.left (by decide)))
      have hdifference := int_difference hp.max (int_symbol (hcuts.right (by decide)))
      constructor <;> rw [hinterval]
      · exact hsum.trans (fitting_of_fits hfits.1)
      · exact hdifference.trans (fitting_of_fits hfits.2)
  | right =>
      have hdifference := int_difference hp.max (int_symbol (hcuts.right (by decide)))
      rw [fitting_of_fits hfits.1] at hdifference
      constructor <;> rw [hinterval]
      · exact (int_sum hdifference rfl).trans (fitting_of_fits hfits.2)
      · exact hp.max

theorem fits_of_noOverflow (h : s.NoOverflow d) : side.Fits lo hi left right := by
  obtain ⟨hmin, hmax⟩ := h
  rw [DimTable.interval_of_sub hkind (s.dims.interval_varies p)] at hmin hmax
  cases side with
  | left =>
      have hsum := int_sum hp.min (int_symbol (hcuts.left (by decide)))
      have hfits := fits_of_ne_overflow (hsum ▸ ne_overflow_left hmax)
      rw [fitting_of_fits hfits] at hsum
      have hupper := int_difference hsum (b := .int 1) rfl
      exact ⟨hfits, fits_of_ne_overflow (hupper ▸ hmax)⟩
  | middle =>
      have hsum := int_sum hp.min (int_symbol (hcuts.left (by decide)))
      have hdifference := int_difference hp.max (int_symbol (hcuts.right (by decide)))
      exact ⟨fits_of_ne_overflow (hsum ▸ hmin), fits_of_ne_overflow (hdifference ▸ hmax)⟩
  | right =>
      have hdifference := int_difference hp.max (int_symbol (hcuts.right (by decide)))
      have hfits := fits_of_ne_overflow (hdifference ▸ ne_overflow_left hmin)
      rw [fitting_of_fits hfits] at hdifference
      have hlower := int_sum hdifference (b := .int 1) rfl
      exact ⟨hfits, fits_of_ne_overflow (hlower ▸ hmin)⟩

/-- The points of a part, if its bounds do not overflow. -/
theorem inRange_part_iff (h : s.NoOverflow d) {v : Int} : s.dims.InRange s.bindings d v ↔
    side.lower lo hi left right ≤ v ∧ v ≤ side.upper lo hi left right := by
  have hspans := hp.part hkind hcuts (fits_of_noOverflow hkind hp hcuts h)
  exact Plan.inRange_iff hspans.min hspans.max

end Part

end Scope

/-! ## A first, a middle and a last part -/

namespace DimTable

variable {t : DimTable} {b : Bindings}

/-- Each point of `p` belongs to one of the parts alone, and no other point to any of them. -/
structure Splits (t : DimTable) (b : Bindings) (p : DimId) (parts : List DimId) : Prop where
  within : ∀ d ∈ parts, ∀ v, t.InRange b d v → t.InRange b p v
  once : ∀ v, t.InRange b p v → ∃! d, d ∈ parts ∧ t.InRange b d v

/-- Parts on the three sides of `p`, with thicknesses bound to `left` and `right`. -/
structure CutInThree (t : DimTable) (b : Bindings) (p first middle last : DimId)
    (left right : Int) : Prop where
  first_kind : ∃ l r, (t.get first).kind = .sub p .left l r
  middle_kind : ∃ l r, (t.get middle).kind = .sub p .middle l r
  last_kind : ∃ l r, (t.get last).kind = .sub p .right l r
  first_left : b.find? (t.get first).leftName = some left
  middle_left : b.find? (t.get middle).leftName = some left
  middle_right : b.find? (t.get middle).rightName = some right
  last_right : b.find? (t.get last).rightName = some right

theorem existsUnique_of_pairwise {α : Type} {P : α → Prop} {xs : List α} (h : ∃ x ∈ xs, P x)
    (hxs : xs.Pairwise fun x y => ¬ (P x ∧ P y)) : ∃! x, x ∈ xs ∧ P x := by
  obtain ⟨x, hx, hpx⟩ := h
  refine ⟨x, ⟨hx, hpx⟩, fun y ⟨hy, hpy⟩ => ?_⟩
  have : Std.Symm fun x y => ¬ (P x ∧ P y) := ⟨fun _ _ hno h => hno h.symm⟩
  by_contra hne
  exact hxs.forall hy hx hne ⟨hpy, hpx⟩

theorem splits_of_room {p first middle last : DimId} {left right lo hi : Int}
    (h : t.CutInThree b p first middle last left right)
    (hp : (⟨t, b, []⟩ : Scope).Spans p lo hi)
    (hno : ∀ d ∈ [first, middle, last], (⟨t, b, []⟩ : Scope).NoOverflow d)
    (hleft : 0 ≤ left) (hright : 0 ≤ right) (hroom : left + right ≤ hi - lo + 1) :
    t.Splits b p [first, middle, last] := by
  obtain ⟨l, r, hfirst⟩ := h.first_kind
  obtain ⟨l', r', hmiddle⟩ := h.middle_kind
  obtain ⟨l'', r'', hlast⟩ := h.last_kind
  obtain ⟨hnofirst, hnomiddle, hnolast, -⟩ := by simpa only [List.forall_mem_cons] using hno
  have cutFirst : (⟨t, b, []⟩ : Scope).Cuts first left right .left :=
    ⟨fun _ => h.first_left, fun h => absurd rfl h⟩
  have cutMiddle : (⟨t, b, []⟩ : Scope).Cuts middle left right .middle :=
    ⟨fun _ => h.middle_left, fun _ => h.middle_right⟩
  have cutLast : (⟨t, b, []⟩ : Scope).Cuts last left right .right :=
    ⟨fun h => absurd rfl h, fun _ => h.last_right⟩
  have inWhole (v : Int) := Plan.inRange_iff (v := v) hp.min hp.max
  have inFirst (v : Int) := Scope.inRange_part_iff (v := v) hfirst hp cutFirst hnofirst
  have inMiddle (v : Int) := Scope.inRange_part_iff (v := v) hmiddle hp cutMiddle hnomiddle
  have inLast (v : Int) := Scope.inRange_part_iff (v := v) hlast hp cutLast hnolast
  simp only [Side.lower, Side.upper] at inFirst inMiddle inLast
  constructor
  · intro d hd v hv
    simp only [List.mem_cons, List.not_mem_nil, or_false] at hd
    refine (inWhole v).mpr ?_
    rcases hd with rfl | rfl | rfl
    · have := (inFirst v).mp hv
      omega
    · have := (inMiddle v).mp hv
      omega
    · have := (inLast v).mp hv
      omega
  · intro v hv
    have := (inWhole v).mp hv
    refine existsUnique_of_pairwise ?_ ?_
    · by_cases hbelow : v < lo + left
      · exact ⟨first, by simp, (inFirst v).mpr (by omega)⟩
      · by_cases habove : hi - right < v
        · exact ⟨last, by simp, (inLast v).mpr (by omega)⟩
        · exact ⟨middle, by simp, (inMiddle v).mpr (by omega)⟩
    · simp only [List.pairwise_cons, List.forall_mem_cons, inFirst, inMiddle, inLast]
      refine ⟨⟨by omega, by omega, by simp⟩, ⟨by omega, by simp⟩, by simp⟩

end DimTable

end LoopNest
