import LoopNest.Proofs.IndexValues
import Mathlib.Data.Rat.Floor
/-!
# Quotients and remainders

The evaluator divides in two ways: `//` rounds the quotient down (`Word.floorDiv?`), and `%` leaves a
remainder that is never negative (`Word.mod?`).  For a positive divisor the two are one division with
a remainder.  For a negative divisor they are not: the remainder belongs to the quotient that is
rounded up, one more than `//` yields (`Word.fdiv_eq_ediv_sub_one`), so the pair is off by one
divisor wherever a remainder is left.  A stride factor is bound when a schedule runs, and nothing
there asks for its sign.

Both operators fail for the same operands: there is no division by zero, and the least word divided by
minus one is no word (`Word.fits_fdiv_iff`).  The remainder of the latter would be zero; it fails for
the quotient that stands beside it.
-/

namespace LoopNest

namespace Word

theorem fdiv_eq_floor (a b : Int) : a.fdiv b = ⌊(a : ℚ) / b⌋ := by
  have hfloor : ∀ (v : Int) (k : Nat), v.fdiv k = ⌊(v : ℚ) / k⌋ := by
    intro v k
    rw [Int.fdiv_eq_ediv_of_nonneg v (Int.natCast_nonneg k), Rat.floor_intCast_div_natCast]
  obtain ⟨k, rfl | rfl⟩ := b.eq_nat_or_neg
  · exact hfloor a k
  · calc a.fdiv (-k)
      _ = (-a).fdiv k := by rw [← Int.neg_fdiv_neg, neg_neg]
      _ = ⌊((-a : Int) : ℚ) / k⌋ := hfloor (-a) k
      _ = ⌊(a : ℚ) / (-k : Int)⌋ := by rw [Int.cast_neg, Int.cast_neg, neg_div, div_neg, Int.cast_natCast]

/-- For a negative divisor that leaves a remainder, rounding down is one below the quotient that the
remainder belongs to. -/
theorem fdiv_eq_ediv_sub_one {a b : Int} (hneg : b < 0) (hdvd : ¬b ∣ a) :
    a.fdiv b = a / b - 1 := by
  rw [Int.fdiv_eq_ediv, if_neg]
  rintro (h | h)
  · omega
  · exact hdvd h

theorem fdiv_eq_ediv {a b : Int} (h : 0 < b ∨ b ∣ a) : a.fdiv b = a / b := by
  rw [Int.fdiv_eq_ediv, if_pos (h.imp_left Int.le_of_lt), Int.sub_zero]

theorem fdiv_mul_add_emod {a b : Int} (hb : b ≠ 0) :
    a.fdiv b * b + a % b = if 0 < b ∨ b ∣ a then a else a - b := by
  have hdivision : a / b * b + a % b = a := Int.ediv_mul_add_emod a b
  split
  · rename_i h
    rw [fdiv_eq_ediv h, hdivision]
  · rename_i h
    obtain ⟨hpos, hdvd⟩ := not_or.mp h
    rw [fdiv_eq_ediv_sub_one (by omega) hdvd, Int.sub_mul, Int.one_mul]
    omega

/-- Of the quotients of words, one is no word. -/
theorem fits_fdiv_iff {a b : Int} (ha : Fits a) (hb : b ≠ 0) :
    Fits (a.fdiv b) ↔ ¬(a = least ∧ b = -1) := by
  rcases Int.lt_or_gt_of_ne hb with hneg | hpos
  · rw [← Int.neg_fdiv_neg, Int.fdiv_eq_ediv_of_nonneg (-a) (by omega)]
    obtain ⟨c, rfl⟩ : ∃ c, b = -c := ⟨-b, (Int.neg_neg b).symm⟩
    rw [Int.neg_neg]
    unfold Fits least greatest at *
    rcases (show c = 1 ∨ 2 ≤ c by omega) with rfl | hc
    · rw [Int.ediv_one]
      omega
    · have hlow : -a ≤ 0 → -a ≤ -a / c := fun h => by
        rw [Int.le_ediv_iff_mul_le (by omega)]
        nlinarith
      have hhigh : -a / c ≤ 9223372036854775807 := by
        refine Int.ediv_le_of_le_mul (by omega) ?_
        omega
      have hsign : 0 ≤ -a → 0 ≤ -a / c := fun h => Int.ediv_nonneg h (by omega)
      omega
  · refine ⟨fun _ h => ?_, fun _ => fits_fdiv ha hpos⟩
    omega

end Word

namespace Scope

variable {s : Scope} {x y : Expr} {a b : Int}

theorem int_binary (op : BinOp) (hx : s.int x = .ok a) (hy : s.int y = .ok b) :
    s.int (.binary op x y) = op.apply a b := by
  rw [int, hx, hy]
  rfl

end Scope

theorem BinOp.floorDiv_defined_iff {a b : Int} (ha : Word.Fits a) :
    (∃ v, floorDiv.apply a b = .ok v) ↔ b ≠ 0 ∧ ¬(a = Word.least ∧ b = -1) := by
  constructor
  · rintro ⟨v, hv⟩
    have hb := BinOp.ne_zero_of_floorDiv_apply hv
    rw [BinOp.apply_floorDiv a hb] at hv
    obtain ⟨hfits, -⟩ := Word.checked_eq_some_iff.mp (Scope.fitting_eq_ok.mp hv)
    exact ⟨hb, (Word.fits_fdiv_iff ha hb).mp hfits⟩
  · rintro ⟨hb, hends⟩
    refine ⟨a.fdiv b, ?_⟩
    rw [BinOp.apply_floorDiv a hb, Word.checked_of_fits ((Word.fits_fdiv_iff ha hb).mpr hends)]
    rfl

theorem BinOp.mod_defined_iff {a b : Int} :
    (∃ v, mod.apply a b = .ok v) ↔ b ≠ 0 ∧ ¬(a = Word.least ∧ b = -1) := by
  constructor
  · rintro ⟨v, hv⟩
    refine ⟨(Guard.mod_apply_eq_ok hv).1, ?_⟩
    rintro ⟨rfl, rfl⟩
    cases hv
  · rintro ⟨hb, hends⟩
    refine ⟨a % b, ?_⟩
    rw [BinOp.apply, if_neg hb, Word.mod?, if_neg hends]
    rfl

/-- What `x // y` and `x % y` have for values where `x` is at `a` and `y` at `b`. -/
structure Scope.Divides (s : Scope) (x y : Expr) (a b : Int) : Prop where
  /-- Either both have a value or none does. -/
  defined : ∀ op, op = .floorDiv ∨ op = .mod →
    ((∃ v, s.int (.binary op x y) = .ok v) ↔ b ≠ 0 ∧ ¬(a = Word.least ∧ b = -1))
  quotient : ∀ q, s.int (.binary .floorDiv x y) = .ok q → q = ⌊(a : ℚ) / b⌋
  remainder : ∀ r, s.int (.binary .mod x y) = .ok r → 0 ≤ r ∧ r < |b| ∧ b ∣ a - r
  /-- The two belong to one division, unless a negative divisor leaves a remainder. -/
  joined : ∀ q r, s.int (.binary .floorDiv x y) = .ok q → s.int (.binary .mod x y) = .ok r →
    q * b + r = if 0 < b ∨ b ∣ a then a else a - b

/-- Division rounds down, and the remainder belongs to it where the divisor is positive or divides. -/
theorem divides_of_int {s : Scope} {x y : Expr} {a b : Int} (hx : s.int x = .ok a)
    (hy : s.int y = .ok b) (ha : Word.Fits a) : s.Divides x y a b := by
  have hvalue := fun op => Scope.int_binary op hx hy
  have hquotient : ∀ q, s.int (.binary .floorDiv x y) = .ok q → q = a.fdiv b := fun q hq =>
    floorDiv_apply_eq_ok ((hvalue .floorDiv).symm.trans hq)
  have hremainder : ∀ r, s.int (.binary .mod x y) = .ok r → b ≠ 0 ∧ r = a % b := by
    intro r hr
    obtain ⟨hb, rfl⟩ := Guard.mod_apply_eq_ok ((hvalue .mod).symm.trans hr)
    exact ⟨hb, rfl⟩
  constructor
  case defined =>
    rintro op (rfl | rfl)
    · rw [hvalue]
      exact BinOp.floorDiv_defined_iff ha
    · rw [hvalue]
      exact BinOp.mod_defined_iff
  case quotient =>
    intro q hq
    rw [hquotient q hq, Word.fdiv_eq_floor]
  case remainder =>
    intro r hr
    obtain ⟨hb, rfl⟩ := hremainder r hr
    exact ⟨Int.emod_nonneg a hb, Int.emod_lt_abs a hb, Int.dvd_self_sub_emod⟩
  case joined =>
    intro q r hq hr
    obtain ⟨hb, rfl⟩ := hremainder r hr
    rw [hquotient q hq, Word.fdiv_mul_add_emod hb]

/-- Point seven of a dimension, with a stride factor bound to minus two. -/
def againstStride : Scope := ⟨.empty, [("step", -2)], [(⟨0⟩, 7)]⟩

theorem divides_of_int_againstStride :
    againstStride.int (.dim ⟨0⟩) = .ok 7 ∧ againstStride.int (.symbol "step") = .ok (-2) ∧
      Word.Fits 7 ∧ againstStride.Divides (.dim ⟨0⟩) (.symbol "step") 7 (-2) := by
  have hdim : againstStride.int (.dim ⟨0⟩) = .ok 7 := rfl
  have hstep : againstStride.int (.symbol "step") = .ok (-2) := rfl
  have hfits : Word.Fits 7 := by decide
  exact ⟨hdim, hstep, hfits, divides_of_int hdim hstep hfits⟩

/-- Seven divided by minus two is minus four, remainder one: joined, nine. -/
theorem not_joined_againstStride :
    againstStride.int (.binary .floorDiv (.dim ⟨0⟩) (.symbol "step")) = .ok (-4) ∧
      againstStride.int (.binary .mod (.dim ⟨0⟩) (.symbol "step")) = .ok 1 ∧
      (-4 : Int) * (-2) + 1 ≠ 7 := by
  refine ⟨rfl, rfl, ?_⟩
  decide

end LoopNest
