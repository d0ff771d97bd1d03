/-!
# Signed words of 64 bits

Sizes, offsets and loop values are integers that fit a signed word of 64 bits. A word is
represented by the integer it denotes; an operation that would leave the range has no result.

Division comes in three roundings. `Word.floorDiv?` rounds the quotient down, by correcting the one
that `Word.truncDiv?` rounds towards zero; `Word.euclidDiv?` takes the quotient whose remainder is
never negative, and `Word.mod?` takes that remainder. The last two belong together; the quotient
rounded down is the same for positive divisors only.
-/

namespace LoopNest.Word

/-- Least integer a word denotes. -/
def least : Int := -9223372036854775808

/-- Greatest integer a word denotes. -/
def greatest : Int := 9223372036854775807

/-- An integer that a word denotes. -/
def Fits (v : Int) : Prop := least ≤ v ∧ v ≤ greatest

instance (v : Int) : Decidable (Fits v) := by
  unfold Fits; infer_instance

/-- The integer itself where it fits a word. -/
def checked (v : Int) : Option Int :=
  if Fits v then some v else none

def add? (a b : Int) : Option Int := checked (a + b)

def sub? (a b : Int) : Option Int := checked (a - b)

def mul? (a b : Int) : Option Int := checked (a * b)

def neg? (a : Int) : Option Int := checked (-a)

/-- The quotient rounded towards zero. Nothing is divided by zero. -/
def truncDiv? (a b : Int) : Option Int :=
  if b = 0 then none else checked (a.tdiv b)

/-- The quotient rounded down: where dividends and divisors of different signs leave a remainder,
the quotient rounded towards zero is one too large. -/
def floorDiv? (a b : Int) : Option Int := do
  let q ← truncDiv? a b
  if a.tmod b ≠ 0 ∧ ¬(a < 0 ↔ b < 0) then sub? q 1 else return q

/-- The quotient that leaves a remainder between zero and the divisor's magnitude, for a divisor
other than zero. -/
def euclidDiv? (a b : Int) : Option Int := checked (a / b)

/-- The remainder between zero and the divisor's magnitude, for a divisor other than zero. It
always fits, yet the pair `least`, `-1` has none, because the quotient beside it does not fit. -/
def mod? (a b : Int) : Option Int :=
  if a = least ∧ b = -1 then none else some (a % b)

/-- The nearest integer that fits a word. -/
def clamp (v : Int) : Int := max least (min greatest v)

theorem checked_eq_some_iff {v w : Int} : checked v = some w ↔ Fits v ∧ v = w := by
  unfold checked; split <;> simp_all

theorem checked_of_fits {v : Int} (h : Fits v) : checked v = some v := by
  simp [checked, h]

theorem fits_clamp (v : Int) : Fits (clamp v) := by
  unfold Fits clamp least greatest; omega

theorem clamp_of_fits {v : Int} (h : Fits v) : clamp v = v := by
  unfold Fits least greatest at h
  unfold clamp least greatest; omega

/-! ## Rounding down -/

/-- Rounding towards zero rounds up where a remainder is left of a division with different signs. -/
theorem fdiv_eq_tdiv_sub_one {a b : Int} (hb : b ≠ 0) (hrest : a.tmod b ≠ 0)
    (hsigns : ¬(a < 0 ↔ b < 0)) : a.fdiv b = a.tdiv b - 1 := by
  have hdvd : ¬b ∣ a := fun h => hrest (Int.tmod_eq_zero_of_dvd h)
  rw [Int.fdiv_eq_tdiv, if_neg hdvd]
  grind [Int.sign_eq_one_of_pos]

theorem fdiv_eq_tdiv_of_not {a b : Int} (h : ¬(a.tmod b ≠ 0 ∧ ¬(a < 0 ↔ b < 0))) :
    a.fdiv b = a.tdiv b := by
  rw [Int.fdiv_eq_tdiv]
  by_cases hdvd : b ∣ a
  · rw [if_pos hdvd, Int.sub_zero]
  · have hrest : a.tmod b ≠ 0 := fun h => hdvd (Int.dvd_of_tmod_eq_zero h)
    have hsigns : a < 0 ↔ b < 0 := Decidable.not_not.mp fun hs => h ⟨hrest, hs⟩
    rw [if_neg hdvd]
    grind [Int.sign_eq_neg_one_of_neg]

theorem tdiv_nonpos_of_signs {a b : Int} (h : ¬(a < 0 ↔ b < 0)) : a.tdiv b ≤ 0 := by
  by_cases ha : a < 0
  · have := Int.tdiv_nonneg (a := -a) (b := b) (by omega) (by omega)
    rw [Int.neg_tdiv] at this
    omega
  · exact Int.tdiv_nonpos_of_nonneg_of_nonpos (by omega) (by omega)

theorem floorDiv?_eq {a b : Int} (hb : b ≠ 0) : floorDiv? a b = checked (a.fdiv b) := by
  rw [floorDiv?, truncDiv?, if_neg hb]
  by_cases h : a.tmod b ≠ 0 ∧ ¬(a < 0 ↔ b < 0)
  · have hdown := fdiv_eq_tdiv_sub_one hb h.1 h.2
    have hneg := tdiv_nonpos_of_signs h.2
    simp only [if_pos h, hdown, sub?]
    unfold checked
    split
    · rfl
    · rename_i hfits
      have : ¬Fits (a.tdiv b - 1) := by
        unfold Fits least greatest at *
        omega
      rw [if_neg this]
      rfl
  · simp only [if_neg h, fdiv_eq_tdiv_of_not h]
    cases checked (a.tdiv b) <;> rfl

end LoopNest.Word
