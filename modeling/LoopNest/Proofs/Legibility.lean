import LoopNest.Proofs.Guards
import LoopNest.Proofs.Reader
/-!
# What the text of an expression says

A reader of the text of an expression finds what the expression denotes (`Expr.value?_text`), and so
expressions of one text have one value (`Expr.values_eq_of_text_eq`).  The proof goes by the
structure of the expression: which of the three ways of reading applies to an operand is decided by
precedence, just as for its parentheses (`Expr.Conveys`).

One thing is expected of the expression (`Expr.grouped`).  On the right of a product no parentheses
are written around another product, quotient or remainder, as if all of these associated.  For a
quotient or a remainder they do not, and its text is that of another expression with another value
(`Expr.not_values_eq_of_text_eq`).
-/

namespace LoopNest

/-! ## Values of any size -/

theorem BinOp.eval?_of_apply {op : BinOp} {a b v : Int} (h : op.apply a b = .ok v) :
    op.eval? a b = some v := by
  have hchecked : ∀ w, fitting (Word.checked w) = .ok v → some w = some v := fun w hw =>
    congrArg some (Word.checked_eq_some_iff.mp (Scope.fitting_eq_ok.mp hw)).2
  cases op with
  | add => exact hchecked _ h
  | sub => exact hchecked _ h
  | mul => exact hchecked _ h
  | mod =>
      obtain ⟨hb, rfl⟩ := Guard.mod_apply_eq_ok h
      exact if_neg hb
  | div | floorDiv =>
      have hb := ne_zero_of_floorDiv_apply h
      rw [eval?, if_neg hb]
      exact hchecked _ ((apply_floorDiv a hb).symm.trans h)

namespace Expr

/-- The value of an expression on integers of any size, with `ρ` for the values of its scalars. -/
def eval? (ρ : String → Option Int) : Expr → Option Int
  | .int v => some v
  | .symbol n => ρ n
  | .neg e => (eval? ρ e).map (- ·)
  | .binary op a b => do
    let x ← eval? ρ a
    let y ← eval? ρ b
    op.eval? x y
  | _ => none

end Expr

/-! ## Texts of expressions -/

namespace Expr

open Reading

/-- Integers, scalars and operators on them. -/
inductive Arithmetic : Expr → Prop where
  | int (v : Int) : Arithmetic (.int v)
  | symbol {name : String} (h : Names name) : Arithmetic (.symbol name)
  | neg {e : Expr} (h : Arithmetic e) : Arithmetic (.neg e)
  | binary (op : BinOp) {a b : Expr} (ha : Arithmetic a) (hb : Arithmetic b) :
      Arithmetic (.binary op a b)

/-- As a factor of a product the expression is written as a number of factors that are all to be
multiplied, or in parentheses. -/
def onlyFactors : Expr → Bool
  | .binary .mul a b => onlyFactors a && onlyFactors b
  | .binary .div _ _ | .binary .floorDiv _ _ | .binary .mod _ _ => false
  | _ => true

/-- No quotient or remainder stands on the right of a product without parentheses. -/
def grouped : Expr → Bool
  | .neg e => grouped e
  | .binary .mul a b => grouped a && grouped b && onlyFactors b
  | .binary _ a b => grouped a && grouped b
  | _ => true

/-- The text of the expression conveys its value, wherever precedence lets it stand. -/
structure Conveys (ρ : String → Option Int) (t : DimTable) (e : Expr) (v : Int) : Prop where
  factor : 5 ≤ e.precedence → IsFactor ρ (e.text t).toList v
  product : 4 ≤ e.precedence → IsProduct ρ e.onlyFactors (e.text t).toList v
  sum : IsSum ρ (e.text t).toList v

variable {ρ : String → Option Int} {t : DimTable} {e a b : Expr} {v w x : Int}

theorem Conveys.of_factor (h : IsFactor ρ (e.text t).toList v) : Conveys ρ t e v :=
  ⟨fun _ => h, fun _ => h.isProduct, (h.isProduct : IsProduct ρ false _ v).isSum⟩

theorem Conveys.of_product (he : e.precedence = 4)
    (h : IsProduct ρ e.onlyFactors (e.text t).toList v) : Conveys ρ t e v :=
  ⟨fun hp => absurd hp (by omega), fun _ => h, h.isSum⟩

theorem Conveys.of_sum (he : e.precedence = 3) (h : IsSum ρ (e.text t).toList v) :
    Conveys ρ t e v :=
  ⟨fun hp => absurd hp (by omega), fun hp => absurd hp (by omega), h⟩

/-- In parentheses a text may stand anywhere. -/
theorem Conveys.parenthesized (h : Conveys ρ t e v) :
    IsFactor ρ (parenthesized true (e.text t)).toList v := by
  have htext : (LoopNest.parenthesized true (e.text t)).toList =
      '(' :: ((e.text t).toList ++ [')']) := by
    simp [LoopNest.parenthesized]
  rw [htext]
  exact h.sum.parenthesized

section Operand

variable {needed : Bool} (h : Conveys ρ t e v)

include h

theorem Conveys.isFactor (hneeded : needed = false → 5 ≤ e.precedence) :
    IsFactor ρ (LoopNest.parenthesized needed (e.text t)).toList v := by
  cases needed with
  | false => exact h.factor (hneeded rfl)
  | true => exact h.parenthesized

theorem Conveys.isProduct (hneeded : needed = false → 4 ≤ e.precedence) :
    IsProduct ρ e.onlyFactors (LoopNest.parenthesized needed (e.text t)).toList v := by
  cases needed with
  | false => exact h.product (hneeded rfl)
  | true => exact h.parenthesized.isProduct

theorem Conveys.isSum : IsSum ρ (LoopNest.parenthesized needed (e.text t)).toList v := by
  cases needed with
  | false => exact h.sum
  | true => exact (h.parenthesized.isProduct : IsProduct ρ false _ v).isSum

end Operand

theorem toList_text_binary (op : BinOp) (a b : Expr) : ((Expr.binary op a b).text t).toList =
    joined op (parenthesized (a.precedence < op.precedence) (a.text t)).toList
      (parenthesized (b.precedence < op.precedence ||
        (b.precedence == op.precedence && !op.associates)) (b.text t)).toList := by
  simp [text, joined]

theorem precedence_of_bare {op : BinOp} {b : Expr} (h : (decide (b.precedence < op.precedence) ||
    (b.precedence == op.precedence && !op.associates)) = false) :
    op.precedence ≤ b.precedence ∧ (op.associates = false → op.precedence < b.precedence) := by
  obtain ⟨hlt, heq⟩ := Bool.or_eq_false_iff.mp h
  have hle := Nat.le_of_not_lt (of_decide_eq_false hlt)
  refine ⟨hle, fun hop => Nat.lt_of_le_of_ne hle fun hsame => ?_⟩
  rw [hop, hsame, beq_self_eq_true] at heq
  cases heq

section Operators

variable (ha : Conveys ρ t a v) (hb : Conveys ρ t b w)

include ha hb

theorem conveys_add : Conveys ρ t (.binary .add a b) (v + w) := by
  refine .of_sum rfl ?_
  rw [toList_text_binary]
  exact ha.isSum.plus hb.isSum

theorem conveys_sub : Conveys ρ t (.binary .sub a b) (v - w) := by
  refine .of_sum rfl ?_
  rw [toList_text_binary]
  exact ha.isSum.minus (hb.isProduct fun hbare => (precedence_of_bare hbare).2 rfl)

theorem conveys_mul (honly : b.onlyFactors = true) : Conveys ρ t (.binary .mul a b) (v * w) := by
  refine .of_product rfl ?_
  have hfactors : (Expr.binary .mul a b).onlyFactors = a.onlyFactors := by
    rw [onlyFactors, honly, Bool.and_true]
  rw [toList_text_binary, hfactors]
  have hb' := hb.isProduct fun hbare => (@precedence_of_bare .mul b hbare).1
  rw [honly] at hb'
  exact (ha.isProduct fun hbare => Nat.le_of_not_lt (of_decide_eq_false hbare)).times hb'

theorem conveys_division {op : BinOp} (hop : op = .div ∨ op = .floorDiv ∨ op = .mod)
    (hx : op.eval? v w = some x) : Conveys ρ t (.binary op a b) x := by
  have hprecedence : op.precedence = 4 := by rcases hop with rfl | rfl | rfl <;> rfl
  have hassociates : op.associates = false := by rcases hop with rfl | rfl | rfl <;> rfl
  have honly : (Expr.binary op a b).onlyFactors = false := by
    rcases hop with rfl | rfl | rfl <;> rfl
  refine .of_product hprecedence ?_
  rw [toList_text_binary, honly]
  refine (ha.isProduct fun hbare => ?_).divided (hb.isFactor fun hbare => ?_) hprecedence hx
  · have := of_decide_eq_false hbare
    omega
  · have := (precedence_of_bare hbare).2 hassociates
    omega

end Operators

/-- A reader finds in the text what the expression denotes. -/
theorem conveys (he : e.Arithmetic) (hg : e.grouped = true) (hv : e.eval? ρ = some v) :
    Conveys ρ t e v := by
  induction he generalizing v with
  | int k =>
      cases hv
      exact .of_factor (isFactor_int ρ k)
  | symbol h => exact .of_factor (isFactor_name h hv)
  | @neg e _ ih =>
      obtain ⟨x, hx, rfl⟩ := Option.map_eq_some_iff.mp hv
      have htext : ((Expr.neg e).text t).toList =
          '-' :: (parenthesized (e.precedence < 5) (e.text t)).toList := by
        simp [text]
      refine .of_factor (htext ▸ ((ih hg hx).isFactor ?_).negated)
      simp
  | @binary op a b _ _ iha ihb =>
      obtain ⟨x, hx, hv⟩ := Option.bind_eq_some_iff.mp hv
      obtain ⟨y, hy, hv⟩ := Option.bind_eq_some_iff.mp hv
      obtain ⟨hga, hgb, honly⟩ : a.grouped = true ∧ b.grouped = true ∧
          (op = .mul → b.onlyFactors = true) := by
        cases op <;> simp_all [grouped]
      have ha := iha hga hx
      have hb := ihb hgb hy
      cases op with
      | add => exact Option.some.inj hv ▸ conveys_add ha hb
      | sub => exact Option.some.inj hv ▸ conveys_sub ha hb
      | mul => exact Option.some.inj hv ▸ conveys_mul ha hb (honly rfl)
      | div => exact conveys_division ha hb (Or.inl rfl) hv
      | floorDiv => exact conveys_division ha hb (Or.inr (Or.inl rfl)) hv
      | mod => exact conveys_division ha hb (Or.inr (Or.inr rfl)) hv

theorem value?_text (he : e.Arithmetic) (hg : e.grouped = true) (hv : e.eval? ρ = some v) :
    value? ρ (e.text t) = some v := by
  obtain ⟨q, hq, hrun⟩ := (conveys (t := t) he hg hv).sum [] 0 [] stops_nil
  rw [List.append_nil] at hrun
  rw [value?, hrun]
  exact congrArg some (hq.trans (Int.zero_add v))

/-- Expressions of one text have one value. -/
theorem values_eq_of_text_eq {e f : Expr} (he : e.Arithmetic) (hf : f.Arithmetic)
    (hge : e.grouped = true) (hgf : f.grouped = true) (h : e.text t = f.text t)
    (hv : e.eval? ρ = some v) (hw : f.eval? ρ = some w) : v = w := by
  have hread := value?_text (t := t) he hge hv
  rw [h, value?_text hf hgf hw] at hread
  exact (Option.some.inj hread).symm

theorem values_eq_of_text_eq_chain :
    let e : Expr := .binary .add (.int (-3)) (.binary .add (.symbol "n")
      (.binary .mul (.symbol "k") (.binary .mul (.symbol "n") (.int 2))))
    let f : Expr := .binary .add (.binary .add (.neg (.int 3)) (.symbol "n"))
      (.binary .mul (.binary .mul (.symbol "k") (.symbol "n")) (.int 2))
    let ρ : String → Option Int := ([("n", 5), ("k", -4)].lookup ·)
    e.text .empty = "-3 + n + k * n * 2" ∧ f.text .empty = "-3 + n + k * n * 2" ∧
      ∃ v w, e.eval? ρ = some v ∧ f.eval? ρ = some w ∧ v = w := by
  intro e f ρ
  have hn : Names "n" := @names_of_identifier 'n' [] rfl nofun
  have hk : Names "k" := @names_of_identifier 'k' [] rfl nofun
  have he : e.Arithmetic := .binary _ (.int _) (.binary _ (.symbol hn)
    (.binary _ (.symbol hk) (.binary _ (.symbol hn) (.int _))))
  have hf : f.Arithmetic := .binary _ (.binary _ (.neg (.int _)) (.symbol hn))
    (.binary _ (.binary _ (.symbol hk) (.symbol hn)) (.int _))
  have hetext : e.text .empty = "-3 + n + k * n * 2" := by decide +kernel
  have hftext : f.text .empty = "-3 + n + k * n * 2" := by decide +kernel
  have hv : e.eval? ρ = some (-38) := rfl
  have hw : f.eval? ρ = some (-38) := rfl
  exact ⟨hetext, hftext, -38, -38, hv, hw,
    values_eq_of_text_eq he hf rfl rfl (hetext.trans hftext.symm) hv hw⟩

/-- A quotient on the right of a product is written as if the product came first. -/
theorem not_values_eq_of_text_eq :
    ∃ e f : Expr, e.Arithmetic ∧ f.Arithmetic ∧ e.text .empty = f.text .empty ∧
      ∃ ρ v w, e.eval? ρ = some v ∧ f.eval? ρ = some w ∧ v ≠ w := by
  have ha : Names "a" := @names_of_identifier 'a' [] rfl nofun
  have hb : Names "b" := @names_of_identifier 'b' [] rfl nofun
  have hc : Names "c" := @names_of_identifier 'c' [] rfl nofun
  exact ⟨.binary .mul (.symbol "a") (.binary .floorDiv (.symbol "b") (.symbol "c")),
    .binary .floorDiv (.binary .mul (.symbol "a") (.symbol "b")) (.symbol "c"),
    .binary _ (.symbol ha) (.binary _ (.symbol hb) (.symbol hc)),
    .binary _ (.binary _ (.symbol ha) (.symbol hb)) (.symbol hc), by decide +kernel,
    ([("a", 2), ("b", 1), ("c", 2)].lookup ·), 0, 1, rfl, rfl, by decide⟩

end Expr

namespace Scope

variable {s : Scope} {v w : Int}

theorem eval?_of_int {e : Expr} (he : e.Arithmetic) (h : s.int e = .ok v) :
    e.eval? s.bindings.find? = some v := by
  induction he generalizing v with
  | int k =>
      cases h
      rfl
  | symbol _ => exact known_eq_ok.mp h
  | neg _ ih =>
      obtain ⟨x, hx, h⟩ := bind_eq_ok.mp h
      obtain ⟨-, rfl⟩ := Word.checked_eq_some_iff.mp (fitting_eq_ok.mp h)
      exact Option.map_eq_some_iff.mpr ⟨x, ih hx, rfl⟩
  | binary op _ _ iha ihb =>
      obtain ⟨x, hx, h⟩ := bind_eq_ok.mp h
      obtain ⟨y, hy, h⟩ := bind_eq_ok.mp h
      exact Option.bind_eq_some_iff.mpr ⟨x, iha hx,
        Option.bind_eq_some_iff.mpr ⟨y, ihb hy, BinOp.eval?_of_apply h⟩⟩

theorem int_eq_of_text_eq {t : DimTable} {e f : Expr} (he : e.Arithmetic) (hf : f.Arithmetic)
    (hge : e.grouped = true) (hgf : f.grouped = true) (h : e.text t = f.text t)
    (hv : s.int e = .ok v) (hw : s.int f = .ok w) : v = w := by
  have hread := Expr.value?_text (t := t) he hge (eval?_of_int he hv)
  rw [h, Expr.value?_text hf hgf (eval?_of_int hf hw)] at hread
  exact (Option.some.inj hread).symm

end Scope

end LoopNest
