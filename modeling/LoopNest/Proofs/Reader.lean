import LoopNest.Expr.Text
/-!
# Working a text out

Parentheses in a text are there to be read.  A reader works the text of an arithmetic expression out
from left to right, products before sums: it knows the sum so far with the term that may go on, and
puts all of that aside while it is inside parentheses (`Reading.step`).

What a piece of text does to a reader is said three times over, for a text that stands as one
factor (`Reading.IsFactor`), as several factors of one product (`Reading.IsProduct`), or as several
terms of one sum (`Reading.IsSum`).  Each operator joins two of these to a third.
-/

namespace LoopNest

/-- The value of an operator on integers of any size. -/
def BinOp.eval? : BinOp → Int → Int → Option Int
  | .add, a, b => some (a + b)
  | .sub, a, b => some (a - b)
  | .mul, a, b => some (a * b)
  | .div, a, b | .floorDiv, a, b => if b = 0 then none else some (a.fdiv b)
  | .mod, a, b => if b = 0 then none else some (a % b)

/-! ## Reading a text -/

namespace Reading

/-- The least parts of a text: signs of one character and words between them. -/
inductive Token where
  | blank
  | opening
  | closing
  | plus
  | minus
  | times
  | stroke
  | percent
  | word (cs : List Char)

/-- The sign that a character is. -/
def mark? : Char → Option Token
  | ' ' => some .blank
  | '(' => some .opening
  | ')' => some .closing
  | '+' => some .plus
  | '-' => some .minus
  | '*' => some .times
  | '/' => some .stroke
  | '%' => some .percent
  | _ => none

/-- The parts of a text.  A word ends where a sign stands. -/
def tokens : List Char → List Token
  | [] => []
  | c :: cs =>
    match mark? c with
    | some m => m :: tokens cs
    | none =>
      match tokens cs with
      | .word w :: ts => .word (c :: w) :: ts
      | ts => .word [c] :: ts

/-- A sum of which the last term may go on. -/
structure Sum where
  /-- All terms but the last. -/
  terms : Int
  /-- The sign of the last term. -/
  sign : Int
  /-- The last term as far as it has been read. -/
  product : Int

def Sum.value (q : Sum) : Int := q.terms + q.sign * q.product

/-- A sum of which the last term does go on: with the operator, the sign in front of the next
factor, and the factor itself, which is to come. -/
structure Pending extends Sum where
  op : BinOp
  negation : Int

/-- The sum goes on with another term. -/
def Pending.term (terms sign : Int) : Pending := ⟨⟨terms, sign, 1⟩, .mul, 1⟩

/-- The factor has come. -/
def Pending.join? (p : Pending) (v : Int) : Option Sum :=
  (p.op.eval? p.product (p.negation * v)).map fun x => ⟨p.terms, p.sign, x⟩

/-- What a reader expects next. -/
inductive Phase where
  | operand (p : Pending)
  | operator (q : Sum)

/-- Where a reader is: what has been read, and what had been before each parenthesis that is still
open, innermost first. -/
structure Reader where
  outer : List Pending
  phase : Phase

/-- The value of a word: that of a number, if it begins with a digit, or of a scalar. -/
def wordValue? (ρ : String → Option Int) : List Char → Option Int
  | [] => none
  | c :: cs =>
    if c.isDigit then some (Nat.ofDigitChars 10 (c :: cs) 0) else ρ (String.ofList (c :: cs))

/-- What a reader expects after an operator. -/
def after (q : Sum) : BinOp → Pending
  | .add => .term q.value 1
  | .sub => .term q.value (-1)
  | op => ⟨q, op, 1⟩

/-- What a reader makes of one more part.  A sign in front of an operand is its own, and a stroke
there the second one of a division. -/
def step (ρ : String → Option Int) : Reader → Token → Option Reader
  | r, .blank => some r
  | ⟨outer, .operand p⟩, .word w =>
    (wordValue? ρ w).bind fun v => (p.join? v).map fun q => ⟨outer, .operator q⟩
  | ⟨outer, .operand p⟩, .minus => some ⟨outer, .operand { p with negation := -p.negation }⟩
  | ⟨outer, .operand p⟩, .stroke => some ⟨outer, .operand { p with op := .floorDiv }⟩
  | ⟨outer, .operand p⟩, .opening => some ⟨p :: outer, .operand (.term 0 1)⟩
  | ⟨p :: outer, .operator q⟩, .closing => (p.join? q.value).map fun q' => ⟨outer, .operator q'⟩
  | ⟨outer, .operator q⟩, .plus => some ⟨outer, .operand (after q .add)⟩
  | ⟨outer, .operator q⟩, .minus => some ⟨outer, .operand (after q .sub)⟩
  | ⟨outer, .operator q⟩, .times => some ⟨outer, .operand (after q .mul)⟩
  | ⟨outer, .operator q⟩, .stroke => some ⟨outer, .operand (after q .div)⟩
  | ⟨outer, .operator q⟩, .percent => some ⟨outer, .operand (after q .mod)⟩
  | _, _ => none

/-- Where a reader gets from a place in a text. -/
def run (ρ : String → Option Int) (r : Reader) (cs : List Char) : Option Reader :=
  (tokens cs).foldlM (step ρ) r

/-- What a reader finds in a text. -/
def value? (ρ : String → Option Int) (text : String) : Option Int :=
  match run ρ ⟨[], .operand (.term 0 1)⟩ text.toList with
  | some ⟨[], .operator q⟩ => some q.value
  | _ => none

/-! ## Parts of a text -/

/-- What follows does not go on with a word. -/
def Stops (rest : List Char) : Prop := ∀ c ∈ rest.head?, mark? c ≠ none

theorem stops_nil : Stops [] := nofun

theorem stops_mark {c : Char} {rest : List Char} (h : mark? c ≠ none) : Stops (c :: rest) := by
  intro c' hc
  cases hc
  exact h

theorem stops_blank (rest : List Char) : Stops (' ' :: rest) := stops_mark nofun

theorem tokens_mark {c : Char} {m : Token} (h : mark? c = some m) (cs : List Char) :
    tokens (c :: cs) = m :: tokens cs := by
  rw [tokens, h]

theorem mark?_ne_word {c : Char} {w : List Char} : mark? c ≠ some (.word w) := by
  unfold mark?
  split <;> nofun

theorem Stops.tokens_ne_word {rest : List Char} (h : Stops rest) (w : List Char)
    (ts : List Token) : tokens rest ≠ .word w :: ts := by
  cases rest with
  | nil => nofun
  | cons c cs =>
      obtain ⟨m, hm⟩ := Option.ne_none_iff_exists'.mp (h c rfl)
      rw [tokens_mark hm]
      intro heq
      exact mark?_ne_word (hm.trans (congrArg some (List.cons.inj heq).1))

theorem tokens_word {rest : List Char} (hrest : Stops rest) : ∀ {c : Char} {cs : List Char},
    (∀ x ∈ c :: cs, mark? x = none) → tokens (c :: cs ++ rest) = .word (c :: cs) :: tokens rest
  | c, [], h => by
      rw [List.cons_append, List.nil_append, tokens, h c List.mem_cons_self]
      dsimp only
      split
      · rename_i w ts heq
        exact absurd heq (hrest.tokens_ne_word w ts)
      · rfl
  | c, d :: cs, h => by
      have ih := tokens_word hrest (fun x hx => h x (List.mem_cons_of_mem _ hx))
      rw [List.cons_append, tokens, h c List.mem_cons_self, ih]

section Run

variable {ρ : String → Option Int}

theorem run_mark {c : Char} {m : Token} (h : mark? c = some m) {r r' : Reader}
    (hstep : step ρ r m = some r') (cs : List Char) : run ρ r (c :: cs) = run ρ r' cs := by
  rw [run, tokens_mark h, List.foldlM_cons, hstep]
  rfl

theorem run_blank (r : Reader) (cs : List Char) : run ρ r (' ' :: cs) = run ρ r cs :=
  run_mark rfl (by cases r; rfl) cs

theorem run_op (op : BinOp) (outer : List Pending) (q : Sum) (cs : List Char) :
    run ρ ⟨outer, .operator q⟩ (' ' :: (op.text.toList ++ ' ' :: cs)) =
      run ρ ⟨outer, .operand (after q op)⟩ cs := by
  rw [run_blank]
  cases op with
  | floorDiv => exact (run_mark rfl rfl _).trans ((run_mark rfl rfl _).trans (run_blank _ cs))
  | _ => exact (run_mark rfl rfl _).trans (run_blank _ cs)

/-- A text that stands as a factor of a product. -/
def IsFactor (ρ : String → Option Int) (cs : List Char) (v : Int) : Prop :=
  ∀ outer p q rest, Stops rest → p.join? v = some q →
    run ρ ⟨outer, .operand p⟩ (cs ++ rest) = run ρ ⟨outer, .operator q⟩ rest

/-- A text that goes on with a product: with the factors of the product if there are no others, or
else only with something that is to be multiplied. -/
def IsProduct (ρ : String → Option Int) (onlyFactors : Bool) (cs : List Char) (v : Int) : Prop :=
  ∀ outer q rest, Stops rest → q.product = 1 ∨ onlyFactors = true →
    run ρ ⟨outer, .operand ⟨q, .mul, 1⟩⟩ (cs ++ rest) =
      run ρ ⟨outer, .operator ⟨q.terms, q.sign, q.product * v⟩⟩ rest

/-- A text that goes on with a sum. -/
def IsSum (ρ : String → Option Int) (cs : List Char) (v : Int) : Prop :=
  ∀ outer terms rest, Stops rest → ∃ q : Sum, q.value = terms + v ∧
    run ρ ⟨outer, .operand (.term terms 1)⟩ (cs ++ rest) = run ρ ⟨outer, .operator q⟩ rest

variable {cs ds : List Char} {v w x : Int} {only : Bool}

theorem IsFactor.isProduct (h : IsFactor ρ cs v) : IsProduct ρ only cs v := by
  intro outer q rest hrest _
  refine h outer _ _ rest hrest ?_
  simp [Pending.join?, BinOp.eval?]

theorem IsProduct.isSum (h : IsProduct ρ only cs v) : IsSum ρ cs v := by
  intro outer terms rest hrest
  refine ⟨⟨terms, 1, 1 * v⟩, ?_, h outer ⟨terms, 1, 1⟩ rest hrest (Or.inl rfl)⟩
  simp [Sum.value]

theorem IsSum.parenthesized (h : IsSum ρ cs v) : IsFactor ρ ('(' :: (cs ++ [')'])) v := by
  intro outer p q rest hrest hq
  obtain ⟨q', hvalue, hrun⟩ := h (p :: outer) 0 (')' :: rest) (stops_mark nofun)
  rw [Int.zero_add] at hvalue
  rw [List.cons_append, List.append_assoc, List.singleton_append, run_mark rfl rfl, hrun]
  refine run_mark rfl ?_ rest
  rw [step, hvalue, hq, Option.map_some]

theorem IsFactor.negated (h : IsFactor ρ cs v) : IsFactor ρ ('-' :: cs) (-v) := by
  intro outer p q rest hrest hq
  rw [List.cons_append, run_mark rfl rfl]
  refine h outer _ q rest hrest ?_
  rw [← hq, Pending.join?, Pending.join?, Int.neg_mul, Int.mul_neg]

theorem isFactor_word {c : Char} (hw : ∀ x ∈ c :: cs, mark? x = none)
    (hv : wordValue? ρ (c :: cs) = some v) : IsFactor ρ (c :: cs) v := by
  intro outer p q rest hrest hq
  rw [run, tokens_word hrest hw, List.foldlM_cons, step, hv, Option.bind_some, hq]
  rfl

/-- Two texts with an operator between them. -/
def joined (op : BinOp) (cs ds : List Char) : List Char :=
  cs ++ ' ' :: (op.text.toList ++ ' ' :: ds)

theorem joined_append (op : BinOp) (cs ds rest : List Char) :
    joined op cs ds ++ rest = cs ++ ' ' :: (op.text.toList ++ ' ' :: (ds ++ rest)) := by
  simp [joined]

theorem IsProduct.times (h : IsProduct ρ only cs v) (h' : IsProduct ρ true ds w) :
    IsProduct ρ only (joined .mul cs ds) (v * w) := by
  intro outer q rest hrest honly
  rw [joined_append, h outer q _ (stops_blank _) honly, run_op]
  refine (h' outer _ rest hrest (Or.inr rfl)).trans ?_
  rw [Int.mul_assoc]

/-- A quotient or a remainder, of a product that has begun with its first factor. -/
theorem IsProduct.divided {op : BinOp} (h : IsProduct ρ only cs v) (h' : IsFactor ρ ds w)
    (hop : op.precedence = 4) (hx : op.eval? v w = some x) :
    IsProduct ρ false (joined op cs ds) x := by
  intro outer q rest hrest honly
  have hone : q.product = 1 := honly.resolve_right nofun
  rw [joined_append, h outer q _ (stops_blank _) (Or.inl hone), run_op, hone]
  refine h' outer _ _ rest hrest ?_
  cases op <;> simp_all [after, Pending.join?, BinOp.precedence]

theorem IsSum.plus (h : IsSum ρ cs v) (h' : IsSum ρ ds w) :
    IsSum ρ (joined .add cs ds) (v + w) := by
  intro outer terms rest hrest
  obtain ⟨q, hq, hrun⟩ :=
    h outer terms _ (stops_blank (BinOp.add.text.toList ++ ' ' :: (ds ++ rest)))
  obtain ⟨q', hq', hrun'⟩ := h' outer q.value rest hrest
  refine ⟨q', by omega, ?_⟩
  rw [joined_append, hrun, run_op]
  exact hrun'

theorem IsSum.minus (h : IsSum ρ cs v) (h' : IsProduct ρ only ds w) :
    IsSum ρ (joined .sub cs ds) (v - w) := by
  intro outer terms rest hrest
  obtain ⟨q, hq, hrun⟩ :=
    h outer terms _ (stops_blank (BinOp.sub.text.toList ++ ' ' :: (ds ++ rest)))
  refine ⟨⟨q.value, -1, 1 * w⟩, ?_, ?_⟩
  · simp only [Sum.value] at hq ⊢
    omega
  · rw [joined_append, hrun, run_op]
    exact h' outer ⟨q.value, -1, 1⟩ rest hrest (Or.inl rfl)

/-! ## Operands -/

theorem mark?_of_isDigit {c : Char} (h : c.isDigit = true) : mark? c = none := by
  unfold mark?
  split <;> simp_all [Char.isDigit]

theorem isFactor_nat (ρ : String → Option Int) (n : Nat) :
    IsFactor ρ (Nat.toDigits 10 n) n := by
  have hdigits : ∀ c ∈ Nat.toDigits 10 n, c.isDigit = true := fun c hc =>
    Nat.isDigit_of_mem_toDigits (by decide) (by decide) hc
  have hvalue : Nat.ofDigitChars 10 (Nat.toDigits 10 n) 0 = n :=
    Nat.ofDigitChars_toDigits (by decide) (by decide)
  have hne : Nat.toDigits 10 n ≠ [] := Nat.toDigits_ne_nil
  generalize Nat.toDigits 10 n = cs at hdigits hvalue hne
  cases cs with
  | nil => exact absurd rfl hne
  | cons c cs =>
      refine isFactor_word (fun x hx => mark?_of_isDigit (hdigits x hx)) ?_
      rw [wordValue?, if_pos (hdigits c List.mem_cons_self), hvalue]

theorem isDigit_of_isAlpha {c : Char} (h : c.isAlpha = true) : c.isDigit = false := by
  delta Char.isAlpha Char.isUpper Char.isLower at h
  delta Char.isDigit
  grind

/-- The name of a scalar is a word, and no number. -/
structure Names (name : String) : Prop where
  nonempty : name ≠ ""
  not_digit : ∀ c ∈ name.toList.head?, c.isDigit = false
  unmarked : ∀ c ∈ name.toList, mark? c = none

theorem names_of_identifier {c : Char} {cs : List Char} (hc : c.isAlpha = true)
    (hcs : ∀ x ∈ cs, x.isAlphanum = true ∨ x = '_') : Names (String.ofList (c :: cs)) := by
  have hunmarked : ∀ x, x.isAlphanum = true ∨ x = '_' → mark? x = none := by
    intro x hx
    unfold mark?
    split <;> first
      | rfl
      | exact absurd hx (by decide)
  have hall : ∀ x ∈ c :: cs, x.isAlphanum = true ∨ x = '_' :=
    List.forall_mem_cons.mpr ⟨Or.inl (by rw [Char.isAlphanum, hc, Bool.true_or]), hcs⟩
  refine ⟨by simp, ?_, fun x hx => hunmarked x (hall x ?_)⟩
  · intro x hx
    rw [String.toList_ofList] at hx
    cases hx
    exact isDigit_of_isAlpha hc
  · rwa [String.toList_ofList] at hx

theorem isFactor_name {name : String} (h : Names name) (hv : ρ name = some v) :
    IsFactor ρ name.toList v := by
  obtain ⟨hne, hdigit, hmark⟩ := h
  have hname : String.ofList name.toList = name := String.ofList_toList
  cases hcs : name.toList with
  | nil => exact absurd (String.toList_eq_nil_iff.mp hcs) hne
  | cons c cs =>
      rw [hcs] at hdigit hmark hname
      refine isFactor_word hmark ?_
      rw [wordValue?, if_neg (by simp [hdigit c rfl]), hname, hv]

theorem isFactor_int (ρ : String → Option Int) (v : Int) : IsFactor ρ (toString v).toList v := by
  cases v with
  | ofNat n =>
      have htext : (toString (Int.ofNat n)).toList = Nat.toDigits 10 n := String.toList_ofList
      exact htext ▸ isFactor_nat ρ n
  | negSucc n =>
      have htext : (toString (Int.negSucc n)).toList = '-' :: Nat.toDigits 10 (n + 1) :=
        String.toList_append.trans (congrArg _ String.toList_ofList)
      rw [htext]
      exact (isFactor_nat ρ (n + 1)).negated

end Run

end Reading

end LoopNest
