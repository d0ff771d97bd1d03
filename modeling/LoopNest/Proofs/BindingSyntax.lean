import LoopNest.CommandLine.Binding
/-!
# The grammar of bindings

A binding is read by splitting at an equals sign, trimming both sides and scanning digits.  What is
accepted, and as what, is said here without any of that: a text is cut into a name, blanks, an equals
sign, blanks and a numeral (`Binds`), and the numeral denotes an integer in base ten (`Denotes`).
Reading yields what the grammar says and nothing else, and tells apart the two ways in which a text
is no binding (`binding_followsGrammar`).

The name may be any text, the empty one included; further equals signs belong to the value and are
none.
-/

namespace LoopNest

/-! ## Blanks at the ends -/

namespace Text

/-- Neither the first nor the last character is a blank. -/
structure Bare (core : List Char) : Prop where
  head : ∀ c ∈ core.head?, isBlank c = false
  last : ∀ c ∈ core.getLast?, isBlank c = false

/-- The text consists of the bare one and blanks around it. -/
def Surrounds (text core : List Char) : Prop :=
  Bare core ∧ ∃ before after, text = before ++ core ++ after ∧
    (∀ c ∈ before, isBlank c = true) ∧ ∀ c ∈ after, isBlank c = true

theorem dropWhile_of_head {cs : List Char} (h : ∀ c ∈ cs.head?, isBlank c = false) :
    cs.dropWhile isBlank = cs := by
  cases cs with
  | nil => rfl
  | cons c cs => rw [List.dropWhile_cons_of_neg (by simp [h c rfl])]

theorem head_dropWhile {cs : List Char} : ∀ c ∈ (cs.dropWhile isBlank).head?, isBlank c = false := by
  intro c hc
  have h := List.head?_dropWhile_not isBlank cs
  rw [Option.mem_def.mp hc] at h
  exact h

theorem surrounds_trim (text : List Char) : Surrounds text (trim text) := by
  have hfront := List.takeWhile_append_dropWhile (p := isBlank) (l := text)
  have hback := List.takeWhile_append_dropWhile (p := isBlank)
    (l := (text.dropWhile isBlank).reverse)
  have hrest : text.dropWhile isBlank =
      trim text ++ ((text.dropWhile isBlank).reverse.takeWhile isBlank).reverse := by
    rw [trim, ← List.reverse_append, hback, List.reverse_reverse]
  refine ⟨⟨fun c hc => ?_, fun c hc => ?_⟩, text.takeWhile isBlank,
    ((text.dropWhile isBlank).reverse.takeWhile isBlank).reverse, ?_, ?_, ?_⟩
  · have hfirst : c ∈ (text.dropWhile isBlank).head? := by
      rw [hrest, List.head?_append, Option.mem_def.mp hc]
      rfl
    exact head_dropWhile c hfirst
  · rw [trim, List.getLast?_reverse] at hc
    exact head_dropWhile c hc
  · rw [List.append_assoc, ← hrest, hfront]
  · intro c hc
    exact List.all_eq_true.mp List.all_takeWhile c hc
  · intro c hc
    exact List.all_eq_true.mp List.all_takeWhile c (List.mem_reverse.mp hc)

/-- Trimming leaves the one bare text that the blanks stand around. -/
theorem surrounds_iff {text core : List Char} : Surrounds text core ↔ trim text = core := by
  constructor
  · rintro ⟨⟨hhead, hlast⟩, before, after, rfl, hbefore, hafter⟩
    have hback : ∀ c ∈ after.reverse, isBlank c = true := fun c hc =>
      hafter c (List.mem_reverse.mp hc)
    rw [trim, List.append_assoc, List.dropWhile_append_of_pos hbefore]
    cases core with
    | nil =>
        have hnil : after.dropWhile isBlank = [] := by
          rw [← List.append_nil after, List.dropWhile_append_of_pos hafter]
          rfl
        rw [List.nil_append, hnil]
        rfl
    | cons c core =>
        have hlast : ∀ x ∈ (c :: core).reverse.head?, isBlank x = false := by
          rw [List.head?_reverse]
          exact hlast
        have hfront : ∀ x ∈ (c :: core ++ after).head?, isBlank x = false := hhead
        rw [dropWhile_of_head hfront, List.reverse_append, List.dropWhile_append_of_pos hback,
          dropWhile_of_head hlast, List.reverse_reverse]
  · rintro rfl
    exact surrounds_trim text

theorem surrounds_self {core : List Char} (h : Bare core) : Surrounds core core :=
  ⟨h, [], [], (List.append_nil core).symm, by simp⟩

end Text

namespace CommandLine

/-! ## Numerals -/

/-- Decimal digits, at least one. -/
structure AreDigits (ds : List Char) : Prop where
  ne_nil : ds ≠ []
  isDigit : ∀ d ∈ ds, d.isDigit = true

/-- A numeral and the integer it denotes. -/
inductive Denotes : List Char → Int → Prop
  | bare {ds} (h : AreDigits ds) : Denotes ds (Nat.ofDigitChars 10 ds 0)
  | plus {ds} (h : AreDigits ds) : Denotes ('+' :: ds) (Nat.ofDigitChars 10 ds 0)
  | minus {ds} (h : AreDigits ds) : Denotes ('-' :: ds) (-Nat.ofDigitChars 10 ds 0)

theorem areDigits_iff {ds : List Char} :
    AreDigits ds ↔ (ds.isEmpty || !ds.all Char.isDigit) = false := by
  rw [Bool.or_eq_false_iff, List.isEmpty_eq_false_iff, Bool.not_eq_false', List.all_eq_true]
  exact ⟨fun h => ⟨h.ne_nil, h.isDigit⟩, fun h => ⟨h.1, h.2⟩⟩

theorem splitSign_of_areDigits {ds : List Char} (h : AreDigits ds) :
    Decimal.splitSign ds = (false, ds) := by
  unfold Decimal.splitSign
  split
  · exact absurd (h.isDigit '-' List.mem_cons_self) (by decide)
  · exact absurd (h.isDigit '+' List.mem_cons_self) (by decide)
  · rfl

theorem denotes_iff {cs : List Char} {v : Int} :
    Denotes cs v ↔ AreDigits (Decimal.splitSign cs).2 ∧
      v = if (Decimal.splitSign cs).1 then -(Decimal.natOfDigits (Decimal.splitSign cs).2 : Int)
        else Decimal.natOfDigits (Decimal.splitSign cs).2 := by
  constructor
  · intro h
    cases h with
    | bare h =>
        rw [splitSign_of_areDigits h]
        exact ⟨h, rfl⟩
    | plus h | minus h => exact ⟨h, rfl⟩
  · rintro ⟨h, rfl⟩
    unfold Decimal.splitSign at h ⊢
    split at h
    · exact .minus h
    · exact .plus h
    · exact .bare h

/-- A numeral is read where it denotes a word, as that word. -/
theorem integer?_eq_some_iff {cs : List Char} {v : Int} :
    integer? cs = some v ↔ Denotes cs v ∧ Word.Fits v := by
  rw [integer?, denotes_iff, areDigits_iff]
  generalize Decimal.splitSign cs = split
  obtain ⟨negative, ds⟩ := split
  cases hdigits : ds.isEmpty || !ds.all Char.isDigit with
  | true => simp [hdigits]
  | false =>
      simp only [hdigits, Bool.false_eq_true, if_false, Word.checked_eq_some_iff, true_and]
      constructor
      · rintro ⟨hfits, rfl⟩
        exact ⟨rfl, hfits⟩
      · rintro ⟨rfl, hfits⟩
        exact ⟨hfits, rfl⟩

theorem areDigits_toDigits (n : Nat) : AreDigits (Nat.toDigits 10 n) where
  ne_nil := Nat.toDigits_ne_nil
  isDigit := fun _ hd => Nat.isDigit_of_mem_toDigits (by decide) (by decide) hd

theorem denotes_toString (v : Int) : Denotes (toString v).toList v := by
  cases v with
  | ofNat n =>
      have htext : (toString (Int.ofNat n)).toList = Nat.toDigits 10 n := String.toList_ofList
      have h := Denotes.bare (areDigits_toDigits n)
      rw [Nat.ofDigitChars_toDigits (by decide) (by decide)] at h
      exact htext ▸ h
  | negSucc n =>
      have htext : (toString (Int.negSucc n)).toList = '-' :: Nat.toDigits 10 (n + 1) :=
        String.toList_append.trans (congrArg _ String.toList_ofList)
      have h := Denotes.minus (areDigits_toDigits (n + 1))
      rw [Nat.ofDigitChars_toDigits (by decide) (by decide)] at h
      exact htext ▸ h

theorem isBlank_of_isDigit {c : Char} (h : c.isDigit = true) : Text.isBlank c = false := by
  have hrange : 48 ≤ c.toNat ∧ c.toNat ≤ 57 := by
    simpa [Char.isDigit, UInt32.le_iff_toNat_le] using h
  simp only [Text.isBlank, Text.blankRanges, List.any_cons, List.any_nil, Bool.or_eq_false_iff,
    Bool.and_eq_false_iff, decide_eq_false_iff_not, and_true]
  omega

theorem Denotes.bare_ends {cs : List Char} {v : Int} (h : Denotes cs v) : Text.Bare cs := by
  have hdigit : ∀ {ds : List Char}, AreDigits ds → ∀ c ∈ ds, Text.isBlank c = false :=
    fun h c hc => isBlank_of_isDigit (h.isDigit c hc)
  have hall : ∀ c ∈ cs, Text.isBlank c = false := by
    cases h with
    | bare h => exact hdigit h
    | plus h => exact List.forall_mem_cons.mpr ⟨by decide, hdigit h⟩
    | minus h => exact List.forall_mem_cons.mpr ⟨by decide, hdigit h⟩
  exact ⟨fun c hc => hall c (List.mem_of_mem_head? hc),
    fun c hc => hall c (List.mem_of_mem_getLast? hc)⟩

/-! ## Bindings -/

/-- The text binds the name to the value.  The first equals sign stands between them. -/
def Binds (text name : String) (v : Int) : Prop :=
  ∃ left right numeral, text.toList = left ++ '=' :: right ∧ '=' ∉ left ∧
    Text.Surrounds left name.toList ∧ Text.Surrounds right numeral ∧ Denotes numeral v ∧ Word.Fits v

/-- A reader of bindings accepts what the grammar does, and otherwise says what is missing. -/
structure FollowsGrammar (read : String → Except BindingError (String × Int)) : Prop where
  accepts : ∀ text name v, read text = .ok (name, v) ↔ Binds text name v
  noEquals : ∀ text shown, read text = .error (.noEquals shown) ↔ shown = text ∧ '=' ∉ text.toList
  /-- Both parts are shown as they stand, with their blanks. -/
  badValue : ∀ text value name, read text = .error (.badValue value name) ↔
    text.toList = name.toList ++ '=' :: value.toList ∧ '=' ∉ name.toList ∧
      ∀ numeral v, Text.Surrounds value.toList numeral → Denotes numeral v → ¬Word.Fits v
  /-- What is written as a binding is read as that. -/
  written : ∀ name v, '=' ∉ name.toList → Text.Bare name.toList → Word.Fits v →
    read (name ++ "=" ++ toString v) = .ok (name, v)

theorem splitEquals?_eq_none_iff {cs : List Char} : splitEquals? cs = none ↔ '=' ∉ cs := by
  constructor
  · intro h hmem
    obtain ⟨left, right, hsplit, hleft⟩ := List.eq_append_cons_of_mem hmem
    rw [splitEquals?_eq_some_iff.mpr ⟨hsplit, hleft⟩] at h
    cases h
  · intro h
    cases hsplit : splitEquals? cs with
    | none => rfl
    | some parts =>
        obtain ⟨rfl, -⟩ := splitEquals?_eq_some_iff.mp hsplit
        exact absurd (List.mem_append_right _ List.mem_cons_self) h

theorem binding_of_split {text : String} {left right : List Char}
    (h : splitEquals? text.toList = some (left, right)) :
    binding text = match integer? (Text.trim right) with
      | some v => .ok (String.ofList (Text.trim left), v)
      | none => .error (.badValue (String.ofList right) (String.ofList left)) := by
  cases hvalue : integer? (Text.trim right) <;> simp only [binding, h, hvalue]

theorem binding_eq_ok_iff {text name : String} {v : Int} :
    binding text = .ok (name, v) ↔ Binds text name v := by
  constructor
  · intro h
    cases hsplit : splitEquals? text.toList with
    | none =>
        rw [binding, hsplit] at h
        cases h
    | some parts =>
        obtain ⟨left, right⟩ := parts
        rw [binding_of_split hsplit] at h
        split at h
        · rename_i w hvalue
          cases h
          obtain ⟨htext, hleft⟩ := splitEquals?_eq_some_iff.mp hsplit
          obtain ⟨hdenotes, hfits⟩ := integer?_eq_some_iff.mp hvalue
          refine ⟨left, right, Text.trim right, htext, hleft, ?_, Text.surrounds_trim right,
            hdenotes, hfits⟩
          rw [String.toList_ofList]
          exact Text.surrounds_trim left
        · cases h
  · rintro ⟨left, right, numeral, htext, hleft, hname, hnumeral, hdenotes, hfits⟩
    rw [binding_of_split (splitEquals?_eq_some_iff.mpr ⟨htext, hleft⟩),
      Text.surrounds_iff.mp hnumeral, integer?_eq_some_iff.mpr ⟨hdenotes, hfits⟩,
      Text.surrounds_iff.mp hname]
    show Except.ok (String.ofList name.toList, v) = _
    rw [String.ofList_toList]

theorem binding_eq_noEquals_iff {text shown : String} :
    binding text = .error (.noEquals shown) ↔ shown = text ∧ '=' ∉ text.toList := by
  rw [← splitEquals?_eq_none_iff]
  cases hsplit : splitEquals? text.toList with
  | none =>
      rw [binding, hsplit]
      constructor
      · intro h
        cases h
        exact ⟨rfl, rfl⟩
      · rintro ⟨rfl, -⟩
        rfl
  | some parts =>
      rw [binding_of_split hsplit]
      constructor
      · intro h
        split at h <;> cases h
      · rintro ⟨-, h⟩
        cases h

theorem integer?_trim_eq_none_iff {cs : List Char} :
    integer? (Text.trim cs) = none ↔
      ∀ numeral v, Text.Surrounds cs numeral → Denotes numeral v → ¬Word.Fits v := by
  constructor
  · intro h numeral v hnumeral hdenotes hfits
    rw [Text.surrounds_iff.mp hnumeral, integer?_eq_some_iff.mpr ⟨hdenotes, hfits⟩] at h
    cases h
  · intro h
    refine Option.eq_none_iff_forall_ne_some.mpr fun v hv => ?_
    obtain ⟨hdenotes, hfits⟩ := integer?_eq_some_iff.mp hv
    exact h _ v (Text.surrounds_trim cs) hdenotes hfits

theorem binding_eq_badValue_iff {text value name : String} :
    binding text = .error (.badValue value name) ↔
      text.toList = name.toList ++ '=' :: value.toList ∧ '=' ∉ name.toList ∧
        ∀ numeral v, Text.Surrounds value.toList numeral → Denotes numeral v → ¬Word.Fits v := by
  rw [← integer?_trim_eq_none_iff, ← and_assoc, ← splitEquals?_eq_some_iff]
  constructor
  · intro h
    cases hsplit : splitEquals? text.toList with
    | none =>
        rw [binding, hsplit] at h
        cases h
    | some parts =>
        rw [binding_of_split hsplit] at h
        split at h
        · cases h
        · rename_i hvalue
          cases h
          rw [String.toList_ofList, String.toList_ofList]
          exact ⟨rfl, hvalue⟩
  · rintro ⟨hsplit, hvalue⟩
    rw [binding_of_split hsplit, hvalue]
    show Except.error (BindingError.badValue _ _) = _
    rw [String.ofList_toList, String.ofList_toList]

/-- Reading a binding follows the grammar. -/
theorem binding_followsGrammar : FollowsGrammar binding where
  accepts _ _ _ := binding_eq_ok_iff
  noEquals _ _ := binding_eq_noEquals_iff
  badValue _ _ _ := binding_eq_badValue_iff
  written name v hname hbare hfits := by
    have htext : (name ++ "=" ++ toString v).toList = name.toList ++ '=' :: (toString v).toList := by
      rw [String.toList_append, String.toList_append, List.append_assoc]
      rfl
    have hdenotes := denotes_toString v
    exact binding_eq_ok_iff.mpr ⟨name.toList, _, _, htext, hname, Text.surrounds_self hbare,
      Text.surrounds_self hdenotes.bare_ends, hdenotes, hfits⟩

example : binding " stop = -2" = .ok ("stop", -2) := rfl

end CommandLine

end LoopNest
