import LoopNest.Word
import LoopNest.Decimal.Reading
import LoopNest.Text.Blank
/-!
# Bindings on the command line

A binding is a name, an equals sign and an integer that fits a word: an optional sign and decimal
digits. The first equals sign ends the name, and blanks around name and value do not count.
-/

namespace LoopNest.CommandLine

/-- Why a text is no binding. -/
inductive BindingError where
  | noEquals (text : String)
  | badValue (value name : String)
deriving DecidableEq, Repr

def BindingError.message : BindingError → String
  | .noEquals text => "invalid binding '" ++ text ++ "', expected name=value"
  | .badValue value name => "invalid value '" ++ value ++ "' for '" ++ name ++ "'"

/-- The integer that an optional sign and digits denote, if it fits a word. -/
def integer? (cs : List Char) : Option Int :=
  let (negative, ds) := Decimal.splitSign cs
  if ds.isEmpty || !ds.all Char.isDigit then none
  else
    let n : Int := Decimal.natOfDigits ds
    Word.checked (if negative then -n else n)

/-- The parts before and after the first equals sign, if there is one. -/
def splitEquals? (cs : List Char) : Option (List Char × List Char) :=
  match cs.dropWhile (· != '=') with
  | [] => none
  | _ :: right => some (cs.takeWhile (· != '='), right)

theorem takeWhile_dropWhile_of_split {left right : List Char} (absent : '=' ∉ left) :
    (left ++ '=' :: right).takeWhile (· != '=') = left ∧
      (left ++ '=' :: right).dropWhile (· != '=') = '=' :: right := by
  induction left with
  | nil => simp
  | cons c left ih =>
    obtain ⟨hc, absent⟩ := not_or.mp (mt List.mem_cons.mpr absent)
    have hc : (c != '=') = true := bne_iff_ne.mpr (Ne.symm hc)
    obtain ⟨before, after⟩ := ih absent
    simp [hc, before, after]

/-- The parts are rejoined by an equals sign, and the first has none. -/
theorem splitEquals?_eq_some_iff {cs left right : List Char} :
    splitEquals? cs = some (left, right) ↔ cs = left ++ '=' :: right ∧ '=' ∉ left := by
  constructor
  · intro found
    have rejoin := List.takeWhile_append_dropWhile (p := (· != '=')) (l := cs)
    unfold splitEquals? at found
    split at found
    · cases found
    · rename_i c rest after
      cases found
      have hc : (c != '=') = false := by
        have := List.head_dropWhile_not (l := cs) (· != '=') (by simp [after])
        simpa [after] using this
      have hc : c = '=' := by simpa using hc
      subst hc
      refine ⟨by rw [← after, rejoin], fun h => ?_⟩
      have := List.all_eq_true.mp (List.all_takeWhile (p := (· != '=')) (l := cs)) '=' h
      simp at this
  · rintro ⟨rfl, absent⟩
    obtain ⟨before, after⟩ := @takeWhile_dropWhile_of_split left right absent
    simp [splitEquals?, before, after]

/-- The name and the value of a binding. -/
def binding (text : String) : Except BindingError (String × Int) :=
  match splitEquals? text.toList with
  | none => .error (.noEquals text)
  | some (left, right) =>
    match integer? (Text.trim right) with
    | some v => .ok (String.ofList (Text.trim left), v)
    | none => .error (.badValue (String.ofList right) (String.ofList left))

end LoopNest.CommandLine
