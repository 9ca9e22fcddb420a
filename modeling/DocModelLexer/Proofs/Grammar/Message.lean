import DocModelLexer.Fault
import DocModelLexer.Grammar.State

namespace DocModelLexer

namespace Text

/-- A template, arguments that fit its directives, and the text that comes out. -/
inductive Fills : List Char → List Argument → List Char → Prop where
  | nil : Fills [] [] []
  | plain (text : String) {rest args filled} : '%' ∉ text.toList → Fills rest args filled →
      Fills (text.toList ++ rest) args (text.toList ++ filled)
  | text (value : String) {rest args filled} : Fills rest args filled →
      Fills ('%' :: 's' :: rest) (.text value :: args) (value.toList ++ filled)
  | number (n : Int) {rest args filled} : Fills rest args filled →
      Fills ('%' :: 'd' :: rest) (.number n :: args) ((toString n).toList ++ filled)
  | code (n : Nat) {rest args filled} : Fills rest args filled →
      Fills ('%' :: '0' :: '4' :: 'X' :: rest) (.number n :: args)
        ((hexDigits 4 n).map Char.toUpper ++ filled)

variable {text rest filled : List Char} {i : Nat} {args : List Argument}

theorem fill_text (value : String) (index : Nat) :
    Field.fill {} 's' index (.text value) = .ok value.toList := by
  simp [Field.fill, Field.render, Field.pad, Field.clip, Argument.plain]

theorem toList_toString (n : Int) :
    (toString n).toList = (if n < 0 then ['-'] else []) ++ Nat.toDigits 10 n.natAbs := by
  cases n with
  | ofNat n =>
    have hn : ¬Int.ofNat n < 0 := by simp
    rw [if_neg hn]
    change (Nat.repr n).toList = _
    simp [Nat.repr]
  | negSucc n =>
    have hn : Int.negSucc n < 0 := by omega
    rw [if_pos hn]
    change ("-" ++ Nat.repr (n + 1)).toList = _
    simp [Nat.repr]

theorem fill_number (n : Int) (index : Nat) :
    Field.fill {} 'd' index (.number n) = .ok (toString n).toList := by
  rw [toList_toString]
  simp [Field.fill, Field.render, Field.integer, Field.signed, Field.pad]

theorem fill_code (n index : Nat) :
    Field.fill { zero := true, width := 4 } 'X' index (.number n) =
      .ok ((hexDigits 4 n).map Char.toUpper) := by
  have hn : ¬(n : Int) < 0 := by omega
  have hdigits : (hexDigits 4 n).map Char.toUpper =
      ((Nat.toDigits 16 n).map Char.toUpper).leftpad 4 '0' := by
    simp [hexDigits, List.leftpad]
  rw [hdigits]
  simp [Field.fill, Field.render, Field.integer, Field.signed, hn, maxLength]

theorem expandFrom_plain (htext : '%' ∉ text)
    (h : ∀ i, expandFrom rest i .plain args = .ok filled) :
    expandFrom (text ++ rest) i .plain args = .ok (text ++ filled) := by
  induction text generalizing i with
  | nil => exact h i
  | cons c text ih =>
    have hc : c ≠ '%' := fun hc => htext (by simp [hc])
    have htail : '%' ∉ text := fun hmem => htext (List.mem_cons_of_mem _ hmem)
    rw [List.cons_append, expandFrom, if_neg hc, ih htail]
    rfl

theorem expandFrom_letter {letter : Char} (hletter : letter = 's' ∨ letter = 'd') (a : Argument) :
    expandFrom ('%' :: letter :: rest) i .plain (a :: args) = (do
      let body ← Field.fill {} letter (i + 1) a
      return body ++ (← expandFrom rest (i + 2) .plain args)) := by
  rcases hletter with rfl | rfl <;> rfl

theorem expandFrom_code (a : Argument) :
    expandFrom ('%' :: '0' :: '4' :: 'X' :: rest) i .plain (a :: args) = (do
      let body ← Field.fill { zero := true, width := 4 } 'X' (i + 3) a
      return body ++ (← expandFrom rest (i + 4) .plain args)) := rfl

namespace Fills

theorem expandFrom_eq (h : Fills rest args filled) (i : Nat) :
    expandFrom rest i .plain args = .ok filled := by
  induction h generalizing i with
  | nil => rfl
  | plain text htext _ ih => exact expandFrom_plain htext ih
  | text value _ ih =>
    rw [expandFrom_letter (.inl rfl), fill_text, ih]
    rfl
  | number n _ ih =>
    rw [expandFrom_letter (.inr rfl), fill_number, ih]
    rfl
  | code n _ ih =>
    rw [expandFrom_code, fill_code, ih]
    rfl

theorem expand_eq {template : String} (h : Fills template.toList args filled) (hargs : args ≠ []) :
    expand template args = .ok (String.ofList filled) := by
  cases args with
  | nil => contradiction
  | cons a args =>
    change (expandFrom template.toList 0 .plain (a :: args)).map String.ofList = _
    rw [h.expandFrom_eq 0]
    rfl

end Fills

end Text

namespace Grammar.Error

/-- The template of a message, with the arguments that fill it. -/
def template : Error → String × List Text.Argument
  | .unexpected c =>
    ("Unexpected unicode character (U+%04X '%s') in outer context.",
      [.number c.toNat, .text (String.singleton c)])
  | .inconsistentDedent expected found =>
    ("Inconsistent dedent. Expecting %d but found %d.", [.number expected, .number found])
  | .runawayQuote text => ("Runaway quote: %s", [.text (String.ofList text)])
  | .malformedReference text => ("Malformed reference ellipsis: %s", [.text (String.ofList text)])

open Text (Fills)

theorem fills (e : Error) : Fills e.template.1.toList e.template.2 e.message.toList := by
  cases e with
  | unexpected c =>
    have hend := Fills.plain "') in outer context." (by simp) .nil
    have hchar := Fills.plain " '" (by simp) (.text (String.singleton c) hend)
    have h := Fills.plain "Unexpected unicode character (U+" (by simp) (.code c.toNat hchar)
    have hmessage : (unexpected c).message = "Unexpected unicode character (U+" ++
        String.ofList ((Text.hexDigits 4 c.toNat).map Char.toUpper) ++ " '" ++ String.singleton c ++
        "') in outer context." := rfl
    rw [hmessage]
    simpa [template] using h
  | inconsistentDedent expected found =>
    have hend := Fills.plain "." (by simp) .nil
    have hfound := Fills.plain " but found " (by simp) (.number found hend)
    have h := Fills.plain "Inconsistent dedent. Expecting " (by simp) (.number expected hfound)
    have hmessage : (inconsistentDedent expected found).message =
        "Inconsistent dedent. Expecting " ++ toString expected ++ " but found " ++ toString found ++
        "." := rfl
    rw [hmessage]
    simpa [template] using h
  | runawayQuote text =>
    have h := Fills.plain "Runaway quote: " (by simp) (.text (String.ofList text) .nil)
    have hmessage : (runawayQuote text).message = "Runaway quote: " ++ String.ofList text := rfl
    rw [hmessage]
    simpa [template] using h
  | malformedReference text =>
    have h := Fills.plain "Malformed reference ellipsis: " (by simp)
      (.text (String.ofList text) .nil)
    have hmessage : (malformedReference text).message =
        "Malformed reference ellipsis: " ++ String.ofList text := rfl
    rw [hmessage]
    simpa [template] using h

/-- Filling the template of an error gives its message. -/
theorem expand_template (e : Error) : Text.expand e.template.1 e.template.2 = .ok e.message := by
  rw [e.fills.expand_eq (by cases e <;> simp [template]), String.ofList_toList]

end Grammar.Error

end DocModelLexer
