import DocModelLexer.Text.Split
import DocModelLexer.Token.Dump

namespace DocModelLexer

namespace Text

def natDecimal? (digits : List Char) : Option Nat :=
  if digits ≠ [] ∧ digits.all Char.isDigit then some (Nat.ofDigitChars 10 digits 0) else none

def decimal? (text : List Char) : Option Int :=
  match ['-'].isPrefixOf? text with
  | some digits => (natDecimal? digits).map Int.negOfNat
  | none => (natDecimal? text).map Int.ofNat

end Text

def TokenNames.typeOf? (names : TokenNames) (label : String) : Option Int :=
  (names.entries.find? (·.2 == label)).map (·.1)

namespace TokenRecord

/-- Reads a line and a column, and the tab behind them; no text is no place. -/
def readPlace (text : List Char) : Option (Option (Int × Int)) :=
  if text = [] then some none
  else do
    let place ← ['\t'].isSuffixOf? text
    match Text.splitOn ':' place with
    | [line, column] => return some (← Text.decimal? line, ← Text.decimal? column)
    | _ => none

def ofDumpLine? (names : TokenNames) (text : List Char) : Option TokenRecord := do
  let place ← readPlace (text.takeWhile (· != '\x7b'))
  let framed ← ['\x7b'].isPrefixOf? (text.dropWhile (· != '\x7b'))
  let label := String.ofList (framed.takeWhile (· != ','))
  let behind ← [',', ' ', '\x22'].isPrefixOf? (framed.dropWhile (· != ','))
  let value ← ['\x22', '\x7d'].isSuffixOf? behind
  return ⟨← names.typeOf? label, some label, String.ofList value, place⟩

end TokenRecord

/-- Reads a dump line by line. Behind the last line feed there must be nothing. -/
def undump? (names : TokenNames) (text : String) : Option (List TokenRecord) :=
  let lines := Text.splitOn '\n' text.toList
  if lines.getLast? = some [] then lines.dropLast.mapM (TokenRecord.ofDumpLine? names) else none

end DocModelLexer
