import DocModelLexer.Text.Digit

namespace DocModelLexer.Text

def blankRanges : List (Nat × Nat) :=
  [(0x9, 0xd), (0x20, 0x20), (0x85, 0x85), (0xa0, 0xa0), (0x1680, 0x1680), (0x2000, 0x200a),
    (0x2028, 0x2029), (0x202f, 0x202f), (0x205f, 0x205f), (0x3000, 0x3000)]

def isBlank (c : Char) : Bool := inRanges blankRanges c.toNat

def trimBlanks (text : List Char) : List Char :=
  ((text.dropWhile isBlank).reverse.dropWhile isBlank).reverse

/-- A decimal number with more digits than this is not read. -/
def maxDigits : Nat := 4300

def ofDigits (base : Nat) (digits : List Nat) : Nat :=
  digits.foldl (fun n d => base * n + d) 0

/-- The values of digits that may have single underscores between them. -/
def digitValues? : List Char → Option (List Nat)
  | [] => none
  | [c] => (digitValue? c).map ([·])
  | c :: '_' :: cs => return (← digitValue? c) :: (← digitValues? cs)
  | c :: cs => return (← digitValue? c) :: (← digitValues? cs)

def natural? (text : List Char) : Option Nat := do
  let digits ← digitValues? text
  if digits.length ≤ maxDigits then some (ofDigits 10 digits) else none

/-- A number with an optional sign and blanks around it. -/
def integer? (text : List Char) : Option Int :=
  match trimBlanks text with
  | '-' :: digits => (natural? digits).map fun n => -n
  | '+' :: digits => (natural? digits).map fun n => n
  | digits => (natural? digits).map fun n => n

end DocModelLexer.Text
