namespace DocModelLexer.Text

/-- No run of characters that is written is longer. -/
def maxLength : Nat := 0x40000000

inductive LengthError where
  /-- The number has more than 64 bits, sign included. -/
  | noLength
  | tooLong
  deriving DecidableEq, Repr, Inhabited

def LengthError.message : LengthError → String
  | noLength => "cannot fit 'int' into an index-sized integer"
  | tooLong => ""

/-- What is wrong with a number as the length of a run. A negative one stands for no character. -/
def lengthError? (n : Int) : Option LengthError :=
  if n < -0x8000000000000000 ∨ 0x8000000000000000 ≤ n then some .noLength
  else if maxLength < n then some .tooLong
  else none

end DocModelLexer.Text
