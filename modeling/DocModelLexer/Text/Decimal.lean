import DocModelLexer.Rounding

namespace DocModelLexer.Text.Decimal

def joined (whole fraction : List Char) (pointKept : Bool) : List Char :=
  if fraction.isEmpty && !pointKept then whole else whole ++ '.' :: fraction

def fixed (places : Nat) (pointKept : Bool) (n : Nat) : List Char :=
  joined (Nat.toDigits 10 n) (List.replicate places '0') pointKept

/-- The digits of a number in which only the first `count` may differ from zero. -/
def significant (count n : Nat) : List Char :=
  Nat.toDigits 10 (roundTo (Nat.pow 10 ((Nat.toDigits 10 n).length - count)) n)

def exponent (mark : Char) (e : Nat) : List Char :=
  mark :: '+' :: (Nat.toDigits 10 e).leftpad 2 '0'

/-- One digit before the point, so many places behind it, and the power of ten. -/
def scientific (mark : Char) (places : Nat) (pointKept : Bool) (n : Nat) : List Char :=
  let digits := significant (places + 1) n
  let fraction := ((digits.drop 1).take places).rightpad places '0'
  joined (digits.take 1) fraction pointKept ++ exponent mark (digits.length - 1)

def withoutZeros (digits : List Char) : List Char :=
  (digits.reverse.dropWhile (· == '0')).reverse

/-- So many significant digits, as a power of ten if the number has more than that before the
point. Zeros at the end of the fraction are left out unless the point is kept. -/
def general (mark : Char) (count : Nat) (pointKept : Bool) (n : Nat) : List Char :=
  let count := max count 1
  let digits := significant count n
  if digits.length ≤ count then
    joined digits (if pointKept then List.replicate (count - digits.length) '0' else []) pointKept
  else
    let fraction := (digits.drop 1).take (count - 1)
    joined (digits.take 1) (if pointKept then fraction else withoutZeros fraction) pointKept ++
      exponent mark (digits.length - 1)

end DocModelLexer.Text.Decimal
