namespace DocModelLexer

/-- The number nearest to `n / d`; of two that are equally near, the even one. -/
def roundDiv (n d : Nat) : Nat :=
  if d < 2 * (n % d) ∨ (d = 2 * (n % d) ∧ (n / d) % 2 = 1) then n / d + 1 else n / d

def roundTo (unit n : Nat) : Nat := roundDiv n unit * unit

def doubleDigits : Nat := 1024

/-- The number of double precision nearest to `n`: one with 53 significant binary digits, unless
it has too many digits in all. -/
def nearestDouble? (n : Nat) : Option Nat :=
  let m := roundTo (Nat.pow 2 (n.log2 - 52)) n
  if m < Nat.pow 2 doubleDigits then some m else none

end DocModelLexer
