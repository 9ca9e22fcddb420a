namespace DocModelLexer.Text

/-- Whether `n` lies in one of the ranges. As they increase, the search ends at the first range
that begins above `n`. -/
def inRanges : List (Nat × Nat) → Nat → Bool
  | [], _ => false
  | (lo, hi) :: rest, n => if n < lo then false else n ≤ hi || inRanges rest n

end DocModelLexer.Text
