import DocModelLexer.Text.Integer
import DocModelLexer.Toml.Text
import DocModelLexer.Toml.Value

namespace DocModelLexer.Toml

def digitBelow? (base : Nat) (c : Char) : Option Nat := do
  let n ← hexValue? c
  if n < base then some n else none

/-- The longest run of digits with single underscores between them, and what follows it. The flag
tells whether a digit stands right before the text. -/
def digitRun (base : Nat) (afterDigit : Bool) : List Char → List Nat × List Char
  | [] => ([], [])
  | '_' :: rest =>
    if afterDigit && (rest.head?.bind (digitBelow? base)).isSome then digitRun base false rest
    else ([], '_' :: rest)
  | c :: rest =>
    match digitBelow? base c with
    | some n =>
      let (digits, rest) := digitRun base true rest
      (n :: digits, rest)
    | none => ([], c :: rest)

def digits? (base : Nat) (text : List Char) : Option (List Nat × List Char) :=
  match digitRun base false text with
  | ([], _) => none
  | r => some r

def letterBase? : Char → Option Nat
  | 'x' => some 16
  | 'o' => some 8
  | 'b' => some 2
  | _ => none

def lettered? : List Char → Option (Value × List Char)
  | '0' :: letter :: text => do
    let base ← letterBase? letter
    let (digits, rest) ← digits? base text
    return (.integer (Text.ofDigits base digits), rest)
  | _ => none

/-- A sign in front of a number; without one the number is positive. -/
def sign : List Char → Bool × List Char
  | '-' :: rest => (true, rest)
  | '+' :: rest => (false, rest)
  | text => (false, text)

/-- The digits before a point: a zero alone, or digits of which the first is not zero. -/
def wholePart? : List Char → Option (List Nat × List Char)
  | '0' :: rest => some ([0], rest)
  | text => digits? 10 text

def fraction? : List Char → Option (List Nat × List Char)
  | '.' :: text => digits? 10 text
  | _ => none

/-- An exponent: a letter, an optional sign, and digits. -/
def exponent? : List Char → Option ((Bool × List Nat) × List Char)
  | letter :: text =>
    if letter = 'e' ∨ letter = 'E' then do
      let (negative, text) := sign text
      let (digits, rest) ← digits? 10 text
      return ((negative, digits), rest)
    else none
  | [] => none

private def signText (negative : Bool) : String := if negative then "-" else ""

private def digitsText (digits : List Nat) : String := String.join (digits.map toString)

def wholeNumber (negative : Bool) (digits : List Nat) : Except Error Value :=
  let n : Nat := Text.ofDigits 10 digits
  if digits.length ≤ Text.maxDigits then
    .ok (.integer (if negative then -n else n))
  else .error (.tooManyDigits digits.length)

def decimal? (text : List Char) : Option (Except Error Value × List Char) := do
  let (negative, text) := sign text
  let (whole, rest) ← wholePart? text
  let (fraction, rest) := match fraction? rest with
    | some (digits, rest) => (some digits, rest)
    | none => (none, rest)
  let (exponent, rest) := match exponent? rest with
    | some (exponent, rest) => (some exponent, rest)
    | none => (none, rest)
  match fraction, exponent with
  | none, none => return (wholeNumber negative whole, rest)
  | _, _ =>
    let written := signText negative ++ digitsText whole ++
      (match fraction with
        | some digits => "." ++ digitsText digits
        | none => "") ++
      (match exponent with
        | some (negative, digits) => "e" ++ signText negative ++ digitsText digits
        | none => "")
    return (.ok (.float written), rest)

/-- Infinity and not a number, with an optional sign. -/
def named? (text : List Char) : Option (Value × List Char) :=
  match sign text with
  | (negative, 'i' :: 'n' :: 'f' :: rest) => some (.float (signText negative ++ "inf"), rest)
  | (negative, 'n' :: 'a' :: 'n' :: rest) => some (.float (signText negative ++ "nan"), rest)
  | _ => none

def number? (text : List Char) : Option (Except Error Value × List Char) :=
  match lettered? text with
  | some (value, rest) => some (.ok value, rest)
  | none =>
    match decimal? text with
    | some r => some r
    | none => (named? text).map fun (value, rest) => (.ok value, rest)

end DocModelLexer.Toml
