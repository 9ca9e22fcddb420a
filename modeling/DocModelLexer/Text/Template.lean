import DocModelLexer.Text.Decimal
import DocModelLexer.Text.Length
import DocModelLexer.Text.Quoted

namespace DocModelLexer.Text

inductive Argument where
  | text (value : String)
  | number (value : Int)
  deriving DecidableEq, Repr, Inhabited

inductive TemplateError where
  | tooFewArguments
  | tooManyArguments
  | needsTable
  | starNeedsNumber
  | notANumber (directive : Char)
  | notAnInteger (directive : Char)
  | notReal
  | notACharacter
  | characterOutOfRange
  | tooLargeForReal
  | widthTooBig
  | precisionTooBig
  | givenWidthTooBig
  | givenPrecisionTooBig
  | tooManyDigits
  | tooLong
  | incomplete
  | unknownDirective (directive : Char) (index : Nat)
  deriving DecidableEq, Repr, Inhabited

def TemplateError.message : TemplateError → String
  | .tooFewArguments => "not enough arguments for format string"
  | .tooManyArguments => "not all arguments converted during string formatting"
  | .needsTable => "format requires a mapping"
  | .starNeedsNumber => "* wants int"
  | .notANumber d => s!"%{d} format: a real number is required, not str"
  | .notAnInteger d => s!"%{d} format: an integer is required, not str"
  | .notReal => "must be real number, not str"
  | .notACharacter => "%c requires int or char"
  | .characterOutOfRange => "%c arg not in range(0x110000)"
  | .tooLargeForReal => "int too large to convert to float"
  | .widthTooBig => "width too big"
  | .precisionTooBig => "precision too big"
  | .givenWidthTooBig => "Python int too large to convert to C ssize_t"
  | .givenPrecisionTooBig => "Python int too large to convert to C int"
  | .tooManyDigits => "precision too large"
  | .tooLong => ""
  | .incomplete => "incomplete format"
  | .unknownDirective d i =>
    let shown := if 31 ≤ d.toNat ∧ d.toNat < 127 then d else '?'
    let code := String.ofList (hexDigits 1 d.toNat)
    s!"unsupported format character '{shown}' (0x{code}) at index {i}"

structure Field where
  left : Bool := false
  plus : Bool := false
  blank : Bool := false
  marked : Bool := false
  zero : Bool := false
  width : Nat := 0
  precision : Option Nat := none
  deriving DecidableEq, Repr, Inhabited

/-- The largest width and the largest precision of a directive. -/
def maxWidth : Nat := 0x7FFFFFFFFFFFFFFF

def maxPrecision : Nat := 0x7FFFFFFF

def maxDigitCount : Nat := maxPrecision - 3

def Field.withWidth (f : Field) (n : Nat) : Except TemplateError Field :=
  if n ≤ maxWidth then .ok { f with width := n } else .error .widthTooBig

def Field.withPrecision (f : Field) (n : Nat) : Except TemplateError Field :=
  if n ≤ maxPrecision then .ok { f with precision := some n } else .error .precisionTooBig

/-- A width from the arguments; a negative one aligns to the left. The one negative width whose
absolute value is too big counts as none. -/
def Field.withGivenWidth (f : Field) (n : Int) : Except TemplateError Field :=
  if n < -maxWidth - 1 ∨ maxWidth < n then .error .givenWidthTooBig
  else
    let width := if n.natAbs ≤ maxWidth then n.natAbs else 0
    .ok { f with left := f.left || n < 0, width }

/-- A precision from the arguments; a negative one counts as zero. -/
def Field.withGivenPrecision (f : Field) (n : Int) : Except TemplateError Field :=
  if n < -maxPrecision - 1 ∨ maxPrecision < n then .error .givenPrecisionTooBig
  else .ok { f with precision := some n.toNat }

inductive FieldPart where
  /-- Right behind the percent sign. Another one there stands for itself, and a bracket there asks
  for an argument by name. -/
  | start
  | flags
  | width
  | afterWidth
  | precisionStart
  | precision
  | afterPrecision
  | letter
  deriving DecidableEq, Repr, Inhabited

inductive Reading where
  | plain
  | field (part : FieldPart) (field : Field)
  deriving DecidableEq, Repr, Inhabited

def Field.pad (f : Field) (body : List Char) : List Char :=
  if f.left then body.rightpad f.width ' ' else body.leftpad f.width ' '

/-- A number: sign, mark and digits; the zero flag fills the width with zeros before the digits. -/
def Field.signed (f : Field) (negative : Bool) (mark digits : List Char) : List Char :=
  let sign := if negative then ['-'] else if f.plus then ['+'] else if f.blank then [' '] else []
  let front := sign ++ mark
  if f.zero && !f.left then front ++ digits.leftpad (f.width - front.length) '0'
  else f.pad (front ++ digits)

/-- An integer, with at least `precision` digits behind the mark of its base. -/
def Field.integer (f : Field) (base : Nat) (mark : List Char) (upper : Bool) (n : Int) :
    Except TemplateError (List Char) :=
  let precision := f.precision.getD 0
  if maxDigitCount < precision then .error .tooManyDigits
  else if maxLength < precision then .error .tooLong
  else
    let digits := Nat.toDigits base n.natAbs
    let digits := if upper then digits.map Char.toUpper else digits
    .ok (f.signed (n < 0) (if f.marked then mark else []) (digits.leftpad precision '0'))

inductive RealStyle where
  | fixed
  | scientific
  | general
  deriving DecidableEq, Repr, Inhabited

/-- How many digits a real number gets, behind the point or in all: six unless the field has a
precision. The largest precision counts as none for a power of ten. -/
def Field.places (f : Field) (style : RealStyle) : Nat :=
  let precision := f.precision.getD 6
  if style = .scientific ∧ precision = maxPrecision then 0 else precision

/-- An integer written as a real number, after rounding to double precision. -/
def Field.real (f : Field) (style : RealStyle) (mark : Char) (n : Int) :
    Except TemplateError (List Char) :=
  match nearestDouble? n.natAbs with
  | none => .error .tooLargeForReal
  | some m =>
    let places := f.places style
    if maxLength < places ∧ (style ≠ .general ∨ f.marked) then .error .tooLong
    else
      let digits := match style with
        | .fixed => Decimal.fixed places f.marked m
        | .scientific => Decimal.scientific mark places f.marked m
        | .general => Decimal.general mark places f.marked m
      .ok (f.signed (n < 0) [] digits)

def Argument.plain : Argument → List Char
  | .text s => s.toList
  | .number n => (toString n).toList

def Argument.shown : Argument → List Char
  | .text s => (quoted s).toList
  | .number n => (toString n).toList

/-- The quoted form with everything outside ASCII escaped too. -/
def Argument.shownAscii (a : Argument) : List Char :=
  a.shown.flatMap fun c =>
    if c.toNat < 0x80 then [c]
    else if c.toNat < 0x100 then '\\' :: 'x' :: hexDigits 2 c.toNat
    else if c.toNat < 0x10000 then '\\' :: 'u' :: hexDigits 4 c.toNat
    else '\\' :: 'U' :: hexDigits 8 c.toNat

def Field.clip (f : Field) (body : List Char) : List Char :=
  match f.precision with
  | none => body
  | some n => body.take n

def Field.render (f : Field) (letter : Char) (index : Nat) (a : Argument) :
    Except TemplateError (List Char) :=
  match letter, a with
  | 's', a => .ok (f.pad (f.clip a.plain))
  | 'r', a => .ok (f.pad (f.clip a.shown))
  | 'a', a => .ok (f.pad (f.clip a.shownAscii))
  | 'd', .number n | 'i', .number n | 'u', .number n => f.integer 10 [] false n
  | 'o', .number n => f.integer 8 ['0', 'o'] false n
  | 'x', .number n => f.integer 16 ['0', 'x'] false n
  | 'X', .number n => f.integer 16 ['0', 'X'] true n
  | 'f', .number n | 'F', .number n => f.real .fixed letter n
  | 'e', .number n | 'E', .number n => f.real .scientific letter n
  | 'g', .number n => f.real .general 'e' n
  | 'G', .number n => f.real .general 'E' n
  | 'd', .text _ | 'i', .text _ | 'u', .text _ => .error (.notANumber letter)
  | 'o', .text _ | 'x', .text _ | 'X', .text _ => .error (.notAnInteger letter)
  | 'f', .text _ | 'F', .text _ | 'e', .text _ | 'E', .text _ | 'g', .text _ | 'G', .text _ =>
    .error .notReal
  | 'c', .text s =>
    match s.toList with
    | [c] => .ok (f.pad [c])
    | _ => .error .notACharacter
  | 'c', .number n =>
    if 0 ≤ n ∧ n < 0x110000 then .ok (f.pad [Char.ofNat n.toNat]) else .error .characterOutOfRange
  | letter, _ => .error (.unknownDirective letter index)

/-- Fills the directive `letter`. A width beyond all texts is refused, but any other fault of the
directive comes first. -/
def Field.fill (f : Field) (letter : Char) (index : Nat) (a : Argument) :
    Except TemplateError (List Char) :=
  if f.width ≤ maxLength then f.render letter index a
  else do
    let _ ← { f with width := 0 }.render letter index a
    throw .tooLong

/-- Fills a template from `index` on. The arguments are used up in order, and none may be left. -/
def expandFrom : List Char → Nat → Reading → List Argument → Except TemplateError (List Char)
  | [], _, .plain, [] => .ok []
  | [], _, .plain, _ :: _ => .error .tooManyArguments
  | [], _, .field .., _ => .error .incomplete
  | c :: cs, i, .plain, args =>
    if c = '%' then expandFrom cs (i + 1) (.field .start {}) args
    else (expandFrom cs (i + 1) .plain args).map (c :: ·)
  | c :: cs, i, .field part f, args =>
    let next := expandFrom cs (i + 1)
    let convert : Unit → Except TemplateError (List Char) := fun _ =>
      match args with
      | [] => .error .tooFewArguments
      | a :: rest => do
        let body ← f.fill c i a
        return body ++ (← next .plain rest)
    let lengthLetter : Unit → Except TemplateError (List Char) := fun _ =>
      if c = 'h' ∨ c = 'l' ∨ c = 'L' then next (.field .letter f) args else convert ()
    let point : Unit → Except TemplateError (List Char) := fun _ =>
      if c = '.' then next (.field .precisionStart { f with precision := some 0 }) args
      else lengthLetter ()
    let widthDigit : Unit → Except TemplateError (List Char) := fun _ =>
      if c.isDigit then do
        next (.field .width (← f.withWidth (f.width * 10 + (c.toNat - '0'.toNat)))) args
      else point ()
    let precisionDigit : Unit → Except TemplateError (List Char) := fun _ =>
      if c.isDigit then do
        let p := f.precision.getD 0 * 10 + (c.toNat - '0'.toNat)
        next (.field .precision (← f.withPrecision p)) args
      else lengthLetter ()
    let flag : Unit → Except TemplateError (List Char) := fun _ =>
      match c with
      | '-' => next (.field .flags { f with left := true }) args
      | '+' => next (.field .flags { f with plus := true }) args
      | ' ' => next (.field .flags { f with blank := true }) args
      | '#' => next (.field .flags { f with marked := true }) args
      | '0' => next (.field .flags { f with zero := true }) args
      | '*' =>
        match args with
        | .number n :: rest => do next (.field .afterWidth (← f.withGivenWidth n)) rest
        | .text _ :: _ => .error .starNeedsNumber
        | [] => .error .tooFewArguments
      | _ => widthDigit ()
    match part with
    | .start =>
      if c = '%' then (next .plain args).map (c :: ·)
      else if c = '(' then .error .needsTable
      else flag ()
    | .flags => flag ()
    | .width => widthDigit ()
    | .afterWidth => point ()
    | .precisionStart =>
      if c = '*' then
        match args with
        | .number n :: rest => do next (.field .afterPrecision (← f.withGivenPrecision n)) rest
        | .text _ :: _ => .error .starNeedsNumber
        | [] => .error .tooFewArguments
      else precisionDigit ()
    | .precision => precisionDigit ()
    | .afterPrecision => lengthLetter ()
    | .letter => convert ()

/-- Fills a template. Without arguments the template is the message as it stands. -/
def expand (template : String) (args : List Argument) : Except TemplateError String :=
  match args with
  | [] => .ok template
  | args => (expandFrom template.toList 0 .plain args).map String.ofList

end DocModelLexer.Text
