import DocModelLexer.Arguments.Flag
import DocModelLexer.Text.Digit

namespace DocModelLexer

structure Attached where
  /-- The flag is written with one dash and one letter. -/
  short : Bool
  value : String
  deriving DecidableEq, Repr, Inhabited

inductive Word where
  | plain (text : String)
  /-- Two dashes alone. -/
  | mark
  | flag (flag : Flag) (attached : Option Attached)
  | unknown (text : String)
  deriving DecidableEq, Repr, Inhabited

namespace Word

def cutAtSign (text : String) : String × Option String :=
  match text.toList.dropWhile (· != '=') with
  | [] => (text, none)
  | _ :: value => (String.ofList (text.toList.takeWhile (· != '=')), some (String.ofList value))

def isShort (name : String) : Bool := !("--".toList.isPrefixOf name.toList)

/-- The flags that a word which is no full name may stand for: a long flag cut short, or a short
flag with its value right behind it. -/
def readings (text : String) : List (Flag × String × Option Attached) :=
  match text.toList with
  | '-' :: '-' :: _ =>
    let (start, value) := cutAtSign text
    (Flag.startingWith start).map fun (f, name) => (f, name, value.map (⟨false, ·⟩))
  | '-' :: c :: value =>
    let name := String.ofList ['-', c]
    match Flag.ofName? name with
    | some f => [(f, name, some ⟨true, String.ofList value⟩)]
    | none => []
  | _ => []

/-- Digits, with at least one of them behind a point if there is a point. -/
def isUnsigned (text : List Char) : Bool :=
  match text.dropWhile Text.isDigit with
  | [] => !text.isEmpty
  | '.' :: digits => !digits.isEmpty && digits.all Text.isDigit
  | _ => false

/-- A dash and a number, perhaps with a line feed at the end. -/
def isNegative (text : String) : Bool :=
  match text.toList with
  | '-' :: number =>
    isUnsigned number || (number.getLast? == some '\n' && isUnsigned number.dropLast)
  | _ => false

/-- The kind of a word. One that begins with two dashes may be cut short as long as it fits a single
name. A negative number and a word with a blank in it are no flags. -/
def ofText (text : String) : Except UsageError Word :=
  if !(text.toList.head? == some '-') then .ok (.plain text)
  else
    match Flag.ofName? text with
    | some f => .ok (.flag f none)
    | none =>
      if text = "-" then .ok (.plain text)
      else
        match cutAtSign text with
        | (name, some value) =>
          match Flag.ofName? name with
          | some f => .ok (.flag f (some ⟨isShort name, value⟩))
          | none => ofReadings text
        | (_, none) => ofReadings text
where
  ofReadings (text : String) : Except UsageError Word :=
    match readings text with
    | [] =>
      if isNegative text || text.toList.contains ' ' then .ok (.plain text)
      else .ok (.unknown text)
    | [(f, _, attached)] => .ok (.flag f attached)
    | several => .error (.ambiguous text (several.map (·.2.1)))

def ofTexts : List String → Except UsageError (List Word)
  | [] => .ok []
  | text :: texts =>
    if text = "--" then .ok (.mark :: texts.map .plain)
    else do return (← ofText text) :: (← ofTexts texts)

end Word

end DocModelLexer
