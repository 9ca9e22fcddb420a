import DocModelLexer.Arguments.Word
import DocModelLexer.Text.Integer

namespace DocModelLexer

/-- What stands on the command line in the place of a value. Two dashes in the same word as their
flag are a blank there: they are dropped, and leave the flag with nothing. Only some releases of the
parser of command lines drop them; others keep them as the value. -/
inductive Given (α : Type) where
  | blank
  | value (a : α)
  deriving DecidableEq, Repr, Inhabited

structure Choices where
  output : Option String := none
  format : Option (Given Format) := none
  positions : Bool := false
  config : Option String := none
  bufferSize : Option (Given Int) := none
  watch : Bool := false
  debug : Bool := false
  deriving DecidableEq, Repr, Inhabited

structure Arguments extends Choices where
  input : String
  deriving DecidableEq, Repr, Inhabited

inductive Refusal where
  | helpWanted
  | usage (error : UsageError)
  deriving DecidableEq, Repr, Inhabited

def Choices.choose (c : Choices) (flag : Flag) (value : String) : Except UsageError Choices :=
  match flag with
  | .output => .ok { c with output := some value }
  | .config => .ok { c with config := some value }
  | .format =>
    match Format.ofName? value with
    | some format => .ok { c with format := some (.value format) }
    | none => .error (.notFormat flag value)
  | .bufferSize =>
    match Text.integer? value.toList with
    | some n => .ok { c with bufferSize := some (.value n) }
    | none => .error (.notNumber flag value)
  | .help | .positions | .watch | .debug => .error (.valueUnwanted flag value)

/-- Acts upon a flag with a blank, where two dashes are dropped. For a path that is as good as no
flag; a buffer size is missing then, and a format has no name. -/
def Choices.chooseBlank (c : Choices) (flag : Flag) : Except UsageError Choices :=
  match flag with
  | .output => .ok { c with output := none }
  | .config => .ok { c with config := none }
  | .format => .ok { c with format := some .blank }
  | .bufferSize => .ok { c with bufferSize := some .blank }
  | .help | .positions | .watch | .debug => .error (.valueUnwanted flag "--")

def Choices.chooseAttached (c : Choices) (flag : Flag) (value : String) :
    Except UsageError Choices :=
  if value = "--" then c.chooseBlank flag else c.choose flag value

def Choices.set (c : Choices) (flag : Flag) : Except UsageError Choices :=
  match flag with
  | .positions => .ok { c with positions := true }
  | .watch => .ok { c with watch := true }
  | .debug => .ok { c with debug := true }
  | .help => .ok c
  | .output | .config | .format | .bufferSize => .error (.valueMissing flag)

namespace Arguments

/-- What is wrong with the characters behind a short help flag. They are short flags of their own
until one of them takes a value: the characters behind it, or else the next word. -/
def clusterFault? (valueFollows : Bool) : List Char → Option UsageError
  | [] => some (.valueUnwanted .help "")
  | c :: rest =>
    match Flag.ofName? (String.ofList ['-', c]) with
    | none => some (.valueUnwanted .help (String.ofList (c :: rest)))
    | some flag =>
      if rest.isEmpty then
        if flag.takesValue && !valueFollows then some (.valueMissing flag) else none
      else if flag.takesValue then none
      else clusterFault? valueFollows rest

def helpFault? (valueFollows : Bool) (attached : Attached) : Option UsageError :=
  if attached.short then clusterFault? valueFollows attached.value.toList
  else some (.valueUnwanted .help attached.value)

structure Reading extends Choices where
  input : Option String := none
  extras : List String := []
  deriving DecidableEq, Repr, Inhabited

def Reading.addExtra (r : Reading) (word : String) : Reading :=
  { r with extras := r.extras ++ [word] }

def Reading.update (r : Reading) (choices : Except UsageError Choices) :
    Except Refusal Reading :=
  match choices with
  | .ok choices => .ok { r with toChoices := choices }
  | .error e => .error (.usage e)

def isPlain : Option Word → Bool
  | some (.plain _) => true
  | _ => false

/-- Reads the words in order, and acts upon a flag where it stands: the first fault wins, a later
value replaces an earlier one, and help ends the reading. The mark goes with the input that stands
next to it. -/
def readWords : List Word → Reading → Except Refusal Reading
  | [], r => .ok r
  | .plain text :: .mark :: words, r =>
    match r.input with
    | none => readWords words { r with input := some text }
    | some _ => readWords words ((r.addExtra text).addExtra "--")
  | .plain text :: words, r =>
    match r.input with
    | none => readWords words { r with input := some text }
    | some _ => readWords words (r.addExtra text)
  | .mark :: words, r =>
    match r.input with
    | none => readWords words r
    | some _ => readWords words (r.addExtra "--")
  | .unknown text :: words, r => readWords words (r.addExtra text)
  | .flag .help none :: _, _ => .error .helpWanted
  | .flag .help (some attached) :: words, _ =>
    match helpFault? (isPlain words.head?) attached with
    | some e => .error (.usage e)
    | none => .error .helpWanted
  | .flag flag (some attached) :: words, r => do
    readWords words (← r.update (r.chooseAttached flag attached.value))
  | .flag flag none :: .plain value :: words, r => do
    if flag.takesValue then readWords words (← r.update (r.choose flag value))
    else readWords (.plain value :: words) (← r.update (r.set flag))
  | .flag flag none :: words, r => do
    readWords words (← r.update (r.set flag))

def parse (texts : List String) : Except Refusal Arguments := do
  let words ← match Word.ofTexts texts with
    | .ok words => pure words
    | .error e => throw (.usage e)
  let r ← readWords words {}
  match r.input, r.extras with
  | none, _ => throw (.usage .inputMissing)
  | some input, [] => return { r with input }
  | some _, extras => throw (.usage (.unrecognized extras))

end Arguments

end DocModelLexer
