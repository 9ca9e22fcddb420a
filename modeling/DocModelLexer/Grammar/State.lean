import DocModelLexer.Grammar.Indent
import DocModelLexer.Grammar.Kind
import DocModelLexer.Scan
import DocModelLexer.Text.Digit
import DocModelLexer.Text.Letter

namespace DocModelLexer.Grammar

inductive Error where
  | unexpected (c : Char)
  | inconsistentDedent (expected found : Int)
  | runawayQuote (text : List Char)
  | malformedReference (text : List Char)
  deriving DecidableEq, Repr, Inhabited

def Error.message : Error → String
  | .unexpected c =>
    let code := String.ofList ((Text.hexDigits 4 c.toNat).map Char.toUpper)
    s!"Unexpected unicode character (U+{code} '{c}') in outer context."
  | .inconsistentDedent expected found =>
    s!"Inconsistent dedent. Expecting {expected} but found {found}."
  | .runawayQuote text => "Runaway quote: " ++ String.ofList text
  | .malformedReference text => "Malformed reference ellipsis: " ++ String.ofList text

inductive State where
  | newline
  | outer
  | updateIndent
  | doubleQuote
  | singleQuote
  | directive
  | comment
  | identifier
  | reference
  deriving DecidableEq, Repr, Inhabited

def isNameChar (c : Char) : Bool := c == '_' || Text.isLetter c || Text.isDigit c

def isNameStart (c : Char) : Bool := Text.isLetter c || c == '_' || c == ':'

/-- The capital letters of ASCII, which make a directive. -/
def capitals : List Char := "ABCDEFGHIJKLMNOPQRSTUVWXYZ".toList

def blanks : List Char := [' ', '\t']

open Script

abbrev Step := Script Levels (Option State)

def emit (kind : Kind) : Script Levels Unit := deliver kind.type

def stopWith (e : Error) : Step := do
  complain e.message
  return none

/-- Closes the indentations wider than `size`, one token for each. The one that is left must have
exactly that width. -/
def dedentTo (size : Int) : Levels → Step
  | [] => .fail .noLevel
  | top :: rest =>
    if size < top then do
      emit .dedent
      set rest
      dedentTo size rest
    else if top = size then return some .outer
    else stopWith (.inconsistentDedent top size)

def updateIndent : Step := do
  match measure (← current) with
  | .error c => .fail (.badIndent c)
  | .ok size =>
    let levels ← get
    match levels with
    | [] => .fail .noLevel
    | top :: _ =>
      if size = top then
        ignore
        return some .outer
      else if size > top then
        emit .indent
        set ((size : Int) :: levels)
        return some .outer
      else dedentTo size levels

/-- Reads the blanks of a line. A line of nothing else is passed over. -/
def newline : Step := do
  ignore
  acceptRun blanks
  if ← lookingAt ['\n'] then
    let _ ← next
    return some .newline
  else updateIndent

def finish : Step := do
  match ← updateIndent with
  | none => return none
  | some _ =>
    emit .eof
    return none

def outer : Step := do
  match ← next with
  | none => finish
  | some c =>
    if c ∈ blanks then
      ignore
      return some .outer
    else if c = '\n' then return some .newline
    else if let some kind := Kind.ofChar? c then
      emit kind
      return some .outer
    else if c = '\x22' then return some .doubleQuote
    else if c = '\x27' then return some .singleQuote
    else if c = '.' then return some .reference
    else if c = '#' then
      match ← peek with
      | some d => return some (if d ∈ capitals then .directive else .comment)
      | none => return some .comment
    else if isNameStart c then return some .identifier
    else stopWith (.unexpected c)

def quote (mark : Char) : Step := do
  ignore
  acceptTo [mark]
  if ← lookingAt [mark] then
    emit .quote
    let _ ← next
    ignore
    return some .outer
  else stopWith (.runawayQuote (← current))

def directive : Step := do
  acceptRun capitals
  emit .directive
  return some .outer

def comment : Step := do
  acceptTo []
  emit .comment
  return some .outer

def identifier : Step := do
  acceptWhile isNameChar
  emit .identifier
  return some .outer

def reference : Step := do
  acceptRun ['.']
  let text ← current
  if text = ['.', '.', '.'] then
    emit .reference
    return some .outer
  else stopWith (.malformedReference text)

def graph : Graph Levels State
  | .newline => newline
  | .outer => outer
  | .updateIndent => updateIndent
  | .doubleQuote => quote '\x22'
  | .singleQuote => quote '\x27'
  | .directive => directive
  | .comment => comment
  | .identifier => identifier
  | .reference => reference

/-- A scan of a source over open indentations. Unless another state is given it begins in `newline`,
which reads the leading blanks of the next line that has more than blanks; `updateIndent` compares
their width with the open indentations, and `outer` reads on within the line. -/
def scan (source : Source) (levels : Levels := Levels.base) (state : State := .newline) :
    Scan Levels State :=
  .start source levels (some state)

def producer : Producer (Scan Levels State) := Scan.move graph

/-- More moves than a scan makes. -/
def budget (source : Source) (levels : Levels := Levels.base) : Nat :=
  64 * (source.size + levels.length + 2)

def run (source : Source) (levels : Levels := Levels.base) (state : State := .newline) :
    Run (Scan Levels State) :=
  producer.run (budget source levels) (scan source levels state)

def tokens (text : String) : List Token := (run (.ofString text)).tokens

end DocModelLexer.Grammar
