import DocModelLexer.Toml.Draft
import DocModelLexer.Toml.Moment

namespace DocModelLexer.Toml

/-- A rule reads the text from its beginning and leaves what it has not read. -/
abbrev Rule := StateT (List Char) (Except Error)

namespace Rule

variable {α : Type}

def malformed : Rule α := throw .malformed

def ofOption (read : List Char → Option (α × List Char)) : Rule α := fun text =>
  match read text with
  | some r => .ok r
  | none => .error .malformed

def peek : Rule (Option Char) := return (← get).head?

def skip (p : Char → Bool) : Rule Unit := modify (·.dropWhile p)

def expect (expected : List Char) : Rule Unit := do
  let text ← get
  if expected.isPrefixOf text then set (text.drop expected.length) else malformed

/-- Takes a comment if there is one, but not the end of its line. -/
def comment : Rule Unit := do
  match ← get with
  | '#' :: text =>
    if (text.takeWhile (· != '\n')).any isControl then malformed
    else set (text.dropWhile (· != '\n'))
  | _ => pure ()

/-- What follows the space and the comments at the front of a text, within a comment or not. -/
def behindSpace? (inComment : Bool) : List Char → Option (List Char)
  | [] => some []
  | c :: text =>
    if c = '\n' then behindSpace? false text
    else if inComment then if isControl c then none else behindSpace? true text
    else if isBlank c then behindSpace? false text
    else if c = '#' then behindSpace? true text
    else some (c :: text)

def space : Rule Unit := ofOption fun text => (behindSpace? false text).map ((), ·)

def isBareKeyChar (c : Char) : Bool :=
  ('a' ≤ c && c ≤ 'z') || ('A' ≤ c && c ≤ 'Z') || ('0' ≤ c && c ≤ '9') || c == '-' || c == '_'

def isKeyStart (c : Char) : Bool := isBareKeyChar c || c == '\x22' || c == '\x27'

def name : Rule String := do
  match ← peek with
  | some c =>
    if isBareKeyChar c then
      let bare := (← get).takeWhile isBareKeyChar
      skip isBareKeyChar
      return String.ofList bare
    else return String.ofList (← ofOption lineText?)
  | none => malformed

/-- A key: names with points between them. The fuel bounds the number of names. -/
def key : (fuel : Nat) → Rule Key
  | 0 => malformed
  | fuel + 1 => do
    let first ← name
    skip isBlank
    match ← get with
    | '.' :: rest => do
      set rest
      skip isBlank
      return first :: (← key fuel)
    | _ => return [first]

/-- The result of a reader that may find a value out of bounds, where it finds anything. -/
def ofResult? (read : List Char → Option (Except Error α × List Char)) (text : List Char) :
    Option (Except Error (α × List Char)) :=
  (read text).map fun (result, rest) => result.map (·, rest)

def scalar : Rule Value := fun text =>
  match text with
  | '\x22' :: _ | '\x27' :: _ =>
    (ofOption text? text).map fun (chars, rest) => (.text (String.ofList chars), rest)
  | 't' :: 'r' :: 'u' :: 'e' :: rest => .ok (.boolean true, rest)
  | 'f' :: 'a' :: 'l' :: 's' :: 'e' :: rest => .ok (.boolean false, rest)
  | _ =>
    match ofResult? moment? text with
    | some result => result.map fun (moment, rest) => (.moment moment, rest)
    | none =>
      match ofResult? number? text with
      | some result => result
      | none => .error .malformed

def ofDraft (d : Option Draft) : Rule Draft :=
  match d with
  | some d => pure d
  | none => malformed

/-- How many calls deep an array and a table on one line are. -/
def arrayDepth : Nat := 2

def tableDepth : Nat := 3

/-- How deep the values inside each other may be in all: what is left of a stack of a thousand calls
where a document is read fifteen calls deep. Under a caller that stands deeper, less is left. -/
def maxDepth : Nat := 985

/-- The depth that is left inside a value of the given depth. -/
def descend (left depth : Nat) : Rule Nat :=
  if depth ≤ left then pure (left - depth) else throw .tooDeep

mutual

/-- A value of any kind, given the depth that is left for it. The fuel bounds the number of values
inside it. -/
def value (left : Nat) : (fuel : Nat) → Rule Value
  | 0 => malformed
  | fuel + 1 => do
    match ← peek with
    | some '[' => do
      let left ← descend left arrayDepth
      expect ['[']
      space
      return .array (← items left fuel)
    | some '\x7b' => do
      let left ← descend left tableDepth
      expect ['\x7b']
      skip isBlank
      match ← peek with
      | some '\x7d' => do
        expect ['\x7d']
        return .table []
      | _ => return .table (← entries left fuel {}).table
    | _ => scalar

/-- The items of an array up to its closing bracket. A comma may follow the last of them. -/
def items (left : Nat) : (fuel : Nat) → Rule (List Value)
  | 0 => malformed
  | fuel + 1 => do
    match ← peek with
    | some ']' => do
      expect [']']
      return []
    | _ => do
      let item ← value left fuel
      space
      match ← peek with
      | some ']' => do
        expect [']']
        return [item]
      | _ => do
        expect [',']
        space
        return item :: (← items left fuel)

/-- The entries of a table on one line up to its closing brace. No comma follows the last of
them. -/
def entries (left : Nat) : (fuel : Nat) → Draft → Rule Draft
  | 0, _ => malformed
  | fuel + 1, d => do
    let key ← key fuel
    expect ['=']
    skip isBlank
    let value ← value left fuel
    let d ← ofDraft (d.assign key value)
    skip isBlank
    match ← peek with
    | some '\x7d' => do
      expect ['\x7d']
      return d
    | _ => do
      expect [',']
      skip isBlank
      entries left fuel d

end

/-- A header: the key of a table in brackets, or of an array of tables in double brackets. -/
def headerLine (fuel : Nat) (d : Draft) : Rule Draft := do
  match ← get with
  | '[' :: '[' :: rest => do
    set rest
    skip isBlank
    let d ← ofDraft (d.openItem (← key fuel))
    expect [']', ']']
    return d
  | _ => do
    expect ['[']
    skip isBlank
    let d ← ofDraft (d.openTable (← key fuel))
    expect [']']
    return d

def assignment (fuel : Nat) (d : Draft) : Rule Draft := do
  let key ← key fuel
  expect ['=']
  skip isBlank
  ofDraft (d.assign key (← value maxDepth fuel))

def line (fuel : Nat) (d : Draft) : Rule Draft := do
  skip isBlank
  match ← peek with
  | none | some '\n' => return d
  | some c => do
    let d ← if isKeyStart c then assignment fuel d
      else if c = '[' then headerLine fuel d
      else pure d
    skip isBlank
    comment
    return d

/-- The lines of a document. The fuel bounds their number. -/
def document : (fuel : Nat) → Draft → Rule Draft
  | 0, _ => malformed
  | fuel + 1, d => do
    let d ← line fuel d
    match ← get with
    | [] => return d
    | text => do
      set text
      expect ['\n']
      document fuel d

end Rule

/-- The text with every carriage return that stands before a line feed left out. -/
def joinLineEnds : List Char → List Char
  | [] => []
  | '\r' :: '\n' :: text => '\n' :: joinLineEnds text
  | c :: text => c :: joinLineEnds text

/-- The table that a document describes. Each line, each value and each name takes a character at
least, so fuel for twice as many as there are characters is enough. -/
def read (document : String) : Except Error Table :=
  let text := joinLineEnds document.toList
  (Rule.document (2 * text.length + 2) {} text).map fun (d, _) => d.table

end DocModelLexer.Toml
