import DocModelLexer.Tokenize

namespace DocModelLexer

structure Range where
  startLine : Int
  startCharacter : Int
  endLine : Int
  endCharacter : Int
  deriving DecidableEq, Repr, Inhabited

inductive PlaceError where
  | line (number : Int)
  | character (number : Int)
  deriving DecidableEq, Repr, Inhabited

def PlaceError.maxNumber : Nat := 0x7FFFFFFF

def PlaceError.message : PlaceError → String
  | line number => s!"Position.line should be in range [0:{maxNumber}], but was {number}."
  | character number => s!"Position.character should be in range [0:{maxNumber}], but was {number}."

namespace Range

def placeError? (line character : Int) : Option PlaceError :=
  if line < 0 ∨ PlaceError.maxNumber < line then some (.line line)
  else if character < 0 ∨ PlaceError.maxNumber < character then some (.character character)
  else none

def error? (r : Range) : Option PlaceError :=
  placeError? r.startLine r.startCharacter <|> placeError? r.endLine r.endCharacter

theorem error?_eq_none_iff (r : Range) :
    r.error? = none ↔ ∀ n ∈ [r.startLine, r.startCharacter, r.endLine, r.endCharacter],
      0 ≤ n ∧ n ≤ PlaceError.maxNumber := by
  simp only [error?, placeError?, Option.orElse_eq_orElse, Option.orElse_eq_or,
    Option.or_eq_none_iff, List.forall_mem_cons]
  grind

end Range

structure Diagnostic where
  range : Range
  message : String
  deriving DecidableEq, Repr, Inhabited

namespace Diagnostic

def severity : Nat := 1

def reporter : String := "dtdx"

/-- The diagnostic of a lexical error. Where its span is empty, it covers one character. -/
def ofError (e : LexicalError) : Diagnostic :=
  let line := e.position.line - 1
  let character := e.position.column - 1
  let oneCharacter : Range := ⟨line, character, line, character + 1⟩
  let range :=
    match e.span with
    | some span =>
      if span.stop.offset > span.start.offset then
        ⟨line, character, span.stop.line - 1, span.stop.column - 1⟩
      else oneCharacter
    | none => oneCharacter
  ⟨range, e.message⟩

def checked (d : Diagnostic) : Except PlaceError Diagnostic :=
  match d.range.error? with
  | some e => .error e
  | none => .ok d

end Diagnostic

/-- The file name of a document: what stands after the last slash of its address. -/
def documentName (uri : String) : String :=
  String.ofList (uri.toList.reverse.takeWhile (· ≠ '/')).reverse

def diagnose (uri text : String) : Except TokenizeError (List Diagnostic) :=
  match tokenize text (documentName uri) with
  | .ok _ => .ok []
  | .error (.lexical e) => .ok [.ofError e]
  | .error e => .error e

inductive PublishError where
  | tokenize (error : TokenizeError)
  | place (error : PlaceError)
  deriving DecidableEq, Repr, Inhabited

/-- What an editor is sent for a document: one list of all its diagnostics, unless it refuses a
range among them. -/
def publishTo (refuse? : Range → Option PlaceError) (uri text : String) :
    Except PublishError (List Diagnostic) :=
  match diagnose uri text with
  | .error e => .error (.tokenize e)
  | .ok diagnostics =>
    match diagnostics.findSome? fun d => refuse? d.range with
    | some e => .error (.place e)
    | none => .ok diagnostics

def publish (uri text : String) : Except PublishError (List Diagnostic) :=
  publishTo Range.error? uri text

end DocModelLexer
