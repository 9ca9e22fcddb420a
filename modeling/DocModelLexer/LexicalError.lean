import DocModelLexer.Text.Length
import DocModelLexer.Text.Lines
import DocModelLexer.Token

namespace DocModelLexer

structure LexicalError where
  message : String
  position : Position
  source : String
  span : Option Span := none
  filename : String
  deriving DecidableEq, Repr, Inhabited

namespace LexicalError

/-- The error that an error token stands for. A token without a span stands at the beginning. -/
def ofToken (token : Token) (source filename : String) : LexicalError :=
  match token.span with
  | some span => ⟨token.value, span.start, source, some span, filename⟩
  | none => ⟨token.value, ⟨1, 1, 0⟩, source, none, filename⟩

/-- The line of the source that a snippet shows, empty if there is no such line. -/
def sourceLine (e : LexicalError) : List Char :=
  let lines := Text.displayLines e.source.toList
  if e.position.line < 1 then []
  else
    match lines[(e.position.line - 1).toNat]? with
    | some line => Text.dropTrailing '\r' (Text.dropTrailing '\n' line)
    | none => []

def indent (e : LexicalError) : Int := e.position.column - 1

/-- How many carets stand under the line: as many as the span is wide if it ends on its line, else
up to the end of the line, but never none. -/
def underline (e : LexicalError) : Int :=
  let width : Int :=
    match e.span with
    | some span =>
      if span.stop.line = e.position.line then span.stop.column - e.position.column
      else e.sourceLine.length - e.position.column + 1
    | none => e.sourceLine.length - e.position.column + 1
  max 1 width

def snippet (e : LexicalError) (filename : String) : String :=
  let number := toString e.position.line
  let gutter := String.ofList (List.replicate (number.length + 1) ' ')
  let blanks := String.ofList (List.replicate e.indent.toNat ' ')
  let carets := String.ofList (List.replicate e.underline.toNat '^')
  s!"error: {e.message}\n" ++
    s!"{gutter}--> {filename}:{e.position.line}:{e.position.column}\n" ++
    s!"{gutter}|\n" ++
    s!"{number} | " ++ String.ofList e.sourceLine ++ "\n" ++
    s!"{gutter}| {blanks}{carets}"

def text (e : LexicalError) : String := e.snippet e.filename

/-- An error whose snippet can be written. One whose columns are far outside its source has none. -/
def checked (e : LexicalError) : Except Text.LengthError LexicalError :=
  match Text.lengthError? e.indent <|> Text.lengthError? e.underline with
  | some problem => .error problem
  | none => .ok e

end LexicalError

end DocModelLexer
