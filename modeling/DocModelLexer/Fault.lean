import DocModelLexer.Cursor
import DocModelLexer.Text.Template

namespace DocModelLexer

/-- What can go wrong inside a scan beyond a lexical error in its source: a mistake of the scanner,
not of the text it reads. -/
inductive Fault where
  | cursor (fault : Cursor.Fault)
  | badIndent (c : Char)
  | noLevel
  | template (error : Text.TemplateError)
  | raised (text : String)
  deriving DecidableEq, Repr, Inhabited

def Fault.message : Fault → String
  | .cursor f => f.message
  | .badIndent c => s!"bad character in indent: {Text.quoted (String.singleton c)}"
  | .noLevel => "list index out of range"
  | .template e => e.message
  | .raised text => text

def Fault.className : Fault → String
  | .cursor _ => "CursorError"
  | .badIndent _ | .raised _ => "ValueError"
  | .noLevel => "IndexError"
  | .template .incomplete | .template .widthTooBig | .template .precisionTooBig
  | .template (.unknownDirective ..) => "ValueError"
  | .template .characterOutOfRange | .template .tooLargeForReal
  | .template .givenWidthTooBig | .template .givenPrecisionTooBig
  | .template .tooManyDigits => "OverflowError"
  | .template .tooLong => "MemoryError"
  | .template _ => "TypeError"

/-- A fault as the log shows it: its class with the quoted message, if it has one. -/
def Fault.shown (f : Fault) : String :=
  match f with
  | .template .tooLong => s!"{f.className}()"
  | _ => s!"{f.className}({Text.quoted f.message})"

end DocModelLexer
