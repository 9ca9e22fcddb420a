import DocModelLexer.Grammar.Kind
import DocModelLexer.Token.Dump

namespace DocModelLexer

inductive Format where
  | text
  | json
  deriving DecidableEq, Repr, Inhabited

namespace Format

def all : List Format := [text, json]

def name : Format → String
  | text => "text"
  | json => "json"

def ofName? (name : String) : Option Format := all.find? (·.name == name)

theorem ofName?_name (f : Format) : ofName? f.name = some f := by
  cases f <;> decide

/-- The tokens of a document in a format. Only text asks whether to show positions; JSON always
does. -/
def render (f : Format) (positions : Bool) (tokens : List Token) : String :=
  match f with
  | text => dump (some Grammar.names) positions tokens
  | json => recordsText (some Grammar.names) tokens ++ "\n"

end Format

end DocModelLexer
