import DocModelLexer.Json
import DocModelLexer.Token

namespace DocModelLexer

/-- One line of a dump; `positions` puts the line and column of a token that has a span first. -/
def Token.dumpLine (names : Option TokenNames) (positions : Bool) (t : Token) : String :=
  let place :=
    match positions, t.span with
    | true, some span => s!"{span.start.line}:{span.start.column}\t"
    | _, _ => ""
  place ++ t.format names ++ "\n"

def dump (names : Option TokenNames) (positions : Bool) (tokens : List Token) : String :=
  String.join (tokens.map (·.dumpLine names positions))

/-- A token as data: its type, the type's name where a table is given, its value, and the line and
column at which it begins if it has a span. -/
structure TokenRecord where
  type : Int
  name : Option String
  value : String
  place : Option (Int × Int)
  deriving DecidableEq, Repr, Inhabited

def Token.record (names : Option TokenNames) (t : Token) : TokenRecord where
  type := t.type
  name := names.map (·.name t.type)
  value := t.value
  place := t.span.map fun span => (span.start.line, span.start.column)

def TokenRecord.members (r : TokenRecord) : Json.Record :=
  [("type", .number r.type), ("name", (r.name.map Json.Scalar.text).getD .null),
    ("value", .text r.value)] ++
  match r.place with
  | some (line, column) => [("line", .number line), ("column", .number column)]
  | none => []

/-- The records of a token stream as JSON text. -/
def recordsText (names : Option TokenNames) (tokens : List Token) : String :=
  Json.renderRecords (tokens.map fun t => (t.record names).members)

end DocModelLexer
