import DocModelLexer.Position

namespace DocModelLexer

def errorType : Int := -1

structure Token where
  type : Int
  value : String
  span : Option Span := none
  deriving DecidableEq, Repr, Inhabited

/-- Whether the token reports an error; its value is then the message. -/
def Token.isError (t : Token) : Bool := t.type == errorType

/-- Type and value, which make two tokens equal wherever they stand. -/
def Token.lexeme (t : Token) : Int × String := (t.type, t.value)

/-- Display names of token types, in the order in which the types were first named. -/
structure TokenNames where
  entries : List (Int × String)
  deriving DecidableEq, Repr, Inhabited

namespace TokenNames

/-- Names `type`, in place if it has a name already. -/
def insert (type : Int) (name : String) : List (Int × String) → List (Int × String)
  | [] => [(type, name)]
  | (t, n) :: rest => if t = type then (t, name) :: rest else (t, n) :: insert type name rest

/-- A table of the given names; the error type always has one. -/
def ofList (names : List (Int × String)) : TokenNames :=
  ⟨names.foldl (fun table (t, n) => insert t n table) [(errorType, "ErrorTok")]⟩

def size (names : TokenNames) : Nat := names.entries.length

def get? (names : TokenNames) (type : Int) : Option String :=
  (names.entries.find? (·.1 == type)).map (·.2)

def contains (names : TokenNames) (type : Int) : Bool := (names.get? type).isSome

def name (names : TokenNames) (type : Int) : String := (names.get? type).getD s!"tok_{type}"

end TokenNames

def typeLabel (names : Option TokenNames) (type : Int) : String :=
  match names with
  | some names => names.name type
  | none => toString type

/-- A token on one line: label and value between braces. The value is not escaped. -/
def Token.format (names : Option TokenNames) (t : Token) : String :=
  "\x7b" ++ typeLabel names t.type ++ ", \"" ++ t.value ++ "\"\x7d"

end DocModelLexer
