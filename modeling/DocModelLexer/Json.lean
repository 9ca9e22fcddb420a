import DocModelLexer.Text.Quoted

namespace DocModelLexer.Json

inductive Scalar where
  | null
  | number (value : Int)
  | text (value : String)
  deriving DecidableEq, Repr, Inhabited

abbrev Record := List (String × Scalar)

def unitEscape (unit : Nat) : List Char := '\\' :: 'u' :: Text.hexDigits 4 unit

/-- One character of a string; a character beyond the basic plane becomes a surrogate pair. -/
def escapeChar (c : Char) : List Char :=
  if c = '\x22' then ['\\', '\x22']
  else if c = '\\' then ['\\', '\\']
  else if c = '\n' then ['\\', 'n']
  else if c = '\r' then ['\\', 'r']
  else if c = '\t' then ['\\', 't']
  else if c = '\x08' then ['\\', 'b']
  else if c = '\x0c' then ['\\', 'f']
  else if 0x20 ≤ c.toNat ∧ c.toNat ≤ 0x7e then [c]
  else if c.toNat < 0x10000 then unitEscape c.toNat
  else
    let above := c.toNat - 0x10000
    unitEscape (0xd800 + above / 0x400) ++ unitEscape (0xdc00 + above % 0x400)

def string (value : String) : String :=
  String.ofList ('\x22' :: value.toList.flatMap escapeChar ++ ['\x22'])

def Scalar.render : Scalar → String
  | .null => "null"
  | .number n => toString n
  | .text s => string s

def renderRecord (record : Record) : String :=
  let members := record.map fun (key, value) => "    " ++ string key ++ ": " ++ value.render
  "  \x7b\n" ++ ",\n".intercalate members ++ "\n  \x7d"

def renderRecords (records : List Record) : String :=
  if records.isEmpty then "[]" else "[\n" ++ ",\n".intercalate (records.map renderRecord) ++ "\n]"

end DocModelLexer.Json
