namespace DocModelLexer.Toml

structure Date where
  year : Nat
  month : Nat
  day : Nat
  deriving DecidableEq, Repr, Inhabited

structure Time where
  hour : Nat
  minute : Nat
  second : Nat
  fraction : List Nat
  deriving DecidableEq, Repr, Inhabited

/-- A date, a time of day, or both; with both, the offset from universal time in minutes if it is
given. -/
inductive Moment where
  | date (date : Date)
  | time (time : Time)
  | dateTime (date : Date) (time : Time) (offset : Option Int)
  deriving DecidableEq, Repr, Inhabited

inductive Value where
  | text (text : String)
  | integer (n : Int)
  /-- A number with a fraction or an exponent, infinity, or not a number. -/
  | float (written : String)
  | boolean (b : Bool)
  | moment (moment : Moment)
  | array (items : List Value)
  | table (entries : List (String × Value))
  deriving Repr, Inhabited

/-- The entries of a table, each under its own name, in the order in which they were given. -/
abbrev Table := List (String × Value)

namespace Table

def get? (t : Table) (name : String) : Option Value := t.lookup name

/-- Puts a value under a name, in the place of the name's old value if it has one. -/
def set (name : String) (value : Value) : Table → Table
  | [] => [(name, value)]
  | (n, v) :: rest => if n = name then (n, value) :: rest else (n, v) :: set name value rest

end Table

inductive Error where
  | malformed
  | tooManyDigits (count : Nat)
  | tooDeep
  deriving DecidableEq, Repr, Inhabited

end DocModelLexer.Toml
