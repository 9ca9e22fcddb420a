import DocModelLexer.Text.Quoted
import DocModelLexer.Text.Split

namespace DocModelLexer

/-- A path without empty names and without names that are a single dot. Two dots are a name. -/
structure Path where
  /-- The slashes that a path begins with: none, one, or exactly two, which are kept apart. -/
  root : String := ""
  names : List String
  deriving DecidableEq, Repr, Inhabited

namespace Path

def rootOf (slashes : Nat) : String :=
  match slashes with
  | 0 => ""
  | 2 => "//"
  | _ => "/"

def ofString (text : String) : Path where
  root := rootOf (text.toList.takeWhile (· == '/')).length
  names := ((Text.splitOn '/' text.toList).map String.ofList).filter fun name =>
    name != "" && name != "."

def toString (p : Path) : String :=
  if p.root = "" ∧ p.names = [] then "." else p.root ++ "/".intercalate p.names

instance : ToString Path := ⟨toString⟩

def quoted (p : Path) : String := Text.quoted p.toString

def parent (p : Path) : Path := { p with names := p.names.dropLast }

def child (p : Path) (name : String) : Path := { p with names := p.names ++ [name] }

end Path

end DocModelLexer
