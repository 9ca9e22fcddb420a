import DocModelLexer.FileError

namespace DocModelLexer

/-- Where a node stands: the names that lead to it, the innermost first. -/
abbrev Location := List String

instance instDecidableEqContent : DecidableEq ByteArray := ByteArray.instDecidableEq

inductive Node where
  | file (content : ByteArray) (modified : Int)
  | directory (modified : Int)
  deriving DecidableEq, Inhabited

structure Status where
  isFile : Bool
  modified : Int
  deriving DecidableEq, Repr, Inhabited

def Node.status : Node → Status
  | .file _ modified => ⟨true, modified⟩
  | .directory modified => ⟨false, modified⟩

/-- Directories and files, and a working directory among them. -/
structure FileTree where
  nodes : List (Location × Node)
  home : Location
  deriving DecidableEq, Inhabited

namespace FileTree

/-- The node at a location. The root is always a directory. -/
def at? (t : FileTree) (place : Location) : Option Node :=
  match t.nodes.lookup place with
  | some node => some node
  | none => if place = [] then some (.directory 0) else none

def put (t : FileTree) (place : Location) (node : Node) : FileTree :=
  { t with nodes := (place, node) :: t.nodes.filter (·.1 != place) }

/-- Removes the node at a location and all below it. -/
def remove (t : FileTree) (place : Location) : FileTree :=
  { t with nodes := t.nodes.filter fun (other, _) => !place.isSuffixOf other }

theorem at?_put_self (t : FileTree) (place : Location) (node : Node) :
    (t.put place node).at? place = some node := by
  simp [at?, put]

theorem at?_put_of_ne (t : FileTree) {place other : Location} (node : Node) (h : other ≠ place) :
    (t.put place node).at? other = t.at? other := by
  have hb : (other == place) = false := by simp [h]
  have hl : ((t.nodes.filter (·.1 != place)).lookup other) = t.nodes.lookup other := by
    induction t.nodes with
    | nil => rfl
    | cons entry rest ih =>
      obtain ⟨here, n⟩ := entry
      by_cases hp : here = place
      · subst hp
        simp [List.lookup_cons, hb, ih]
      · simp [List.lookup_cons, hp, ih]
  simp [at?, put, List.lookup_cons, hb, hl]

/-- The longest name and the longest path, in bytes. -/
def maxName : Nat := 255

def maxPath : Nat := 4095

/-- Walks the names of a path from a location. Whatever is not the last must be a directory, and two
dots lead back; the last need not exist. -/
def walk (t : FileTree) (place : Location) : List String → Except FileError.Cause Location
  | [] => .ok place
  | name :: names =>
    match t.at? place with
    | none => .error .missing
    | some (.file ..) => .error .notDirectory
    | some (.directory _) =>
      if name = ".." then walk t place.tail names
      else if maxName < name.utf8ByteSize then .error .nameTooLong
      else walk t (name :: place) names

def locate (t : FileTree) (path : Path) : Except FileError Location :=
  if path.toString.contains '\x00' then .error .nullCharacter
  else if maxPath < path.toString.utf8ByteSize then .error (.refused .nameTooLong path)
  else
    match t.walk (if path.root = "" then t.home else []) path.names with
    | .ok place => .ok place
    | .error cause => .error (.refused cause path)

def status (t : FileTree) (path : Path) : Except FileError Status := do
  match t.at? (← t.locate path) with
  | some node => return node.status
  | none => throw (.refused .missing path)

def read (t : FileTree) (path : Path) : Except FileError ByteArray := do
  match t.at? (← t.locate path) with
  | some (.file content _) => return content
  | some (.directory _) => throw (.refused .isDirectory path)
  | none => throw (.refused .missing path)

def write (t : FileTree) (path : Path) (content : ByteArray) (now : Int) :
    Except FileError FileTree := do
  let place ← t.locate path
  match t.at? place with
  | some (.directory _) => throw (.refused .isDirectory path)
  | _ => return t.put place (.file content now)

end FileTree

end DocModelLexer
