import DocModelLexer.Toml.Value

namespace DocModelLexer.Toml

abbrev Key := List String

/-- What may no longer be done to the value under a key. -/
inductive Mark where
  /-- It is a table that a header or a dotted key has opened; no header opens it again. -/
  | opened
  /-- It was written out in full; nothing in it may be added to. -/
  | sealed
  deriving DecidableEq, Repr, Inhabited

/-- A settings document while it is read, with what may no longer be done to its values. -/
structure Draft where
  table : Table := []
  marks : List (Key × Mark) := []
  /-- The tables that the dotted keys of this section have opened. They count as opened once the
  section is over. -/
  pending : List Key := []
  header : Key := []
  deriving Repr, Inhabited

/-- Changes the table under a key, and creates the tables on the way to it. Where an array is on
the way, the key goes on in its last item. `none` if some other value is in the way. -/
def Table.update (f : Table → Option Table) : Key → Table → Option Table
  | [], t => f t
  | name :: key, t =>
    match t.get? name with
    | none => do return t.set name (.table (← update f key []))
    | some (.table inner) => do return t.set name (.table (← update f key inner))
    | some (.array items) =>
      match items.getLast? with
      | some (.table inner) => do
        return t.set name (.array (items.dropLast ++ [.table (← update f key inner)]))
      | _ => none
    | some _ => none

def Table.addItem (name : String) (t : Table) : Option Table :=
  match t.get? name with
  | none => some (t.set name (.array [.table []]))
  | some (.array items) => some (t.set name (.array (items ++ [.table []])))
  | some _ => none

/-- Puts a value under a name that is not taken. -/
def Table.add (name : String) (value : Value) (t : Table) : Option Table :=
  if (t.get? name).isSome then none else some (t.set name value)

def Value.isCompound : Value → Bool
  | .array _ | .table _ => true
  | _ => false

namespace Draft

def isSealed (d : Draft) (key : Key) : Bool :=
  d.marks.any fun (k, mark) => mark == .sealed && k.isPrefixOf key

def isOpened (d : Draft) (key : Key) : Bool := d.marks.contains (key, .opened)

def addMark (d : Draft) (key : Key) (mark : Mark) : Draft :=
  { d with marks := (key, mark) :: d.marks }

def endSection (d : Draft) : Draft :=
  { d with marks := d.pending.map (·, Mark.opened) ++ d.marks, pending := [] }

def openTable (key : Key) (d : Draft) : Option Draft := do
  let d := d.endSection
  if d.isOpened key || d.isSealed key then none
  else
    let table ← d.table.update some key
    return { d.addMark key .opened with table, header := key }

/-- Begins the section of a new item in an array of tables. The item starts out empty, so nothing
is known about what lies below it. -/
def openItem (key : Key) (d : Draft) : Option Draft := do
  let d := d.endSection
  if d.isSealed key then none
  else
    let name ← key.getLast?
    let table ← d.table.update (Table.addItem name) key.dropLast
    let marks := d.marks.filter fun (k, _) => !key.isPrefixOf k
    return { d with marks := (key, .opened) :: marks, table, header := key }

def assign (key : Key) (value : Value) (d : Draft) : Option Draft := do
  let containers := (List.range' 1 (key.length - 1)).map fun n => d.header ++ key.take n
  let container := d.header ++ key.dropLast
  let name ← key.getLast?
  if containers.any d.isOpened || d.isSealed container then none
  else
    let table ← d.table.update (Table.add name value) container
    let d := { d with table, pending := containers ++ d.pending }
    return if value.isCompound then d.addMark (d.header ++ key) .sealed else d

end Draft

end DocModelLexer.Toml
