import DocModelLexer.Command

namespace DocModelLexer

namespace Watch

/-- The seconds between two looks, in tenths. -/
def pauseTenths : Nat := 5

/-- The time of change that counts as seen before the first look. -/
def unseen : Int := 0

def announce (o : Options) : Task Unit :=
  .report s!"Watching {o.input.toString} for changes...\n" (.done ())

/-- Tokenizes the input and says so. A lexical error is reported and ends nothing. -/
def refresh (o : Options) : Attempt Unit := do
  try
    Command.deliver o (← Command.renderInput o)
    Attempt.report s!"Tokenized {o.input.toString}"
  catch
    | .tokenize (.lexical e) => Attempt.report e.text
    | f => throw f

/-- One look at the input, given the time of change last seen; answers the time now seen. An input
that cannot be found is passed over. -/
def look (o : Options) (seen : Int) : Attempt Int := do
  match ← Attempt.status o.input with
  | .ok status =>
    if status.modified ≠ seen then refresh o
    return status.modified
  | .error e => if e.isRefusal then return seen else throw (.file e)

end Watch

/-- What happens to the files during a pause: first deletions, then new contents, which get the
given time of change. A new content of `none` makes a directory. -/
structure Edit where
  deletions : List Location := []
  writes : List (Location × Option ByteArray) := []
  modified : Int := 1000
  deriving DecidableEq, Inhabited

namespace FileTree

/-- Makes the directory at a location and those above it, as far as they are missing. -/
def addDirectory (t : FileTree) (now : Int) : Location → FileTree
  | [] => t
  | name :: place =>
    let t := t.addDirectory now place
    if (t.at? (name :: place)).isSome then t else t.put (name :: place) (.directory now)

def add (t : FileTree) (place : Location) (content : Option ByteArray) (modified now : Int) :
    FileTree :=
  match content with
  | some content => (t.addDirectory now place.tail).put place (.file content modified)
  | none => t.addDirectory now place

end FileTree

def World.edit (w : World) (e : Edit) : World :=
  let files := e.deletions.foldl FileTree.remove w.files
  let files := e.writes.foldl
    (fun files (place, content) => files.add place content e.modified w.clock) files
  { w with files, clock := w.clock + 1 }

structure Poll where
  output : String
  errors : String
  deriving DecidableEq, Repr, Inhabited

namespace Watch

/-- What a world has written, apart from what has been taken out before. -/
def takePoll (w : World) : Poll × World :=
  (⟨w.output, w.errors⟩, { w with output := "", errors := "" })

/-- A watch under a script of edits, one to each pause, that is interrupted when the script is over.
Answers what was written before each pause, the outcome, and the world behind. -/
def runScript (o : Options) (seen : Int) : List Edit → World → List Poll × Outcome × World
  | edits, w =>
    match (look o seen).run.run w with
    | (.error f, w) => ([], .crash f, w)
    | (.ok seen, w) =>
      let (poll, w) := takePoll w
      match edits with
      | [] => ([poll], .exit 0, w)
      | edit :: edits =>
        let (polls, rest) := runScript o seen edits (w.edit edit)
        (poll :: polls, rest)

end Watch

namespace Command

/-- A command line under a script of edits, which matters only if the input is watched. -/
def runScript (texts : List String) (edits : List Edit) (w : World) :
    List Poll × Outcome × World :=
  match (prepare texts).run w with
  | (.error outcome, w) => ([], outcome, w)
  | (.ok o, w) =>
    if o.watch then Watch.runScript o Watch.unseen edits ((Watch.announce o).run w).2
    else ([], (once o).run w)

end Command

end DocModelLexer
