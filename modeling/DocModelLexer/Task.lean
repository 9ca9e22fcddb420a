import DocModelLexer.FileTree

namespace DocModelLexer

/-- A sequence of requests to the surroundings that leads to an `α`. -/
inductive Task (α : Type) where
  | done (result : α)
  | status (path : Path) (rest : Except FileError Status → Task α)
  | read (path : Path) (rest : Except FileError ByteArray → Task α)
  | write (path : Path) (text : String) (rest : Except FileError Unit → Task α)
  | print (text : String) (rest : Task α)
  | report (text : String) (rest : Task α)

/-- Surroundings that are a value: files, and what has been written to the two outputs. -/
structure World where
  files : FileTree
  /-- The time of the next change of a file. -/
  clock : Int := 0
  output : String := ""
  errors : String := ""
  deriving DecidableEq, Inhabited

namespace Task

variable {α β : Type}

protected def bind : Task α → (α → Task β) → Task β
  | done a, f => f a
  | status path rest, f => status path fun reply => (rest reply).bind f
  | read path rest, f => read path fun reply => (rest reply).bind f
  | write path text rest, f => write path text fun reply => (rest reply).bind f
  | print text rest, f => print text (rest.bind f)
  | report text rest, f => report text (rest.bind f)

instance : Monad Task where
  pure := done
  bind := Task.bind

def run : Task α → World → α × World
  | done a, w => (a, w)
  | status path rest, w => (rest (w.files.status path)).run w
  | read path rest, w => (rest (w.files.read path)).run w
  | write path text rest, w =>
    match w.files.write path text.toUTF8 w.clock with
    | .ok files => (rest (.ok ())).run { w with files, clock := w.clock + 1 }
    | .error e => (rest (.error e)).run w
  | print text rest, w => rest.run { w with output := w.output ++ text }
  | report text rest, w => rest.run { w with errors := w.errors ++ text }

@[simp]
theorem run_pure (a : α) (w : World) : (pure a : Task α).run w = (a, w) := rfl

@[simp]
theorem run_bind (t : Task α) (f : α → Task β) (w : World) :
    (t >>= f).run w = (f (t.run w).1).run (t.run w).2 := by
  change (t.bind f).run w = _
  induction t generalizing w with
  | done a => rfl
  | status path rest ih => exact ih _ w
  | read path rest ih => exact ih _ w
  | write path text rest ih =>
    simp only [Task.bind, run]
    split
    · exact ih _ _
    · exact ih _ _
  | print text rest ih => exact ih _
  | report text rest ih => exact ih _

end Task

end DocModelLexer
