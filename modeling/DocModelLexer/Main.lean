import DocModelLexer.Watch

namespace DocModelLexer

/-- The number that the operating system has for an error; some calls answer it negated. -/
def refusalNumber : IO.Error → Nat
  | .noFileOrDirectory _ number _ | .invalidArgument _ number _ | .permissionDenied _ number _
  | .resourceExhausted _ number _ | .inappropriateType _ number _ | .alreadyExists _ number _
  | .noSuchThing _ number _ | .otherError number _ | .resourceBusy number _
  | .resourceVanished number _ | .unsupportedOperation number _ | .hardwareFault number _
  | .unsatisfiedConstraints number _ | .illegalOperation number _ | .protocolError number _
  | .timeExpired number _ | .interrupted _ number _ => number.toInt32.toInt.natAbs
  | .unexpectedEof | .userError _ => 0

def refusal (path : Path) (e : IO.Error) : FileError :=
  let causes : List FileError.Cause := [.missing, .notDirectory, .isDirectory, .nameTooLong]
  let number := refusalNumber e
  .refused ((causes.find? (·.number == number)).getD (.other number s!"{e}")) path

def attempt {α : Type} (path : Path) (action : String → IO α) : IO (Except FileError α) := do
  let text := path.toString
  if text.contains '\x00' then return .error .nullCharacter
  try return .ok (← action text)
  catch e => return .error (refusal path e)

def statusOf (path : String) : IO Status := do
  let data ← ((← IO.currentDir) / path).metadata
  let isFile := match data.type with
    | .file => true
    | _ => false
  return ⟨isFile, data.modified.sec * 1000000000 + data.modified.nsec.toNat⟩

def Task.perform {α : Type} : Task α → IO α
  | .done a => return a
  | .status path rest => do (rest (← attempt path statusOf)).perform
  | .read path rest => do (rest (← attempt path (IO.FS.readBinFile ·))).perform
  | .write path text rest => do (rest (← attempt path (IO.FS.writeFile · text))).perform
  | .print text rest => do
    let output ← IO.getStdout
    output.putStr text
    output.flush
    rest.perform
  | .report text rest => do
    IO.eprint text
    rest.perform

def conclude : Outcome → IO UInt32
  | .exit code | .refused code => return code.toUInt32
  | .crash f => do
    IO.eprintln f.message
    return 1

partial def watchForever (o : Options) (seen : Int) : IO UInt32 := do
  match ← (Watch.look o seen).run.perform with
  | .error f => conclude (.crash f)
  | .ok seen =>
    IO.sleep (Watch.pauseTenths * 100).toUInt32
    watchForever o seen

end DocModelLexer

open DocModelLexer in
def main (texts : List String) : IO UInt32 := do
  match ← (Command.prepare texts).perform with
  | .error outcome => conclude outcome
  | .ok o =>
    if o.watch then
      (Watch.announce o).perform
      watchForever o Watch.unseen
    else conclude (← (Command.once o).perform)
