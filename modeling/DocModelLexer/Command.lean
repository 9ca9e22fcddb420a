import DocModelLexer.Options
import DocModelLexer.Task
import DocModelLexer.Text.LineEnds
import DocModelLexer.Tokenize

namespace DocModelLexer

inductive Failure where
  | file (error : FileError)
  | notText
  | longNumber (digits : Nat)
  | deepValue
  | options (error : OptionsError)
  | tokenize (error : TokenizeError)
  deriving DecidableEq, Repr, Inhabited

def Failure.message : Failure → String
  | .file e => e.message
  | .notText => "not valid UTF-8"
  | .longNumber digits =>
    s!"number with {digits} digits in the config file, more than {Text.maxDigits}"
  | .deepValue => "value nested too deeply in the config file"
  | .options e => e.message
  | .tokenize e => e.message

inductive Outcome where
  /-- With an exit code: 0 for success, 1 for a lexical error, 2 for any other it reports. -/
  | exit (code : Nat)
  /-- With an exit code, before the command line led to any arguments. -/
  | refused (code : Nat)
  /-- With a failure that the command has no report for. -/
  | crash (failure : Failure)
  deriving DecidableEq, Repr, Inhabited

abbrev Attempt := ExceptT Failure Task

namespace Attempt

def ofExcept {ε α : Type} (failure : ε → Failure) : Except ε α → Attempt α
  | .ok a => pure a
  | .error e => throw (failure e)

def status (path : Path) : Attempt (Except FileError Status) := ExceptT.lift (.status path .done)

def read (path : Path) : Attempt ByteArray := do
  ofExcept .file (← ExceptT.lift (.read path .done))

def write (path : Path) (text : String) : Attempt Unit := do
  ofExcept .file (← ExceptT.lift (.write path text .done))

def print (text : String) : Attempt Unit := ExceptT.lift (.print text (.done ()))

def report (line : String) : Attempt Unit := ExceptT.lift (.report (line ++ "\n") (.done ()))

end Attempt

namespace Command

/-- Whether there is a regular file under a path. A path that leads nowhere has none. -/
def isFile (path : Path) : Attempt Bool := do
  match ← Attempt.status path with
  | .ok status => return status.isFile
  | .error .nullCharacter | .error (.refused .missing _) | .error (.refused .notDirectory _) =>
    return false
  | .error e => throw (.file e)

def readSettings (path : Path) : Attempt Settings := do
  if ← isFile path then
    match String.fromUTF8? (← Attempt.read path) with
    | none => throw .notText
    | some document =>
      match Toml.read document with
      | .ok config => return .ofTable config
      | .error .malformed => throw (.options .badConfig)
      | .error (.tooManyDigits count) => throw (.longNumber count)
      | .error .tooDeep => throw .deepValue
  else return {}

def readOptions (a : Arguments) : Attempt Options := do
  Attempt.ofExcept .options (Options.resolve a (← readSettings a.configPath))

def logLine (o : Options) (notice : Notice) : String :=
  s!"dtdx.lexer: {notice.message o.input.toString}"

def renderInput (o : Options) : Attempt String := do
  match Text.ofBytes? (← Attempt.read o.input) with
  | none => throw .notText
  | some text =>
    let (result, notices) := tokenizeNoting text o.input.toString o.room.value
    if o.debug then
      notices.forM fun notice => Attempt.report (logLine o notice)
    return o.format.render o.positions (← Attempt.ofExcept .tokenize result)

def deliver (o : Options) (text : String) : Attempt Unit :=
  match o.output with
  | some path => Attempt.write path text
  | none => Attempt.print text

/-- A failure to tokenize the input is reported, unless it is no fault of the input. -/
def reportInput (f : Failure) : Task Outcome :=
  match f with
  | .file e =>
    if e.isRefusal then .report s!"error: {e.message}\n" (.done (.exit 2))
    else .done (.crash f)
  | .tokenize (.lexical e) => .report s!"{e.text}\n" (.done (.exit 1))
  | _ => .done (.crash f)

def once (o : Options) : Task Outcome := do
  match ← (renderInput o).run with
  | .error f => reportInput f
  | .ok text =>
    match ← (deliver o text).run with
    | .error f => return .crash f
    | .ok () => return .exit 0

/-- The options of a command line, or the outcome of one that leads to none. -/
def prepare (texts : List String) : Task (Except Outcome Options) :=
  match Arguments.parse texts with
  | .error .helpWanted => .print helpText (.done (.error (.refused 0)))
  | .error (.usage e) => .report e.report (.done (.error (.refused 2)))
  | .ok a => do
    match ← (readOptions a).run with
    | .ok o => return .ok o
    | .error (.options e) =>
      if e.isReported then .report s!"error: {e.message}\n" (.done (.error (.exit 2)))
      else return .error (.crash (.options e))
    | .error f => return .error (.crash f)

def run (texts : List String) : Task Outcome := do
  match ← prepare texts with
  | .error outcome => return outcome
  | .ok o => once o

end Command

end DocModelLexer
