import DocModelLexer.Arguments
import DocModelLexer.Path
import DocModelLexer.Toml

namespace DocModelLexer

/-- How many items the queue of a session may hold, as it was asked for. A settings document may
ask with a truth value, which counts as one or none. -/
inductive Room where
  | number (n : Int)
  | truth (b : Bool)
  deriving DecidableEq, Repr, Inhabited

namespace Room

def value : Room → Int
  | number n => n
  | truth b => if b then 1 else 0

def shown : Room → String
  | number n => toString n
  | truth b => if b then "True" else "False"

end Room

structure Options where
  input : Path
  output : Option Path
  format : Format
  positions : Bool
  room : Room
  watch : Bool
  debug : Bool
  deriving DecidableEq, Repr, Inhabited

inductive OptionsError where
  | roomBlank
  | roomTooSmall (room : Room)
  | unknownFormat (name : String)
  | badConfig
  deriving DecidableEq, Repr, Inhabited

def OptionsError.message : OptionsError → String
  | roomBlank => "no buffer size given"
  | roomTooSmall room => s!"buffer size must be at least 1: {room.shown}"
  | unknownFormat name => s!"unknown output format: {name}"
  | badConfig => "invalid config file: ..."

def OptionsError.isReported : OptionsError → Bool
  | roomBlank => false
  | roomTooSmall _ | unknownFormat _ | badConfig => true

structure Settings where
  room : Option Room := none
  format : Option String := none
  positions : Option Bool := none
  deriving DecidableEq, Repr, Inhabited

namespace Settings

def lookup? (config : Toml.Table) (group name : String) : Option Toml.Value :=
  match config.get? group with
  | some (.table entries) => Toml.Table.get? entries name
  | _ => none

def room? : Toml.Value → Option Room
  | .integer n => some (.number n)
  | .boolean b => some (.truth b)
  | _ => none

def text? : Toml.Value → Option String
  | .text s => some s
  | _ => none

def truth? : Toml.Value → Option Bool
  | .boolean b => some b
  | _ => none

def ofTable (config : Toml.Table) : Settings where
  room := (lookup? config "lexer" "buffer_size").bind room?
  format := (lookup? config "output" "format").bind text?
  positions := (lookup? config "output" "positions").bind truth?

end Settings

def configName : String := "dtdx.toml"

def pathOf? (text : Option String) : Option Path :=
  match text with
  | none | some "" => none
  | some text => some (.ofString text)

/-- The settings document that belongs to the arguments: the one they name, else the one beside
the input. -/
def Arguments.configPath (a : Arguments) : Path :=
  (pathOf? a.config).getD ((Path.ofString a.input).parent.child configName)

namespace Options

def defaultRoom : Room := .number 2

/-- The name of a format on the command line. A blank is shown as an empty list, which names no
format. -/
def formatName : Given Format → String
  | .blank => "[]"
  | .value format => format.name

def resolve (a : Arguments) (s : Settings) : Except OptionsError Options := do
  let room ← match a.bufferSize with
    | some .blank => throw .roomBlank
    | some (.value n) => pure (.number n)
    | none => pure (s.room.getD defaultRoom)
  if room.value < 1 then throw (.roomTooSmall room)
  let name := (a.format.map formatName <|> s.format).getD Format.text.name
  match Format.ofName? name with
  | none => throw (.unknownFormat name)
  | some format =>
    return {
      input := .ofString a.input
      output := pathOf? a.output
      format
      positions := a.positions || s.positions.getD false
      room
      watch := a.watch
      debug := a.debug }

end Options

end DocModelLexer
