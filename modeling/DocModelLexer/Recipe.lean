import DocModelLexer.Grammar.State

namespace DocModelLexer

/-- One instruction of a recipe, which is a scanner written as a table. The engine takes any graph
of states, and with recipes it can be run on graphs other than that of the document grammar. -/
inductive Instruction (ν : Type) where
  | call (op : Cursor.Op)
  | emit (type : Int)
  /-- Fills a message template, reports it and stops. -/
  | report (template : String) (args : List Text.Argument)
  | goto (state : ν)
  | ifAccept (chars : List Char) (state : ν)
  /-- Goes on in `state` if the next character is among `chars`; the end of the source is. -/
  | ifPeek (chars : List Char) (state : ν)
  | ifLookingAt (text : List Char) (state : ν)
  | push (width : Int)
  | raise (text : String)

namespace Recipe

open Script

variable {ν : Type}

/-- The script of a list of instructions. It stops after the last of them. -/
def script : List (Instruction ν) → Script Grammar.Levels (Option ν)
  | [] => return none
  | .call op :: rest => do
    let _ ← perform op
    script rest
  | .emit type :: rest => do
    deliver type
    script rest
  | .report template args :: _ =>
    match Text.expand template args with
    | .error e => .fail (.template e)
    | .ok message => do
      complain message
      return none
  | .goto state :: _ => return some state
  | .ifAccept chars state :: rest => do
    if ← perform (.accept chars) then return some state else script rest
  | .ifPeek chars state :: rest => do
    match ← peek with
    | none => return some state
    | some c => if c ∈ chars then return some state else script rest
  | .ifLookingAt text state :: rest => do
    if ← lookingAt text then return some state else script rest
  | .push width :: rest => do
    let levels ← get
    set (width :: levels)
    script rest
  | .raise text :: _ => .fail (.raised text)

inductive Place where
  | own (name : String)
  | grammar (state : Grammar.State)
  deriving DecidableEq, Repr, Inhabited

abbrev Table := List (String × List (Instruction Place))

/-- The states of a recipe beside those of the grammar, which they may call and whose data, the open
indentations, they share. -/
def graph (table : Table) : Graph Grammar.Levels Place
  | .own name => script (((table.find? (·.1 == name)).map (·.2)).getD [])
  | .grammar state => do return (← Grammar.graph state).map Place.grammar

def budget : Nat := 100000000

def within (s : Scan Grammar.Levels Grammar.State) : Scan Grammar.Levels Place :=
  { s with todo := s.todo.bind fun next => .done (next.map .grammar) }

theorem move_within (table : Table) (s : Scan Grammar.Levels Grammar.State) :
    Scan.move (graph table) (within s) =
      match Grammar.producer s with
      | .quiet t => .quiet (within t)
      | .emit token t => .emit token (within t)
      | .finish t => .finish (within t)
      | .fail fault t => .fail fault (within t) := by
  obtain ⟨c, levels, todo⟩ := s
  cases todo with
  | done next => cases next <;> rfl
  | call op rest =>
    simp only [within, Script.bind, Scan.move, Grammar.producer]
    cases Cursor.perform op c <;> rfl
  | _ => rfl

/-- From a state of the grammar a recipe goes on as the grammar does, whatever its own states
are. -/
theorem run_within (table : Table) (budget : Nat) (s : Scan Grammar.Levels Grammar.State) :
    (Scan.move (graph table)).run budget (within s) =
      let r := Grammar.producer.run budget s
      ⟨r.tokens, r.ending, within r.last⟩ := by
  induction budget generalizing s with
  | zero => rfl
  | succ n ih =>
    rw [Producer.run, Producer.run, move_within]
    cases Grammar.producer s with
    | quiet t => exact ih t
    | emit token t => simp only [ih t]
    | _ => rfl

end Recipe

end DocModelLexer
