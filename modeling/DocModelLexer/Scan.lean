import DocModelLexer.Fault
import DocModelLexer.Token

namespace DocModelLexer

/-- A computation over a cursor and data of type `σ` that delivers tokens on its way to an `α`. -/
inductive Script (σ α : Type) where
  | done (result : α)
  | call (op : Cursor.Op) (rest : op.Reply → Script σ α)
  | load (rest : σ → Script σ α)
  | store (data : σ) (rest : Script σ α)
  | emit (type : Int) (rest : Script σ α)
  | report (message : String) (rest : Script σ α)
  | fail (fault : Fault)

namespace Script

variable {σ α β : Type}

protected def bind : Script σ α → (α → Script σ β) → Script σ β
  | done a, f => f a
  | call op rest, f => call op fun reply => (rest reply).bind f
  | load rest, f => load fun data => (rest data).bind f
  | store data rest, f => store data (rest.bind f)
  | emit type rest, f => emit type (rest.bind f)
  | report message rest, f => report message (rest.bind f)
  | fail fault, _ => fail fault

instance : Monad (Script σ) where
  pure := done
  bind := Script.bind

def perform (op : Cursor.Op) : Script σ op.Reply := call op done

def next : Script σ (Option Char) := perform .next

def peek : Script σ (Option Char) := perform .peek

def acceptWhile (p : Char → Bool) : Script σ Unit := perform (.acceptWhile p)

def acceptRun (chars : List Char) : Script σ Unit := perform (.acceptRun chars)

def acceptTo (chars : List Char) : Script σ Unit := perform (.acceptTo chars)

def lookingAt (text : List Char) : Script σ Bool := perform (.lookingAt text)

def current : Script σ (List Char) := perform .current

def ignore : Script σ Unit := perform .ignore

def get : Script σ σ := load done

def set (data : σ) : Script σ Unit := store data (done ())

def deliver (type : Int) : Script σ Unit := emit type (done ())

/-- Delivers an error message that points at the pending text, and keeps the window. -/
def complain (message : String) : Script σ Unit := report message (done ())

end Script

/-- What a state does before it names the next state; `none` ends the scan. -/
abbrev Graph (σ ν : Type) := ν → Script σ (Option ν)

/-- One move of whatever produces tokens: a step without effect on its reader, a token, the end, or
a fault. A fault is one that a session hands on to its reader; what would end the whole program is
not represented. -/
inductive Move (τ : Type) where
  | quiet (next : τ)
  | emit (token : Token) (next : τ)
  | finish (last : τ)
  | fail (fault : Fault) (last : τ)

abbrev Producer (τ : Type) := τ → Move τ

/-- A scan under way: where its cursor stands, its data, and what its state has still to do. -/
structure Scan (σ ν : Type) where
  cursor : Cursor
  data : σ
  todo : Script σ (Option ν)

namespace Scan

variable {σ ν : Type}

/-- A scan of a whole source that begins in `state`; without a state it ends at once. -/
def start (source : Source) (data : σ) (state : Option ν) : Scan σ ν :=
  ⟨{ source }, data, .done state⟩

def move (graph : Graph σ ν) : Producer (Scan σ ν) := fun s =>
  match s.todo with
  | .done none => .finish s
  | .done (some state) => .quiet { s with todo := graph state }
  | .call op rest =>
    match Cursor.perform op s.cursor with
    | .ok reply cursor => .quiet { s with cursor, todo := rest reply }
    | .error fault cursor => .fail (.cursor fault) { s with cursor }
  | .load rest => .quiet { s with todo := rest s.data }
  | .store data rest => .quiet { s with data, todo := rest }
  | .emit type rest =>
    let c := s.cursor
    let text := String.ofList (c.source.slice c.tokenStart c.position)
    .emit ⟨type, text, some c.span⟩
      { s with cursor := { c with tokenStart := c.position }, todo := rest }
  | .report message rest =>
    .emit ⟨errorType, message, some s.cursor.span⟩ { s with todo := rest }
  | .fail fault => .fail fault s

end Scan

inductive Ending where
  | finished
  | failed (fault : Fault)
  | unfinished
  deriving DecidableEq, Repr, Inhabited

structure Run (τ : Type) where
  tokens : List Token
  ending : Ending
  last : τ

namespace Producer

variable {τ : Type}

/-- A run of at most `budget` moves with nobody in its way. -/
def run (p : Producer τ) : (budget : Nat) → τ → Run τ
  | 0, s => ⟨[], .unfinished, s⟩
  | n + 1, s =>
    match p s with
    | .quiet s => run p n s
    | .emit token s =>
      let r := run p n s
      { r with tokens := token :: r.tokens }
    | .finish s => ⟨[], .finished, s⟩
    | .fail fault s => ⟨[], .failed fault, s⟩

end Producer

end DocModelLexer
