import DocModelLexer.Session

namespace DocModelLexer

inductive ReadError where
  | notStarted
  | alreadyStarted
  | fault (fault : Fault)
  /-- The budget was spent and the queue is still empty. -/
  | stalled
  deriving DecidableEq, Repr, Inhabited

def ReadError.message : ReadError → String
  | .notStarted => "lexer not started"
  | .alreadyStarted => "lexer already started"
  | .fault f => f.message
  | .stalled => "lexer stalled"

namespace Session

variable {τ : Type}

/-- Lets the producer run until it is blocked or has ended, for at most `budget` steps. -/
def settle (p : Producer τ) : (budget : Nat) → Session τ → Session τ
  | 0, s => s
  | n + 1, s =>
    match produce p s with
    | none => s
    | some s => settle p n s

abbrev Call (τ α : Type) := EStateM ReadError (Session τ) α

def start (p : Producer τ) (budget : Nat) : Call τ Unit := fun s =>
  match s.start? with
  | none => .error .alreadyStarted s
  | some s => .ok () (settle p budget s)

/-- The next token, or `none` at the end of the stream. A failed scan fails the call, once. -/
def next (p : Producer τ) (budget : Nat) : Call τ (Option Token) := fun s =>
  if !s.isStarted then .error .notStarted s
  else
    match s.take with
    | none => .error .stalled s
    | some (.token token, s) => .ok (some token) (settle p budget s)
    | some (.closed, s) => .ok none (settle p budget s)
    | some (.failed fault, s) => .error (.fault fault) (settle p budget s)

def takeMany (p : Producer τ) (budget : Nat) : (count : Nat) → Call τ (List Token)
  | 0 => pure []
  | count + 1 => do
    match ← next p budget with
    | none => return []
    | some token => return token :: (← takeMany p budget count)

def drainAll : (count : Nat) → Session τ → Session τ
  | 0, s => s
  | count + 1, s => if s.draining then drainAll count s.drain else s

/-- Cancels the session, throws away what is queued, and lets the producer come to rest. -/
def close (p : Producer τ) (budget : Nat) (s : Session τ) : Session τ :=
  let s := s.cancel
  settle p budget (drainAll (s.queue.length + 1) s)

def takeAndClose (p : Producer τ) (budget count : Nat) : Call τ (List Token) := fun s =>
  match takeMany p budget count s with
  | .ok tokens s => .ok tokens (close p budget s)
  | .error e s => .error e (close p budget s)

/-- Whether the producer has finished or was never started. -/
def isJoined (s : Session τ) : Bool := s.phase == .unstarted || s.phase == .ended

end Session

end DocModelLexer
