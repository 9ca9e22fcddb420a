import DocModelLexer.Scan

namespace DocModelLexer

/-- What travels through the queue: tokens, and behind the last of them a close mark. -/
inductive Item where
  | token (token : Token)
  | closed
  deriving DecidableEq, Repr, Inhabited

inductive Phase where
  | unstarted
  | running
  /-- About to test the flag before it puts an item. -/
  | offering (item : Item)
  /-- Past the test, and waiting for room. -/
  | putting (item : Item)
  | ended
  deriving DecidableEq, Repr, Inhabited

inductive Notice where
  | started
  | terminal
  | stopped
  | failed (fault : Fault)
  | cancelled
  deriving DecidableEq, Repr, Inhabited

def Notice.message (label : String) : Notice → String
  | .started => s!"lexer {label} started"
  | .terminal => s!"lexer {label} reached a terminal state"
  | .stopped => s!"lexer {label} stopped after cancellation"
  | .failed fault => s!"lexer {label} state function failed: {fault.shown}"
  | .cancelled => s!"lexer {label} cancelled by consumer"

/-- A producer of tokens and its reader, with a queue of bounded room between them. Every function
below is one step that no step of the other side can divide, and any interleaving of the steps is a
run of the session. -/
structure Session (τ : Type) where
  scan : τ
  room : Nat
  queue : List Item := []
  phase : Phase := .unstarted
  cancelled : Bool := false
  /-- The fault of a failed scan, until the reader has met it. -/
  failure : Option Fault := none
  /-- The reader has met the end of the stream or has cancelled. -/
  done : Bool := false
  /-- The reader is emptying the queue of a cancelled session. -/
  draining : Bool := false
  notices : List Notice := []

inductive Reply where
  | token (token : Token)
  | closed
  | failed (fault : Fault)
  deriving DecidableEq, Repr, Inhabited

namespace Session

variable {τ : Type}

/-- A session needs room for one item at least. -/
def new? (scan : τ) (room : Int) : Option (Session τ) :=
  if 1 ≤ room then some { scan, room := room.toNat } else none

def note (s : Session τ) (notice : Notice) : Session τ :=
  { s with notices := s.notices ++ [notice] }

def isStarted (s : Session τ) : Bool := s.phase != .unstarted

def start? (s : Session τ) : Option (Session τ) :=
  if s.isStarted then none else some ({ s with phase := .running }.note .started)

def Phase.afterPut : Item → Phase
  | .token _ => .running
  | .closed => .ended

/-- One step of the producer; `none` while it is blocked, and before its start and after its end. It
tests the flag in one step and puts the item in another, so an item that is past the test may arrive
after the cancellation. An item that is refused ends the producer: graphs that go on in spite of
that, or that bring it about themselves, are not represented. -/
def produce (p : Producer τ) (s : Session τ) : Option (Session τ) :=
  match s.phase with
  | .unstarted | .ended => none
  | .running =>
    match p s.scan with
    | .quiet scan => some { s with scan }
    | .emit token scan => some { s with scan, phase := .offering (.token token) }
    | .finish scan => some ({ s with scan, phase := .offering .closed }.note .terminal)
    | .fail fault scan =>
      some ({ s with scan, failure := some fault, phase := .offering .closed }.note (.failed fault))
  | .offering item =>
    if s.cancelled then
      let s := { s with phase := .ended }
      some (if item = .closed then s else s.note .stopped)
    else some { s with phase := .putting item }
  | .putting item =>
    if s.queue.length < s.room then
      some { s with queue := s.queue ++ [item], phase := Phase.afterPut item }
    else none

/-- The reader takes the next item; `none` while it has to wait. After the end it takes nothing. -/
def take (s : Session τ) : Option (Reply × Session τ) :=
  if s.done then some (.closed, s)
  else
    match s.queue with
    | [] => none
    | .token token :: queue => some (.token token, { s with queue })
    | .closed :: queue =>
      match s.failure with
      | none => some (.closed, { s with queue, done := true })
      | some fault => some (.failed fault, { s with queue, done := true, failure := none })

/-- The reader raises the flag, unless the stream has ended for it. -/
def cancel (s : Session τ) : Session τ :=
  if s.done then s else { s with done := true, cancelled := true, draining := true }

/-- The reader throws away one item, or finds the queue empty and has cancelled. -/
def drain (s : Session τ) : Session τ :=
  match s.queue with
  | _ :: queue => { s with queue }
  | [] => { s with draining := false }.note .cancelled

end Session

end DocModelLexer
