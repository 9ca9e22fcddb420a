import DocModelLexer.Source

namespace DocModelLexer

/-- A window of pending text `[tokenStart, position)` over a source. At the end of the source one
read succeeds and answers with no character; `atEnd` records it, and it can be taken back like any
other. -/
structure Cursor where
  source : Source
  tokenStart : Nat := 0
  position : Nat := 0
  atEnd : Bool := false
  deriving Inhabited

namespace Cursor

inductive Fault where
  | pastEnd
  | beforeWindow
  deriving DecidableEq, Repr, Inhabited

def Fault.message : Fault → String
  | .pastEnd => "next() attempted to move past end of source"
  | .beforeWindow => "backup() attempted to move before token start"

/-- A computation that moves a cursor. It leaves a cursor behind even when it faults. -/
abbrev Action (α : Type) := EStateM Fault Cursor α

/-- Reads one character; the end of the source reads as `none`, once. -/
def next : Action (Option Char) := fun c =>
  if h : c.position < c.source.chars.size then
    .ok (some c.source.chars[c.position]) { c with position := c.position + 1 }
  else if c.atEnd then .error .pastEnd c
  else .ok none { c with atEnd := true }

/-- Takes back the last read, but nothing that stands before the window. -/
def backup : Action Unit := fun c =>
  if c.atEnd then .ok () { c with atEnd := false }
  else if c.position ≤ c.tokenStart then .error .beforeWindow c
  else .ok () { c with position := c.position - 1 }

def peek : Action (Option Char) := do
  let ch ← next
  backup
  return ch

def accept (chars : List Char) : Action Bool := do
  match ← next with
  | some ch =>
    if ch ∈ chars then return true
    backup
    return false
  | none =>
    backup
    return false

theorem next_eq_some {c c' : Cursor} {ch : Char} (h : next c = .ok (some ch) c') :
    ∃ hp : c.position < c.source.chars.size, ch = c.source.chars[c.position] ∧
      c' = { c with position := c.position + 1 } := by
  unfold next at h
  split at h
  · rename_i hp
    simp only [EStateM.Result.ok.injEq, Option.some.injEq] at h
    exact ⟨hp, h.1.symm, h.2.symm⟩
  · split at h <;> simp at h

/-- Reads on while the characters satisfy `p`, and takes back the read that ended the run. -/
def acceptWhile (p : Char → Bool) : Action Unit := fun c =>
  match _h : next c with
  | .ok (some ch) c' => if p ch then acceptWhile p c' else backup c'
  | .ok none c' => backup c'
  | .error e c' => .error e c'
termination_by c => c.source.chars.size - c.position
decreasing_by
  obtain ⟨hp, _, rfl⟩ := next_eq_some _h
  exact Nat.sub_lt_sub_left hp (Nat.lt_succ_self _)

def acceptRun (chars : List Char) : Action Unit := acceptWhile (· ∈ chars)

/-- Reads up to a character among `chars`, a line feed, a NUL or the end of the source. -/
def acceptTo (chars : List Char) : Action Unit :=
  acceptWhile fun ch => ch ∉ chars ∧ ch ≠ '\n' ∧ ch ≠ '\x00'

def lookingAt (text : List Char) : Action Bool := fun c =>
  .ok (c.source.slice c.position (c.position + text.length) == text) c

def current : Action (List Char) := fun c =>
  .ok (c.source.slice c.tokenStart c.position) c

def ignore : Action Unit := fun c => .ok () { c with tokenStart := c.position }

def positionAt (offset : Int) : Action Position := fun c => .ok (c.source.positionAt offset) c

def span (c : Cursor) : Span := c.source.spanOf c.tokenStart c.position

inductive Op where
  | next
  | backup
  | peek
  | accept (chars : List Char)
  | acceptWhile (p : Char → Bool)
  | acceptRun (chars : List Char)
  | acceptTo (chars : List Char)
  | lookingAt (text : List Char)
  | current
  | ignore
  | positionAt (offset : Int)

abbrev Op.Reply : Op → Type
  | .next | .peek => Option Char
  | .accept _ | .lookingAt _ => Bool
  | .backup | .acceptWhile _ | .acceptRun _ | .acceptTo _ | .ignore => Unit
  | .current => List Char
  | .positionAt _ => Position

def perform : (op : Op) → Action op.Reply
  | .next => Cursor.next
  | .backup => Cursor.backup
  | .peek => Cursor.peek
  | .accept chars => Cursor.accept chars
  | .acceptWhile p => Cursor.acceptWhile p
  | .acceptRun chars => Cursor.acceptRun chars
  | .acceptTo chars => Cursor.acceptTo chars
  | .lookingAt text => Cursor.lookingAt text
  | .current => Cursor.current
  | .ignore => Cursor.ignore
  | .positionAt offset => Cursor.positionAt offset

end Cursor

end DocModelLexer
