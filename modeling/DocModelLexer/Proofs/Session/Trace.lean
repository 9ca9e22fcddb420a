import DocModelLexer.Session

namespace DocModelLexer

/-- One step of a session, as its reader knows it. -/
inductive Event where
  | started
  | produced
  | replied (reply : Reply)
  | cancelled
  | drained
  deriving DecidableEq, Repr, Inhabited

def Event.replies (events : List Event) : List Reply :=
  events.filterMap fun
    | .replied reply => some reply
    | _ => none

namespace Event

@[simp] theorem replies_nil : replies [] = [] := rfl

@[simp] theorem replies_append (events later : List Event) :
    replies (events ++ later) = replies events ++ replies later :=
  List.filterMap_append

@[simp] theorem replies_replied (reply : Reply) : replies [.replied reply] = [reply] := rfl

@[simp] theorem replies_started : replies [.started] = [] := rfl

@[simp] theorem replies_produced : replies [.produced] = [] := rfl

@[simp] theorem replies_replicate_produced (n : Nat) :
    replies (List.replicate n .produced) = [] := by
  simp [replies]

end Event

namespace Session

variable {τ : Type}

/-- The steps of a session. There is one reader: it asks for no token, and does not cancel again,
before it has emptied the queue of a session that it cancels. -/
inductive Step (p : Producer τ) : Session τ → Event → Session τ → Prop where
  | start {s t} : s.start? = some t → Step p s .started t
  | produce {s t} : s.produce p = some t → Step p s .produced t
  | take {s t reply} : s.isStarted → s.draining = false → s.take = some (reply, t) →
      Step p s (.replied reply) t
  | cancel {s} : s.draining = false → Step p s .cancelled s.cancel
  | drain {s} : s.draining = true → Step p s .drained s.drain

/-- The steps that lead from one state of a session to another, under some schedule. -/
inductive Trace (p : Producer τ) (s : Session τ) : List Event → Session τ → Prop where
  | refl : Trace p s [] s
  | step {events event t u} : Trace p s events t → Step p t event u →
      Trace p s (events ++ [event]) u

theorem Trace.trans {p : Producer τ} {s t u : Session τ} {events later : List Event}
    (h : Trace p s events t) (hlater : Trace p t later u) : Trace p s (events ++ later) u := by
  induction hlater with
  | refl => simpa using h
  | step _ hstep ih =>
    rw [← List.append_assoc]
    exact ih.step hstep

end Session

end DocModelLexer
