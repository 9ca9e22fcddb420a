import DocModelLexer.Proofs.Session.Trace

namespace DocModelLexer

namespace Session

section

variable {τ : Type} {p : Producer τ} {s t : Session τ} {reply : Reply}

/-- What a step of the producer can do. -/
inductive Produced (p : Producer τ) (s : Session τ) : Session τ → Prop where
  | quiet {scan} : s.phase = .running → p s.scan = .quiet scan → Produced p s { s with scan }
  | emit {token scan} : s.phase = .running → p s.scan = .emit token scan →
      Produced p s { s with scan, phase := .offering (.token token) }
  | finish {scan} : s.phase = .running → p s.scan = .finish scan →
      Produced p s ({ s with scan, phase := .offering .closed }.note .terminal)
  | fail {fault scan} : s.phase = .running → p s.scan = .fail fault scan →
      Produced p s
        ({ s with scan, failure := some fault, phase := .offering .closed }.note (.failed fault))
  /-- The flag is up, and the token that is held is lost. -/
  | unwind {token} : s.phase = .offering (.token token) → s.cancelled = true →
      Produced p s ({ s with phase := .ended }.note .stopped)
  | leave : s.phase = .offering .closed → s.cancelled = true →
      Produced p s { s with phase := .ended }
  | pass {item} : s.phase = .offering item → s.cancelled = false →
      Produced p s { s with phase := .putting item }
  | put {item} : s.phase = .putting item → s.queue.length < s.room →
      Produced p s { s with queue := s.queue ++ [item], phase := Phase.afterPut item }

inductive Taken (s : Session τ) : Reply → Session τ → Prop where
  | finished : s.done = true → Taken s .closed s
  | token {token queue} : s.done = false → s.queue = .token token :: queue →
      Taken s (.token token) { s with queue }
  | closed {queue} : s.done = false → s.queue = .closed :: queue → s.failure = none →
      Taken s .closed { s with queue, done := true }
  | failed {fault queue} : s.done = false → s.queue = .closed :: queue →
      s.failure = some fault →
      Taken s (.failed fault) { s with queue, done := true, failure := none }

theorem produced_of_produce (h : s.produce p = some t) : Produced p s t := by
  unfold produce at h
  split at h
  · contradiction
  · contradiction
  · rename_i hphase
    split at h <;> rename_i hmove <;> cases h
    · exact .quiet hphase hmove
    · exact .emit hphase hmove
    · exact .finish hphase hmove
    · exact .fail hphase hmove
  · rename_i item hphase
    split at h <;> rename_i hflag <;> cases h
    · cases item with
      | token token => exact .unwind hphase hflag
      | closed => exact .leave hphase hflag
    · exact .pass hphase (by simpa using hflag)
  · rename_i hphase
    split at h
    · rename_i hroom
      cases h
      exact .put hphase hroom
    · contradiction

theorem taken_of_take (h : s.take = some (reply, t)) : Taken s reply t := by
  unfold take at h
  split at h
  · rename_i hdone
    cases h
    exact .finished hdone
  · rename_i hdone
    have hopen : s.done = false := by simpa using hdone
    split at h
    · contradiction
    · rename_i hqueue
      cases h
      exact .token hopen hqueue
    · rename_i hqueue
      split at h <;> rename_i hfailure <;> cases h
      · exact .closed hopen hqueue hfailure
      · exact .failed hopen hqueue hfailure

theorem eq_of_start? (h : s.start? = some t) :
    s.phase = .unstarted ∧ t = { s with phase := .running }.note .started := by
  unfold start? at h
  split at h
  · contradiction
  · rename_i hphase
    cases h
    exact ⟨by simpa [isStarted] using hphase, rfl⟩

theorem eq_of_new? {scan : τ} {room : Int} (h : new? scan room = some s) :
    1 ≤ room ∧ s = { scan, room := room.toNat } := by
  unfold new? at h
  split at h
  · rename_i hroom
    cases h
    exact ⟨hroom, rfl⟩
  · contradiction

theorem cancel_of_done (h : s.done = true) : s.cancel = s := if_pos h

theorem cancel_of_open (h : s.done = false) :
    s.cancel = { s with done := true, cancelled := true, draining := true } :=
  if_neg (by simp [h])

theorem drain_of_cons {item : Item} {queue : List Item} (h : s.queue = item :: queue) :
    s.drain = { s with queue } := by
  simp [drain, h]

theorem drain_of_nil (h : s.queue = []) :
    s.drain = { s with draining := false }.note .cancelled := by
  simp [drain, h]

/-- The item that a step puts into the queue, if it puts one. -/
def putBy (s : Session τ) (event : Event) : List Item :=
  match event, s.phase with
  | .produced, .putting item => [item]
  | _, _ => []

def removedBy (s : Session τ) (event : Event) : List Item :=
  match event with
  | .replied _ => if s.done then [] else s.queue.take 1
  | .drained => s.queue.take 1
  | _ => []

end

/-- The steps that lead from one state of a session to another, with the items that were put and
those that were removed on the way. -/
inductive Flow {τ : Type} (p : Producer τ) (s : Session τ) :
    List Event → List Item → List Item → Session τ → Prop where
  | refl : Flow p s [] [] [] s
  | step {events put removed t event u} : Flow p s events put removed t → Step p t event u →
      Flow p s (events ++ [event]) (put ++ t.putBy event) (removed ++ t.removedBy event) u

section

variable {τ : Type} {p : Producer τ} {s t : Session τ} {event : Event} {events : List Event}
  {put removed : List Item}

theorem Flow.trace (h : Flow p s events put removed t) : Trace p s events t := by
  induction h with
  | refl => exact .refl
  | step _ hstep ih => exact ih.step hstep

theorem Flow.trans {u : Session τ} {later : List Event} {put' removed' : List Item}
    (h : Flow p s events put removed t) (hlater : Flow p t later put' removed' u) :
    Flow p s (events ++ later) (put ++ put') (removed ++ removed') u := by
  induction hlater with
  | refl => simpa using h
  | step _ hstep ih =>
    simp only [← List.append_assoc]
    exact ih.step hstep

theorem Step.conserves (h : Step p s event t) :
    s.queue ++ s.putBy event = s.removedBy event ++ t.queue := by
  cases h with
  | start hstart =>
    obtain ⟨-, rfl⟩ := eq_of_start? hstart
    simp [putBy, removedBy, note]
  | produce hprod =>
    cases produced_of_produce hprod <;> simp [putBy, removedBy, note, *]
  | take _ _ htake =>
    cases taken_of_take htake <;> simp [putBy, removedBy, *]
  | cancel =>
    cases hdone : s.done with
    | true => simp [cancel_of_done hdone, putBy, removedBy]
    | false => simp [cancel_of_open hdone, putBy, removedBy]
  | drain =>
    cases hqueue : s.queue with
    | nil => simp [drain_of_nil hqueue, putBy, removedBy, note, hqueue]
    | cons item queue => simp [drain_of_cons hqueue, putBy, removedBy, hqueue]

/-- What was queued and what was put is what was removed and what is queued, in this order. -/
theorem Flow.conserves (h : Flow p s events put removed t) :
    s.queue ++ put = removed ++ t.queue := by
  induction h with
  | refl => simp
  | step _ hstep ih =>
    rw [← List.append_assoc, ih, List.append_assoc, hstep.conserves, ← List.append_assoc]

end

end Session

end DocModelLexer
