import DocModelLexer.Proofs.Session.Traffic

namespace DocModelLexer.Session

variable {τ : Type} {p : Producer τ} {s t u : Session τ} {event : Event} {events : List Event}
  {scan : τ} {room : Int}

/-- What holds of the queue, the flag and the two sides in every state of a session. -/
structure Orderly (s : Session τ) : Prop where
  roomy : 0 < s.room
  bounded : s.queue.length ≤ s.room
  flagged : s.cancelled = true → s.done = true
  draining : s.draining = true → s.cancelled = true
  closed : .closed ∈ s.queue → s.phase = .ended
  /-- A producer that has ended has left the close mark, unless the reader is done without it. -/
  ended : s.phase = .ended → s.done = true ∨ .closed ∈ s.queue
  finished : s.done = true → s.cancelled = false → s.phase = .ended
  /-- A put that is still under way when a cancellation is complete finds the queue empty. -/
  emptied : s.cancelled = true → s.draining = false → ∀ item, s.phase = .putting item → s.queue = []

namespace Orderly

theorem new (h : new? scan room = some s) : Orderly s := by
  obtain ⟨hroom, rfl⟩ := eq_of_new? h
  refine ⟨?_, Nat.zero_le _, ?_, ?_, ?_, ?_, ?_, ?_⟩
  · simp only
    omega
  all_goals simp

theorem goesOn (h : Orderly s) (hs : s.phase ≠ .ended) (ht : t.phase ≠ .ended)
    (hput : s.cancelled = true → ∀ item, t.phase ≠ .putting item) (hqueue : t.queue = s.queue)
    (hroom : t.room = s.room) (hdone : t.done = s.done) (hcancelled : t.cancelled = s.cancelled)
    (hdraining : t.draining = s.draining) : Orderly t := by
  refine ⟨?_, ?_, ?_, ?_, ?_, ?_, ?_, ?_⟩
  · rw [hroom]
    exact h.roomy
  · rw [hqueue, hroom]
    exact h.bounded
  · rw [hdone, hcancelled]
    exact h.flagged
  · rw [hdraining, hcancelled]
    exact h.draining
  · rw [hqueue]
    intro hmem
    exact absurd (h.closed hmem) hs
  · intro hended
    exact absurd hended ht
  · rw [hdone, hcancelled]
    intro hover hflag
    exact absurd (h.finished hover hflag) hs
  · rw [hcancelled]
    intro hflag _ item hitem
    exact absurd hitem (hput hflag item)

theorem givesUp (h : Orderly s) (hflag : s.cancelled = true) (notices : List Notice) :
    Orderly { s with phase := .ended, notices } where
  roomy := h.roomy
  bounded := h.bounded
  flagged := h.flagged
  draining := h.draining
  closed _ := rfl
  ended _ := .inl (h.flagged hflag)
  finished _ _ := rfl
  emptied _ _ _ hitem := Phase.noConfusion hitem

theorem puts {item : Item} (h : Orderly s) (hphase : s.phase = .putting item)
    (hroom : s.queue.length < s.room) :
    Orderly { s with queue := s.queue ++ [item], phase := Phase.afterPut item } where
  roomy := h.roomy
  bounded := by
    rw [List.length_append]
    exact hroom
  flagged := h.flagged
  draining := h.draining
  closed := by
    intro hmem
    rcases List.mem_append.mp hmem with hmem | hmem
    · rw [h.closed hmem] at hphase
      contradiction
    · rw [← List.mem_singleton.mp hmem]
      rfl
  ended := by
    intro hended
    cases item with
    | token token => cases hended
    | closed => exact .inr (by simp)
  finished := by
    intro hover hflag
    rw [h.finished hover hflag] at hphase
    contradiction
  emptied := by
    intro _ _ other hother
    cases item <;> cases hother

theorem produce (h : Orderly s) (hprod : s.produce p = some t) : Orderly t := by
  cases produced_of_produce hprod with
  | quiet hphase =>
    exact h.goesOn (by simp [hphase]) (by simp [hphase]) (by simp [hphase]) rfl rfl rfl rfl rfl
  | emit hphase => exact h.goesOn (by simp [hphase]) (by simp) (by simp) rfl rfl rfl rfl rfl
  | finish hphase =>
    exact h.goesOn (by simp [hphase]) (by simp [note]) (by simp [note]) rfl rfl rfl rfl rfl
  | fail hphase =>
    exact h.goesOn (by simp [hphase]) (by simp [note]) (by simp [note]) rfl rfl rfl rfl rfl
  | unwind _ hflag => exact h.givesUp hflag _
  | leave _ hflag => exact h.givesUp hflag _
  | pass hphase hflag =>
    exact h.goesOn (by simp [hphase]) (by simp) (by simp [hflag]) rfl rfl rfl rfl rfl
  | put hphase hroom => exact h.puts hphase hroom

theorem removes {item : Item} {queue : List Item} {done : Bool} {failure : Option Fault}
    (h : Orderly s) (hqueue : s.queue = item :: queue) (hkeeps : s.done = true → done = true)
    (hdone : done = true → s.done = true ∨ item = .closed) (hmet : item = .closed → done = true) :
    Orderly { s with queue, done, failure } := by
  have hmem : ∀ other, other ∈ queue → other ∈ s.queue := by
    intro other hother
    rw [hqueue]
    exact List.mem_cons_of_mem _ hother
  refine ⟨h.roomy, ?_, ?_, h.draining, ?_, ?_, ?_, ?_⟩
  · have hle := h.bounded
    rw [hqueue] at hle
    exact Nat.le_of_succ_le hle
  · intro hflag
    exact hkeeps (h.flagged hflag)
  · intro hclosed
    exact h.closed (hmem _ hclosed)
  · intro hended
    rcases h.ended hended with hover | hclosed
    · exact .inl (hkeeps hover)
    · rw [hqueue] at hclosed
      rcases List.mem_cons.mp hclosed with hitem | hclosed
      · exact .inl (hmet hitem.symm)
      · exact .inr hclosed
  · intro hover hflag
    rcases hdone hover with hover | hitem
    · exact h.finished hover hflag
    · apply h.closed
      rw [hqueue, hitem]
      exact List.mem_cons_self
  · intro hflag hdraining other hother
    have hempty := h.emptied hflag hdraining other hother
    rw [hqueue] at hempty
    contradiction

theorem take {reply : Reply} (h : Orderly s) (htake : s.take = some (reply, t)) : Orderly t := by
  cases taken_of_take htake with
  | finished => exact h
  | token hopen hqueue => exact h.removes hqueue id (fun hdone => .inl hdone) Item.noConfusion
  | closed hopen hqueue => exact h.removes hqueue (fun _ => rfl) (fun _ => .inr rfl) fun _ => rfl
  | failed hopen hqueue => exact h.removes hqueue (fun _ => rfl) (fun _ => .inr rfl) fun _ => rfl

theorem cancel (h : Orderly s) : Orderly s.cancel := by
  cases hdone : s.done with
  | true =>
    rw [cancel_of_done hdone]
    exact h
  | false =>
    rw [cancel_of_open hdone]
    refine ⟨h.roomy, h.bounded, fun _ => rfl, fun _ => rfl, h.closed, fun _ => .inl rfl, ?_, ?_⟩
    · intro _ hflag
      cases hflag
    · intro _ hdraining
      cases hdraining

theorem drain (h : Orderly s) (hdraining : s.draining = true) : Orderly s.drain := by
  have hdone : s.done = true := h.flagged (h.draining hdraining)
  cases hqueue : s.queue with
  | nil =>
    rw [drain_of_nil hqueue]
    refine ⟨h.roomy, h.bounded, h.flagged, ?_, h.closed, h.ended, h.finished, fun _ _ _ _ => hqueue⟩
    intro hgoes
    cases hgoes
  | cons item queue =>
    rw [drain_of_cons hqueue]
    exact h.removes hqueue id (fun hover => .inl hover) fun _ => hdone

theorem step (h : Orderly s) (hstep : Step p s event t) : Orderly t := by
  cases hstep with
  | start hstart =>
    obtain ⟨hphase, rfl⟩ := eq_of_start? hstart
    exact h.goesOn (by simp [hphase]) (by simp [note]) (by simp [note]) rfl rfl rfl rfl rfl
  | produce hprod => exact h.produce hprod
  | take _ _ htake => exact h.take htake
  | cancel => exact h.cancel
  | drain hdraining => exact h.drain hdraining

theorem trace (h : Orderly s) (htrace : Trace p s events t) : Orderly t := by
  induction htrace with
  | refl => exact h
  | step _ hstep ih => exact ih.step hstep

end Orderly

theorem Step.done (h : Step p s event t) (hdone : s.done = true ∨ event = .cancelled) :
    t.done = true := by
  cases h with
  | start hstart =>
    obtain ⟨-, rfl⟩ := eq_of_start? hstart
    exact hdone.resolve_right Event.noConfusion
  | produce hprod =>
    have hover : s.done = true := hdone.resolve_right Event.noConfusion
    cases produced_of_produce hprod <;> exact hover
  | take _ _ htake =>
    have hover : s.done = true := hdone.resolve_right Event.noConfusion
    cases taken_of_take htake with
    | finished => exact hover
    | token => exact hover
    | closed => rfl
    | failed => rfl
  | cancel =>
    cases hover : s.done with
    | true => rw [cancel_of_done hover, hover]
    | false => rw [cancel_of_open hover]
  | drain =>
    have hover : s.done = true := hdone.resolve_right Event.noConfusion
    cases hqueue : s.queue with
    | nil =>
      rw [drain_of_nil hqueue]
      exact hover
    | cons item queue =>
      rw [drain_of_cons hqueue]
      exact hover

theorem Trace.done (h : Trace p s events t) (hdone : s.done = true ∨ .cancelled ∈ events) :
    t.done = true := by
  induction h with
  | refl => exact hdone.resolve_right (by simp)
  | step _ hstep ih =>
    apply hstep.done
    rcases hdone with hdone | hmem
    · exact .inl (ih (.inl hdone))
    · rcases List.mem_append.mp hmem with hmem | hmem
      · exact .inl (ih (.inr hmem))
      · exact .inr (List.mem_singleton.mp hmem).symm

theorem take_of_done (h : s.done = true) : s.take = some (.closed, s) := if_pos h

theorem take_eq_none_iff : s.take = none ↔ s.done = false ∧ s.queue = [] := by
  unfold take
  split
  · simp_all
  · split
    · simp_all
    · simp_all
    · split <;> simp_all

/-- The reader waits in a call for the next item. -/
def ReaderWaits (s : Session τ) : Prop :=
  s.isStarted = true ∧ s.draining = false ∧ s.take = none

/-- The producer waits for room to put an item. -/
def ProducerWaits (s : Session τ) : Prop :=
  (∃ item, s.phase = .putting item) ∧ s.room ≤ s.queue.length

/-- Only a full queue holds up a producer that has begun and not ended. -/
theorem exists_produce (p : Producer τ) (hstarted : s.isStarted = true) (hphase : s.phase ≠ .ended)
    (hroom : ¬s.ProducerWaits) : ∃ t, s.produce p = some t := by
  unfold produce
  split
  · simp_all [isStarted]
  · contradiction
  · split <;> exact ⟨_, rfl⟩
  · split <;> exact ⟨_, rfl⟩
  · rename_i item hput
    rw [if_pos]
    · exact ⟨_, rfl⟩
    · apply Nat.lt_of_not_le
      intro hfull
      exact hroom ⟨⟨item, hput⟩, hfull⟩

namespace Orderly

theorem ne_ended_of_waits (h : Orderly s) (hwaits : s.ReaderWaits) : s.phase ≠ .ended := by
  obtain ⟨hopen, hqueue⟩ := take_eq_none_iff.mp hwaits.2.2
  intro hended
  rcases h.ended hended with hdone | hclosed
  · rw [hopen] at hdone
    contradiction
  · rw [hqueue] at hclosed
    contradiction

theorem not_waits_of_nil (h : Orderly s) (hqueue : s.queue = []) : ¬s.ProducerWaits := by
  rintro ⟨-, hfull⟩
  have hroomy := h.roomy
  rw [hqueue, List.length_nil] at hfull
  omega

theorem not_waits_of_done (h : Orderly s) (hdone : s.done = true) (hdraining : s.draining = false) :
    ¬s.ProducerWaits := by
  rintro ⟨⟨item, hput⟩, hfull⟩
  cases hflag : s.cancelled with
  | true =>
    have hqueue := h.emptied hflag hdraining item hput
    exact h.not_waits_of_nil hqueue ⟨⟨item, hput⟩, hfull⟩
  | false =>
    have hended := h.finished hdone hflag
    rw [hput] at hended
    contradiction

end Orderly

/-- Under every schedule, a reader that waits for an item has a producer that can go on; and once a
cancellation is complete the producer has ended or can go on. -/
theorem progress_of_every_schedule (hnew : new? scan room = some s) (h : Trace p s events t) :
    (t.ReaderWaits → t.phase ≠ .ended ∧ ∃ u, Step p t .produced u) ∧
      (.cancelled ∈ events → t.draining = false → ¬t.ProducerWaits ∧
        (t.isStarted = true → t.phase ≠ .ended → ∃ u, Step p t .produced u)) := by
  have horderly : Orderly t := (Orderly.new hnew).trace h
  refine ⟨?_, ?_⟩
  · intro hwaits
    have hphase := horderly.ne_ended_of_waits hwaits
    have hqueue := (take_eq_none_iff.mp hwaits.2.2).2
    obtain ⟨u, hprod⟩ := exists_produce p hwaits.1 hphase (horderly.not_waits_of_nil hqueue)
    exact ⟨hphase, u, .produce hprod⟩
  · intro hcancelled hdraining
    have hroom := horderly.not_waits_of_done (h.done (.inr hcancelled)) hdraining
    refine ⟨hroom, ?_⟩
    intro hstarted hphase
    obtain ⟨u, hprod⟩ := exists_produce p hstarted hphase hroom
    exact ⟨u, .produce hprod⟩

theorem progress_of_every_schedule_endless :
    let p : Producer Unit := fun _ => .emit default ()
    let waiting : Session Unit :=
      { scan := (), room := 1, phase := .running, notices := [.started] }
    let left : Session Unit :=
      { scan := (), room := 1, phase := .putting (.token default), cancelled := true, done := true,
        notices := [.started, .cancelled] }
    (∃ u, Step p waiting .produced u) ∧ ¬left.ProducerWaits ∧ ∃ u, Step p left .produced u := by
  intro p waiting left
  have hnew : new? () 1 = some ({ scan := (), room := 1 } : Session Unit) := rfl
  have hstart : Trace p { scan := (), room := 1 } ([] ++ [.started]) waiting :=
    .step .refl (.start rfl)
  have hcancel : Trace p { scan := (), room := 1 }
      ([] ++ [.started] ++ [.produced] ++ [.produced] ++ [.cancelled] ++ [.drained]) left :=
    (((hstart.step (.produce rfl)).step (.produce rfl)).step (.cancel rfl)).step (.drain rfl)
  have hwaits : waiting.ReaderWaits := ⟨rfl, rfl, rfl⟩
  obtain ⟨-, hgoes⟩ := (progress_of_every_schedule hnew hstart).1 hwaits
  obtain ⟨hroom, hleft⟩ := (progress_of_every_schedule hnew hcancel).2 (by simp) rfl
  exact ⟨hgoes, hroom, hleft rfl Phase.noConfusion⟩

end DocModelLexer.Session
