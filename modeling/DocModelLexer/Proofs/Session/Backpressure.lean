import DocModelLexer.Proofs.Session.Cancellation
import Mathlib.Data.ENat.Lattice
import Mathlib.Order.CompletePartialOrder

namespace DocModelLexer

variable {τ : Type} {p : Producer τ} {scan : τ} {room : Int} {s t session : Session τ}
  {events : List Event} {put removed later : List Item}

/-- How many tokens a run makes when it is not interrupted; it need not have an end. -/
noncomputable def Producer.tokenCount (p : Producer τ) (scan : τ) : ℕ∞ :=
  ⨆ n, ((p.run n scan).tokens.length : ℕ∞)

namespace Producer

theorem le_tokenCount (p : Producer τ) (scan : τ) (n : Nat) :
    ((p.run n scan).tokens.length : ℕ∞) ≤ p.tokenCount scan :=
  le_iSup (fun n => ((p.run n scan).tokens.length : ℕ∞)) n

theorem tokenCount_of_ended {n : Nat} (h : (p.run n scan).ending ≠ .unfinished) :
    p.tokenCount scan = (p.run n scan).tokens.length := by
  apply le_antisymm
  · apply iSup_le
    intro m
    have hall := (p.tokens_run_of_ended h m).length_le
    exact Nat.cast_le.mpr hall
  · exact p.le_tokenCount scan n

end Producer

namespace Run

variable {r : Run τ}

theorem eq_nil_of_closed_mem (h : r.items = put ++ later) (hmem : .closed ∈ put) : later = [] := by
  obtain ⟨k, hk, hget⟩ := List.getElem_of_mem hmem
  have hitem : r.items[k]? = some .closed := by
    rw [h, List.getElem?_append_left hk, List.getElem?_eq_getElem hk, hget]
  obtain ⟨hlast, hover⟩ := items_eq_closed hitem
  have hlen := congrArg List.length h
  simp only [items, hover, if_false, List.length_append, List.length_map,
    List.length_singleton] at hlen
  apply List.eq_nil_of_length_eq_zero
  omega

theorem length_items_le (r : Run τ) : r.items.length ≤ r.tokens.length + 1 := by
  unfold items
  split <;> simp

theorem length_items_of_ended (h : r.ending ≠ .unfinished) :
    r.items.length = r.tokens.length + 1 := by
  simp [items, h]

end Run

namespace Session

/-- A reader that is done without having cancelled has taken the close mark. -/
theorem Flow.closed_mem_of_done (h : Flow p session events put removed t)
    (hcancel : .cancelled ∉ events) (hopen : session.done = false) (hdone : t.done = true) :
    .closed ∈ removed := by
  induction h with
  | refl =>
    rw [hopen] at hdone
    contradiction
  | @step events put removed s event t hflow hstep ih =>
    rw [List.mem_append, not_or] at hcancel
    cases hbefore : s.done with
    | true => exact List.mem_append_left _ (ih hcancel.1 hbefore)
    | false =>
      apply List.mem_append_right
      have hkept : t.done ≠ s.done := by
        rw [hdone, hbefore]
        exact Bool.noConfusion
      cases hstep with
      | start hstart =>
        obtain ⟨-, rfl⟩ := eq_of_start? hstart
        exact absurd rfl hkept
      | produce hprod =>
        have hsame : t.done = s.done := by cases produced_of_produce hprod <;> rfl
        exact absurd hsame hkept
      | take _ _ htake =>
        cases taken_of_take htake with
        | finished => exact absurd rfl hkept
        | token => exact absurd rfl hkept
        | closed _ hqueue => simp [removedBy, hbefore, hqueue]
        | failed _ hqueue => simp [removedBy, hbefore, hqueue]
      | cancel => exact absurd (List.mem_singleton_self _) hcancel.2
      | drain =>
        have hsame : s.drain.done = s.done := by
          cases hqueue : s.queue with
          | nil => rw [drain_of_nil hqueue]; rfl
          | cons item queue => rw [drain_of_cons hqueue]
        exact absurd hsame hkept

theorem Flow.put_eq (hnew : new? scan room = some session)
    (h : Flow p session events put removed t) : put = removed ++ t.queue := by
  have hall := h.conserves
  obtain ⟨-, rfl⟩ := eq_of_new? hnew
  simpa using hall

/-- Without a cancellation the run so far has been put, but for the item that the producer holds;
a producer that has ended has come to the end of its run. -/
theorem Flow.exists_run (hnew : new? scan room = some session)
    (h : Flow p session events put removed t) (hcancel : .cancelled ∉ events) :
    ∃ n, (p.run n scan).items = put ++ t.phase.held ∧
      (t.phase = .ended → (p.run n scan).ending ≠ .unfinished) := by
  obtain ⟨n, hmade⟩ := h.making hnew
  refine ⟨n, ?_⟩
  by_cases hended : t.phase = .ended
  · have hclosed : .closed ∈ put := by
      rw [h.put_eq hnew]
      rcases ((Orderly.new hnew).trace h.trace).ended hended with hdone | hqueued
      · have hopen : session.done = false := by
          obtain ⟨-, rfl⟩ := eq_of_new? hnew
          rfl
        exact List.mem_append_left _ (h.closed_mem_of_done hcancel hopen hdone)
      · exact List.mem_append_right _ hqueued
    rcases hmade.ended hended with ⟨hitems, hover⟩ | ⟨item, hitems, -⟩
    · refine ⟨?_, fun _ => hover⟩
      simpa [hended, Phase.held] using hitems
    · have hnone : [item] = [] := Run.eq_nil_of_closed_mem hitems hclosed
      contradiction
  · exact ⟨hmade.items hended, fun h => absurd h hended⟩

theorem produce_eq_none_iff (p : Producer τ) (hstarted : t.isStarted = true) :
    t.produce p = none ↔ t.ProducerWaits ∨ t.phase = .ended := by
  constructor
  · intro hnone
    by_contra hother
    rw [not_or] at hother
    obtain ⟨u, hprod⟩ := exists_produce p hstarted hother.2 hother.1
    rw [hnone] at hprod
    contradiction
  · intro hrests
    rcases hrests with ⟨⟨item, hphase⟩, hfull⟩ | hended
    · have hroom : ¬t.queue.length < t.room := Nat.not_lt.mpr hfull
      simp [produce, hphase, hroom]
    · simp [produce, hended]

theorem Flow.queue_le (hnew : new? scan room = some session)
    (h : Flow p session events put removed t) (hcancel : .cancelled ∉ events) :
    (t.queue.length : ℕ∞) ≤ p.tokenCount scan + 1 - removed.length := by
  obtain ⟨n, hitems, -⟩ := h.exists_run hnew hcancel
  have hlen := congrArg List.length hitems
  have hle := (p.run n scan).length_items_le
  rw [h.put_eq hnew] at hlen
  have hmade : t.queue.length + removed.length ≤ (p.run n scan).tokens.length + 1 := by
    simp only [List.length_append] at hlen
    omega
  apply ENat.le_sub_of_add_le_right (ENat.natCast_ne_top _)
  calc (t.queue.length : ℕ∞) + removed.length
      ≤ (p.run n scan).tokens.length + 1 := by exact_mod_cast hmade
    _ ≤ p.tokenCount scan + 1 := by gcongr; exact p.le_tokenCount scan n

theorem Flow.queue_of_ended (hnew : new? scan room = some session)
    (h : Flow p session events put removed t) (hcancel : .cancelled ∉ events)
    (hended : t.phase = .ended) :
    (t.queue.length : ℕ∞) = p.tokenCount scan + 1 - removed.length := by
  obtain ⟨n, hitems, hover⟩ := h.exists_run hnew hcancel
  have hlen := congrArg List.length hitems
  rw [Run.length_items_of_ended (hover hended), h.put_eq hnew, hended] at hlen
  have hleft : t.queue.length = (p.run n scan).tokens.length + 1 - removed.length := by
    simp only [List.length_append, Phase.held, List.length_nil] at hlen
    omega
  rw [p.tokenCount_of_ended (hover hended), hleft]
  norm_cast

/-- Under every schedule without a cancellation the reader is behind by the room of the queue at
most, and a producer that can make no step has left as many of the items that are to come in the
queue as there is room for. -/
theorem backpressure_of_every_schedule (hnew : new? scan room = some session)
    (h : Flow p session events put removed t) (hcancel : .cancelled ∉ events) :
    (t.queue.length : Int) ≤ room ∧ (put.length : Int) ≤ removed.length + room ∧
      (t.isStarted = true → (t.produce p = none ↔ t.ProducerWaits ∨ t.phase = .ended)) ∧
      (t.ProducerWaits ∨ t.phase = .ended →
        (t.queue.length : ℕ∞) = min (room.toNat : ℕ∞) (p.tokenCount scan + 1 - removed.length)) := by
  have hfits := h.trace.length_queue_le hnew
  have hall := congrArg List.length (h.put_eq hnew)
  rw [List.length_append] at hall
  have hroom : t.room = room.toNat := by
    have hsame := h.trace.frame.1
    obtain ⟨-, rfl⟩ := eq_of_new? hnew
    exact hsame
  refine ⟨hfits, by omega, produce_eq_none_iff p, ?_⟩
  intro hrests
  rcases hrests with ⟨-, hfull⟩ | hended
  · have hqueue : t.queue.length = room.toNat := by omega
    have hmore := h.queue_le hnew hcancel
    rw [hqueue] at hmore ⊢
    exact (min_eq_left hmore).symm
  · have hleft := h.queue_of_ended hnew hcancel hended
    have hle : (t.queue.length : ℕ∞) ≤ room.toNat := by
      apply Nat.cast_le.mpr
      omega
    rw [← hleft]
    exact (min_eq_right hle).symm

theorem backpressure_of_every_schedule_failed :
    let p : Producer Bool := fun s => if s then .fail .noLevel s else .emit default true
    (2 : ℕ∞) = min 3 (p.tokenCount false + 1 - 0) ∧ p.tokenCount false = 1 := by
  intro p
  have hnew : new? false 3 = some ({ scan := false, room := 3 } : Session Bool) := rfl
  have hfresh : Flow p { scan := false, room := 3 } [] [] [] { scan := false, room := 3 } := .refl
  have hputs := ((hfresh.step (.start rfl)).step (.produce rfl)).step (.produce rfl)
  have hfails := (hputs.step (.produce rfl)).step (.produce rfl)
  have hends := (hfails.step (.produce rfl)).step (.produce rfl)
  obtain ⟨-, -, -, hqueue⟩ := backpressure_of_every_schedule hnew hends (by simp)
  refine ⟨hqueue (.inr rfl), ?_⟩
  exact p.tokenCount_of_ended (n := 2) Ending.noConfusion

end Session

end DocModelLexer
