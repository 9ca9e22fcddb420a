import DocModelLexer.Proofs.Session.Deadlock
import DocModelLexer.Proofs.Session.Progress

namespace DocModelLexer

variable {τ : Type} {p : Producer τ} {scan : τ} {room : Int} {s t : Session τ} {event : Event}
  {events : List Event} {put removed : List Item}

/-- Puts that are past the test of the flag. -/
def Phase.inFlight : Phase → Nat
  | .putting _ => 1
  | _ => 0

theorem Phase.inFlight_le (phase : Phase) : phase.inFlight ≤ 1 := by
  cases phase <;> simp [inFlight]

namespace Session

/-- Past a raised flag a put has to be under way already. -/
theorem Step.put_le (h : Step p s event t) (hflag : s.cancelled = true) :
    (s.putBy event).length + t.phase.inFlight ≤ s.phase.inFlight ∧ t.cancelled = true := by
  cases h with
  | start hstart =>
    obtain ⟨hphase, rfl⟩ := eq_of_start? hstart
    simp [putBy, note, Phase.inFlight, hflag]
  | produce hprod =>
    cases produced_of_produce hprod with
    | pass _ hopen =>
      rw [hflag] at hopen
      contradiction
    | @put item => cases item <;> simp_all [putBy, Phase.inFlight, Phase.afterPut]
    | _ => simp_all [putBy, note, Phase.inFlight]
  | take _ _ htake =>
    obtain ⟨hphase, -, -⟩ := take_frame htake
    cases taken_of_take htake <;> simp_all [putBy]
  | cancel =>
    cases hdone : s.done with
    | true => simp [cancel_of_done hdone, putBy, hflag]
    | false => simp [cancel_of_open hdone, putBy]
  | drain =>
    cases hqueue : s.queue with
    | nil => simp [drain_of_nil hqueue, putBy, note, hflag]
    | cons item queue => simp [drain_of_cons hqueue, putBy, hflag]

theorem Flow.put_le (h : Flow p s events put removed t) (hflag : s.cancelled = true) :
    put.length + t.phase.inFlight ≤ s.phase.inFlight ∧ t.cancelled = true := by
  induction h with
  | refl => simp [hflag]
  | step _ hstep ih =>
    obtain ⟨hle, hraised⟩ := hstep.put_le ih.2
    rw [List.length_append]
    exact ⟨by omega, hraised⟩

theorem Step.drained (h : Step p s event t) (hdone : s.done = true) :
    [event].count .drained + t.draining.toNat = (s.removedBy event).length + s.draining.toNat := by
  cases h with
  | start hstart =>
    obtain ⟨-, rfl⟩ := eq_of_start? hstart
    simp [removedBy, note]
  | produce hprod =>
    cases produced_of_produce hprod <;> simp [removedBy, note]
  | take _ _ htake =>
    cases taken_of_take htake <;> simp_all [removedBy]
  | cancel => simp [cancel_of_done hdone, removedBy]
  | drain hdraining =>
    cases hqueue : s.queue with
    | nil => simp [drain_of_nil hqueue, removedBy, note, hqueue, hdraining]
    | cons item queue => simp [drain_of_cons hqueue, removedBy, hqueue]

theorem Flow.drained (h : Flow p s events put removed t) (hdone : s.done = true) :
    events.count .drained + t.draining.toNat = removed.length + s.draining.toNat := by
  induction h with
  | refl => simp
  | step hflow hstep ih =>
    have hone := hstep.drained (hflow.trace.done (.inl hdone))
    rw [List.count_append, List.length_append]
    omega

theorem Trace.closed_of_done (h : Trace p s events t) (hdone : s.done = true) :
    ∀ reply ∈ Event.replies events, reply = .closed := by
  induction h with
  | refl => simp
  | step htrace hstep ih =>
    intro reply hreply
    rw [Event.replies_append] at hreply
    rcases List.mem_append.mp hreply with hreply | hreply
    · exact ih reply hreply
    · have hover := htrace.done (.inl hdone)
      cases hstep with
      | take _ _ htake =>
        rw [take_of_done hover] at htake
        cases htake
        simpa using hreply
      | _ => cases hreply

theorem Flow.tokens_of_open (h : Flow p s events put removed t) (hs : Orderly s)
    (hopen : t.done = false) :
    ∃ tokens : List Token, Event.replies events = tokens.map .token ∧
      removed = tokens.map .token := by
  induction h with
  | refl => exact ⟨[], rfl, rfl⟩
  | @step events put removed t event u hflow hstep ih =>
    have hbefore : t.done = false := by
      cases hdone : t.done with
      | false => rfl
      | true =>
        rw [hstep.done (.inl hdone)] at hopen
        contradiction
    obtain ⟨tokens, hreplies, hremoved⟩ := ih hbefore
    rw [Event.replies_append, hreplies, hremoved]
    cases hstep with
    | start => exact ⟨tokens, by simp, by simp [removedBy]⟩
    | produce => exact ⟨tokens, by simp, by simp [removedBy]⟩
    | cancel =>
      rw [cancel_of_open hbefore] at hopen
      cases hopen
    | drain hdraining =>
      have ht := hs.trace hflow.trace
      rw [ht.flagged (ht.draining hdraining)] at hbefore
      contradiction
    | take _ _ htake =>
      cases taken_of_take htake with
      | finished hover =>
        rw [hover] at hbefore
        contradiction
      | closed => cases hopen
      | failed => cases hopen
      | @token token queue _ hqueue =>
        exact ⟨tokens ++ [token], by simp, by simp [removedBy, hbefore, hqueue]⟩

end Session

def Move.items : Move τ → List Item
  | .quiet _ => []
  | .emit token _ => [.token token]
  | .finish _ | .fail .. => [.closed]

theorem Run.items_extend (p : Producer τ) {r : Run τ} (h : r.ending = .unfinished) :
    (r.extend p).items = r.items ++ (p r.last).items := by
  cases hmove : p r.last <;> simp [extend, items, h, hmove, Move.items]

/-- How a session stands to the run of its scan so far, whether it is cancelled or not: what the
run has made has been put, or the producer holds it, or held it when it gave up. -/
structure Making (r : Run τ) (s : Session τ) (put : List Item) : Prop where
  last : r.last = s.scan
  items : s.phase ≠ .ended → r.items = put ++ s.phase.held
  closing : s.phase ≠ .ended → (s.phase.isClosing = true ↔ r.ending ≠ .unfinished)
  ended : s.phase = .ended → r.items = put ∧ r.ending ≠ .unfinished ∨
    ∃ item, r.items = put ++ [item] ∧ (item = .closed ∨ .stopped ∈ s.notices)
  told : .terminal ∈ s.notices ∨ (∃ fault, .failed fault ∈ s.notices) → r.ending ≠ .unfinished

namespace Making

variable {r : Run τ}

theorem new (hnew : Session.new? scan room = some s) : Making (p.run 0 scan) s [] := by
  obtain ⟨-, rfl⟩ := Session.eq_of_new? hnew
  refine ⟨rfl, ?_, ?_, ?_, ?_⟩
  · simp [Producer.run, Run.items, Phase.held]
  · simp [Producer.run, Phase.isClosing]
  · simp
  · simp

theorem kept {added : List Notice} (h : Making r s put) (hscan : t.scan = s.scan)
    (hheld : t.phase.held = s.phase.held) (hclosing : t.phase.isClosing = s.phase.isClosing)
    (hended : t.phase = .ended ↔ s.phase = .ended) (hnotices : t.notices = s.notices ++ added)
    (hadded : ∀ notice ∈ added, notice = .started ∨ notice = .cancelled) : Making r t put := by
  refine ⟨?_, ?_, ?_, ?_, ?_⟩
  · rw [hscan]
    exact h.last
  · rw [hheld, ne_eq, hended]
    exact h.items
  · rw [hclosing, ne_eq, hended]
    exact h.closing
  · rw [hended, hnotices]
    intro hphase
    rcases h.ended hphase with hall | ⟨item, hitems, hitem⟩
    · exact .inl hall
    · exact .inr ⟨item, hitems, hitem.imp_right (List.mem_append_left _)⟩
  · intro htold
    rw [hnotices] at htold
    apply h.told
    rcases htold with htold | ⟨fault, htold⟩
    · exact .inl ((List.mem_append.mp htold).resolve_right fun hmem => by simpa using hadded _ hmem)
    · exact .inr ⟨fault,
        (List.mem_append.mp htold).resolve_right fun hmem => by simpa using hadded _ hmem⟩

theorem moved {r' : Run τ} (h : Making r s put) (hphase : s.phase = .running)
    (hlast : r'.last = t.scan) (hitems : r'.items = r.items ++ t.phase.held)
    (hclosing : t.phase.isClosing = true ↔ r'.ending ≠ .unfinished) (ht : t.phase ≠ .ended)
    (hnotices : r'.ending = .unfinished → t.notices = s.notices) : Making r' t put := by
  have hs : s.phase ≠ .ended := by simp [hphase]
  have hopen : ¬r.ending ≠ .unfinished := by
    rw [← h.closing hs, hphase]
    exact Bool.false_ne_true
  refine ⟨hlast, ?_, fun _ => hclosing, fun hended => absurd hended ht, ?_⟩
  · intro _
    rw [hitems, h.items hs, hphase]
    simp [Phase.held]
  · intro htold hunfinished
    rw [hnotices hunfinished] at htold
    exact hopen (h.told htold)

theorem givesUp {item : Item} {notices : List Notice} (h : Making r s put)
    (hphase : s.phase = .offering item) (hitem : item = .closed ∨ .stopped ∈ notices)
    (hadded : ∀ notice ∈ notices, notice ∈ s.notices ∨ notice = .stopped) :
    Making r { s with phase := .ended, notices } put := by
  have hs : s.phase ≠ .ended := by simp [hphase]
  refine ⟨h.last, fun ht => absurd rfl ht, fun ht => absurd rfl ht, ?_, ?_⟩
  · intro _
    have hitems := h.items hs
    rw [hphase] at hitems
    exact .inr ⟨item, hitems, hitem⟩
  · intro htold
    apply h.told
    rcases htold with htold | ⟨fault, htold⟩
    · exact .inl (by simpa using hadded _ htold)
    · exact .inr ⟨fault, by simpa using hadded _ htold⟩

theorem puts {item : Item} (h : Making r s put) (hphase : s.phase = .putting item) :
    Making r { s with queue := s.queue ++ [item], phase := Session.Phase.afterPut item }
      (put ++ [item]) := by
  have hs : s.phase ≠ .ended := by simp [hphase]
  have hitems := h.items hs
  have hclosing := h.closing hs
  rw [hphase] at hitems hclosing
  refine ⟨h.last, ?_, ?_, ?_, h.told⟩
  · intro _
    rw [hitems, Phase.held_afterPut, List.append_nil]
    rfl
  · intro _
    rw [Phase.isClosing_afterPut]
    exact hclosing
  · intro hended
    cases item with
    | token token => cases hended
    | closed => exact .inl ⟨hitems, hclosing.mp rfl⟩

theorem unfinished (h : Making r s put) (hphase : s.phase = .running) :
    r.ending = .unfinished := by
  by_cases hopen : r.ending = .unfinished
  · exact hopen
  · have hclosing := (h.closing (by simp [hphase])).mpr hopen
    rw [hphase] at hclosing
    contradiction

/-- The producer's scan makes one move, and the run goes on by that move. -/
theorem advance (h : Making r s put) (hphase : s.phase = .running)
    (hprod : Session.Produced p s t) : Making (r.extend p) t put := by
  have hopen := h.unfinished hphase
  have hitems := r.items_extend p hopen
  rw [h.last] at hitems
  cases hprod with
  | quiet _ hmove =>
    rw [hmove] at hitems
    refine h.moved hphase ?_ ?_ ?_ (by simp [hphase]) fun _ => rfl
    · simp [Run.extend, hopen, h.last, hmove]
    · simpa [hphase, Phase.held, Move.items] using hitems
    · simp [Run.extend, hopen, h.last, hmove, hphase, Phase.isClosing]
  | emit _ hmove =>
    rw [hmove] at hitems
    refine h.moved hphase ?_ hitems ?_ Phase.noConfusion fun _ => rfl
    · simp [Run.extend, hopen, h.last, hmove]
    · simp [Run.extend, hopen, h.last, hmove, Phase.isClosing]
  | finish _ hmove =>
    rw [hmove] at hitems
    refine h.moved hphase ?_ hitems ?_ Phase.noConfusion ?_
    · simp [Run.extend, hopen, h.last, hmove, Session.note]
    · simp [Run.extend, hopen, h.last, hmove, Session.note, Phase.isClosing]
    · simp [Run.extend, hopen, h.last, hmove]
  | fail _ hmove =>
    rw [hmove] at hitems
    refine h.moved hphase ?_ hitems ?_ Phase.noConfusion ?_
    · simp [Run.extend, hopen, h.last, hmove, Session.note]
    · simp [Run.extend, hopen, h.last, hmove, Session.note, Phase.isClosing]
    · simp [Run.extend, hopen, h.last, hmove]
  | unwind hother => simp [hphase] at hother
  | leave hother => simp [hphase] at hother
  | pass hother => simp [hphase] at hother
  | put hother => simp [hphase] at hother

theorem produce (h : Making r s put) (hprod : s.produce p = some t) :
    Making r t (put ++ s.putBy .produced) ∨ Making (r.extend p) t (put ++ s.putBy .produced) := by
  have hmade := Session.produced_of_produce hprod
  by_cases hrunning : s.phase = .running
  · have hnone : s.putBy .produced = [] := by simp [Session.putBy, hrunning]
    rw [hnone, List.append_nil]
    exact .inr (h.advance hrunning hmade)
  · left
    cases hmade with
    | quiet hphase => contradiction
    | emit hphase => contradiction
    | finish hphase => contradiction
    | fail hphase => contradiction
    | unwind hphase =>
      have hnone : s.putBy .produced = [] := by simp [Session.putBy, hphase]
      rw [hnone, List.append_nil]
      exact h.givesUp hphase (.inr (by simp)) (by simp)
    | leave hphase =>
      have hnone : s.putBy .produced = [] := by simp [Session.putBy, hphase]
      rw [hnone, List.append_nil]
      exact h.givesUp hphase (.inl rfl) fun _ hmem => .inl hmem
    | @pass item hphase =>
      have hnone : s.putBy .produced = [] := by simp [Session.putBy, hphase]
      rw [hnone, List.append_nil]
      refine h.kept rfl (by simp [hphase, Phase.held]) ?_ (by simp [hphase])
        (List.append_nil _).symm (by simp)
      cases item <;> simp [hphase, Phase.isClosing]
    | @put item hphase =>
      have hone : s.putBy .produced = [item] := by simp [Session.putBy, hphase]
      rw [hone]
      exact h.puts hphase

theorem step (h : Making r s put) (hstep : Session.Step p s event t) :
    Making r t (put ++ s.putBy event) ∨ Making (r.extend p) t (put ++ s.putBy event) := by
  cases hstep with
  | start hstart =>
    obtain ⟨hphase, rfl⟩ := Session.eq_of_start? hstart
    left
    simp only [Session.putBy, List.append_nil]
    exact h.kept rfl (by simp [hphase, Session.note, Phase.held])
      (by simp [hphase, Session.note, Phase.isClosing]) (by simp [hphase, Session.note]) rfl
      (by simp)
  | produce hprod => exact h.produce hprod
  | take _ _ htake =>
    left
    obtain ⟨hphase, hscan, -⟩ := Session.take_frame htake
    have hnotices : t.notices = s.notices ++ [] := by
      rw [List.append_nil]
      cases Session.taken_of_take htake <;> rfl
    simp only [Session.putBy, List.append_nil]
    exact h.kept hscan (by rw [hphase]) (by rw [hphase]) (by rw [hphase]) hnotices (by simp)
  | cancel =>
    left
    simp only [Session.putBy, List.append_nil]
    cases hdone : s.done with
    | true => rwa [Session.cancel_of_done hdone]
    | false =>
      rw [Session.cancel_of_open hdone]
      exact h.kept rfl rfl rfl .rfl (List.append_nil _).symm (by simp)
  | drain =>
    left
    simp only [Session.putBy, List.append_nil]
    cases hqueue : s.queue with
    | nil =>
      rw [Session.drain_of_nil hqueue]
      exact h.kept rfl rfl rfl .rfl rfl (by simp)
    | cons item queue =>
      rw [Session.drain_of_cons hqueue]
      exact h.kept rfl rfl rfl .rfl (List.append_nil _).symm (by simp)

theorem length_items_le (h : Making r s put) : r.items.length ≤ put.length + 1 := by
  by_cases hended : s.phase = .ended
  · rcases h.ended hended with ⟨hitems, -⟩ | ⟨item, hitems, -⟩
    · rw [hitems]
      exact Nat.le_succ _
    · simp [hitems]
  · rw [h.items hended, List.length_append]
    cases s.phase <;> simp [Phase.held]

theorem length_tokens_le (h : Making r s put) (hover : r.ending ≠ .unfinished) :
    r.tokens.length ≤ put.length := by
  have hle := h.length_items_le
  simp only [Run.items, hover, if_false, List.length_append, List.length_map,
    List.length_singleton] at hle
  omega

/-- A scan that makes more than has been put does not come to its end. If the producer has ended,
it was stopped at a token. -/
theorem stopped {m n : Nat} (h : Making (p.run m scan) s put)
    (hmore : put.length < (p.run n scan).tokens.length) :
    (p.run m scan).ending = .unfinished ∧ .terminal ∉ s.notices ∧
      (∀ fault, .failed fault ∉ s.notices) ∧ (s.phase = .ended → .stopped ∈ s.notices) := by
  have hopen : (p.run m scan).ending = .unfinished := by
    by_cases hover : (p.run m scan).ending = .unfinished
    · exact hover
    · have hle := h.length_tokens_le hover
      have hall := (p.tokens_run_of_ended hover n).length_le
      omega
  have huntold : ¬(.terminal ∈ s.notices ∨ ∃ fault, .failed fault ∈ s.notices) :=
    mt h.told (not_not_intro hopen)
  rw [not_or, not_exists] at huntold
  refine ⟨hopen, huntold.1, huntold.2, ?_⟩
  intro hended
  rcases h.ended hended with ⟨-, hover⟩ | ⟨item, hitems, hitem⟩
  · contradiction
  · apply hitem.resolve_left
    rintro rfl
    -- the run would have made its close mark
    have hmem : .closed ∈ (p.run m scan).items := by simp [hitems]
    simp [Run.items, hopen] at hmem

end Making

theorem Session.Flow.making {session : Session τ} (hnew : Session.new? scan room = some session)
    (h : Session.Flow p session events put removed s) : ∃ n, Making (p.run n scan) s put := by
  induction h with
  | refl => exact ⟨0, .new hnew⟩
  | step _ hstep ih =>
    obtain ⟨n, hn⟩ := ih
    rcases hn.step hstep with hn | hn
    · exact ⟨n, hn⟩
    · exact ⟨n + 1, by rwa [p.run_succ]⟩

namespace Session

theorem Trace.done_of_reply (h : Trace p s events t)
    (hend : ∃ reply ∈ Event.replies events, ∀ token, reply ≠ .token token) : t.done = true := by
  induction h with
  | refl => simp at hend
  | step _ hstep ih =>
    obtain ⟨reply, hreply, hother⟩ := hend
    rw [Event.replies_append] at hreply
    rcases List.mem_append.mp hreply with hreply | hreply
    · exact hstep.done (.inl (ih ⟨reply, hreply, hother⟩))
    · cases hstep with
      | take _ _ htake =>
        obtain rfl := List.mem_singleton.mp hreply
        cases taken_of_take htake with
        | finished hdone => exact hdone
        | @token token => exact absurd rfl (hother token)
        | closed => rfl
        | failed => rfl
      | _ => cases hreply

theorem Trace.length_queue_le (hnew : Session.new? scan room = some s) (h : Trace p s events t) :
    (t.queue.length : Int) ≤ room := by
  have hbounded := ((Orderly.new hnew).trace h).bounded
  have hroom := h.frame.1
  obtain ⟨hpos, rfl⟩ := eq_of_new? hnew
  simp only at hroom
  omega

section

variable {session : Session τ} {before after : List Event} {put' removed' : List Item}

theorem Flow.cancelled (h : Flow p session before put removed s) (hs : s.draining = false)
    (hafter : Flow p s.cancel after put' removed' t) :
    Flow p session (before ++ [.cancelled] ++ after) (put ++ put') (removed ++ removed') t := by
  have hcancel : Flow p session (before ++ [.cancelled]) put removed s.cancel := by
    simpa [putBy, removedBy] using h.step (.cancel hs)
  exact hcancel.trans hafter

/-- Under every schedule, whatever the room and the graph: once the reader cancels, at most one more
item is put, the queue is empty after one item more than there is room for, and the reader gets
nothing. A scan with more to tell is stopped at a token. -/
theorem cancellation_of_every_schedule (hnew : Session.new? scan room = some session)
    (hbefore : Flow p session before put removed s) (hopen : s.done = false)
    (hafter : Flow p s.cancel after put' removed' t) :
    put'.length ≤ 1 ∧
      ((removed'.length : Int) ≤ room + 1 ∧
        after.count .drained + t.draining.toNat = removed'.length + 1) ∧
      (∃ tokens : List Token, Event.replies before = tokens.map .token ∧
        ((put ++ put').length : Int) ≤ tokens.length + room + 1 ∧
        ∀ n, (tokens.length : Int) + room + 1 < (p.run n scan).tokens.length →
          (∃ m, (p.run m scan).ending = .unfinished ∧ (p.run m scan).last = t.scan) ∧
            .terminal ∉ t.notices ∧ (∀ fault, .failed fault ∉ t.notices) ∧
            (t.phase = .ended → .stopped ∈ t.notices)) ∧
      (t.take = some (.closed, t) ∧ ∀ reply ∈ Event.replies after, reply = .closed) ∧
      t.cancel = t ∧
      ∀ events u, Trace p session events u →
        (∃ reply ∈ Event.replies events, ∀ token, reply ≠ .token token) → u.cancel = u := by
  have horderly : Orderly s := (Orderly.new hnew).trace hbefore.trace
  have hidle : s.draining = false := by
    cases hdraining : s.draining with
    | false => rfl
    | true =>
      rw [horderly.flagged (horderly.draining hdraining)] at hopen
      contradiction
  have hcancel := cancel_of_open hopen
  have hdone : s.cancel.done = true := by rw [hcancel]
  have hover : t.done = true := hafter.trace.done (.inl hdone)
  have hone : put'.length ≤ 1 := by
    have hle := (hafter.put_le (by rw [hcancel])).1
    have hflight := Phase.inFlight_le s.cancel.phase
    omega
  have hqueue := hbefore.trace.length_queue_le hnew
  have hremoved : (removed'.length : Int) ≤ room + 1 := by
    have hall := congrArg List.length hafter.conserves
    rw [hcancel] at hall
    simp only [List.length_append] at hall
    omega
  have hdrained := hafter.drained hdone
  rw [hcancel] at hdrained
  obtain ⟨tokens, hreplies, hgot⟩ := hbefore.tokens_of_open (Orderly.new hnew) hopen
  have hput : ((put ++ put').length : Int) ≤ tokens.length + room + 1 := by
    have hall := congrArg List.length hbefore.conserves
    have hempty : session.queue = [] := by
      obtain ⟨-, rfl⟩ := eq_of_new? hnew
      rfl
    rw [hempty, hgot] at hall
    simp only [List.nil_append, List.length_append, List.length_map] at hall ⊢
    omega
  obtain ⟨m, hmade⟩ := (hbefore.cancelled hidle hafter).making hnew
  refine ⟨hone, ⟨hremoved, hdrained⟩, ⟨tokens, hreplies, hput, ?_⟩,
    ⟨take_of_done hover, hafter.trace.closed_of_done hdone⟩, cancel_of_done hover, ?_⟩
  · intro n hmore
    obtain ⟨hgoes, hrest⟩ := hmade.stopped (n := n) (by omega)
    exact ⟨⟨m, hgoes, hmade.last⟩, hrest⟩
  · intro events u htrace hend
    exact cancel_of_done (htrace.done_of_reply hend)

theorem cancellation_of_every_schedule_endless :
    let p : Producer Unit := fun _ => .emit default ()
    let item : Item := .token default
    let s : Session Unit :=
      { scan := (), room := 1, queue := [item], phase := .putting item, notices := [.started] }
    let t : Session Unit :=
      { scan := (), room := 1, phase := .ended, cancelled := true, done := true,
        notices := [.started, .cancelled, .stopped] }
    (∃ after, Flow p s.cancel after [item] [item, item] t ∧ ∀ reply ∈ Event.replies after,
      reply = .closed) ∧ .terminal ∉ t.notices ∧ t.take = some (.closed, t) ∧ t.cancel = t := by
  intro p item s t
  have hnew : new? () 1 = some ({ scan := (), room := 1 } : Session Unit) := rfl
  have hfresh : Flow p { scan := (), room := 1 } [] [] [] { scan := (), room := 1 } := .refl
  have hwaits := ((hfresh.step (.start rfl)).step (.produce rfl)).step (.produce rfl)
  have hbefore := ((hwaits.step (.produce rfl)).step (.produce rfl)).step (.produce rfl)
  have hflag : Flow p s.cancel [] [] [] s.cancel := .refl
  have hraced := ((hflag.step (.drain rfl)).step (.produce rfl)).step (.drain rfl)
  have hafter := ((hraced.step (.drain rfl)).step (.produce rfl)).step (.produce rfl)
  obtain ⟨-, -, ⟨tokens, hreplies, -, hstopped⟩, ⟨htake, hclosed⟩, hagain, -⟩ :=
    cancellation_of_every_schedule hnew hbefore rfl hafter
  have hnone : tokens = [] := List.map_eq_nil_iff.mp hreplies.symm
  obtain ⟨-, huntold, -, -⟩ := hstopped 3 (by rw [hnone]; decide)
  exact ⟨⟨_, hafter, hclosed⟩, huntold, htake, hagain⟩

end

end Session

end DocModelLexer
