import DocModelLexer.Proofs.Session.Delivery
import DocModelLexer.Session.Reader

namespace DocModelLexer

variable {τ : Type} {p : Producer τ} {scan : τ} {r : Run τ} {s t : Session τ}
  {replies : List Reply} {reply : Reply} {n m budget : Nat}

/-- The steps that the producer makes with what it holds before its scan goes on. -/
def Phase.steps : Phase → Nat
  | .offering _ => 2
  | .putting _ => 1
  | _ => 0

theorem Phase.steps_le (phase : Phase) : phase.steps ≤ 2 := by
  cases phase <;> simp [steps]

namespace Delivering

theorem reply_eq_none (h : Delivering r s replies) (hrunning : s.phase = .running)
    (hqueue : s.queue = []) : r.reply replies.length = none := by
  have hopen : r.ending = .unfinished := h.unfinished (by rw [hrunning]; rfl)
  have hdone : s.done = false := h.undone (by rw [hrunning]; simp)
  obtain ⟨hle, hitems, -⟩ := h.pending hdone
  have hlen : r.items.length ≤ replies.length := by
    apply List.drop_eq_nil_iff.mp
    rw [hitems, hqueue, hrunning]
    rfl
  have hnone : r.tokens[replies.length]? = none := by
    apply List.getElem?_eq_none
    simpa [Run.items, hopen] using hlen
  simp [Run.reply, hnone, hopen]

/-- The reader and the producer are never both blocked. -/
theorem take_or_produce (h : Delivering r s replies) (hstarted : s.isStarted) (hroom : 0 < s.room)
    (htake : s.take = none) : s.queue = [] ∧ ∃ t, s.produce p = some t := by
  have hdone : s.done = false := by
    cases hdone : s.done with
    | false => rfl
    | true => simp [Session.take, hdone] at htake
  have hqueue : s.queue = [] := by
    cases hqueue : s.queue with
    | nil => rfl
    | cons item queue =>
      cases item <;> cases hfail : s.failure <;> simp [Session.take, hdone, hqueue, hfail] at htake
  refine ⟨hqueue, ?_⟩
  cases hphase : s.phase with
  | unstarted => simp [Session.isStarted, hphase] at hstarted
  | running => cases hmove : p s.scan <;> simp [Session.produce, hphase, hmove]
  | offering item => simp [Session.produce, hphase, h.uncancelled]
  | putting item => simp [Session.produce, hphase, hqueue, hroom]
  | ended =>
    -- the close mark has been put, and nobody has taken it
    obtain ⟨hle, hitems, -⟩ := h.pending hdone
    have hover := h.closing.mp (by rw [hphase]; rfl)
    rw [hqueue, hphase] at hitems
    have hlen := List.drop_eq_nil_iff.mp (hitems : r.items.drop replies.length = [])
    simp only [Run.items, hover, if_false, List.length_append, List.length_map,
      List.length_singleton] at hlen
    omega

end Delivering

namespace Session

theorem produce_frame (hprod : s.produce p = some t) : t.room = s.room ∧ t.isStarted = true := by
  cases produced_of_produce hprod with
  | quiet hphase => exact ⟨rfl, by rw [isStarted, hphase]; rfl⟩
  | @put item => cases item <;> exact ⟨rfl, rfl⟩
  | _ => exact ⟨rfl, rfl⟩

theorem take_frame (htake : s.take = some (reply, t)) :
    t.phase = s.phase ∧ t.scan = s.scan ∧ t.room = s.room := by
  cases taken_of_take htake <;> exact ⟨rfl, rfl, rfl⟩

theorem Step.frame {event : Event} (h : Step p s event t) :
    t.room = s.room ∧ (event = .started ∨ s.isStarted = true → t.isStarted = true) := by
  cases h with
  | start hstart =>
    obtain ⟨-, rfl⟩ := eq_of_start? hstart
    exact ⟨rfl, fun _ => rfl⟩
  | produce hprod =>
    obtain ⟨hroom, hgoes⟩ := produce_frame hprod
    exact ⟨hroom, fun _ => hgoes⟩
  | take hstarted _ htake =>
    obtain ⟨hphase, -, hroom⟩ := take_frame htake
    refine ⟨hroom, ?_⟩
    intro _
    rw [isStarted, hphase]
    exact hstarted
  | cancel =>
    unfold Session.cancel
    split
    · exact ⟨rfl, fun h => h.resolve_left Event.noConfusion⟩
    · exact ⟨rfl, fun h => h.resolve_left Event.noConfusion⟩
  | drain =>
    unfold Session.drain
    split
    · exact ⟨rfl, fun h => h.resolve_left Event.noConfusion⟩
    · exact ⟨rfl, fun h => h.resolve_left Event.noConfusion⟩

theorem Trace.frame {events : List Event} (h : Trace p s events t) :
    t.room = s.room ∧ (Event.started ∈ events → t.isStarted = true) := by
  induction h with
  | refl =>
    refine ⟨rfl, ?_⟩
    intro hmem
    cases hmem
  | step _ hstep ih =>
    obtain ⟨hroom, hkeeps⟩ := hstep.frame
    refine ⟨hroom.trans ih.1, ?_⟩
    intro hmem
    apply hkeeps
    rcases List.mem_append.mp hmem with hmem | hmem
    · exact .inr (ih.2 hmem)
    · exact .inl (List.mem_singleton.mp hmem).symm

theorem steps_produce (hphase : s.phase ≠ .running) (hprod : s.produce p = some t) :
    t.phase.steps < s.phase.steps ∧ t.scan = s.scan ∧
      (s.phase.isClosing = true → t.phase.isClosing = true) := by
  cases produced_of_produce hprod with
  | quiet hrunning => exact absurd hrunning hphase
  | emit hrunning => exact absurd hrunning hphase
  | finish hrunning => exact absurd hrunning hphase
  | fail hrunning => exact absurd hrunning hphase
  | unwind hp => simp [hp, note, Phase.steps, Phase.isClosing]
  | leave hp => simp [hp, Phase.steps, Phase.isClosing]
  | @pass item hp => cases item <;> simp [hp, Phase.steps, Phase.isClosing]
  | @put item hp => cases item <;> simp [hp, Phase.steps, Phase.afterPut, Phase.isClosing]

end Session

namespace Delivering

/-- A reader that waits for an answer gets it, when the producer has made enough steps. -/
theorem answered (h : Delivering (p.run n scan) s replies) (hstarted : s.isStarted)
    (hroom : 0 < s.room) (hreply : (p.run m scan).reply replies.length = some reply) :
    ∃ k t u, Session.Trace p s (List.replicate k .produced) t ∧ t.isStarted ∧
      t.draining = false ∧ t.take = some (reply, u) := by
  generalize hsteps : 3 * (m - n) + s.phase.steps = k
  induction k using Nat.strongRecOn generalizing n s with
  | ind k ih =>
    cases htake : s.take with
    | some answer =>
      obtain ⟨other, u⟩ := answer
      have hother := (h.take htake).answers replies.length other (by simp)
      cases p.reply_run_unique hother hreply
      exact ⟨0, s, u, .refl, hstarted, h.undrained, htake⟩
    | none =>
      obtain ⟨hqueue, t, hprod⟩ := h.take_or_produce (p := p) hstarted hroom htake
      obtain ⟨hsame, hgoes⟩ := Session.produce_frame hprod
      have hone : Session.Trace p s [.produced] t := .step .refl (.produce hprod)
      have hlater : ∃ j v u, Session.Trace p t (List.replicate j .produced) v ∧ v.isStarted ∧
          v.draining = false ∧ v.take = some (reply, u) := by
        by_cases hrunning : s.phase = .running
        · have hless : n < m := by
            -- a run that has come further would have settled the answer
            apply Nat.lt_of_not_le
            intro hle
            have hkeep := p.reply_run_le hle hreply
            rw [h.reply_eq_none hrunning hqueue] at hkeep
            contradiction
          have hadvance := h.advance hrunning hprod
          rw [← p.run_succ] at hadvance
          have hle := Phase.steps_le t.phase
          exact ih _ (by omega) hadvance hgoes (hsame ▸ hroom) rfl
        · have hfewer := (Session.steps_produce hrunning hprod).1
          exact ih _ (by omega) (h.handOver hrunning hprod) hgoes (hsame ▸ hroom) rfl
      obtain ⟨j, v, u, htrace, hrest⟩ := hlater
      refine ⟨j + 1, v, u, ?_, hrest⟩
      rw [List.replicate_succ]
      exact hone.trans htrace

end Delivering

namespace Session

/-- The producer makes at most `m` steps more, however long its reader lets it go on. -/
def RestsWithin (p : Producer τ) (s : Session τ) (m : Nat) : Prop :=
  ∃ k, 3 * k + s.phase.steps ≤ m ∧
    (s.phase.isClosing = true ∨ (p.run k s.scan).ending ≠ .unfinished)

namespace RestsWithin

theorem mono (h : RestsWithin p s m) (hm : m ≤ n) : RestsWithin p s n := by
  obtain ⟨k, hk, hends⟩ := h
  exact ⟨k, by omega, hends⟩

theorem produce (h : RestsWithin p s m) (hprod : s.produce p = some t) :
    ∃ n, n < m ∧ RestsWithin p t n := by
  obtain ⟨k, hk, hends⟩ := h
  by_cases hphase : s.phase = .running
  · have hopen : (p.run k s.scan).ending ≠ .unfinished := by
      rcases hends with hclosing | hopen
      · rw [hphase] at hclosing
        contradiction
      · exact hopen
    cases k with
    | zero => exact absurd rfl hopen
    | succ k =>
      simp only [Session.produce, hphase] at hprod
      rw [Producer.run] at hopen
      cases hmove : p s.scan with
      | quiet next =>
        simp only [hmove] at hprod hopen
        cases hprod
        exact ⟨3 * k, by omega, k, by simp [Phase.steps], .inr hopen⟩
      | emit token next =>
        simp only [hmove] at hprod hopen
        cases hprod
        exact ⟨3 * k + 2, by omega, k, by simp [Phase.steps], .inr hopen⟩
      | finish next =>
        simp only [hmove] at hprod
        cases hprod
        exact ⟨2, by omega, 0, by simp [Phase.steps, note], .inl rfl⟩
      | fail fault next =>
        simp only [hmove] at hprod
        cases hprod
        exact ⟨2, by omega, 0, by simp [Phase.steps, note], .inl rfl⟩
  · obtain ⟨hfewer, hscan, hcloses⟩ := steps_produce hphase hprod
    refine ⟨3 * k + t.phase.steps, by omega, k, Nat.le_refl _, ?_⟩
    rw [hscan]
    exact hends.imp_left hcloses

theorem take (h : RestsWithin p s m) (htake : s.take = some (reply, t)) : RestsWithin p t m := by
  obtain ⟨hphase, hscan, -⟩ := take_frame htake
  unfold RestsWithin
  rw [hphase, hscan]
  exact h

end RestsWithin

theorem exists_trace_settle (p : Producer τ) (fuel : Nat) (s : Session τ) :
    ∃ k, Trace p s (List.replicate k .produced) (settle p fuel s) := by
  induction fuel generalizing s with
  | zero => exact ⟨0, .refl⟩
  | succ fuel ih =>
    rw [settle]
    cases hprod : s.produce p with
    | none => exact ⟨0, .refl⟩
    | some t =>
      obtain ⟨k, htrace⟩ := ih t
      have hone : Trace p s [.produced] t := .step .refl (.produce hprod)
      refine ⟨k + 1, ?_⟩
      rw [List.replicate_succ]
      exact hone.trans htrace

/-- Where the eager schedule leaves a session: the producer cannot go on, and the reader has got
these answers so far. -/
structure Settled (p : Producer τ) (scan : τ) (budget : Nat) (s : Session τ)
    (replies : List Reply) : Prop where
  delivering : ∃ n, Delivering (p.run n scan) s replies
  rests : RestsWithin p s budget
  started : s.isStarted = true
  room : 0 < s.room
  blocked : s.produce p = none

theorem settled_of_le {fuel : Nat} (hdelivering : ∃ n, Delivering (p.run n scan) s replies)
    (hrests : RestsWithin p s m) (hfuel : m ≤ fuel) (hbudget : m ≤ budget)
    (hstarted : s.isStarted = true) (hroom : 0 < s.room) :
    Settled p scan budget (settle p fuel s) replies := by
  induction fuel generalizing s m with
  | zero =>
    refine ⟨hdelivering, hrests.mono hbudget, hstarted, hroom, ?_⟩
    cases hprod : s.produce p with
    | none => exact hprod
    | some t =>
      obtain ⟨n, hn, _⟩ := hrests.produce hprod
      omega
  | succ fuel ih =>
    rw [settle]
    cases hprod : s.produce p with
    | none => exact ⟨hdelivering, hrests.mono hbudget, hstarted, hroom, hprod⟩
    | some t =>
      obtain ⟨hsame, hgoes⟩ := produce_frame hprod
      obtain ⟨k, hk, hrest⟩ := hrests.produce hprod
      obtain ⟨n, hn⟩ := hdelivering
      have hnext : ∃ n, Delivering (p.run n scan) t replies := by
        rcases hn.produce hprod with hn | hn
        · exact ⟨n, hn⟩
        · exact ⟨n + 1, by rwa [p.run_succ]⟩
      exact ih hnext hrest (by omega) (by omega) hgoes (hsame ▸ hroom)

theorem settled_settle (hdelivering : ∃ n, Delivering (p.run n scan) s replies)
    (hrests : RestsWithin p s budget) (hstarted : s.isStarted = true) (hroom : 0 < s.room) :
    Settled p scan budget (settle p budget s) replies :=
  settled_of_le hdelivering hrests (Nat.le_refl _) (Nat.le_refl _) hstarted hroom

/-- A call of the reader is answered at once, and the session settles again. -/
theorem Settled.next (h : Settled p scan budget s replies) :
    ∃ reply t, s.take = some (reply, t) ∧
      Settled p scan budget (settle p budget t) (replies ++ [reply]) := by
  obtain ⟨n, hn⟩ := h.delivering
  cases htake : s.take with
  | none =>
    obtain ⟨-, t, hprod⟩ := hn.take_or_produce (p := p) h.started h.room htake
    rw [h.blocked] at hprod
    contradiction
  | some answer =>
    obtain ⟨reply, t⟩ := answer
    obtain ⟨hphase, -, hroom⟩ := take_frame htake
    refine ⟨reply, t, rfl, settled_settle ⟨n, hn.take htake⟩ (h.rests.take htake) ?_ ?_⟩
    · rw [isStarted, hphase]
      exact h.started
    · rw [hroom]
      exact h.room

theorem Trace.answered {room : Int} {session : Session τ} {events : List Event}
    (hnew : Session.new? scan room = some session) (h : Trace p session events s)
    (hcancel : Event.cancelled ∉ events) (hstarted : Event.started ∈ events)
    (hreply : (p.run m scan).reply (Event.replies events).length = some reply) :
    ∃ k t, Trace p s (List.replicate k .produced ++ [.replied reply]) t := by
  obtain ⟨n, hn⟩ := h.delivering hnew hcancel
  have hroom : 0 < s.room := by
    rw [h.frame.1]
    obtain ⟨hpos, rfl⟩ := eq_of_new? hnew
    simp only
    omega
  obtain ⟨k, t, u, htrace, hgoes, hdrained, htake⟩ := hn.answered (h.frame.2 hstarted) hroom hreply
  exact ⟨k, u, htrace.step (.take hgoes hdrained htake)⟩

theorem settled_start {room : Int} (hnew : Session.new? scan room = some s) {k : Nat}
    (hends : (p.run k scan).ending ≠ .unfinished) (hbudget : 3 * k ≤ budget) :
    ∃ t, s.start? = some t ∧ Settled p scan budget (settle p budget t) [] := by
  have hdelivering := delivering_new (p := p) hnew
  obtain ⟨hroom, rfl⟩ := eq_of_new? hnew
  refine ⟨_, rfl, settled_settle ⟨0, hdelivering.start rfl⟩ ⟨k, ?_, .inr hends⟩ rfl ?_⟩
  · simpa [Phase.steps, note] using hbudget
  · simp only [note]
    omega

end Session

end DocModelLexer
