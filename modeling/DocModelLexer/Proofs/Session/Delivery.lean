import DocModelLexer.Proofs.Scan.Budget
import DocModelLexer.Proofs.Session.Traffic

namespace DocModelLexer

variable {τ : Type}

def Ending.fault? : Ending → Option Fault
  | .failed fault => some fault
  | _ => none

namespace Run

/-- Everything that a run puts into a queue: its tokens, and the close mark once it has ended. -/
def items (r : Run τ) : List Item :=
  r.tokens.map .token ++ if r.ending = .unfinished then [] else [.closed]

/-- What the reader of a whole run gets from the call with number `k`, counted from zero. -/
def reply (r : Run τ) (k : Nat) : Option Reply :=
  match r.tokens[k]? with
  | some token => some (.token token)
  | none =>
    match r.ending with
    | .unfinished => none
    | .finished => some .closed
    | .failed fault => some (if k = r.tokens.length then .failed fault else .closed)

theorem reply_of_token {r : Run τ} {k : Nat} {token : Token} (h : r.tokens[k]? = some token) :
    r.reply k = some (.token token) := by
  simp [reply, h]

theorem reply_extend (p : Producer τ) {r : Run τ} {k : Nat} {x : Reply} (h : r.reply k = some x) :
    (r.extend p).reply k = some x := by
  by_cases he : r.ending = .unfinished
  · cases ht : r.tokens[k]? with
    | none => simp [reply, ht, he] at h
    | some token =>
      obtain ⟨hk, hget⟩ := List.getElem?_eq_some_iff.mp ht
      obtain ⟨later, hlater⟩ := r.tokens_extend p
      have hkeep : (r.extend p).tokens[k]? = some token := by
        rw [← hlater, List.getElem?_append_left hk, ht]
      rw [reply_of_token hkeep, ← h, reply_of_token ht]
  · rwa [extend_of_ended p he]

end Run

/-- What a run has settled, it has settled under every longer budget. -/
theorem Producer.reply_run_le (p : Producer τ) {s : τ} {m n k : Nat} {x : Reply} (hmn : m ≤ n)
    (h : (p.run m s).reply k = some x) : (p.run n s).reply k = some x := by
  refine p.run_induct (P := fun r => r.reply k = some x) ?_ hmn h
  intro r hr
  exact r.reply_extend p hr

theorem Producer.reply_run_unique (p : Producer τ) {s : τ} {m n k : Nat} {x y : Reply}
    (hx : (p.run m s).reply k = some x) (hy : (p.run n s).reply k = some y) : x = y := by
  have hx' := p.reply_run_le (Nat.le_max_left m n) hx
  have hy' := p.reply_run_le (Nat.le_max_right m n) hy
  exact Option.some.inj (hx'.symm.trans hy')

theorem Producer.reply_of_ended (p : Producer τ) {s : τ} {m n k : Nat} {x : Reply}
    (hends : (p.run n s).ending ≠ .unfinished) (hx : (p.run m s).reply k = some x) :
    (p.run n s).reply k = some x := by
  have hsettled : ∃ y, (p.run n s).reply k = some y := by
    unfold Run.reply
    split
    · exact ⟨_, rfl⟩
    · split
      · contradiction
      · exact ⟨_, rfl⟩
      · exact ⟨_, rfl⟩
  obtain ⟨y, hy⟩ := hsettled
  rw [hy, p.reply_run_unique hx hy]

namespace Phase

/-- The item that the producer holds and has not put yet. -/
def held : Phase → List Item
  | .offering item | .putting item => [item]
  | _ => []

/-- Whether the scan is over and only its close mark is left to put. -/
def isClosing : Phase → Bool
  | .offering .closed | .putting .closed | .ended => true
  | _ => false

theorem held_afterPut (item : Item) : (Session.Phase.afterPut item).held = [] := by
  cases item <;> rfl

theorem isClosing_afterPut (item : Item) :
    (Session.Phase.afterPut item).isClosing = (putting item).isClosing := by
  cases item <;> rfl

theorem eq_ended {phase : Phase} (h : phase.isClosing = true) (hheld : phase.held = []) :
    phase = .ended := by
  cases phase with
  | ended => rfl
  | offering item => simp [held] at hheld
  | putting item => simp [held] at hheld
  | unstarted => simp [isClosing] at h
  | running => simp [isClosing] at h

end Phase

namespace Run

variable {r : Run τ} {k : Nat}

theorem items_eq_token {token : Token} (h : r.items[k]? = some (.token token)) :
    r.tokens[k]? = some token := by
  unfold items at h
  by_cases hk : k < r.tokens.length
  · rw [List.getElem?_append_left (by simpa using hk), List.getElem?_map] at h
    obtain ⟨t, ht, heq⟩ := Option.map_eq_some_iff.mp h
    rw [ht, Item.token.inj heq]
  · rw [List.getElem?_append_right (by simpa using hk)] at h
    have hmem := List.mem_of_getElem? h
    split at hmem <;> simp at hmem

theorem items_eq_closed (h : r.items[k]? = some .closed) :
    k = r.tokens.length ∧ r.ending ≠ .unfinished := by
  unfold items at h
  by_cases hk : k < r.tokens.length
  · rw [List.getElem?_append_left (by simpa using hk), List.getElem?_map] at h
    obtain ⟨t, _, heq⟩ := Option.map_eq_some_iff.mp h
    exact Item.noConfusion heq
  · rw [List.getElem?_append_right (by simpa using hk), List.length_map] at h
    split at h
    · simp at h
    · rename_i he
      obtain ⟨hlen, _⟩ := List.getElem?_eq_some_iff.mp h
      rw [List.length_singleton] at hlen
      exact ⟨by omega, he⟩

theorem reply_of_ended (he : r.ending ≠ .unfinished) (hk : r.tokens.length < k) :
    r.reply k = some .closed := by
  have ht : r.tokens[k]? = none := List.getElem?_eq_none (by omega)
  cases h : r.ending with
  | unfinished => contradiction
  | finished => simp [reply, ht, h]
  | failed fault => simp [reply, ht, h, show k ≠ r.tokens.length by omega]

end Run

/-- How a session that nobody cancels stands to the run of its scan so far: the answers are those
of the run, and what has been made but not been taken is in the queue or held by the producer. -/
structure Delivering (r : Run τ) (s : Session τ) (replies : List Reply) : Prop where
  last : r.last = s.scan
  uncancelled : s.cancelled = false
  undrained : s.draining = false
  closing : s.phase.isClosing = true ↔ r.ending ≠ .unfinished
  answers : ∀ i x, replies[i]? = some x → r.reply i = some x
  pending : s.done = false → replies.length ≤ r.tokens.length ∧
    r.items.drop replies.length = s.queue ++ s.phase.held ∧ s.failure = r.ending.fault?
  closed : s.done = true → r.tokens.length < replies.length ∧ s.phase = .ended

namespace Delivering

variable {p : Producer τ} {r : Run τ} {s t : Session τ} {replies : List Reply}

theorem unfinished (h : Delivering r s replies) (hphase : s.phase.isClosing = false) :
    r.ending = .unfinished := by
  by_cases he : r.ending = .unfinished
  · exact he
  · rw [h.closing.mpr he] at hphase
    contradiction

theorem undone (h : Delivering r s replies) (hphase : s.phase ≠ .ended) : s.done = false := by
  cases hd : s.done with
  | false => rfl
  | true => exact absurd (h.closed hd).2 hphase

theorem of_undone (hdone : s.done = false) (hlast : r.last = s.scan)
    (hcancelled : s.cancelled = false) (hdraining : s.draining = false)
    (hclosing : s.phase.isClosing = true ↔ r.ending ≠ .unfinished)
    (hanswers : ∀ i x, replies[i]? = some x → r.reply i = some x)
    (hle : replies.length ≤ r.tokens.length)
    (hitems : r.items.drop replies.length = s.queue ++ s.phase.held)
    (hfail : s.failure = r.ending.fault?) : Delivering r s replies where
  last := hlast
  uncancelled := hcancelled
  undrained := hdraining
  closing := hclosing
  answers := hanswers
  pending := by
    intro _
    exact ⟨hle, hitems, hfail⟩
  closed := by
    intro hd
    rw [hdone] at hd
    contradiction

theorem of_done (hdone : s.done = true) (hlast : r.last = s.scan)
    (hcancelled : s.cancelled = false) (hdraining : s.draining = false)
    (hover : r.ending ≠ .unfinished) (hended : s.phase = .ended)
    (hanswers : ∀ i x, replies[i]? = some x → r.reply i = some x)
    (hlt : r.tokens.length < replies.length) : Delivering r s replies where
  last := hlast
  uncancelled := hcancelled
  undrained := hdraining
  closing := by
    rw [hended]
    exact iff_of_true rfl hover
  answers := hanswers
  pending := by
    intro hd
    rw [hdone] at hd
    contradiction
  closed := by
    intro _
    exact ⟨hlt, hended⟩

theorem start (h : Delivering r s replies) (hstart : s.start? = some t) :
    Delivering r t replies := by
  obtain ⟨hphase, rfl⟩ := Session.eq_of_start? hstart
  have hopen := h.unfinished (by rw [hphase]; rfl)
  have hd := h.undone (by rw [hphase]; simp)
  obtain ⟨hle, hitems, hfail⟩ := h.pending hd
  refine of_undone hd h.last h.uncancelled h.undrained ?_ h.answers hle ?_ hfail
  · simp [Session.note, Phase.isClosing, hopen]
  · simpa [hphase, Phase.held, Session.note] using hitems

/-- The producer's scan makes one move, and the run goes on by that move. -/
theorem advance (h : Delivering r s replies) (hphase : s.phase = .running)
    (hprod : s.produce p = some t) : Delivering (r.extend p) t replies := by
  have hopen := h.unfinished (by rw [hphase]; rfl)
  have hd := h.undone (by rw [hphase]; simp)
  obtain ⟨hle, hitems, hfail⟩ := h.pending hd
  rw [hphase] at hitems
  have hlen : replies.length ≤ (r.tokens.map Item.token).length := by simpa using hle
  have hdrop : (r.tokens.map Item.token).drop replies.length = s.queue := by
    simpa [Run.items, hopen, Phase.held] using hitems
  have hanswers : ∀ i x, replies[i]? = some x → (r.extend p).reply i = some x := by
    intro i x hx
    exact r.reply_extend p (h.answers i x hx)
  simp only [Session.produce, hphase, ← h.last] at hprod
  cases hm : p r.last <;> simp only [hm, Option.some.injEq] at hprod <;> subst hprod
  case quiet scan =>
    have he : r.extend p = { r with last := scan } := by simp [Run.extend, hopen, hm]
    rw [he] at hanswers ⊢
    refine of_undone hd rfl h.uncancelled h.undrained ?_ hanswers hle hitems hfail
    simp [Phase.isClosing, hopen]
  case emit token scan =>
    have he : r.extend p = { r with tokens := r.tokens ++ [token], last := scan } := by
      simp [Run.extend, hopen, hm]
    have hmore : replies.length ≤ (r.tokens ++ [token]).length := by
      simp only [List.length_append]
      omega
    rw [he] at hanswers ⊢
    refine of_undone hd rfl h.uncancelled h.undrained ?_ hanswers hmore ?_ hfail
    · simp [Phase.isClosing, hopen]
    · simp [Run.items, hopen, Phase.held, List.drop_append_of_le_length hlen, hdrop]
  case finish scan =>
    have he : r.extend p = { r with ending := .finished, last := scan } := by
      simp [Run.extend, hopen, hm]
    rw [hopen] at hfail
    rw [he] at hanswers ⊢
    refine of_undone hd rfl h.uncancelled h.undrained ?_ hanswers hle ?_ hfail
    · simp [Session.note, Phase.isClosing]
    · simp [Run.items, Session.note, Phase.held, List.drop_append_of_le_length hlen, hdrop]
  case fail fault scan =>
    have he : r.extend p = { r with ending := .failed fault, last := scan } := by
      simp [Run.extend, hopen, hm]
    rw [he] at hanswers ⊢
    refine of_undone hd rfl h.uncancelled h.undrained ?_ hanswers hle ?_ rfl
    · simp [Session.note, Phase.isClosing]
    · simp [Run.items, Session.note, Phase.held, List.drop_append_of_le_length hlen, hdrop]

/-- The producer hands over the item that it holds, and the run stays where it is. -/
theorem handOver (h : Delivering r s replies) (hphase : s.phase ≠ .running)
    (hprod : s.produce p = some t) : Delivering r t replies := by
  cases Session.produced_of_produce hprod with
  | quiet hrunning => exact absurd hrunning hphase
  | emit hrunning => exact absurd hrunning hphase
  | finish hrunning => exact absurd hrunning hphase
  | fail hrunning => exact absurd hrunning hphase
  | unwind _ hflag =>
    rw [h.uncancelled] at hflag
    contradiction
  | leave _ hflag =>
    rw [h.uncancelled] at hflag
    contradiction
  | @pass item hp =>
    have hd := h.undone (by rw [hp]; simp)
    obtain ⟨hle, hitems, hfail⟩ := h.pending hd
    have hclosing : (Phase.putting item).isClosing = s.phase.isClosing := by
      rw [hp]
      cases item <;> rfl
    refine of_undone hd h.last h.uncancelled h.undrained ?_ h.answers hle ?_ hfail
    · rw [hclosing]
      exact h.closing
    · rw [hitems, hp]
      rfl
  | @put item hp =>
    have hd := h.undone (by rw [hp]; simp)
    obtain ⟨hle, hitems, hfail⟩ := h.pending hd
    refine of_undone hd h.last h.uncancelled h.undrained ?_ h.answers hle ?_ hfail
    · rw [Phase.isClosing_afterPut, ← hp]
      exact h.closing
    · rw [hitems, hp, Phase.held_afterPut, List.append_nil]
      rfl

theorem produce (h : Delivering r s replies) (hprod : s.produce p = some t) :
    Delivering r t replies ∨ Delivering (r.extend p) t replies := by
  by_cases hphase : s.phase = .running
  · exact .inr (h.advance hphase hprod)
  · exact .inl (h.handOver hphase hprod)

/-- The answer to the next call is the next one of the run. -/
theorem take {reply : Reply} (h : Delivering r s replies) (htake : s.take = some (reply, t)) :
    Delivering r t (replies ++ [reply]) := by
  have hanswers (hnext : r.reply replies.length = some reply) :
      ∀ i x, (replies ++ [reply])[i]? = some x → r.reply i = some x := by
    intro i x hx
    rcases Nat.lt_trichotomy i replies.length with hi | rfl | hi
    · rw [List.getElem?_append_left hi] at hx
      exact h.answers i x hx
    · simp only [List.getElem?_concat_length, Option.some.injEq] at hx
      rw [hnext, hx]
    · rw [List.getElem?_eq_none (by simp; omega)] at hx
      contradiction
  unfold Session.take at htake
  cases hd : s.done with
  | true =>
    simp only [hd, if_true, Option.some.injEq, Prod.mk.injEq] at htake
    obtain ⟨rfl, rfl⟩ := htake
    obtain ⟨hlt, hended⟩ := h.closed hd
    have hover := h.closing.mp (by rw [hended]; rfl)
    have hnext := hanswers (Run.reply_of_ended hover hlt)
    refine of_done hd h.last h.uncancelled h.undrained hover hended hnext ?_
    rw [List.length_append]
    exact Nat.lt_add_right _ hlt
  | false =>
    obtain ⟨hle, hitems, hfail⟩ := h.pending hd
    simp only [hd, Bool.false_eq_true, if_false] at htake
    cases hq : s.queue with
    | nil => simp [hq] at htake
    | cons item queue =>
      rw [hq] at hitems
      have hhead : r.items[replies.length]? = some item := by
        rw [← List.head?_drop, hitems]
        rfl
      have htail : r.items.drop (replies.length + 1) = queue ++ s.phase.held := by
        rw [← List.tail_drop, hitems]
        rfl
      cases item with
      | token token =>
        have hnext := Run.items_eq_token hhead
        obtain ⟨hlt, _⟩ := List.getElem?_eq_some_iff.mp hnext
        simp only [hq, Option.some.injEq, Prod.mk.injEq] at htake
        obtain ⟨rfl, rfl⟩ := htake
        refine of_undone rfl h.last h.uncancelled h.undrained h.closing
          (hanswers (Run.reply_of_token hnext)) ?_ ?_ hfail
        · rw [List.length_append]
          exact hlt
        · rw [List.length_append]
          exact htail
      | closed =>
        obtain ⟨hlen, hover⟩ := Run.items_eq_closed hhead
        have hend : r.items.length = replies.length + 1 := by simp [Run.items, hover, hlen]
        rw [List.drop_of_length_le (by omega)] at htail
        have hheld := (List.append_eq_nil_iff.mp htail.symm).2
        have hended := Phase.eq_ended (h.closing.mpr hover) hheld
        have hclosed : r.tokens.length < (replies ++ [reply]).length := by simp; omega
        have hnone : r.tokens[replies.length]? = none := List.getElem?_eq_none (by omega)
        cases he : r.ending with
        | unfinished => exact absurd he hover
        | finished =>
          have hnext : r.reply replies.length = some .closed := by simp [Run.reply, hnone, he]
          simp only [hq, hfail, he, Ending.fault?, Option.some.injEq, Prod.mk.injEq] at htake
          obtain ⟨rfl, rfl⟩ := htake
          exact of_done rfl h.last h.uncancelled h.undrained hover hended (hanswers hnext) hclosed
        | failed fault =>
          have hnext : r.reply replies.length = some (.failed fault) := by
            simp [Run.reply, he, hlen]
          simp only [hq, hfail, he, Ending.fault?, Option.some.injEq, Prod.mk.injEq] at htake
          obtain ⟨rfl, rfl⟩ := htake
          exact of_done rfl h.last h.uncancelled h.undrained hover hended (hanswers hnext) hclosed

end Delivering

namespace Session

theorem delivering_new {p : Producer τ} {scan : τ} {room : Int} {s : Session τ}
    (hnew : Session.new? scan room = some s) : Delivering (p.run 0 scan) s [] := by
  obtain ⟨-, rfl⟩ := eq_of_new? hnew
  refine Delivering.of_undone rfl rfl rfl rfl ?_ ?_ (Nat.le_refl _) rfl rfl
  · simp [Phase.isClosing, Producer.run]
  · intro i x hx
    cases hx

theorem Trace.delivering {p : Producer τ} {scan : τ} {room : Int} {session s : Session τ}
    {events : List Event} (hnew : Session.new? scan room = some session)
    (h : Trace p session events s) (hcancel : Event.cancelled ∉ events) :
    ∃ n, Delivering (p.run n scan) s (Event.replies events) := by
  induction h with
  | refl => exact ⟨0, delivering_new hnew⟩
  | step _ hstep ih =>
    rw [List.mem_append, not_or] at hcancel
    obtain ⟨n, hn⟩ := ih hcancel.1
    rw [Event.replies_append]
    cases hstep with
    | start hstart => exact ⟨n, by simpa using hn.start hstart⟩
    | produce hprod =>
      rcases hn.produce hprod with hn | hn
      · exact ⟨n, by simpa using hn⟩
      · exact ⟨n + 1, by simpa [Producer.run_succ] using hn⟩
    | take _ _ htake => exact ⟨n, hn.take htake⟩
    | cancel _ => simp at hcancel
    | drain hdrain =>
      rw [hn.undrained] at hdrain
      contradiction

/-- Under every schedule the calls of a reader that does not cancel answer as the uninterrupted run
says, each by its number. -/
theorem Trace.reply_eq {p : Producer τ} {scan : τ} {room : Int} {session s : Session τ}
    {events : List Event} (hnew : Session.new? scan room = some session)
    (h : Trace p session events s) (hcancel : Event.cancelled ∉ events) (k : Nat) (reply : Reply)
    (hk : (Event.replies events)[k]? = some reply) :
    (∃ n, (p.run n scan).reply k = some reply) ∧
      ∀ n other, (p.run n scan).reply k = some other → other = reply := by
  obtain ⟨n, hn⟩ := h.delivering hnew hcancel
  have hreply := hn.answers k reply hk
  refine ⟨⟨n, hreply⟩, ?_⟩
  intro m other hother
  exact p.reply_run_unique hother hreply

end Session

end DocModelLexer
