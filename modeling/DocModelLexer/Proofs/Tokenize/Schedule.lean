import DocModelLexer.Proofs.Grammar.TokenCount
import DocModelLexer.Proofs.Session.Progress
import DocModelLexer.Tokenize

namespace DocModelLexer

/-- What the replies to its reader make of a text, as soon as they decide it. -/
def verdict (text filename : String) : List Reply → Option (Except TokenizeError (List Token))
  | [] => none
  | .closed :: _ => some (.ok [])
  | .failed fault :: _ => some (.error (.fault fault))
  | .token t :: replies =>
    if t.isError then some (.error (.lexical (.ofToken t text filename)))
    else (verdict text filename replies).map fun result => result.map (t :: ·)

section

variable {τ : Type} {p : Producer τ} {scan : τ} {r : Run τ} {s : Session τ} {replies : List Reply}
  {budget : Nat} {text filename : String} {result : Except TokenizeError (List Token)}

theorem verdict_append (h : verdict text filename replies = some result) (later : List Reply) :
    verdict text filename (replies ++ later) = some result := by
  induction replies generalizing result with
  | nil => cases h
  | cons reply replies ih =>
    cases reply with
    | closed => exact h
    | failed fault => exact h
    | token t =>
      rw [List.cons_append, verdict]
      rw [verdict] at h
      split
      · rename_i herror
        rwa [if_pos herror] at h
      · rename_i herror
        rw [if_neg herror] at h
        obtain ⟨rest, hrest, hresult⟩ := Option.map_eq_some_iff.mp h
        rw [ih hrest, Option.map_some, hresult]

/-- The answers of a finished run are its tokens, and then always that the stream is closed. -/
theorem prefix_of_answers (hfinished : r.ending = .finished)
    (h : ∀ i x, replies[i]? = some x → r.reply i = some x) :
    replies <+: r.tokens.map .token ++ List.replicate replies.length .closed := by
  rw [List.prefix_iff_getElem?]
  intro i hi
  have hreply := h i replies[i] (List.getElem?_eq_getElem hi)
  unfold Run.reply at hreply
  cases ht : r.tokens[i]? with
  | some t =>
    obtain ⟨hlt, _⟩ := List.getElem?_eq_some_iff.mp ht
    rw [ht] at hreply
    rw [List.getElem?_append_left (by simpa using hlt), List.getElem?_map, ht]
    exact hreply
  | none =>
    have hle : r.tokens.length ≤ i := List.getElem?_eq_none_iff.mp ht
    rw [ht, hfinished] at hreply
    rw [List.getElem?_append_right (by simpa using hle), List.getElem?_replicate_of_lt]
    · exact hreply
    · rw [List.length_map]
      omega

theorem verdict_closed (text filename : String) (tokens : List Token) :
    ∃ result, verdict text filename (tokens.map .token ++ [.closed]) = some result := by
  induction tokens with
  | nil => exact ⟨_, rfl⟩
  | cons t tokens ih =>
    obtain ⟨result, hresult⟩ := ih
    rw [List.map_cons, List.cons_append, verdict, hresult]
    split
    · exact ⟨_, rfl⟩
    · exact ⟨_, rfl⟩

theorem verdict_of_answers (hfinished : r.ending = .finished)
    (h : ∀ i x, replies[i]? = some x → r.reply i = some x)
    (hresult : verdict text filename replies = some result) :
    verdict text filename (r.tokens.map .token ++ [.closed]) = some result := by
  obtain ⟨n, hn⟩ : ∃ n, replies.length = 1 + n := by
    cases replies with
    | nil => cases hresult
    | cons reply replies => exact ⟨replies.length, by rw [List.length_cons, Nat.add_comm]⟩
  obtain ⟨later, hlater⟩ := prefix_of_answers hfinished h
  have hlong := verdict_append hresult later
  obtain ⟨other, hother⟩ := verdict_closed text filename r.tokens
  have hmore := verdict_append hother (List.replicate n .closed)
  rw [hlater, hn, ← List.replicate_append_replicate, ← List.append_assoc] at hlong
  rw [hother, ← hmore]
  exact hlong

/-- Reading to the end under the eager schedule gives the verdict of the run. -/
theorem collect_eq {n count : Nat} (hrun : (p.run n scan).ending = .finished)
    (h : Session.Settled p scan budget s replies)
    (hle : replies.length ≤ (p.run n scan).tokens.length)
    (hcount : (p.run n scan).tokens.length < replies.length + count) :
    verdict text filename
        (((p.run n scan).tokens.drop replies.length).map .token ++ [.closed]) =
      some (collect p budget text filename count s).1 := by
  induction count generalizing s replies with
  | zero => omega
  | succ count ih =>
    obtain ⟨reply, t, htake, hsettled⟩ := h.next
    obtain ⟨m, hm⟩ := hsettled.delivering
    have hreply := hm.answers replies.length reply (by simp)
    rw [collect, Session.next, h.started, htake]
    cases ht : (p.run n scan).tokens[replies.length]? with
    | none =>
      have hall : (p.run n scan).tokens.length ≤ replies.length := List.getElem?_eq_none_iff.mp ht
      have hclosed : (p.run n scan).reply replies.length = some .closed := by
        simp [Run.reply, ht, hrun]
      cases p.reply_run_unique hreply hclosed
      rw [List.drop_of_length_le hall]
      rfl
    | some token =>
      have htoken : (p.run n scan).reply replies.length = some (.token token) :=
        Run.reply_of_token ht
      cases p.reply_run_unique hreply htoken
      obtain ⟨hlt, hget⟩ := List.getElem?_eq_some_iff.mp ht
      rw [List.drop_eq_getElem_cons hlt, hget, List.map_cons, List.cons_append, verdict]
      simp only [Bool.not_true, Bool.false_eq_true, if_false]
      split
      · rfl
      · have hrest := ih hsettled (by simpa using Nat.succ_le_of_lt hlt) (by simp; omega)
        rw [List.length_append, List.length_singleton] at hrest
        rw [hrest]
        rfl

theorem run_tokens (text : String) :
    ∃ n last, 3 * n ≤ Grammar.budget (.ofString text) ∧
      Grammar.producer.run n (Grammar.scan (.ofString text)) =
        ⟨Grammar.tokens text, .finished, last⟩ := by
  obtain ⟨m, y, hleads, hy, hbudget, -⟩ := Grammar.leads_tokens text
  exact ⟨m + 1, y.scan, Nat.le_of_lt hbudget, hleads.run_finished hy (Nat.lt_succ_self m)⟩

/-- What is made of a text is the verdict on its tokens, whatever the room. -/
theorem verdict_tokens (text filename : String) {room : Int} (hroom : 1 ≤ room) :
    verdict text filename ((Grammar.tokens text).map .token ++ [.closed]) =
      some (tokenize text filename room) := by
  obtain ⟨n, last, hbudget, hrun⟩ := run_tokens text
  have hends : (Grammar.producer.run n (Grammar.scan (.ofString text))).ending ≠ .unfinished := by
    rw [hrun]
    exact Ending.noConfusion
  have hnew : Session.new? (Grammar.scan (.ofString text)) room =
      some { scan := Grammar.scan (.ofString text), room := room.toNat } := if_pos hroom
  obtain ⟨t, hstart, hsettled⟩ := Session.settled_start hnew hends hbudget
  have hcount : (Grammar.producer.run n (Grammar.scan (.ofString text))).tokens.length <
      0 + (2 * (Source.ofString text).size + 2) := by
    have hle := Grammar.length_tokens_le text
    rw [hrun]
    simp only
    omega
  have hcollect : verdict text filename (_ ++ [.closed]) = some (collect _ _ _ _ _ _).1 :=
    collect_eq (congrArg Run.ending hrun) hsettled (Nat.zero_le _) hcount
  rw [hrun] at hcollect
  rw [tokenize, tokenizeNoting, hnew]
  simp only [Session.start, hstart]
  exact hcollect

theorem tokenize_of_trace {room bufferSize : Int}
    {session s : Session (Scan Grammar.Levels Grammar.State)} {events : List Event}
    (hnew : Session.new? (Grammar.scan (.ofString text)) room = some session)
    (h : Session.Trace Grammar.producer session events s) (hcancel : Event.cancelled ∉ events)
    (hresult : verdict text filename (Event.replies events) = some result)
    (hroom : 1 ≤ bufferSize) : tokenize text filename bufferSize = result := by
  obtain ⟨n, last, -, hrun⟩ := run_tokens text
  have hends : (Grammar.producer.run n (Grammar.scan (.ofString text))).ending ≠ .unfinished := by
    rw [hrun]
    exact Ending.noConfusion
  obtain ⟨m, hm⟩ := h.delivering hnew hcancel
  have hanswers : ∀ i x, (Event.replies events)[i]? = some x →
      (Grammar.producer.run n (Grammar.scan (.ofString text))).reply i = some x := by
    intro i x hx
    exact Grammar.producer.reply_of_ended hends (hm.answers i x hx)
  have hverdict := verdict_of_answers (congrArg Run.ending hrun) hanswers hresult
  rw [hrun, verdict_tokens text filename hroom] at hverdict
  exact Option.some.inj hverdict

end

/-- A reader that does not cancel gets the replies of the uninterrupted run, each by its number, and
each comes if the run has it, whatever the schedule, the room and the graph. So tokenizing answers
what any schedule decides. -/
theorem replies_of_every_schedule :
    (∀ (τ : Type) (p : Producer τ) (scan : τ) (room : Int) (session s : Session τ)
      (events : List Event), Session.new? scan room = some session →
      Session.Trace p session events s → Event.cancelled ∉ events →
      (∀ k reply, (Event.replies events)[k]? = some reply →
        (∃ n, (p.run n scan).reply k = some reply) ∧
          ∀ n other, (p.run n scan).reply k = some other → other = reply) ∧
      (Event.started ∈ events → ∀ n reply,
        (p.run n scan).reply (Event.replies events).length = some reply →
        ∃ k t, Session.Trace p s (List.replicate k .produced ++ [.replied reply]) t)) ∧
    (∀ (text filename : String) (room : Int)
      (session s : Session (Scan Grammar.Levels Grammar.State)) (events : List Event),
      Session.new? (Grammar.scan (.ofString text)) room = some session →
      Session.Trace Grammar.producer session events s → Event.cancelled ∉ events →
      ∀ result, verdict text filename (Event.replies events) = some result →
        ∀ bufferSize, 1 ≤ bufferSize → tokenize text filename bufferSize = result) ∧
    (∀ (text filename : String) (room room' : Int), 1 ≤ room → 1 ≤ room' →
      tokenize text filename room = tokenize text filename room') := by
  refine ⟨?_, ?_, ?_⟩
  · intro τ p scan room session s events hnew htrace hcancel
    refine ⟨?_, ?_⟩
    · intro k reply hk
      exact htrace.reply_eq hnew hcancel k reply hk
    · intro hstarted n reply hreply
      exact htrace.answered hnew hcancel hstarted hreply
  · intro text filename room session s events hnew htrace hcancel result hresult bufferSize hroom
    exact tokenize_of_trace hnew htrace hcancel hresult hroom
  · intro text filename room room' hroom hroom'
    have h := verdict_tokens text filename hroom
    rw [verdict_tokens text filename hroom'] at h
    exact (Option.some.inj h).symm

/-- The producer is blocked by a full queue before the reader asks for the first of four tokens. -/
theorem replies_of_every_schedule_blocked :
    let scan := Grammar.scan (.ofString "a=b")
    let started : Session (Scan Grammar.Levels Grammar.State) :=
      { scan, room := 1, phase := .running, notices := [.started] }
    let blocked := started.settle Grammar.producer 100
    let span (i j : Int) : Option Span := some ⟨⟨1, i + 1, i⟩, ⟨1, j + 1, j⟩⟩
    blocked.queue.length = 1 ∧ (blocked.produce Grammar.producer).isNone ∧
      tokenize "a=b" "input" 3 =
        .ok [⟨8, "a", span 0 1⟩, ⟨3, "=", span 1 2⟩, ⟨8, "b", span 2 3⟩, ⟨13, "", span 3 3⟩] := by
  intro scan started blocked span
  obtain ⟨hreplies, htokenize, -⟩ := replies_of_every_schedule
  have hnew : Session.new? scan 1 = some { scan, room := 1 } := rfl
  have hstart : Session.Trace Grammar.producer { scan, room := 1 } ([] ++ [.started]) started :=
    .step .refl (.start rfl)
  obtain ⟨k, hsettles⟩ := Session.exists_trace_settle Grammar.producer 100 started
  -- whatever has been answered so far, the schedule can go on to the next answer of the run
  have hnext {events : List Event} {s : Session (Scan Grammar.Levels Grammar.State)}
      (h : Session.Trace Grammar.producer { scan, room := 1 } events s)
      (hevents : .started ∈ events ∧ .cancelled ∉ events) {replies : List Reply}
      (hso : Event.replies events = replies) (reply : Reply)
      (hreply : (Grammar.producer.run 100 scan).reply replies.length = some reply) :
      ∃ later t, Session.Trace Grammar.producer { scan, room := 1 } later t ∧
        (.started ∈ later ∧ .cancelled ∉ later) ∧ Event.replies later = replies ++ [reply] := by
    subst hso
    obtain ⟨-, hanswer⟩ := hreplies _ Grammar.producer scan 1 _ _ _ hnew h hevents.2
    obtain ⟨i, t, hlater⟩ := hanswer hevents.1 100 reply hreply
    exact ⟨_, t, h.trans hlater, by simp [hevents], by simp⟩
  have hnone : Event.replies ([] ++ [.started] ++ List.replicate k .produced) = [] := by
    simp only [Event.replies_append, Event.replies_nil, Event.replies_started,
      Event.replies_replicate_produced, List.append_nil]
  obtain ⟨_, _, h1, hevents, hso⟩ := hnext (hstart.trans hsettles) (by simp) hnone
    (.token ⟨8, "a", span 0 1⟩) (by decide +kernel)
  obtain ⟨_, _, h2, hevents, hso⟩ := hnext h1 hevents hso (.token ⟨3, "=", span 1 2⟩)
    (by decide +kernel)
  obtain ⟨_, _, h3, hevents, hso⟩ := hnext h2 hevents hso (.token ⟨8, "b", span 2 3⟩)
    (by decide +kernel)
  obtain ⟨_, _, h4, hevents, hso⟩ := hnext h3 hevents hso (.token ⟨13, "", span 3 3⟩)
    (by decide +kernel)
  obtain ⟨_, _, h5, hevents, hso⟩ := hnext h4 hevents hso .closed (by decide +kernel)
  refine ⟨by decide +kernel, by decide +kernel, ?_⟩
  exact htokenize "a=b" "input" 1 _ _ _ hnew h5 hevents.2 _ (by rw [hso]; rfl) 3 (by decide)

end DocModelLexer
