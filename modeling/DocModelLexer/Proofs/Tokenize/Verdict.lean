import DocModelLexer.Proofs.Grammar.Conclusion
import DocModelLexer.Proofs.Grammar.Message
import DocModelLexer.Proofs.Tokenize.Schedule

namespace DocModelLexer

namespace Scan

variable {σ ν : Type} {graph : Graph σ ν} {s t : Scan σ ν} {token : Token}

theorem span_of_move (h : move graph s = .emit token t) : ∃ span, token.span = some span := by
  unfold move at h
  split at h
  · cases h
  · cases h
  · split at h <;> cases h
  · cases h
  · cases h
  · cases h
    exact ⟨_, rfl⟩
  · cases h
    exact ⟨_, rfl⟩
  · cases h

theorem exists_span (n : Nat) :
    ∀ token ∈ ((move graph).run n s).tokens, ∃ span, token.span = some span := by
  induction n generalizing s with
  | zero => simp [Producer.run]
  | succ n ih =>
    intro token htoken
    rw [Producer.run] at htoken
    cases hmove : move graph s with
    | quiet t =>
      rw [hmove] at htoken
      exact ih token htoken
    | emit first t =>
      rw [hmove] at htoken
      rcases List.mem_cons.mp htoken with rfl | htoken
      · exact span_of_move hmove
      · exact ih token htoken
    | finish t =>
      rw [hmove] at htoken
      cases htoken
    | fail fault t =>
      rw [hmove] at htoken
      cases htoken

end Scan

section

variable {text : String} {room : Int}

theorem verdict_closed_eq (text filename : String) (tokens : List Token) :
    verdict text filename (tokens.map .token ++ [.closed]) =
      some (match tokens.find? Token.isError with
        | some t => .error (.lexical (.ofToken t text filename))
        | none => .ok tokens) := by
  induction tokens with
  | nil => rfl
  | cons t tokens ih =>
    rw [List.map_cons, List.cons_append, verdict, ih, List.find?_cons]
    cases herror : t.isError with
    | true => rfl
    | false => cases tokens.find? Token.isError <;> rfl

theorem tokenize_eq (text filename : String) (hroom : 1 ≤ room) :
    tokenize text filename room =
      match (Grammar.tokens text).find? Token.isError with
      | some t => .error (.lexical (.ofToken t text filename))
      | none => .ok (Grammar.tokens text) := by
  have hverdict := verdict_tokens text filename hroom
  rw [verdict_closed_eq] at hverdict
  exact (Option.some.inj hverdict).symm

theorem tokenize_of_isError {t : Token} (filename : String) (hroom : 1 ≤ room)
    (ht : t ∈ Grammar.tokens text) (herror : t.isError = true) :
    ∃ span, t.span = some span ∧ tokenize text filename room =
      .error (.lexical ⟨t.value, span.start, text, some span, filename⟩) := by
  obtain ⟨span, hspan⟩ := Scan.exists_span _ t ht
  refine ⟨span, hspan, ?_⟩
  rw [tokenize_eq text filename hroom]
  cases hfind : (Grammar.tokens text).find? Token.isError with
  | none =>
    rw [List.find?_eq_none] at hfind
    exact absurd herror (hfind t ht)
  | some other =>
    -- the first error token is the only one
    obtain ⟨_, _, -, -, -, -, hconcludes⟩ :=
      Grammar.run_concludes (.ofString text) [] .newline
    have hother : other.isError = true := List.find?_some hfind
    have heq : other = t :=
      hconcludes.eq_of_isTerminal (List.mem_of_find?_eq_some hfind)
        (by simp [Token.isTerminal, hother]) ht (by simp [Token.isTerminal, herror])
    simp only [heq, LexicalError.ofToken, hspan]

theorem tokenize_of_no_error (filename : String) (hroom : 1 ≤ room)
    (h : ∀ t ∈ Grammar.tokens text, t.isError = false) :
    tokenize text filename room = .ok (Grammar.tokens text) := by
  have hfind : (Grammar.tokens text).find? Token.isError = none := by
    rw [List.find?_eq_none]
    intro t ht
    simp [h t ht]
  rw [tokenize_eq text filename hroom, hfind]

/-- With room for an item, nothing but a lexical error keeps a text from being tokenized. -/
theorem exists_lexical {e : TokenizeError} (hroom : 1 ≤ room)
    (h : tokenize text filename room = .error e) : ∃ l, e = .lexical l := by
  rw [tokenize_eq text filename hroom] at h
  split at h <;> cases h
  exact ⟨_, rfl⟩

end

namespace Grammar

theorem ending_ne_failed (source : Source) (widths : List Int) (state : State) (n : Nat)
    (fault : Fault) :
    (producer.run n (scan source (Levels.ofWidths widths) state)).ending ≠ .failed fault := by
  obtain ⟨_, _, -, -, -, hrun, -⟩ := run_concludes source widths state
  intro hfailed
  have hsame : producer.run n (scan source (Levels.ofWidths widths) state) =
      run source (Levels.ofWidths widths) state := by
    apply producer.run_unique
    · rw [hfailed]
      exact Ending.noConfusion
    · change (run source (Levels.ofWidths widths) state).ending ≠ .unfinished
      rw [hrun]
      exact Ending.noConfusion
  rw [hsame, hrun] at hfailed
  cases hfailed

end Grammar

end DocModelLexer
