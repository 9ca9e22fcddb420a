import DocModelLexer.Proofs.Grammar.Legible
import DocModelLexer.Proofs.Tokenize.Verdict

namespace DocModelLexer

open Grammar (names)

variable {text filename text' filename' : String} {room room' : Int} {tokens tokens' : List Token}

theorem tokens_of_tokenize (h : tokenize text filename room = .ok tokens) :
    tokens = Grammar.tokens text := by
  by_cases hroom : 1 ≤ room
  · rw [tokenize_eq text filename hroom] at h
    split at h
    · cases h
    · cases h
      rfl
  · have hnew : Session.new? (Grammar.scan (.ofString text)) room = none := if_neg hroom
    rw [tokenize, tokenizeNoting, hnew] at h
    cases h

theorem undump?_dump_of_tokenize (h : tokenize text filename room = .ok tokens)
    (positions : Bool) :
    Text.splitOn '\n' (dump (some names) positions tokens).toList =
        tokens.map (·.shownText names positions) ++ [[]] ∧
      undump? names (dump (some names) positions tokens) =
        some (tokens.map (·.shown names positions)) := by
  cases tokens_of_tokenize h
  exact undump?_dump (fun _ => Grammar.tells_of_mem) (fun _ => Grammar.lineFeed_not_mem_value)
    positions

theorem shown_of_dump_eq (h : tokenize text filename room = .ok tokens)
    (h' : tokenize text' filename' room' = .ok tokens') {positions : Bool}
    (heq : dump (some names) positions tokens = dump (some names) positions tokens') :
    tokens.map (·.shown names positions) = tokens'.map (·.shown names positions) := by
  have hread := (undump?_dump_of_tokenize h positions).2
  rw [heq, (undump?_dump_of_tokenize h' positions).2] at hread
  exact (Option.some.inj hread).symm

/-- The dump of a text without errors has one line for each token, from which its type and its
value are read back, and its place if the dump tells it. So texts with equal dumps have the same
tokens. -/
theorem undump?_dump_tokenize (h : tokenize text filename room = .ok tokens) :
    (∀ positions, ∃ lines : List (List Char), lines.length = tokens.length ∧
        Text.splitOn '\n' (dump (some names) positions tokens).toList = lines ++ [[]]) ∧
      undump? names (dump (some names) false tokens) =
        some (tokens.map fun t => { t.record (some names) with place := none }) ∧
      undump? names (dump (some names) true tokens) = some (tokens.map (·.record (some names))) ∧
      (∀ t ∈ tokens, t.span.isSome) ∧
      ∀ text' filename' room' tokens', tokenize text' filename' room' = .ok tokens' →
        (dump (some names) false tokens = dump (some names) false tokens' →
          tokens.map Token.lexeme = tokens'.map Token.lexeme) ∧
        (dump (some names) true tokens = dump (some names) true tokens' →
          tokens.map (·.record (some names)) = tokens'.map (·.record (some names))) := by
  refine ⟨fun positions => ?_, (undump?_dump_of_tokenize h false).2,
    (undump?_dump_of_tokenize h true).2, fun t ht => ?_, ?_⟩
  · exact ⟨_, List.length_map _, (undump?_dump_of_tokenize h positions).1⟩
  · cases tokens_of_tokenize h
    obtain ⟨span, hspan⟩ := Scan.exists_span _ t ht
    rw [hspan]
    rfl
  · intro text' filename' room' tokens' h'
    refine ⟨fun heq => ?_, shown_of_dump_eq h h'⟩
    have hshown := congrArg (List.map fun r : TokenRecord => (r.type, r.value))
      (shown_of_dump_eq h h' heq)
    rwa [List.map_map, List.map_map] at hshown

theorem undump?_dump_tokenize_marks :
    tokenize "'a\"\x7d'" "input" 1 =
        .ok [⟨9, "a\"\x7d", some ⟨⟨1, 2, 1⟩, ⟨1, 5, 4⟩⟩⟩, ⟨13, "", some ⟨⟨1, 6, 5⟩, ⟨1, 6, 5⟩⟩⟩] ∧
      undump? names "1:2\t\x7bquoteTok, \"a\"\x7d\"\x7d\n1:6\t\x7beofTok, \"\"\x7d\n" =
        some [⟨9, "quoteTok", "a\"\x7d", some (1, 2)⟩, ⟨13, "eofTok", "", some (1, 6)⟩] := by
  have htokens : Grammar.tokens "'a\"\x7d'" =
      [⟨9, "a\"\x7d", some ⟨⟨1, 2, 1⟩, ⟨1, 5, 4⟩⟩⟩, ⟨13, "", some ⟨⟨1, 6, 5⟩, ⟨1, 6, 5⟩⟩⟩] := by
    decide +kernel
  have h : tokenize "'a\"\x7d'" "input" 1 = .ok (Grammar.tokens "'a\"\x7d'") :=
    tokenize_of_no_error "input" (by decide) (by rw [htokens]; decide)
  rw [htokens] at h
  obtain ⟨-, -, hread, -⟩ := undump?_dump_tokenize h
  have hdump : dump (some names) true
      [⟨9, "a\"\x7d", some ⟨⟨1, 2, 1⟩, ⟨1, 5, 4⟩⟩⟩, ⟨13, "", some ⟨⟨1, 6, 5⟩, ⟨1, 6, 5⟩⟩⟩] =
        "1:2\t\x7bquoteTok, \"a\"\x7d\"\x7d\n1:6\t\x7beofTok, \"\"\x7d\n" := by
    decide +kernel
  rw [hdump] at hread
  exact ⟨h, hread.trans (by decide +kernel)⟩

end DocModelLexer
