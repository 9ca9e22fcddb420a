import DocModelLexer.Proofs.Cursor.Place
import DocModelLexer.Proofs.Grammar.Complaint
import DocModelLexer.Proofs.Tokenize.Verdict

namespace DocModelLexer

open Text (ended splitOn)

namespace LexicalError

/-- An error stands behind whole lines and the beginning `before` of its own line, and points at the
text `shown` there. -/
structure Placed (e : LexicalError) (lines : List (List Char)) (before shown ahead : List Char) :
    Prop where
  source_eq : e.source.toList = ended lines ++ before ++ shown ++ ahead
  lines_whole : ∀ line ∈ lines, '\n' ∉ line
  within : '\n' ∉ before ++ shown
  position_eq : e.position = ⟨lines.length + 1, before.length + 1, (ended lines ++ before).length⟩
  span_eq : e.span = some ⟨e.position,
    ⟨lines.length + 1, (before ++ shown).length + 1, (ended lines ++ before ++ shown).length⟩⟩
  message_line : '\n' ∉ e.message.toList

/-- The counted line of the source that an error names. -/
def countedLine (e : LexicalError) : List Char :=
  ((splitOn '\n' e.source.toList)[(e.position.line - 1).toNat]?).getD []

def earlierLines (e : LexicalError) : List (List Char) :=
  (splitOn '\n' e.source.toList).take (e.position.line - 1).toNat

theorem Placed.exists_line {e : LexicalError} {lines : List (List Char)}
    {before shown ahead : List Char} (h : e.Placed lines before shown ahead) :
    e.earlierLines = lines ∧
      ∃ rest, e.source.toList = ended lines ++ (e.countedLine ++ rest) ∧ '\n' ∉ e.countedLine ∧
        (rest = [] ∨ rest.head? = some '\n') ∧ before ++ shown <+: e.countedLine := by
  obtain ⟨tail, rest, htail, hrest, rfl⟩ := Text.exists_line ahead
  have hline : '\n' ∉ before ++ shown ++ tail := by
    simpa [htail] using h.within
  have hsource : e.source.toList = ended lines ++ (before ++ shown ++ tail ++ rest) := by
    simp [h.source_eq]
  have hnumber : (e.position.line - 1).toNat = lines.length := by
    rw [h.position_eq]
    simp
  have hcounted : e.countedLine = before ++ shown ++ tail := by
    rw [countedLine, hnumber, hsource, Text.getElem?_splitOn_ended h.lines_whole hline hrest]
    rfl
  have hearlier : e.earlierLines = lines := by
    rw [earlierLines, hnumber, hsource, Text.splitOn_ended h.lines_whole, List.take_left]
  rw [hcounted]
  exact ⟨hearlier, rest, hsource, hline, hrest, List.prefix_append _ _⟩

end LexicalError

variable {text filename : String} {room : Int} {e : LexicalError}

theorem room_of_tokenize (h : tokenize text filename room = .error (.lexical e)) : 1 ≤ room := by
  by_contra hroom
  have hnew : Session.new? (Grammar.scan (.ofString text)) room = none := if_neg hroom
  rw [tokenize, tokenizeNoting, hnew] at h
  cases h

theorem exists_isError_or (text : String) :
    (∃ t ∈ Grammar.tokens text, t.isError = true) ∨
      ∀ t ∈ Grammar.tokens text, t.isError = false := by
  by_cases h : ∃ t ∈ Grammar.tokens text, t.isError = true
  · exact .inl h
  · right
    intro t ht
    by_contra herror
    exact h ⟨t, ht, by simpa using herror⟩

theorem exists_token (h : tokenize text filename room = .error (.lexical e)) :
    ∃ t ∈ Grammar.tokens text, t.isError = true ∧ ∃ span, t.span = some span ∧
      e = ⟨t.value, span.start, text, some span, filename⟩ := by
  have hroom := room_of_tokenize h
  rcases exists_isError_or text with ⟨t, ht, herror⟩ | hnone
  · obtain ⟨span, hspan, heq⟩ := tokenize_of_isError filename hroom ht herror
    cases heq.symm.trans h
    exact ⟨t, ht, herror, span, hspan, rfl⟩
  · cases (tokenize_of_no_error filename hroom hnone).symm.trans h

theorem source_of_tokenize (h : tokenize text filename room = .error (.lexical e)) :
    e.source = text := by
  obtain ⟨_, _, _, _, _, rfl⟩ := exists_token h
  rfl

theorem tokenize_of_mem {message : String} {span : Span}
    (h : ⟨errorType, message, some span⟩ ∈ Grammar.tokens text) (filename : String) :
    tokenize text filename = .error (.lexical ⟨message, span.start, text, some span, filename⟩) := by
  obtain ⟨_, hspan, heq⟩ := tokenize_of_isError filename (by decide : (1 : Int) ≤ 2) h rfl
  cases hspan
  exact heq

/-- Every lexical error of a text has its place there. -/
theorem exists_placed (h : tokenize text filename room = .error (.lexical e)) :
    ∃ lines before shown ahead, e.Placed lines before shown ahead := by
  obtain ⟨t, ht, herror, span, hspan, rfl⟩ := exists_token h
  obtain ⟨complaint, behind, ahead, htext, hsubject, rfl⟩ :=
    Grammar.complains_of_mem_tokens ht herror
  obtain ⟨lines, before, hlines, hbefore, rfl⟩ := Text.exists_ended behind
  have hwithin : '\n' ∉ before ++ complaint.subject := by simp [hbefore, hsubject]
  have hmessage := Grammar.Error.lineFeed_not_mem_message hsubject
  have hplace := Cursor.span_upon hlines hwithin ahead
  cases hspan
  exact ⟨lines, before, complaint.subject, ahead, htext, hlines, hwithin, by rw [hplace],
    by rw [hplace], hmessage⟩

end DocModelLexer
