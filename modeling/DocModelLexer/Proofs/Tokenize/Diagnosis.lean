import DocModelLexer.Diagnostic
import DocModelLexer.Proofs.Tokenize.Place

namespace DocModelLexer

open Text (ended splitOn)

namespace Text

variable {lines : List (List Char)} {text : List Char}

def units (c : Char) : Nat := if c.toNat < 0x10000 then 1 else 2

def unitLength : List Char → Nat
  | [] => 0
  | c :: text => units c + unitLength text

theorem unitLength_eq_iff (text : List Char) :
    text.length ≤ unitLength text ∧
      (unitLength text = text.length ↔ ∀ c ∈ text, c.toNat < 0x10000) := by
  induction text with
  | nil => simp [unitLength]
  | cons c text ih =>
    obtain ⟨hle, hiff⟩ := ih
    rw [unitLength, List.length_cons, List.forall_mem_cons, ← hiff, units]
    split <;> omega

/-- A line and a number of code units, both counted from zero, lead to an offset: that many lines
end before it, and the text between the last of them and the offset takes that many units. -/
def LeadsTo (text : List Char) (line unit offset : Int) : Prop :=
  ∃ lines before ahead, text = ended lines ++ before ++ ahead ∧ (∀ line ∈ lines, '\n' ∉ line) ∧
    '\n' ∉ before ∧ line = lines.length ∧ unit = unitLength before ∧
      offset = (ended lines ++ before).length

/-- What stands before an offset falls into lines in one way. -/
theorem leadsTo_ended {before : List Char} (hlines : ∀ line ∈ lines, '\n' ∉ line)
    (hbefore : '\n' ∉ before) (ahead : List Char) (unit : Int) :
    LeadsTo (ended lines ++ before ++ ahead) lines.length unit (ended lines ++ before).length ↔
      unit = unitLength before := by
  constructor
  · rintro ⟨lines', before', ahead', htext, hlines', hbefore', -, rfl, hoffset⟩
    -- what stands before the offset is the same text both times, and it splits in one way
    have hsame := (List.append_inj htext (Int.ofNat_inj.mp hoffset)).1
    have hpieces := congrArg (splitOn '\n') hsame
    rw [splitOn_ended hlines, splitOn_ended hlines', splitOn_of_not_mem hbefore,
      splitOn_of_not_mem hbefore'] at hpieces
    rw [List.singleton_inj.mp (List.append_inj' hpieces rfl).2]
  · rintro rfl
    exact ⟨lines, before, ahead, rfl, hlines, hbefore, rfl, rfl, rfl⟩

end Text

/-- The places of a document: its lines, and characters up to the one behind its end. -/
structure Range.Within (r : Range) (text : String) : Prop where
  startLine : 0 ≤ r.startLine ∧ r.startLine < (splitOn '\n' text.toList).length
  startCharacter : 0 ≤ r.startCharacter ∧ r.startCharacter ≤ text.length
  endLine : 0 ≤ r.endLine ∧ r.endLine < (splitOn '\n' text.toList).length
  endCharacter : 0 ≤ r.endCharacter ∧ r.endCharacter ≤ text.length + 1

/-- An editor that takes no number of more than 31 bits takes all places of a shorter document. -/
theorem Range.Within.error?_eq_none {r : Range} {text : String} (h : r.Within text)
    (hlen : text.length < PlaceError.maxNumber) : r.error? = none := by
  obtain ⟨hstartLine, hstartCharacter, hendLine, hendCharacter⟩ := h
  have hlines : (splitOn '\n' text.toList).length ≤ text.length + 1 := by
    rw [Text.length_splitOn]
    exact Nat.succ_le_succ List.count_le_length
  rw [Range.error?_eq_none_iff]
  simp only [List.forall_mem_cons]
  refine ⟨?_, ?_, ?_, ?_, by simp⟩ <;> omega

namespace LexicalError

variable {e : LexicalError} {lines : List (List Char)} {before shown ahead : List Char}

/-- A diagnostic covers the text that its error points at, or one character if there is none. -/
theorem Placed.range_eq (h : e.Placed lines before shown ahead) :
    (Diagnostic.ofError e).range =
      ⟨lines.length, before.length, lines.length, before.length + (max 1 shown.length : Nat)⟩ := by
  have hlen : (before ++ shown).length = before.length + shown.length := List.length_append
  have hstop : (ended lines ++ before ++ shown).length =
      (ended lines ++ before).length + shown.length := List.length_append
  simp only [Diagnostic.ofError, h.span_eq, h.position_eq]
  split
  · rename_i hlt
    rw [Range.mk.injEq]
    omega
  · rename_i hle
    rw [Range.mk.injEq]
    omega

theorem Placed.range_within (h : e.Placed lines before shown ahead) :
    (Diagnostic.ofError e).range.Within e.source := by
  have hlines : lines.length < (splitOn '\n' e.source.toList).length := by
    have hne := List.length_pos_iff.mpr (Text.splitOn_ne_nil '\n' (before ++ shown ++ ahead))
    rw [h.source_eq, List.append_assoc, List.append_assoc, Text.splitOn_ended h.lines_whole,
      List.length_append, ← List.append_assoc before]
    omega
  have hlen : before.length + shown.length ≤ e.source.length := by
    rw [← String.length_toList, h.source_eq]
    simp only [List.length_append]
    omega
  rw [h.range_eq]
  constructor
  · simpa using hlines
  · simp only
    omega
  · simpa using hlines
  · simp only
    omega

theorem Placed.offsetAt_range (h : e.Placed lines before shown ahead) :
    let range := (Diagnostic.ofError e).range
    Text.offsetAt e.source.toList range.startLine range.startCharacter = e.position.offset ∧
    Text.offsetAt e.source.toList range.endLine range.endCharacter =
      e.position.offset + (max 1 shown.length : Nat) := by
  have hsource : e.source.toList = ended lines ++ (before ++ shown ++ ahead) := by
    simp [h.source_eq]
  rw [h.range_eq, h.position_eq, hsource]
  simp only [Text.offsetAt_ended h.lines_whole, List.length_append]
  omega

/-- Counted in units, the range leads back to the place of its error as long as each character of
its line, up to there, takes one unit. -/
theorem Placed.leadsTo_range_iff (h : e.Placed lines before shown ahead) (hshown : shown ≠ []) :
    let range := (Diagnostic.ofError e).range
    (Text.LeadsTo e.source.toList range.startLine range.startCharacter
        (ended lines ++ before).length ∧
      Text.LeadsTo e.source.toList range.endLine range.endCharacter
        (ended lines ++ before ++ shown).length) ↔
      ∀ c ∈ before ++ shown, c.toNat < 0x10000 := by
  have hbefore : '\n' ∉ before := fun hmem => h.within (List.mem_append_left _ hmem)
  have hlen := List.length_pos_iff.mpr hshown
  have hstart := Text.leadsTo_ended h.lines_whole hbefore (shown ++ ahead) before.length
  have hstop := Text.leadsTo_ended h.lines_whole h.within ahead
    (before.length + (max 1 shown.length : Nat))
  have hunits := Text.unitLength_eq_iff before
  have hallUnits := Text.unitLength_eq_iff (before ++ shown)
  simp only [← List.append_assoc] at hstart hstop
  simp only [h.range_eq, h.source_eq, hstart, hstop]
  rw [← hallUnits.2]
  constructor
  -- the start of the range asks for nothing that its end does not ask for
  · rintro ⟨-, hall⟩
    rw [List.length_append]
    omega
  · intro hall
    have hsmall := hallUnits.2.mp hall
    have hfirst := hunits.2.mpr fun c hc => hsmall c (List.mem_append_left _ hc)
    rw [List.length_append] at hall
    omega

end LexicalError

section

variable {uri text : String} {e : LexicalError}

theorem diagnose_of_error (h : tokenize text (documentName uri) = .error (.lexical e)) :
    diagnose uri text = .ok [.ofError e] := by
  unfold diagnose
  rw [h]

theorem publishTo_of_ok {refuse? : Range → Option PlaceError} {tokens : List Token}
    (h : tokenize text (documentName uri) = .ok tokens) : publishTo refuse? uri text = .ok [] := by
  unfold publishTo diagnose
  rw [h]
  rfl

theorem publishTo_of_error {refuse? : Range → Option PlaceError}
    (h : tokenize text (documentName uri) = .error (.lexical e))
    (haccept : refuse? (Diagnostic.ofError e).range = none) :
    publishTo refuse? uri text = .ok [.ofError e] := by
  unfold publishTo
  rw [diagnose_of_error h]
  simp [List.findSome?, haccept]

end

/-- An editor that takes all places of a document is sent one list: empty if the text has tokens
alone, else with one diagnostic that says what the error token says, where it stands. -/
theorem publishTo_eq_singleton (refuse? : Range → Option PlaceError) (uri text : String)
    (haccept : ∀ r : Range, r.Within text → refuse? r = none) :
    (tokenize text (documentName uri) = .ok (Grammar.tokens text) ∧
      publishTo refuse? uri text = .ok []) ∨
    ∃ e t span d, tokenize text (documentName uri) = .error (.lexical e) ∧
      t ∈ Grammar.tokens text ∧ t.isError = true ∧ t.span = some span ∧
      publishTo refuse? uri text = .ok [d] ∧ d.message = t.value ∧ d.range.Within text ∧
      d.range.startLine = d.range.endLine ∧ d.range.startCharacter < d.range.endCharacter ∧
      Text.offsetAt text.toList d.range.startLine d.range.startCharacter = span.start.offset ∧
      Text.offsetAt text.toList d.range.endLine d.range.endCharacter =
        if span.start.offset < span.stop.offset then span.stop.offset
        else span.start.offset + 1 := by
  rcases exists_isError_or text with ⟨t, ht, hterror⟩ | hnone
  · right
    obtain ⟨span, hspan, heq⟩ :=
      tokenize_of_isError (documentName uri) (by decide : (1 : Int) ≤ 2) ht hterror
    obtain ⟨lines, before, shown, ahead, hplaced⟩ := exists_placed heq
    have hwithin := hplaced.range_within
    obtain ⟨hstart, hstop⟩ := hplaced.offsetAt_range
    have hrange := hplaced.range_eq
    have hspaneq := Option.some.inj hplaced.span_eq
    rw [hplaced.position_eq] at hspaneq
    refine ⟨_, t, span, _, heq, ht, hterror, hspan,
      publishTo_of_error heq (haccept _ hwithin), rfl, hwithin, ?_, ?_, hstart, ?_⟩
    · rw [hrange]
    · rw [hrange]
      simp only
      omega
    · rw [hstop, hplaced.position_eq, hspaneq]
      simp only [List.length_append]
      split <;> omega
  · left
    have heq := tokenize_of_no_error (documentName uri) (by decide : (1 : Int) ≤ 2) hnone
    exact ⟨heq, publishTo_of_ok heq⟩

theorem publishTo_eq_singleton_runaway :
    ∃ d, publish "file:///a.dtdx" "\"a" = .ok [d] ∧ d.message = "Runaway quote: a" ∧
      d.range = ⟨0, 1, 0, 2⟩ := by
  have heq := tokenize_of_mem
    (by decide +kernel : ⟨errorType, "Runaway quote: a", some ⟨⟨1, 2, 1⟩, ⟨1, 3, 2⟩⟩⟩ ∈
      Grammar.tokens "\"a") (documentName "file:///a.dtdx")
  have haccept : ∀ r : Range, r.Within "\"a" → r.error? = none := by
    intro r hr
    exact hr.error?_eq_none (by decide)
  rcases publishTo_eq_singleton Range.error? "file:///a.dtdx" "\"a" haccept with
    ⟨hok, -⟩ | ⟨_, _, _, d, -, -, -, -, hpublish, -⟩
  · cases heq.symm.trans hok
  · have hsame := hpublish.symm.trans (publishTo_of_error heq rfl)
    cases hsame
    exact ⟨_, hpublish, rfl, rfl⟩

/-- The range of a diagnostic counts characters. Read in code units of 16 bits, it leads back to the
span of its error just if every character of the line, up to the end of the span, takes one unit. -/
theorem diagnose_range_iff {uri text : String} {e : LexicalError} {span : Span}
    (h : tokenize text (documentName uri) = .error (.lexical e)) (hspan : e.span = some span)
    (hlt : span.start.offset < span.stop.offset) :
    ∃ d, diagnose uri text = .ok [d] ∧
      ((Text.LeadsTo text.toList d.range.startLine d.range.startCharacter span.start.offset ∧
          Text.LeadsTo text.toList d.range.endLine d.range.endCharacter span.stop.offset) ↔
        ∀ c ∈ e.countedLine.take (span.stop.column - 1).toNat, c.toNat < 0x10000) := by
  obtain ⟨lines, before, shown, ahead, hplaced⟩ := exists_placed h
  obtain ⟨-, rest, -, -, -, hline⟩ := hplaced.exists_line
  have hspaneq := Option.some.inj (hspan.symm.trans hplaced.span_eq)
  rw [hplaced.position_eq] at hspaneq
  subst hspaneq
  have hshown : shown ≠ [] := by
    rintro rfl
    simp at hlt
  have hupto : e.countedLine.take (((before ++ shown).length + 1 : Int) - 1).toNat =
      before ++ shown := by
    rw [Int.add_sub_cancel, Int.toNat_natCast, ← List.prefix_iff_eq_take.mp hline]
  refine ⟨_, diagnose_of_error h, ?_⟩
  rw [hupto, ← source_of_tokenize h]
  exact hplaced.leadsTo_range_iff hshown

theorem diagnose_range_iff_runaway :
    ∃ d, diagnose "file:///a.dtdx" "\"a" = .ok [d] ∧
      Text.LeadsTo "\"a".toList d.range.startLine d.range.startCharacter 1 ∧
      Text.LeadsTo "\"a".toList d.range.endLine d.range.endCharacter 2 := by
  let e : LexicalError := ⟨"Runaway quote: a", ⟨1, 2, 1⟩, "\"a", some ⟨⟨1, 2, 1⟩, ⟨1, 3, 2⟩⟩,
    documentName "file:///a.dtdx"⟩
  have ht : ⟨errorType, e.message, e.span⟩ ∈ Grammar.tokens "\"a" := by decide +kernel
  have heq : tokenize "\"a" (documentName "file:///a.dtdx") = .error (.lexical e) :=
    tokenize_of_mem ht (documentName "file:///a.dtdx")
  have hcounted : e.countedLine = ['"', 'a'] := by decide +kernel
  obtain ⟨d, hd, hiff⟩ := diagnose_range_iff heq rfl (by decide)
  rw [hcounted] at hiff
  exact ⟨d, hd, hiff.mpr (by simp)⟩

/-- A character beyond the first plane takes two units, but a diagnostic covers one of them only. -/
theorem diagnose_range_surrogates :
    ∃ e d, tokenize "😀" (documentName "file:///a.dtdx") = .error (.lexical e) ∧
      e.span = some ⟨⟨1, 1, 0⟩, ⟨1, 2, 1⟩⟩ ∧ diagnose "file:///a.dtdx" "😀" = .ok [d] ∧
      d.range = ⟨0, 0, 0, 1⟩ ∧ ¬Text.LeadsTo "😀".toList 0 1 1 ∧
      Text.LeadsTo "😀".toList 0 2 1 := by
  have heq := tokenize_of_mem
    (by decide +kernel : ⟨errorType, "Unexpected unicode character (U+1F600 '😀') in outer context.",
      some ⟨⟨1, 1, 0⟩, ⟨1, 2, 1⟩⟩⟩ ∈ Grammar.tokens "😀") (documentName "file:///a.dtdx")
  have hunits (unit : Int) : Text.LeadsTo "😀".toList 0 unit 1 ↔ unit = 2 :=
    @Text.leadsTo_ended [] ['😀'] (by simp) (by simp) [] unit
  refine ⟨_, _, heq, rfl, diagnose_of_error heq, rfl, ?_, (hunits 2).mpr rfl⟩
  rw [hunits]
  decide

end DocModelLexer
