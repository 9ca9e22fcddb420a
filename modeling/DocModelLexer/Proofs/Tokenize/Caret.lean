import DocModelLexer.Proofs.Tokenize.Snippet

namespace DocModelLexer

open Text (ended splitOn)

namespace LexicalError

variable {e : LexicalError} {name : String} {lines : List (List Char)}
  {before shown ahead : List Char}

theorem lineFeed_not_mem_placeLine (e : LexicalError) (hname : '\n' ∉ name.toList) :
    '\n' ∉ e.placeLine name := by
  have hlen := e.length_placeLine name
  rw [Text.length_splitOn, List.count_eq_zero.mpr hname] at hlen
  exact List.count_eq_zero.mp (Nat.succ.inj hlen)

theorem gutter_append (e : LexicalError) :
    e.gutter ++ "| ".toList =
      List.replicate (toString e.position.line).toList.length ' ' ++ " | ".toList := by
  rw [gutter, List.replicate_succ', List.append_assoc, String.length_toList]
  rfl

theorem Placed.indent_eq (h : e.Placed lines before shown ahead) : e.indent = before.length := by
  rw [indent, h.position_eq]
  exact Int.add_sub_cancel _ _

theorem Placed.underline_eq (h : e.Placed lines before shown ahead) :
    e.underline = max 1 (shown.length : Int) := by
  have hline : (lines.length + 1 : Int) = e.position.line := by rw [h.position_eq]
  have hcolumn : e.position.column = before.length + 1 := by rw [h.position_eq]
  have hwidth : ((before ++ shown).length + 1 : Int) - e.position.column = shown.length := by
    rw [hcolumn, List.length_append]
    omega
  rw [underline, h.span_eq]
  simp only [if_pos hline, hwidth]

end LexicalError

/-- The line of the source and the blanks before the carets begin in the same column. There are as
many blanks as the column of the error says, and as many carets as its span is long, at least one;
the span does not leave its line. -/
theorem snippet_carets {text filename : String} {room : Int} {e : LexicalError}
    (h : tokenize text filename room = .error (.lexical e)) (name : String)
    (hname : '\n' ∉ name.toList) :
    ∃ (first second third : List Char) (column width : Nat) (span : Span),
      splitOn '\n' (e.snippet name).toList = [first, second, third,
        (toString e.position.line).toList ++ " | ".toList ++ e.sourceLine,
        List.replicate (toString e.position.line).toList.length ' ' ++ " | ".toList ++
          List.replicate column ' ' ++ List.replicate width '^'] ∧
      e.position.column = column + 1 ∧ e.span = some span ∧ span.stop.line = e.position.line ∧
      (width : Int) = max 1 (span.stop.offset - span.start.offset) := by
  obtain ⟨lines, before, shown, ahead, hplaced⟩ := exists_placed h
  have hplace := Text.splitOn_of_not_mem (e.lineFeed_not_mem_placeLine hname)
  have hline : e.position.line = lines.length + 1 := by rw [hplaced.position_eq]
  have hcolumn : e.position.column = before.length + 1 := by rw [hplaced.position_eq]
  have hoffset : e.position.offset = (ended lines ++ before).length := by rw [hplaced.position_eq]
  refine ⟨"error: ".toList ++ e.message.toList, e.placeLine name, e.gutter ++ ['|'], before.length,
    (max 1 (shown.length : Int)).toNat, _, ?_, hcolumn, hplaced.span_eq, hline.symm, ?_⟩
  · rw [LexicalError.splitOn_snippet hplaced.message_line, hplace, e.gutter_append,
      hplaced.indent_eq, hplaced.underline_eq]
    rfl
  · have hlong : (ended lines ++ before ++ shown).length =
        (ended lines ++ before).length + shown.length := List.length_append
    simp only
    omega

theorem snippet_carets_runaway :
    ∃ e, tokenize "a\n 'bc" "f" = .error (.lexical e) ∧
      ∃ first second third, splitOn '\n' e.text.toList =
        [first, second, third, "2 |  'bc".toList, "  |   ^^".toList] := by
  let e : LexicalError := ⟨"Runaway quote: bc", ⟨2, 3, 4⟩, "a\n 'bc",
    some ⟨⟨2, 3, 4⟩, ⟨2, 5, 6⟩⟩, "f"⟩
  have ht : ⟨errorType, e.message, e.span⟩ ∈ Grammar.tokens "a\n 'bc" := by decide +kernel
  have heq : tokenize "a\n 'bc" "f" = .error (.lexical e) := tokenize_of_mem ht "f"
  obtain ⟨first, second, third, column, width, span, hlines, hcolumn, hspan, -, hwidth⟩ :=
    snippet_carets heq "f" (by decide)
  cases hspan
  obtain rfl : column = 2 := by
    have h : (3 : Int) = column + 1 := hcolumn
    omega
  obtain rfl : width = 2 := Int.ofNat_inj.mp hwidth
  have hshown : (toString e.position.line).toList ++ " | ".toList ++ e.sourceLine =
      "2 |  'bc".toList := by decide +kernel
  have hunder : List.replicate (toString e.position.line).toList.length ' ' ++ " | ".toList ++
      List.replicate 2 ' ' ++ List.replicate 2 '^' = "  |   ^^".toList := by decide +kernel
  rw [hshown, hunder] at hlines
  exact ⟨e, heq, first, second, third, hlines⟩

end DocModelLexer
