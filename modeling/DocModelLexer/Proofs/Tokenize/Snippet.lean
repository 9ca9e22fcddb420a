import DocModelLexer.Proofs.Text.Display
import DocModelLexer.Proofs.Tokenize.Place

namespace DocModelLexer

open Text (ended splitOn displayLines dropTrailing bare Unbroken lineBreaks)

namespace LexicalError

def gutter (e : LexicalError) : List Char :=
  List.replicate ((toString e.position.line).length + 1) ' '

def placeLine (e : LexicalError) (name : String) : List Char :=
  e.gutter ++ "--> ".toList ++ name.toList ++ ':' :: (toString e.position.line).toList ++
    ':' :: (toString e.position.column).toList

theorem toList_snippet (e : LexicalError) (name : String) :
    (e.snippet name).toList = "error: ".toList ++ e.message.toList ++ '\n' :: (e.placeLine name ++
      '\n' :: (e.gutter ++ ['|'] ++ '\n' :: ((toString e.position.line).toList ++ " | ".toList ++
        e.sourceLine ++ '\n' :: (e.gutter ++ "| ".toList ++ List.replicate e.indent.toNat ' ' ++
          List.replicate e.underline.toNat '^')))) := by
  have hself (s : String) : toString s = s := rfl
  unfold snippet placeLine gutter
  simp [hself]

theorem lineFeed_not_mem_sourceLine (e : LexicalError) : '\n' ∉ e.sourceLine := by
  unfold sourceLine
  simp only
  split
  · simp
  · split
    · rename_i line hline
      exact Text.lineFeed_not_mem_bare (List.mem_of_getElem? hline)
    · simp

/-- The lines of a snippet. The second is several if the file name is. -/
theorem splitOn_snippet {e : LexicalError} (h : '\n' ∉ e.message.toList) (name : String) :
    splitOn '\n' (e.snippet name).toList =
      ("error: ".toList ++ e.message.toList) :: (splitOn '\n' (e.placeLine name) ++
        [e.gutter ++ ['|'], (toString e.position.line).toList ++ " | ".toList ++ e.sourceLine,
          e.gutter ++ "| ".toList ++ List.replicate e.indent.toNat ' ' ++
            List.replicate e.underline.toNat '^']) := by
  have hnumber := Text.lineFeed_not_mem_toString e.position.line
  have hfirst : '\n' ∉ "error: ".toList ++ e.message.toList := by simp [h]
  have hgutter : '\n' ∉ e.gutter ++ ['|'] := by simp [gutter]
  have hshown : '\n' ∉ (toString e.position.line).toList ++ " | ".toList ++ e.sourceLine := by
    simpa [e.lineFeed_not_mem_sourceLine] using hnumber
  have hlast : '\n' ∉ e.gutter ++ "| ".toList ++ List.replicate e.indent.toNat ' ' ++
      List.replicate e.underline.toNat '^' := by
    simp [gutter]
  rw [toList_snippet, Text.splitOn_append, Text.splitOn_append, Text.splitOn_append,
    Text.splitOn_append, Text.splitOn_of_not_mem hfirst, Text.splitOn_of_not_mem hgutter,
    Text.splitOn_of_not_mem hshown, Text.splitOn_of_not_mem hlast, List.singleton_append,
    List.singleton_append, List.singleton_append]

theorem length_placeLine (e : LexicalError) (name : String) :
    (splitOn '\n' (e.placeLine name)).length = name.toList.count '\n' + 1 := by
  have hline := Text.lineFeed_not_mem_toString e.position.line
  have hcolumn := Text.lineFeed_not_mem_toString e.position.column
  rw [Text.length_splitOn, placeLine]
  simp only [List.count_append, List.count_cons, List.count_eq_zero.mpr hline,
    List.count_eq_zero.mpr hcolumn]
  simp [gutter, List.count_replicate]

/-- The line of the source stands behind its number on the fourth line of a snippet, or so many
lines below as there are line feeds in the file name. -/
theorem snippet_line {e : LexicalError} (h : '\n' ∉ e.message.toList) (name : String) :
    (splitOn '\n' (e.snippet name).toList)[3 + name.toList.count '\n']? =
      some ((toString e.position.line).toList ++ " | ".toList ++ e.sourceLine) := by
  have hlen := e.length_placeLine name
  have hindex : 3 + name.toList.count '\n' = (splitOn '\n' (e.placeLine name)).length + 1 + 1 := by
    omega
  rw [splitOn_snippet h, hindex, List.getElem?_cons_succ,
    List.getElem?_append_right (Nat.le_succ _), Nat.succ_sub (Nat.le_refl _), Nat.sub_self]
  rfl

theorem sourceLine_eq {e : LexicalError} {n : Nat} (h : e.position.line = n + 1) :
    e.sourceLine = (((displayLines e.source.toList)[n]?).map bare).getD [] := by
  have hline : ¬e.position.line < 1 := by omega
  have hindex : (e.position.line - 1).toNat = n := by omega
  unfold sourceLine
  rw [if_neg hline, hindex]
  cases (displayLines e.source.toList)[n]? with
  | none => rfl
  | some line => rfl

section

variable {e : LexicalError} {lines : List (List Char)} {before shown ahead : List Char}

/-- Where no line before is broken, the line of the error is shown, up to its first break. -/
theorem Placed.sourceLine_eq_iff (h : e.Placed lines before shown ahead)
    (hunbroken : ∀ line ∈ lines, Unbroken line) :
    e.sourceLine = dropTrailing '\r' e.countedLine ↔
      ∀ c ∈ (dropTrailing '\r' e.countedLine).dropLast, c ∉ lineBreaks := by
  obtain ⟨-, rest, hsource, hline, hrest, -⟩ := h.exists_line
  have hlen := (Text.length_displayLines_ended h.lines_whole).2.mpr hunbroken
  have hshown : e.sourceLine =
      (((displayLines (e.countedLine ++ rest))[0]?).map bare).getD [] := by
    rw [sourceLine_eq (congrArg Position.line h.position_eq), hsource, Text.displayLines_ended,
      List.getElem?_append_right (Nat.le_of_eq hlen), hlen, Nat.sub_self]
  cases hlines : displayLines (e.countedLine ++ rest) with
  | nil =>
    have hnil : e.countedLine = [] := by
      have htext := Text.flatten_displayLines (e.countedLine ++ rest)
      rw [hlines] at htext
      exact (List.append_eq_nil_iff.mp htext.symm).1
    rw [hshown, hlines, hnil]
    exact iff_of_true rfl (by simp [dropTrailing])
  | cons first later =>
    rw [hshown, hlines]
    exact Text.bare_eq_iff hline hrest hlines

/-- Where a line before is broken, some text before the line of the error is shown. -/
theorem Placed.sourceLine_of_broken (h : e.Placed lines before shown ahead)
    (hbroken : ∃ line ∈ lines, ¬Unbroken line) :
    ∃ earlier, (displayLines (ended lines))[lines.length]? = some earlier ∧
      e.sourceLine = bare earlier := by
  obtain ⟨-, rest, hsource, -⟩ := h.exists_line
  obtain ⟨hle, hiff⟩ := Text.length_displayLines_ended h.lines_whole
  have hlt : lines.length < (displayLines (ended lines)).length := by
    have hne : (displayLines (ended lines)).length ≠ lines.length := by
      intro heq
      obtain ⟨line, hline, hnot⟩ := hbroken
      exact hnot (hiff.mp heq line hline)
    omega
  refine ⟨_, List.getElem?_eq_getElem hlt, ?_⟩
  rw [sourceLine_eq (congrArg Position.line h.position_eq), hsource, Text.displayLines_ended,
    List.getElem?_append_left hlt, List.getElem?_eq_getElem hlt]
  rfl

end

end LexicalError

/-- A snippet shows the line that its error counts, less the carriage returns at its end, as long as
display breaks no line before, and this one nowhere before its last character. -/
theorem snippet_line_eq_iff {text filename : String} {room : Int} {e : LexicalError}
    (h : tokenize text filename room = .error (.lexical e)) (name : String) :
    (∃ rest, text.toList = ended e.earlierLines ++ (e.countedLine ++ rest) ∧
      (rest = [] ∨ rest.head? = some '\n')) ∧
    (∀ line ∈ e.earlierLines, '\n' ∉ line) ∧ '\n' ∉ e.countedLine ∧
    (∃ column, column ≤ e.countedLine.length ∧ e.position =
      ⟨e.earlierLines.length + 1, column + 1, (ended e.earlierLines).length + column⟩) ∧
    (splitOn '\n' (e.snippet name).toList)[3 + name.toList.count '\n']? =
      some ((toString e.position.line).toList ++ " | ".toList ++ e.sourceLine) ∧
    ((∀ line ∈ e.earlierLines, Unbroken line) →
      (e.sourceLine = dropTrailing '\r' e.countedLine ↔
        ∀ c ∈ (dropTrailing '\r' e.countedLine).dropLast, c ∉ lineBreaks)) ∧
    ((∃ line ∈ e.earlierLines, ¬Unbroken line) →
      ∃ earlier, (displayLines (ended e.earlierLines))[e.earlierLines.length]? = some earlier ∧
        e.sourceLine = bare earlier) := by
  obtain ⟨lines, before, shown, ahead, hplaced⟩ := exists_placed h
  obtain ⟨rfl, rest, hsource, hline, hrest, hle⟩ := hplaced.exists_line
  rw [source_of_tokenize h] at hsource
  refine ⟨⟨rest, hsource, hrest⟩, hplaced.lines_whole, hline, ⟨before.length, ?_, ?_⟩,
    LexicalError.snippet_line hplaced.message_line name, hplaced.sourceLine_eq_iff,
    hplaced.sourceLine_of_broken⟩
  · have hlen := hle.length_le
    rw [List.length_append] at hlen
    omega
  · rw [hplaced.position_eq, List.length_append, Int.natCast_add]

theorem snippet_line_eq_iff_second :
    ∃ e, tokenize "#a\r\nb $\r" "f" = .error (.lexical e) ∧
      (splitOn '\n' e.text.toList)[3]? = some "2 | b $".toList := by
  let e : LexicalError := ⟨"Unexpected unicode character (U+0024 '$') in outer context.",
    ⟨2, 3, 6⟩, "#a\r\nb $\r", some ⟨⟨2, 3, 6⟩, ⟨2, 4, 7⟩⟩, "f"⟩
  have ht : ⟨errorType, e.message, e.span⟩ ∈ Grammar.tokens "#a\r\nb $\r" := by decide +kernel
  have heq : tokenize "#a\r\nb $\r" "f" = .error (.lexical e) := tokenize_of_mem ht "f"
  have hearlier : e.earlierLines = [['#', 'a', '\r']] := by decide +kernel
  have hcounted : e.countedLine = ['b', ' ', '$', '\r'] := by decide +kernel
  obtain ⟨-, -, -, -, hshown, hunbroken, -⟩ := snippet_line_eq_iff heq "f"
  rw [hearlier, hcounted] at hunbroken
  have hline : e.sourceLine = ['b', ' ', '$'] := by
    refine (hunbroken ?_).mpr (by simp [dropTrailing, lineBreaks])
    intro line hmem
    rw [List.mem_singleton.mp hmem]
    exact ⟨['#', 'a'], by simp [lineBreaks], .inr rfl⟩
  rw [hline] at hshown
  exact ⟨e, heq, hshown.trans (by decide +kernel)⟩

/-- A vertical tab in a comment is no end of a line to the position of an error, but it is to the
snippet. -/
theorem snippet_line_vertical_tab :
    ∃ e, tokenize "#a\x0bb\n$" "f" = .error (.lexical e) ∧ e.position = ⟨2, 1, 5⟩ ∧
      e.countedLine = ['$'] ∧ (splitOn '\n' e.text.toList)[3]? = some "2 | b".toList := by
  have heq := tokenize_of_mem
    (by decide +kernel : ⟨errorType, "Unexpected unicode character (U+0024 '$') in outer context.",
      some ⟨⟨2, 1, 5⟩, ⟨2, 2, 6⟩⟩⟩ ∈ Grammar.tokens "#a\x0bb\n$") "f"
  exact ⟨_, heq, rfl, by decide +kernel, by decide +kernel⟩

end DocModelLexer
