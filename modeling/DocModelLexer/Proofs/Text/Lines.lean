import DocModelLexer.Text.Split
import Mathlib.Data.List.DropRight

namespace DocModelLexer.Text

variable {sep : Char} {text rest line : List Char} {lines : List (List Char)}

theorem splitOn_of_not_mem (h : sep ∉ text) : splitOn sep text = [text] := by
  induction text with
  | nil => rfl
  | cons c text ih =>
    have hc : c ≠ sep := by
      rintro rfl
      exact h List.mem_cons_self
    have htail : sep ∉ text := fun hmem => h (List.mem_cons_of_mem _ hmem)
    rw [splitOn, if_neg hc, ih htail]

theorem splitOn_append (sep : Char) (text rest : List Char) :
    splitOn sep (text ++ sep :: rest) = splitOn sep text ++ splitOn sep rest := by
  induction text with
  | nil => simp [splitOn]
  | cons c text ih =>
    by_cases hc : c = sep
    · simp [splitOn, hc, ih]
    · obtain ⟨piece, pieces, hpieces⟩ := List.exists_cons_of_ne_nil (splitOn_ne_nil sep text)
      simp [splitOn, hc, ih, hpieces]

theorem length_splitOn (sep : Char) (text : List Char) :
    (splitOn sep text).length = text.count sep + 1 := by
  induction text with
  | nil => rfl
  | cons c text ih =>
    by_cases hc : c = sep
    · simp [splitOn, hc, ih]
    · obtain ⟨piece, pieces, hpieces⟩ := List.exists_cons_of_ne_nil (splitOn_ne_nil sep text)
      rw [hpieces] at ih
      simpa [splitOn, hc, hpieces] using ih

/-- Whole lines, each with the line feed that ends it. -/
def ended (lines : List (List Char)) : List Char := lines.flatMap (· ++ ['\n'])

theorem ended_cons (line : List Char) (lines : List (List Char)) :
    ended (line :: lines) = line ++ '\n' :: ended lines := by
  simp [ended]

theorem ended_append (lines later : List (List Char)) :
    ended (lines ++ later) = ended lines ++ ended later := by
  simp [ended]

/-- Cut at its line feeds, a text is whole lines but for the line feed that the last one lacks. -/
theorem ended_splitOn (text : List Char) : ended (splitOn '\n' text) = text ++ ['\n'] := by
  induction text with
  | nil => rfl
  | cons c text ih =>
    by_cases hc : c = '\n'
    · simp [splitOn, hc, ended_cons, ih]
    · obtain ⟨piece, pieces, hpieces⟩ := List.exists_cons_of_ne_nil (splitOn_ne_nil '\n' text)
      rw [hpieces, ended_cons] at ih
      simp [splitOn, hc, hpieces, ended_cons, ih]

theorem splitOn_ended (h : ∀ line ∈ lines, '\n' ∉ line) (rest : List Char) :
    splitOn '\n' (ended lines ++ rest) = lines ++ splitOn '\n' rest := by
  induction lines with
  | nil => rfl
  | cons line lines ih =>
    have hlines : ∀ line ∈ lines, '\n' ∉ line := fun l hl => h l (List.mem_cons_of_mem _ hl)
    rw [ended_cons, List.append_assoc, List.cons_append, splitOn_append,
      splitOn_of_not_mem (h line List.mem_cons_self), ih hlines]
    rfl

theorem exists_ended (text : List Char) :
    ∃ lines last, (∀ line ∈ lines, '\n' ∉ line) ∧ '\n' ∉ last ∧ text = ended lines ++ last := by
  induction text with
  | nil => exact ⟨[], [], by simp, by simp, rfl⟩
  | cons c text ih =>
    obtain ⟨lines, last, hlines, hlast, rfl⟩ := ih
    by_cases hc : c = '\n'
    · subst hc
      refine ⟨[] :: lines, last, ?_, hlast, by simp [ended_cons]⟩
      simpa using hlines
    cases lines with
    | nil => exact ⟨[], c :: last, by simp, by simp [hlast, Ne.symm hc], rfl⟩
    | cons line lines =>
      refine ⟨(c :: line) :: lines, last, ?_, hlast, by simp [ended_cons]⟩
      intro l hl
      rcases List.mem_cons.mp hl with rfl | hl
      · simpa [Ne.symm hc] using hlines line List.mem_cons_self
      · exact hlines l (List.mem_cons_of_mem _ hl)

theorem exists_line (text : List Char) :
    ∃ line rest, '\n' ∉ line ∧ (rest = [] ∨ rest.head? = some '\n') ∧ text = line ++ rest := by
  obtain ⟨lines, last, hlines, hlast, rfl⟩ := exists_ended text
  cases lines with
  | nil => exact ⟨last, [], hlast, .inl rfl, (List.append_nil last).symm⟩
  | cons line lines =>
    refine ⟨line, '\n' :: (ended lines ++ last), hlines line List.mem_cons_self, .inr rfl, ?_⟩
    rw [ended_cons, List.append_assoc, List.cons_append]

theorem getElem?_splitOn_ended (h : ∀ line ∈ lines, '\n' ∉ line) (hline : '\n' ∉ line)
    (hrest : rest = [] ∨ rest.head? = some '\n') :
    (splitOn '\n' (ended lines ++ (line ++ rest)))[lines.length]? = some line := by
  rw [splitOn_ended h, List.getElem?_append_right (Nat.le_refl _), Nat.sub_self]
  rcases hrest with rfl | hrest
  · rw [List.append_nil, splitOn_of_not_mem hline]
    rfl
  · obtain ⟨rest, rfl⟩ := List.head?_eq_some_iff.mp hrest
    rw [splitOn_append, splitOn_of_not_mem hline]
    rfl

theorem ended_take_isPrefix {n : Nat} (h : (splitOn '\n' text)[n]? = some line) :
    ended ((splitOn '\n' text).take n) ++ line <+: text := by
  obtain ⟨hn, hline⟩ := List.getElem?_eq_some_iff.mp h
  have hpieces : splitOn '\n' text =
      (splitOn '\n' text).take n ++ line :: (splitOn '\n' text).drop (n + 1) := by
    rw [← hline, ← List.drop_eq_getElem_cons, List.take_append_drop]
  have hended := ended_splitOn text
  rw [hpieces, ended_append, ended_cons, ← List.append_assoc] at hended
  have hlen := congrArg List.length hended
  simp only [List.length_append, List.length_cons, List.length_nil] at hlen
  refine List.prefix_of_prefix_length_le (List.prefix_append _ _)
    (hended ▸ List.prefix_append text ['\n']) ?_
  rw [List.length_append]
  omega

theorem count_ended (h : ∀ line ∈ lines, '\n' ∉ line) (hline : '\n' ∉ line) :
    (ended lines ++ line).count '\n' = lines.length := by
  have hpieces := length_splitOn '\n' (ended lines ++ line)
  rw [splitOn_ended h, splitOn_of_not_mem hline, List.length_append] at hpieces
  exact (Nat.succ.inj hpieces).symm

theorem rtakeWhile_ended (lines : List (List Char)) (hline : '\n' ∉ line) :
    (ended lines ++ line).rtakeWhile (· ≠ '\n') = line := by
  induction line using List.reverseRecOn with
  | nil =>
    cases lines using List.reverseRecOn with
    | nil => rfl
    | append_singleton lines line =>
      have hlast : ended (lines ++ [line]) ++ [] = ended lines ++ line ++ ['\n'] := by simp [ended]
      rw [hlast, List.rtakeWhile_concat_neg _ _ _ (by simp)]
  | append_singleton line c ih =>
    rw [List.mem_append, List.mem_singleton, not_or] at hline
    rw [← List.append_assoc, List.rtakeWhile_concat_pos _ _ _ (by simpa using Ne.symm hline.2),
      ih hline.1]

/-- The offset that a line and a character lead to, both counted from zero. -/
def offsetAt (text : List Char) (line character : Int) : Int :=
  (ended ((splitOn '\n' text).take line.toNat)).length + character

theorem offsetAt_ended (h : ∀ line ∈ lines, '\n' ∉ line) (rest : List Char) (character : Int) :
    offsetAt (ended lines ++ rest) lines.length character = (ended lines).length + character := by
  rw [offsetAt, splitOn_ended h, Int.toNat_natCast, List.take_left]

end DocModelLexer.Text
