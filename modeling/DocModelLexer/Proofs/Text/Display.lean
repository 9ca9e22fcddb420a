import DocModelLexer.Proofs.Text.Lines
import DocModelLexer.Text.Lines
import Mathlib.Data.List.DropRight
import Mathlib.Data.List.TakeWhile

namespace DocModelLexer.Text

variable {c : Char} {text rest line body : List Char} {lines : List (List Char)}

theorem displayLines_cons (h : ¬(c = '\r' ∧ text.head? = some '\n')) :
    displayLines (c :: text) =
      if c ∈ lineBreaks then [c] :: displayLines text
      else match displayLines text with
        | [] => [[c]]
        | line :: lines => (c :: line) :: lines := by
  conv_lhs => unfold displayLines
  split
  · rename_i hnil
    cases hnil
  · rename_i hpair
    cases hpair
    exact absurd ⟨rfl, rfl⟩ h
  · rename_i hcons
    cases hcons
    rfl

theorem not_pair (h : ∀ rest, c = '\r' → text = '\n' :: rest → False) :
    ¬(c = '\r' ∧ text.head? = some '\n') := by
  rintro ⟨hc, hhead⟩
  obtain ⟨rest, hrest⟩ := List.head?_eq_some_iff.mp hhead
  exact h rest hc hrest

theorem displayLines_of_break (hc : c ∈ lineBreaks) (h : ¬(c = '\r' ∧ text.head? = some '\n')) :
    displayLines (c :: text) = [c] :: displayLines text := by
  rw [displayLines_cons h, if_pos hc]

theorem displayLines_append (hbody : ∀ c ∈ body, c ∉ lineBreaks)
    (h : displayLines text = line :: lines) :
    displayLines (body ++ text) = (body ++ line) :: lines := by
  induction body with
  | nil => exact h
  | cons c body ih =>
    have hc : c ∉ lineBreaks := hbody c List.mem_cons_self
    have htail := ih fun d hd => hbody d (List.mem_cons_of_mem _ hd)
    have hne : ¬(c = '\r' ∧ (body ++ text).head? = some '\n') := by
      rintro ⟨rfl, -⟩
      exact hc (by decide)
    rw [List.cons_append, displayLines_cons hne, if_neg hc, htail]
    rfl

theorem displayLines_of_plain (hbody : ∀ c ∈ body, c ∉ lineBreaks) (hne : body ≠ []) :
    displayLines body = [body] := by
  obtain ⟨init, c, rfl⟩ := (List.eq_nil_or_concat' body).resolve_left hne
  have hc : c ∉ lineBreaks := hbody c (by simp)
  have hlast : displayLines [c] = [[c]] := by
    rw [displayLines_cons (by simp), if_neg hc]
    rfl
  exact displayLines_append (fun d hd => hbody d (List.mem_append_left _ hd)) hlast

theorem displayLines_ne_nil (h : text ≠ []) : displayLines text ≠ [] := by
  intro hnil
  have htext := flatten_displayLines text
  rw [hnil] at htext
  exact h htext.symm

theorem displayLines_lineFeed (text rest : List Char) :
    displayLines (text ++ '\n' :: rest) = displayLines (text ++ ['\n']) ++ displayLines rest := by
  have hplain (c : Char) (text : List Char) (hc : c ∉ lineBreaks)
      (ih : displayLines (text ++ '\n' :: rest) =
        displayLines (text ++ ['\n']) ++ displayLines rest) :
      displayLines (c :: text ++ '\n' :: rest) =
        displayLines (c :: text ++ ['\n']) ++ displayLines rest := by
    have hbody : ∀ d ∈ [c], d ∉ lineBreaks := by simpa using hc
    have hne : displayLines (text ++ ['\n']) ≠ [] := displayLines_ne_nil (by simp)
    obtain ⟨line, lines, hlines⟩ := List.exists_cons_of_ne_nil hne
    rw [hlines] at ih
    have hwhole := displayLines_append hbody ih
    have hfirst := displayLines_append hbody hlines
    change displayLines ([c] ++ (text ++ '\n' :: rest)) =
      displayLines ([c] ++ (text ++ ['\n'])) ++ displayLines rest
    rw [hwhole, hfirst]
    rfl
  induction text using displayLines.induct with
  | case1 => rfl
  | case2 text ih => simp [displayLines, ih]
  | case3 c text hpair hc ih =>
    by_cases hreturn : c = '\r' ∧ text = []
    · obtain ⟨rfl, rfl⟩ := hreturn
      rfl
    · have hhead (more : List Char) :
          ¬(c = '\r' ∧ (text ++ '\n' :: more).head? = some '\n') := by
        rintro ⟨rfl, hhead⟩
        cases text with
        | nil => exact hreturn ⟨rfl, rfl⟩
        | cons d text =>
          cases Option.some.inj hhead
          exact hpair text rfl rfl
      rw [List.cons_append, List.cons_append, displayLines_of_break hc (hhead rest),
        displayLines_of_break hc (hhead []), ih]
      rfl
  | case4 c text hpair hc hnil ih => exact hplain c text hc ih
  | case5 c text hpair hc line lines hlines ih => exact hplain c text hc ih

/-- A counted line that display does not break. A carriage return at its end is no further end of a
line, as the line feed behind it goes with it. -/
def Unbroken (line : List Char) : Prop :=
  ∃ body, (∀ c ∈ body, c ∉ lineBreaks) ∧ (line = body ∨ line = body ++ ['\r'])

theorem exists_plain (line : List Char) :
    ∃ body tail, line = body ++ tail ∧ (∀ c ∈ body, c ∉ lineBreaks) ∧
      (tail = [] ∨ ∃ c more, tail = c :: more ∧ c ∈ lineBreaks) := by
  refine ⟨line.takeWhile (· ∉ lineBreaks), line.dropWhile (· ∉ lineBreaks),
    List.takeWhile_append_dropWhile.symm, ?_, ?_⟩
  · intro c hc
    simpa using List.mem_takeWhile_imp hc
  · cases htail : line.dropWhile (· ∉ lineBreaks) with
    | nil => exact .inl rfl
    | cons c more =>
      have hc := List.head?_dropWhile_not (fun c => decide (c ∉ lineBreaks)) line
      rw [htail] at hc
      exact .inr ⟨c, more, rfl, by simpa using hc⟩

/-- A counted line is displayed as one line at least, and as one just if it is unbroken. -/
theorem length_displayLines_line (h : '\n' ∉ line) :
    1 ≤ (displayLines (line ++ ['\n'])).length ∧
      ((displayLines (line ++ ['\n'])).length = 1 ↔ Unbroken line) := by
  obtain ⟨body, tail, rfl, hbody, htail⟩ := exists_plain line
  rw [List.append_assoc]
  rcases htail with rfl | ⟨c, more, rfl, hc⟩
  · have hone : displayLines (body ++ ['\n']) = [body ++ ['\n']] := displayLines_append hbody rfl
    rw [List.nil_append, hone, List.append_nil]
    exact ⟨Nat.le_refl _, iff_of_true rfl ⟨body, hbody, .inl rfl⟩⟩
  by_cases hreturn : c = '\r' ∧ more = []
  · obtain ⟨rfl, rfl⟩ := hreturn
    have hone : displayLines (body ++ ['\r', '\n']) = [body ++ ['\r', '\n']] :=
      displayLines_append hbody rfl
    rw [List.singleton_append, hone]
    exact ⟨Nat.le_refl _, iff_of_true rfl ⟨body, hbody, .inr rfl⟩⟩
  · have hpair : ¬(c = '\r' ∧ (more ++ ['\n']).head? = some '\n') := by
      rintro ⟨rfl, hhead⟩
      cases more with
      | nil => exact hreturn ⟨rfl, rfl⟩
      | cons d more =>
        cases Option.some.inj hhead
        exact h (by simp)
    have hmore : displayLines (more ++ ['\n']) ≠ [] := displayLines_ne_nil (by simp)
    have hlen := List.length_pos_iff.mpr hmore
    rw [List.cons_append, displayLines_append hbody (displayLines_of_break hc hpair),
      List.length_cons]
    refine ⟨by omega, iff_of_false (by omega) ?_⟩
    rintro ⟨plain, hplain, hline⟩
    -- the break stands before the end of the line, so the line is not plain up to there
    rcases hline with rfl | hline
    · exact hplain c (by simp) hc
    · rcases List.eq_nil_or_concat' more with rfl | ⟨init, d, rfl⟩
      · have hend := (List.append_inj' hline rfl).2
        exact hreturn ⟨by simpa using hend, rfl⟩
      · have hsplit : body ++ c :: init = plain := by
          rw [← List.cons_append, ← List.append_assoc] at hline
          exact (List.append_inj' hline rfl).1
        exact hplain c (by simp [← hsplit]) hc

theorem displayLines_ended (lines : List (List Char)) (rest : List Char) :
    displayLines (ended lines ++ rest) = displayLines (ended lines) ++ displayLines rest := by
  induction lines with
  | nil => rfl
  | cons line lines ih =>
    rw [ended_cons, List.append_assoc, List.cons_append, displayLines_lineFeed, ih,
      displayLines_lineFeed line (ended lines), List.append_assoc]

theorem length_displayLines_ended (h : ∀ line ∈ lines, '\n' ∉ line) :
    lines.length ≤ (displayLines (ended lines)).length ∧
      ((displayLines (ended lines)).length = lines.length ↔ ∀ line ∈ lines, Unbroken line) := by
  induction lines with
  | nil => simp [ended, displayLines]
  | cons line lines ih =>
    obtain ⟨hone, hfirst⟩ := length_displayLines_line (h line List.mem_cons_self)
    obtain ⟨hle, hmore⟩ := ih fun l hl => h l (List.mem_cons_of_mem _ hl)
    rw [ended_cons, displayLines_lineFeed, List.length_append, List.length_cons,
      List.forall_mem_cons, ← hfirst, ← hmore]
    omega

/-- What is shown of a displayed line: all but the characters that end it. -/
def bare (line : List Char) : List Char := dropTrailing '\r' (dropTrailing '\n' line)

theorem dropTrailing_concat_self (c : Char) (text : List Char) :
    dropTrailing c (text ++ [c]) = dropTrailing c text :=
  List.rdropWhile_concat_pos (· == c) text c (by simp)

theorem dropTrailing_concat {d : Char} (h : d ≠ c) (text : List Char) :
    dropTrailing c (text ++ [d]) = text ++ [d] :=
  List.rdropWhile_concat_neg (· == c) text d (by simpa using h)

theorem dropTrailing_isPrefix (c : Char) (text : List Char) : dropTrailing c text <+: text :=
  List.rdropWhile_prefix (· == c) (l := text)

theorem dropTrailing_of_not_mem (h : c ∉ text) : dropTrailing c text = text := by
  rcases List.eq_nil_or_concat' text with rfl | ⟨init, d, rfl⟩
  · rfl
  · have hd : d ≠ c := by
      rintro rfl
      exact h (by simp)
    exact dropTrailing_concat hd init

theorem lineFeed_not_mem_dropLast (h : line ∈ displayLines text) : '\n' ∉ line.dropLast := by
  have hfeed : '\n' ∈ lineBreaks := by decide
  induction text using displayLines.induct generalizing line with
  | case1 => cases h
  | case2 text ih =>
    rw [displayLines] at h
    rcases List.mem_cons.mp h with rfl | h
    · decide
    · exact ih h
  | case3 c text hpair hc ih =>
    rw [displayLines_of_break hc (not_pair hpair)] at h
    rcases List.mem_cons.mp h with rfl | h
    · simp
    · exact ih h
  | case4 c text hpair hc hnil ih =>
    rw [displayLines_cons (not_pair hpair), if_neg hc, hnil] at h
    rw [List.mem_singleton.mp h]
    simp
  | case5 c text hpair hc first later hlines ih =>
    rw [displayLines_cons (not_pair hpair), if_neg hc, hlines] at h
    rw [hlines] at ih
    rcases List.mem_cons.mp h with rfl | h
    · have hfirst := ih List.mem_cons_self
      cases first with
      | nil => simp
      | cons d first =>
        rw [List.dropLast_cons_of_ne_nil (by simp), List.mem_cons, not_or]
        exact ⟨fun hc' => hc (hc' ▸ hfeed), hfirst⟩
    · exact ih (List.mem_cons_of_mem _ h)

theorem lineFeed_not_mem_bare (h : line ∈ displayLines text) : '\n' ∉ bare line := by
  have hinit := lineFeed_not_mem_dropLast h
  have hshown : '\n' ∉ dropTrailing '\n' line := by
    rcases List.eq_nil_or_concat' line with rfl | ⟨init, d, rfl⟩
    · simp [dropTrailing]
    · rw [List.dropLast_concat] at hinit
      by_cases hd : d = '\n'
      · subst hd
        rwa [dropTrailing_concat_self, dropTrailing_of_not_mem hinit]
      · rw [dropTrailing_concat hd]
        simp [hinit, Ne.symm hd]
  exact fun hmem => hshown ((dropTrailing_isPrefix '\r' _).subset hmem)

theorem dropTrailing_cons (c d : Char) (body more : List Char) :
    dropTrailing d (body ++ c :: more) = dropTrailing d (body ++ [c]) ∨
      ∃ kept, kept ≠ [] ∧ dropTrailing d (body ++ c :: more) = body ++ c :: kept := by
  induction more using List.reverseRecOn with
  | nil => exact .inl rfl
  | append_singleton more e ih =>
    have hassoc : body ++ c :: (more ++ [e]) = (body ++ c :: more) ++ [e] := by simp
    by_cases he : e = d
    · subst he
      rw [hassoc, dropTrailing_concat_self]
      exact ih
    · exact .inr ⟨more ++ [e], by simp, by rw [hassoc, dropTrailing_concat he]⟩

/-- Of a counted line is shown what stands up to its first break. -/
theorem exists_cut {first rest : List Char} {later : List (List Char)} (hline : '\n' ∉ line)
    (hrest : rest = [] ∨ rest.head? = some '\n')
    (h : displayLines (line ++ rest) = first :: later) :
    ∃ body cut, (∀ c ∈ body, c ∉ lineBreaks) ∧ bare first = dropTrailing '\r' cut ∧
      ((cut = body ∧ line = body) ∨
        ∃ c more, c ∈ lineBreaks ∧ cut = body ++ [c] ∧ line = body ++ c :: more) := by
  obtain ⟨body, tail, rfl, hbody, htail⟩ := exists_plain line
  have hfeed : '\n' ∉ body := fun hmem => hbody _ hmem (by decide)
  rcases htail with rfl | ⟨c, more, rfl, hc⟩
  · rw [List.append_nil] at h ⊢
    refine ⟨body, body, hbody, ?_, .inl ⟨rfl, rfl⟩⟩
    rcases hrest with rfl | hrest
    · have hne : body ≠ [] := by
        rintro rfl
        cases h
      rw [List.append_nil, displayLines_of_plain hbody hne] at h
      cases h
      rw [bare, dropTrailing_of_not_mem hfeed]
    · obtain ⟨rest, rfl⟩ := List.head?_eq_some_iff.mp hrest
      rw [displayLines_append hbody (displayLines_of_break (by decide) (by simp))] at h
      cases h
      rw [bare, dropTrailing_concat_self, dropTrailing_of_not_mem hfeed]
  · refine ⟨body, body ++ [c], hbody, ?_, .inr ⟨c, more, hc, rfl, rfl⟩⟩
    rw [List.append_assoc, List.cons_append] at h
    by_cases hpair : c = '\r' ∧ (more ++ rest).head? = some '\n'
    · obtain ⟨rfl, hhead⟩ := hpair
      obtain ⟨rest, hrest⟩ := List.head?_eq_some_iff.mp hhead
      have hboth : displayLines ('\r' :: '\n' :: rest) = ['\r', '\n'] :: displayLines rest := by
        rw [displayLines]
      rw [hrest, displayLines_append hbody hboth] at h
      cases h
      have hassoc : body ++ ['\r', '\n'] = (body ++ ['\r']) ++ ['\n'] := by simp
      rw [bare, hassoc, dropTrailing_concat_self, dropTrailing_concat (by decide)]
    · have hcfeed : c ≠ '\n' := by
        rintro rfl
        exact hline (by simp)
      rw [displayLines_append hbody (displayLines_of_break hc hpair)] at h
      cases h
      rw [bare, dropTrailing_concat hcfeed]

/-- A counted line is shown as it stands, carriage returns at its end apart, just if no break stands
in it before its last character. -/
theorem bare_eq_iff {first rest : List Char} {later : List (List Char)} (hline : '\n' ∉ line)
    (hrest : rest = [] ∨ rest.head? = some '\n')
    (h : displayLines (line ++ rest) = first :: later) :
    bare first = dropTrailing '\r' line ↔
      ∀ c ∈ (dropTrailing '\r' line).dropLast, c ∉ lineBreaks := by
  obtain ⟨body, cut, hbody, hbare, hcut⟩ := exists_cut hline hrest h
  have hplain : ∀ c ∈ (dropTrailing '\r' cut).dropLast, c ∉ lineBreaks := by
    intro d hd
    have hstart := dropTrailing_isPrefix '\r' cut
    rcases hcut with ⟨rfl, -⟩ | ⟨c, more, -, rfl, -⟩
    · exact hbody d (hstart.subset (List.dropLast_subset _ hd))
    · rcases List.prefix_concat_iff.mp hstart with hall | hstart
      · rw [hall, List.dropLast_concat] at hd
        exact hbody d hd
      · exact hbody d (hstart.subset (List.dropLast_subset _ hd))
  rw [hbare]
  constructor
  · intro heq
    rwa [← heq]
  · intro hown
    rcases hcut with ⟨rfl, rfl⟩ | ⟨c, more, hc, rfl, rfl⟩
    · rfl
    · rcases dropTrailing_cons c '\r' body more with heq | ⟨kept, hne, heq⟩
      · exact heq.symm
      · have hmem : c ∈ (dropTrailing '\r' (body ++ c :: more)).dropLast := by
          rw [heq, List.dropLast_append_of_ne_nil (by simp), List.dropLast_cons_of_ne_nil hne]
          simp
        exact absurd hc (hown c hmem)

end DocModelLexer.Text
