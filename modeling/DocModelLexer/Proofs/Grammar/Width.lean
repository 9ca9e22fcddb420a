import DocModelLexer.Fault
import DocModelLexer.Grammar.Indent
import Mathlib.Order.Bounds.Defs

namespace DocModelLexer.Grammar

variable {lead text : List Char}

def nextStop (column : Nat) : Nat := (column / tabWidth + 1) * tabWidth

theorem nextStop_isLeast (column : Nat) :
    IsLeast {stop | column < stop ∧ tabWidth ∣ stop} (nextStop column) := by
  refine ⟨⟨?_, Nat.dvd_mul_left _ _⟩, ?_⟩
  · simp only [nextStop, tabWidth]
    omega
  · rintro stop ⟨hlt, k, rfl⟩
    simp only [nextStop, tabWidth] at hlt ⊢
    omega

theorem add_eq_nextStop (column : Nat) :
    column + (tabWidth - column % tabWidth) = nextStop column := by
  simp only [nextStop, tabWidth]
  omega

/-- A line with one more character. A tab is as many spaces as lead to the next stop. -/
def typed (line : List Char) (c : Char) : List Char :=
  if c = '\t' then line ++ List.replicate (nextStop line.length - line.length) ' ' else line ++ [c]

def expandTabs (text : List Char) : List Char := text.foldl typed []

theorem length_typed_tab (line : List Char) : (typed line '\t').length = nextStop line.length := by
  have hlt := (nextStop_isLeast line.length).1.1
  rw [typed, if_pos rfl, List.length_append, List.length_replicate]
  omega

/-- Measuring goes on from the length of what is typed already. -/
theorem measureFrom_length (htext : ∀ c ∈ text, c = ' ' ∨ c = '\t') (line : List Char) :
    measureFrom line.length text = .ok (text.foldl typed line).length := by
  induction text generalizing line with
  | nil => rfl
  | cons c text ih =>
    have htail : ∀ d ∈ text, d = ' ' ∨ d = '\t' := fun d hd => htext d (List.mem_cons_of_mem _ hd)
    rw [List.foldl_cons, ← ih htail (typed line c)]
    rcases htext c List.mem_cons_self with rfl | rfl
    · simp [measureFrom, typed]
    · rw [measureFrom, if_neg (by decide), if_pos rfl, add_eq_nextStop, length_typed_tab]

theorem measureFrom_append (width : Nat) (text more : List Char) :
    measureFrom width (text ++ more) = (measureFrom width text).bind (measureFrom · more) := by
  fun_induction measureFrom width text with
  | case1 width => rfl
  | case2 width text ih => simpa [measureFrom] using ih
  | case3 width text _ ih => simpa [measureFrom] using ih
  | case4 width c text hspace htab => simp [measureFrom, hspace, htab, Except.bind]

theorem le_of_measureFrom {width n : Nat} (h : measureFrom width text = .ok n) :
    width + text.length ≤ n := by
  fun_induction measureFrom width text with
  | case1 width =>
    cases h
    exact Nat.le_refl _
  | case2 width text ih =>
    have hle := ih h
    rw [List.length_cons]
    omega
  | case3 width text _ ih =>
    have hle := ih h
    have hmod : width % tabWidth < tabWidth := Nat.mod_lt _ (by decide)
    rw [List.length_cons]
    omega
  | case4 => cases h

theorem measure_append (text more : List Char) :
    measure (text ++ more) = (measure text).bind (measureFrom · more) :=
  measureFrom_append 0 text more

theorem measure_expandTabs (htext : ∀ c ∈ text, c = ' ' ∨ c = '\t') :
    measure text = .ok (expandTabs text).length := measureFrom_length htext []

theorem measure_eq_zero_iff : measure text = .ok 0 ↔ text = [] := by
  constructor
  · intro h
    have hle := le_of_measureFrom h
    exact List.eq_nil_of_length_eq_zero (by omega)
  · rintro rfl
    rfl

theorem measure_concat_tab {n : Nat} (h : measure text = .ok n) :
    measure (text ++ ['\t']) = .ok (nextStop n) := by
  rw [measure_append, h, ← add_eq_nextStop]
  rfl

theorem le_of_measure_append {more : List Char} {m n : Nat} (h : measure text = .ok m)
    (hmore : measure (text ++ more) = .ok n) : m + more.length ≤ n := by
  rw [measure_append, h] at hmore
  exact le_of_measureFrom hmore

theorem measure_eq_error (hlead : ∀ c ∈ lead, c = ' ' ∨ c = '\t') {c : Char} (hspace : c ≠ ' ')
    (htab : c ≠ '\t') (rest : List Char) : measure (lead ++ c :: rest) = .error c := by
  rw [measure_append, measure_expandTabs hlead, Except.bind, measureFrom, if_neg hspace,
    if_neg htab]

theorem exists_not_blank (h : ¬∀ c ∈ text, c = ' ' ∨ c = '\t') :
    ∃ lead c rest, text = lead ++ c :: rest ∧ (∀ b ∈ lead, b = ' ' ∨ b = '\t') ∧ c ≠ ' ' ∧
      c ≠ '\t' := by
  induction text with
  | nil => exact absurd (by simp) h
  | cons c text ih =>
    by_cases hc : c = ' ' ∨ c = '\t'
    · rw [List.forall_mem_cons, not_and] at h
      obtain ⟨lead, d, rest, rfl, hlead, hd⟩ := ih (h hc)
      exact ⟨c :: lead, d, rest, rfl, List.forall_mem_cons.mpr ⟨hc, hlead⟩, hd⟩
    · exact ⟨[], c, text, rfl, by simp, not_or.mp hc⟩

/-- Blanks are as wide as their text is long when its tabs are expanded, and what is added to them
counts from their width alone. Anything but blanks is an error, which names the first character that
is none. -/
theorem measure_expands (text : List Char) :
    ((∀ c ∈ text, c = ' ' ∨ c = '\t') →
      measure text = .ok (expandTabs text).length ∧
      (measure text = .ok 0 ↔ text = []) ∧
      (∃ n, measure (text ++ ['\t']) = .ok n ∧ 0 < n ∧ 4 ∣ n) ∧
      ∀ more : List Char, (∀ c ∈ more, c = ' ' ∨ c = '\t') →
        ∃ m n, measure text = .ok m ∧ measure (text ++ more) = .ok n ∧ m + more.length ≤ n) ∧
    (∀ other more, measure other = measure text →
      measure (other ++ more) = measure (text ++ more)) ∧
    ((¬∀ c ∈ text, c = ' ' ∨ c = '\t') →
      ∃ lead c rest, text = lead ++ c :: rest ∧ (∀ b ∈ lead, b = ' ' ∨ b = '\t') ∧
        c ≠ ' ' ∧ c ≠ '\t' ∧ measure text = .error c ∧
        (Fault.badIndent c).className = "ValueError" ∧
        (Fault.badIndent c).message =
          "bad character in indent: " ++ Text.quoted (String.singleton c)) := by
  refine ⟨fun htext => ?_, fun other more hsame => ?_, fun hother => ?_⟩
  · have hwidth := measure_expandTabs htext
    refine ⟨hwidth, measure_eq_zero_iff, ?_, fun more hmore => ?_⟩
    · obtain ⟨⟨hlt, hstop⟩, -⟩ := nextStop_isLeast (expandTabs text).length
      exact ⟨_, measure_concat_tab hwidth, Nat.zero_lt_of_lt hlt, hstop⟩
    · have hall : ∀ c ∈ text ++ more, c = ' ' ∨ c = '\t' :=
        List.forall_mem_append.mpr ⟨htext, hmore⟩
      have hboth := measure_expandTabs hall
      exact ⟨_, _, hwidth, hboth, le_of_measure_append hwidth hboth⟩
  · rw [measure_append, measure_append, hsame]
  · obtain ⟨lead, c, rest, rfl, hlead, hspace, htab⟩ := exists_not_blank hother
    have herror := measure_eq_error hlead hspace htab rest
    exact ⟨lead, c, rest, rfl, hlead, hspace, htab, herror, rfl, rfl⟩

theorem measure_expands_tab :
    measure [' ', ' ', '\t'] = .ok (expandTabs [' ', ' ', '\t']).length ∧
      measure [' ', ' ', '\t', ' ', '\t'] = measure ['\t', ' ', '\t'] ∧
      ∃ lead c rest, [' ', 'x', 'y'] = lead ++ c :: rest ∧ measure [' ', 'x', 'y'] = .error c := by
  obtain ⟨hblank, hsame, -⟩ := measure_expands [' ', ' ', '\t']
  obtain ⟨hwidth, -⟩ := hblank (by simp)
  obtain ⟨-, -, hother⟩ := measure_expands [' ', 'x', 'y']
  obtain ⟨lead, c, rest, htext, -, -, -, herror, -⟩ := hother (by simp)
  exact ⟨hwidth, (hsame ['\t'] [' ', '\t'] rfl).symm, lead, c, rest, htext, herror⟩

end DocModelLexer.Grammar
