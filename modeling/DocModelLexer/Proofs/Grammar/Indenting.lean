import DocModelLexer.Grammar.ByLine
import DocModelLexer.Proofs.Grammar.Width
import DocModelLexer.Proofs.Scan.Pause

namespace DocModelLexer.Grammar

theorem measure_of_blank {lead : List Char} (h : ∀ c ∈ lead, isBlank c = true) :
    ∃ n, measure lead = .ok n := by
  have hblank : ∀ c ∈ lead, c = ' ' ∨ c = '\t' := by
    intro c hc
    simpa [isBlank, blanks] using h c hc
  exact ⟨_, measure_expandTabs hblank⟩

theorem widthOf_of_measure {lead : List Char} {n : Nat} (h : measure lead = .ok n) :
    widthOf lead = n := by
  simp [widthOf, h]

/-- The tokens of `n` closed indentations. The first carries the blanks. -/
def dedents (behind lead ahead : List Char) : Nat → List Token
  | 0 => []
  | n + 1 => .upon Kind.dedent.type behind lead ahead :: dedents (behind ++ lead) [] ahead n

theorem length_dedents (behind lead ahead : List Char) (n : Nat) :
    (dedents behind lead ahead n).length = n := by
  induction n generalizing behind lead with
  | zero => rfl
  | succ n ih => simp [dedents, ih]

theorem type_of_mem_dedents {behind lead ahead : List Char} {n : Nat} {t : Token}
    (h : t ∈ dedents behind lead ahead n) : t.type = Kind.dedent.type := by
  induction n generalizing behind lead with
  | zero => cases h
  | succ n ih =>
    rcases List.mem_cons.mp h with rfl | h
    · rfl
    · exact ih h

/-- What measuring the blanks `lead` over open indentations comes to: the tokens, the indentations
that are open after it, and the state that goes on. -/
inductive Indents (behind lead ahead : List Char) :
    Levels → List Token → Levels → Option State → Prop where
  | same {n : Nat} {levels : Levels} : measure lead = .ok n →
      Indents behind lead ahead ((n : Int) :: levels) [] ((n : Int) :: levels) (some .outer)
  | opens {n : Nat} {top : Int} {levels : Levels} : measure lead = .ok n → top < n →
      Indents behind lead ahead (top :: levels) [.upon Kind.indent.type behind lead ahead]
        ((n : Int) :: top :: levels) (some .outer)
  | closes {n : Nat} {closed levels : Levels} : measure lead = .ok n → closed ≠ [] →
      (∀ level ∈ closed, n < level) →
      Indents behind lead ahead (closed ++ (n : Int) :: levels)
        (dedents behind lead ahead closed.length) ((n : Int) :: levels) (some .outer)
  | inconsistent {n : Nat} {top : Int} {closed levels : Levels} : measure lead = .ok n →
      closed ≠ [] → (∀ level ∈ closed, n < level) → top < n →
      Indents behind lead ahead (closed ++ top :: levels)
        (dedents behind lead ahead closed.length ++
          [.errorUpon (Error.inconsistentDedent top n).message (behind ++ lead) [] ahead])
        (top :: levels) none

variable {behind lead ahead : List Char} {levels levels' : Levels} {tokens : List Token}
  {next : Option State} {e : Bool}

theorem levels_split (n : Int) (h : ∃ level ∈ levels, level ≤ n) :
    ∃ closed top left, levels = closed ++ top :: left ∧ (∀ level ∈ closed, n < level) ∧
      top ≤ n := by
  induction levels with
  | nil => simp at h
  | cons level levels ih =>
    by_cases hlevel : level ≤ n
    · exact ⟨[], level, levels, rfl, by simp, hlevel⟩
    · have htail : ∃ level ∈ levels, level ≤ n := by
        obtain ⟨l, hmem, hl⟩ := h
        rcases List.mem_cons.mp hmem with rfl | hmem
        · exact absurd hl hlevel
        · exact ⟨l, hmem, hl⟩
      obtain ⟨closed, top, left, rfl, hclosed, htop⟩ := ih htail
      refine ⟨level :: closed, top, left, rfl, ?_, htop⟩
      intro l hl
      rcases List.mem_cons.mp hl with rfl | hl
      · omega
      · exact hclosed l hl

/-- Where an indentation of width zero is open, blanks of every width find their place. -/
theorem indents_total (behind ahead : List Char) (hlead : ∀ c ∈ lead, isBlank c = true)
    (hbase : 0 ∈ levels) :
    ∃ tokens levels' next, Indents behind lead ahead levels tokens levels' next := by
  obtain ⟨n, hn⟩ := measure_of_blank hlead
  obtain ⟨closed, top, left, rfl, hclosed, htop⟩ := levels_split n ⟨0, hbase, by omega⟩
  by_cases heq : top = n
  · subst heq
    cases closed with
    | nil => exact ⟨_, _, _, .same hn⟩
    | cons level closed => exact ⟨_, _, _, .closes hn (by simp) hclosed⟩
  · have hlt : top < n := by omega
    cases closed with
    | nil => exact ⟨_, _, _, .opens hn hlt⟩
    | cons level closed => exact ⟨_, _, _, .inconsistent hn (by simp) hclosed hlt⟩

theorem indents_of_nil (behind ahead : List Char) (hbase : 0 ∈ levels) :
    ∃ tokens levels' next, Indents behind [] ahead levels tokens levels' next := by
  apply indents_total behind ahead _ hbase
  intro c hc
  cases hc

def afterDedents (behind lead ahead : List Char) (e : Bool) (n : Nat) : Cursor :=
  if n = 0 then .upon behind lead ahead e else .upon (behind ++ lead) [] ahead e

theorem afterDedents_succ (n : Nat) :
    afterDedents behind lead ahead e (n + 1) = .upon (behind ++ lead) [] ahead e := rfl

theorem exec_dedentTo_append {n : Int} {closed : Levels} (hclosed : ∀ level ∈ closed, n < level) :
    (dedentTo n (closed ++ levels)).exec (.upon behind lead ahead e) (closed ++ levels) =
      ((dedentTo n levels).exec (afterDedents behind lead ahead e closed.length) levels).after
        (dedents behind lead ahead closed.length) (2 * closed.length) := by
  induction closed generalizing behind lead with
  | nil => simp [dedents, afterDedents]
  | cons level closed ih =>
    have hlevel : n < level := hclosed level (by simp)
    have hcursor : afterDedents (behind ++ lead) [] ahead e closed.length =
        afterDedents behind lead ahead e (level :: closed).length := by
      simp [afterDedents]
    have hmoves : 1 + (1 + 2 * closed.length) = 2 * (level :: closed).length := by
      simp only [List.length_cons]
      omega
    have htail : ∀ l ∈ closed, n < l := by
      intro l hl
      exact hclosed l (List.mem_cons_of_mem _ hl)
    rw [← hcursor, ← hmoves, List.cons_append, dedentTo, if_pos hlevel]
    simp only [emit, Script.exec_deliver, Script.exec_set]
    rw [ih htail]
    simp [dedents]

theorem exec_dedentTo_left {n top : Int} (htop : top ≤ n) :
    (dedentTo n (top :: levels)).exec (.upon behind lead ahead e) (top :: levels) =
      if top = n then ⟨[], .upon behind lead ahead e, top :: levels, .ok (some .outer), 0⟩
      else ⟨[.errorUpon (Error.inconsistentDedent top n).message behind lead ahead],
        .upon behind lead ahead e, top :: levels, .ok none, 1⟩ := by
  rw [dedentTo, if_neg (by omega)]
  split
  · rfl
  · simp [stopWith]

theorem exec_updateIndent {n : Nat} {top : Int} (hn : measure lead = .ok n) :
    updateIndent.exec (.upon behind lead ahead e) (top :: levels) =
      if (n : Int) = top then
        ⟨[], .upon (behind ++ lead) [] ahead e, top :: levels, .ok (some .outer), 3⟩
      else if top < n then
        ⟨[.upon Kind.indent.type behind lead ahead], .upon (behind ++ lead) [] ahead e,
          (n : Int) :: top :: levels, .ok (some .outer), 4⟩
      else
        ((dedentTo n (top :: levels)).exec (.upon behind lead ahead e)
          (top :: levels)).after [] 2 := by
  simp only [updateIndent, Script.exec_current, hn, Script.exec_get]
  split
  · simp
  · split
    · simp [emit]
    · simp

theorem Indents.exec (h : Indents behind lead ahead levels tokens levels' next) (e : Bool) :
    ∃ m, updateIndent.exec (.upon behind lead ahead e) levels =
        ⟨tokens, .upon (behind ++ lead) [] ahead e, levels', .ok next, m⟩ ∧
      m + 2 * levels'.length ≤ 2 * levels.length + 6 := by
  cases h with
  | same hn =>
    refine ⟨3, ?_, by omega⟩
    rw [exec_updateIndent hn, if_pos rfl]
  | @opens n top levels hn hlt =>
    have hne : (n : Int) ≠ top := by omega
    refine ⟨4, ?_, by simp only [List.length_cons]; omega⟩
    rw [exec_updateIndent hn, if_neg hne, if_pos hlt]
  | @closes n closed levels hn hne hclosed =>
    obtain ⟨top, closed, rfl⟩ := List.exists_cons_of_ne_nil hne
    have htop : (n : Int) < top := hclosed top (by simp)
    refine ⟨2 * (closed.length + 1) + 2, ?_, ?_⟩
    · rw [List.cons_append, exec_updateIndent hn, if_neg (by omega), if_neg (by omega),
        ← List.cons_append, exec_dedentTo_append hclosed, List.length_cons, afterDedents_succ,
        exec_dedentTo_left (Int.le_refl _), if_pos rfl]
      simp [Nat.add_comm]
    · simp only [List.length_append, List.length_cons]
      omega
  | @inconsistent n left closed levels hn hne hclosed hlt =>
    obtain ⟨top, closed, rfl⟩ := List.exists_cons_of_ne_nil hne
    have htop : (n : Int) < top := hclosed top (by simp)
    refine ⟨2 * (closed.length + 1) + 3, ?_, ?_⟩
    · rw [List.cons_append, exec_updateIndent hn, if_neg (by omega), if_neg (by omega),
        ← List.cons_append, exec_dedentTo_append hclosed, List.length_cons, afterDedents_succ,
        exec_dedentTo_left (by omega), if_neg (by omega)]
      simp
      omega
    · simp only [List.length_append, List.length_cons]
      omega

end DocModelLexer.Grammar
