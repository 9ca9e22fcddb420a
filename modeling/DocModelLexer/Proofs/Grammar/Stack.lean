import DocModelLexer.Proofs.Grammar.Nesting

namespace DocModelLexer.Grammar

/-- Widths that shrink from the innermost, which comes first, down to the base. -/
structure Stacked (levels : Levels) : Prop where
  shrinking : levels.Pairwise (· > ·)
  base : levels.getLast? = some 0

namespace Stacked

variable {levels closed left : Levels} {top level n : Int}

theorem push (h : Stacked (top :: levels)) (hn : top < n) : Stacked (n :: top :: levels) where
  shrinking := by
    refine List.pairwise_cons.mpr ⟨?_, h.shrinking⟩
    intro level hmem
    rcases List.mem_cons.mp hmem with rfl | hmem
    · exact hn
    · have hgt : top > level := (List.pairwise_cons.mp h.shrinking).1 level hmem
      omega
  base := by
    rw [List.getLast?_cons_cons]
    exact h.base

theorem pop (h : Stacked (closed ++ top :: left)) : Stacked (top :: left) where
  shrinking := (List.pairwise_append.mp h.shrinking).2.1
  base := by
    have hlast := List.getLast?_eq_some_getLast (List.cons_ne_nil top left)
    have hbase := h.base
    rwa [List.getLast?_append, hlast, Option.some_or, ← hlast] at hbase

theorem le_top (h : Stacked (top :: left)) (hmem : level ∈ top :: left) : level ≤ top := by
  rcases List.mem_cons.mp hmem with rfl | hmem
  · exact Int.le_refl _
  · have hgt : top > level := (List.pairwise_cons.mp h.shrinking).1 level hmem
    exact Int.le_of_lt hgt

theorem countP_gt (h : Stacked (closed ++ top :: left)) (hclosed : ∀ level ∈ closed, n < level)
    (htop : top ≤ n) : (closed ++ top :: left).countP (n < ·) = closed.length := by
  have hall : closed.countP (n < ·) = closed.length := by
    refine List.countP_eq_length.mpr fun level hmem => ?_
    exact decide_eq_true (hclosed level hmem)
  have hnone : (top :: left).countP (n < ·) = 0 := by
    refine List.countP_eq_zero.mpr fun level hmem => ?_
    have hle := h.pop.le_top hmem
    rw [decide_eq_true_eq]
    omega
  rw [List.countP_append, hall, hnone, Nat.add_zero]

theorem filter_le (h : Stacked (closed ++ top :: left)) (hclosed : ∀ level ∈ closed, n < level)
    (htop : top ≤ n) : (closed ++ top :: left).filter (· ≤ n) = top :: left := by
  have hgone : closed.filter (· ≤ n) = [] := by
    refine List.filter_eq_nil_iff.mpr fun level hmem => ?_
    have hlt := hclosed level hmem
    rw [decide_eq_true_eq]
    omega
  have hkept : (top :: left).filter (· ≤ n) = top :: left := by
    refine List.filter_eq_self.mpr fun level hmem => ?_
    have hle := h.pop.le_top hmem
    exact decide_eq_true (by omega)
  rw [List.filter_append, hgone, hkept, List.nil_append]

theorem mem_iff (h : Stacked (closed ++ top :: left)) (hclosed : ∀ level ∈ closed, n < level)
    (htop : top ≤ n) : n ∈ closed ++ top :: left ↔ top = n := by
  constructor
  · intro hmem
    rcases List.mem_append.mp hmem with hmem | hmem
    · have hlt := hclosed n hmem
      omega
    · have hle := h.pop.le_top hmem
      omega
  · rintro rfl
    exact List.mem_append_right _ List.mem_cons_self

end Stacked

theorem Nested.stacked {tokens : List Token} {levels : Levels} (h : Nested tokens levels) :
    Stacked levels where
  shrinking := h.increasing
  base := by
    obtain ⟨ws, -, rfl⟩ := h.widths
    exact List.getLast?_concat

def closingLexemes (lead : List Char) (count : Nat) : List (Int × String) :=
  (Kind.dedent.type, String.ofList lead) :: List.replicate (count - 1) (Kind.dedent.type, "")

variable {behind lead ahead : List Char} {levels levels' : Levels} {tokens : List Token}
  {next : Option State}

theorem map_lexeme_dedents (behind lead ahead : List Char) {n : Nat} (hn : n ≠ 0) :
    (dedents behind lead ahead n).map Token.lexeme = closingLexemes lead n := by
  induction n generalizing behind lead with
  | zero => contradiction
  | succ n ih =>
    rw [dedents, List.map_cons]
    by_cases hlast : n = 0
    · subst hlast
      rfl
    · obtain ⟨k, rfl⟩ := Nat.exists_eq_succ_of_ne_zero hlast
      rw [ih _ _ hlast]
      rfl

theorem Indents.stacked (h : Indents behind lead ahead levels tokens levels' next)
    (hlevels : Stacked levels) : Stacked levels' := by
  cases h with
  | same => exact hlevels
  | opens _ hlt => exact hlevels.push hlt
  | closes => exact hlevels.pop
  | inconsistent => exact hlevels.pop

/-- What blanks of a width do to open indentations with `top` on top. -/
structure Settles (lead : List Char) (width : Nat) (top : Int) (levels : Levels)
    (tokens : List Token) (levels' : Levels) (next : Option State) : Prop where
  keeps : width = top → tokens = [] ∧ levels' = levels ∧ next = some .outer
  opens : top < width → tokens.map Token.lexeme = [(Kind.indent.type, String.ofList lead)] ∧
    levels' = (width : Int) :: levels ∧ next = some .outer
  /-- One is closed for each that is wider, and `left` is on top then. It is an error if the width
  was not open. -/
  closes : width < top → levels' = levels.filter (· ≤ (width : Int)) ∧
    ∃ left, levels'.head? = some left ∧
      tokens.map Token.lexeme = closingLexemes lead (levels.countP ((width : Int) < ·)) ++
        (if (width : Int) ∈ levels then []
          else [(errorType, (Error.inconsistentDedent left width).message)]) ∧
      next = if (width : Int) ∈ levels then some .outer else none

theorem Indents.settles (h : Indents behind lead ahead levels tokens levels' next)
    (hlevels : Stacked levels) :
    ∃ width top, measure lead = .ok width ∧ levels.head? = some top ∧
      Settles lead width top levels tokens levels' next := by
  cases h with
  | @same n left hn =>
    refine ⟨n, n, hn, rfl, fun _ => ⟨rfl, rfl, rfl⟩, ?_, ?_⟩ <;>
    · intro hlt
      omega
  | @opens n top left hn hlt =>
    refine ⟨n, top, hn, rfl, ?_, fun _ => ⟨rfl, rfl, rfl⟩, ?_⟩ <;>
    · intro hle
      omega
  | @closes n closed left hn hne hclosed =>
    obtain ⟨top, inner, rfl⟩ := List.exists_cons_of_ne_nil hne
    have htop : (n : Int) < top := hclosed top List.mem_cons_self
    have hle : (n : Int) ≤ n := Int.le_refl _
    have hmem := (hlevels.mem_iff hclosed hle).mpr rfl
    have hlen : (top :: inner).length ≠ 0 := Nat.succ_ne_zero _
    refine ⟨n, top, hn, rfl, fun _ => by omega, fun _ => by omega, fun _ => ?_⟩
    rw [hlevels.countP_gt hclosed hle, hlevels.filter_le hclosed hle]
    refine ⟨rfl, n, rfl, ?_, (if_pos hmem).symm⟩
    rw [if_pos hmem, List.append_nil, map_lexeme_dedents _ _ _ hlen]
  | @inconsistent n level closed left hn hne hclosed hlt =>
    obtain ⟨top, inner, rfl⟩ := List.exists_cons_of_ne_nil hne
    have htop : (n : Int) < top := hclosed top List.mem_cons_self
    have hle : level ≤ n := Int.le_of_lt hlt
    have hmem := mt (hlevels.mem_iff hclosed hle).mp (Int.ne_of_lt hlt)
    have hlen : (top :: inner).length ≠ 0 := Nat.succ_ne_zero _
    refine ⟨n, top, hn, rfl, fun _ => by omega, fun _ => by omega, fun _ => ?_⟩
    rw [hlevels.countP_gt hclosed hle, hlevels.filter_le hclosed hle]
    refine ⟨rfl, level, rfl, ?_, (if_neg hmem).symm⟩
    rw [if_neg hmem, List.map_append, map_lexeme_dedents _ _ _ hlen]
    rfl

/-- Over a stack of open indentations, measuring closes its window of blanks, and what it opens or
closes is settled by the width of the blanks. The indentations are stacked again. -/
theorem updateIndent_settles (behind lead ahead : List Char) (atEnd : Bool) (levels : Levels)
    (hlead : ∀ c ∈ lead, c = ' ' ∨ c = '\t') (hlevels : Stacked levels) :
    ∃ width top tokens levels' next m, measure lead = .ok width ∧ levels.head? = some top ∧
      producer.run m ⟨.upon behind lead ahead atEnd, levels, updateIndent⟩ =
        ⟨tokens, .unfinished, ⟨.upon (behind ++ lead) [] ahead atEnd, levels', .done next⟩⟩ ∧
      Stacked levels' ∧ Settles lead width top levels tokens levels' next := by
  have hblank : ∀ c ∈ lead, isBlank c = true := by
    intro c hc
    simpa [isBlank, blanks] using hlead c hc
  have hbase : 0 ∈ levels := List.mem_of_getLast? hlevels.base
  obtain ⟨tokens, levels', next, hindents⟩ := indents_total behind ahead hblank hbase
  obtain ⟨m, hexec, -⟩ := hindents.exec atEnd
  obtain ⟨width, top, hwidth, htop, hsettles⟩ := hindents.settles hlevels
  have hrun : producer.run (m + 0) _ = _ := Scan.run_script hexec 0
  rw [Producer.run, List.append_nil, Nat.add_zero] at hrun
  exact ⟨width, top, tokens, levels', next, m, hwidth, htop, hrun, hindents.stacked hlevels,
    hsettles⟩

theorem updateIndent_settles_inconsistent :
    Stacked [8, 4, 2, 0] ∧ ∃ tokens m,
      producer.run m ⟨.upon [] [' ', ' ', ' '] [] false, [8, 4, 2, 0], updateIndent⟩ =
        ⟨tokens, .unfinished, ⟨.upon [' ', ' ', ' '] [] [] false, [2, 0], .done none⟩⟩ ∧
      tokens.map Token.lexeme = [(2, "   "), (2, ""),
        (-1, "Inconsistent dedent. Expecting 2 but found 3.")] := by
  have hstacked : Stacked [8, 4, 2, 0] := ⟨by decide, rfl⟩
  have hlead : ∀ c ∈ [' ', ' ', ' '], c = ' ' ∨ c = '\t' := by simp
  obtain ⟨width, top, tokens, levels', next, m, hwidth, htop, hrun, -, hsettles⟩ :=
    updateIndent_settles [] [' ', ' ', ' '] [] false [8, 4, 2, 0] hlead hstacked
  cases hwidth
  cases htop
  obtain ⟨rfl, left, hleft, htokens, rfl⟩ := hsettles.closes (by decide)
  cases hleft
  exact ⟨hstacked, tokens, m, hrun, htokens⟩

end DocModelLexer.Grammar
