import DocModelLexer.Proofs.Grammar.Nesting

namespace DocModelLexer.Grammar

/-- More tokens than a scan delivers from a pause on. Each character pays for two: an indentation
takes a blank, and its close is paid for when it opens. -/
def due (x : Pause Levels State) : Nat :=
  2 * (x.cursor.source.size - x.cursor.tokenStart) + x.data.length + if x.next = none then 0 else 1

section

variable {behind pending ahead : List Char} {levels levels' : Levels} {next : Option State}
  {state : State} {ts : List Token} {y : Pause Levels State}

theorem due_upon {e : Bool} :
    due ⟨.upon behind pending ahead e, levels, next⟩ =
      2 * (pending.length + ahead.length) + levels.length + if next = none then 0 else 1 := by
  have hrest : (behind ++ pending ++ ahead).length - behind.length =
      pending.length + ahead.length := by
    simp only [List.length_append]
    omega
  simp only [due, Cursor.upon, Source.size_ofList, hrest]

/-- An indentation that opens takes a blank, since it is wider than nothing. -/
theorem Indents.length_le (h : Indents behind pending ahead levels ts levels' next)
    (hlevels : ∀ level ∈ levels, 0 ≤ level) :
    ts.length + levels'.length + (if next = none then 0 else 1) ≤
      2 * pending.length + levels.length + 1 := by
  cases h with
  | same => simp
  | @opens n top left hn hlt =>
    have htop := hlevels top (by simp)
    have hne : pending ≠ [] := by
      rintro rfl
      cases hn
      omega
    have hpos := List.length_pos_iff.mpr hne
    simp only [List.length_cons, List.length_nil, reduceCtorEq, if_false]
    omega
  | closes =>
    simp only [length_dedents, List.length_append, List.length_cons, reduceCtorEq, if_false]
    omega
  | inconsistent =>
    simp only [length_dedents, List.length_append, List.length_cons, List.length_nil, if_true]
    omega

/-- A turn delivers no more tokens than it pays for. -/
theorem Turn.due_le (h : Turn state behind pending ahead levels ts y)
    (hholds : state.Holds pending) (hlevels : ∀ level ∈ levels, 0 ≤ level) :
    ts.length + due y ≤ due ⟨.upon behind pending ahead, levels, some state⟩ := by
  have hread (p : Char → Bool) := length_takeWhile_add_dropWhile p ahead
  cases h with
  | @blankLine _ _ _ rest _ hrest =>
    have hlen := hread isBlank
    rw [hrest] at hlen
    simp only [due_upon, List.length_append, List.length_cons, List.length_nil] at hlen ⊢
    omega
  | line _ hindents =>
    have hlen := hread isBlank
    have hle := hindents.length_le hlevels
    simp only [due_upon, List.length_nil, reduceCtorEq, if_false]
    omega
  | measured => cases hholds
  | blank =>
    simp only [due_upon, List.length_cons, List.length_nil]
    omega
  | lineEnd =>
    simp only [due_upon, List.length_cons, List.length_nil, reduceCtorEq, if_false]
    omega
  | single =>
    simp only [due_upon, List.length_cons, List.length_nil]
    omega
  | enters =>
    simp only [due_upon, List.length_cons, List.length_nil, reduceCtorEq, if_false]
    omega
  | unexpected =>
    simp only [due_upon, List.length_cons, List.length_nil, reduceCtorEq, if_true, if_false]
    omega
  | eof hindents =>
    have hle := hindents.length_le hlevels
    simp only [due_upon, List.length_append, List.length_cons, List.length_nil, reduceCtorEq,
      if_true, if_false] at hle ⊢
    omega
  | badEnd hindents =>
    have hle := hindents.length_le hlevels
    simp only [due_upon, List.length_nil, reduceCtorEq, if_true, if_false] at hle ⊢
    omega
  | @quoted _ mark _ _ _ rest _ hquote hrest =>
    have hlen := hread (Script.staysBefore [mark])
    rw [hrest] at hlen
    simp only [due_upon, List.length_cons, List.length_nil, reduceCtorEq, if_false] at hlen ⊢
    omega
  | @runaway _ mark _ _ _ _ hquote _ =>
    have hlen := hread (Script.staysBefore [mark])
    simp only [due_upon, List.length_cons, List.length_nil, reduceCtorEq, if_true, if_false]
    omega
  | @word _ p _ _ _ _ _ hword =>
    have hlen := hread p
    have hpos : 1 ≤ pending.length := by
      cases hword with
      | directive =>
        cases (hholds : pending = ['#'])
        exact Nat.le_refl 1
      | comment =>
        cases (hholds : pending = ['#'])
        exact Nat.le_refl 1
      | identifier =>
        obtain ⟨c, rfl⟩ := hholds
        exact Nat.le_refl 1
    simp only [due_upon, List.length_cons, List.length_nil, reduceCtorEq, if_false]
    omega
  | ellipsis =>
    have hlen := hread (· == '.')
    cases (hholds : pending = ['.'])
    simp only [due_upon, List.length_cons, List.length_nil, reduceCtorEq, if_false]
    omega
  | malformed =>
    have hlen := hread (· == '.')
    simp only [due_upon, List.length_append, List.length_cons, List.length_nil, reduceCtorEq,
      if_true, if_false]
    omega

end

theorem length_tokens_le (text : String) :
    (tokens text).length ≤ 2 * (Source.ofString text).size + 1 := by
  obtain ⟨m, y, hleads, -⟩ := leads_tokens text
  have hdue : (tokens text).length + due y ≤ due (start text) := by
    refine start_induct (P := fun tokens y => tokens.length + due y ≤ due (start text)) hleads
      (by simp) ?_
    intro before n state behind pending ahead levels ts z hbefore _ hholds hpaid hturn
    have hlevels : ∀ level ∈ levels, 0 ≤ level := (leads_nested hbefore).nonneg
    have hle := hturn.due_le hholds hlevels
    rw [List.length_append]
    omega
  have hbase : 1 ≤ y.data.length :=
    List.length_pos_of_mem (leads_nested hleads).base_mem
  have hstart : due (start text) = 2 * (Source.ofString text).size + 2 := by
    simp [due, start, first, Levels.base]
  have hend : y.data.length ≤ due y := by
    simp only [due]
    omega
  omega

end DocModelLexer.Grammar
