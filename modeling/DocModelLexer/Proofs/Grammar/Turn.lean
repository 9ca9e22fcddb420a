import DocModelLexer.Proofs.Grammar.Indenting
import Mathlib.Data.List.TakeWhile

namespace DocModelLexer.Grammar

/-- A character that is no lexeme, opens none with a sign of its own, and separates none. -/
def IsPlain (c : Char) : Prop :=
  isBlank c = false ∧ c ≠ '\n' ∧ Kind.ofChar? c = none ∧ c ≠ '\x22' ∧ c ≠ '\x27' ∧ c ≠ '.' ∧ c ≠ '#'

/-- The state that reads the longer lexeme which begins with `c`, before the text `ahead`. -/
inductive Enters (ahead : List Char) : Char → State → Prop where
  | doubleQuote : Enters ahead '\x22' .doubleQuote
  | singleQuote : Enters ahead '\x27' .singleQuote
  | reference : Enters ahead '.' .reference
  | directive {d : Char} : ahead.head? = some d → d ∈ capitals → Enters ahead '#' .directive
  | comment : (∀ d, ahead.head? = some d → d ∉ capitals) → Enters ahead '#' .comment
  | identifier {c : Char} : IsPlain c → isNameStart c = true → Enters ahead c .identifier

/-- The states that deliver a longest run of characters as it stands. -/
inductive Word : State → (Char → Bool) → Kind → Prop where
  | directive : Word .directive (· ∈ capitals) .directive
  | comment : Word .comment (Script.staysBefore []) .comment
  | identifier : Word .identifier isNameChar .identifier

inductive Quote : State → Char → Prop where
  | double : Quote .doubleQuote '\x22'
  | single : Quote .singleQuote '\x27'

/-- One call of a state: the window and the open indentations it is called with, the tokens it
delivers, and the pause that comes after it. -/
inductive Turn : State → List Char → List Char → List Char → Levels → List Token →
    Pause Levels State → Prop where
  | blankLine {behind pending ahead rest levels} : ahead.dropWhile isBlank = '\n' :: rest →
      Turn .newline behind pending ahead levels []
        ⟨.upon (behind ++ pending) (ahead.takeWhile isBlank ++ ['\n']) rest, levels, some .newline⟩
  | line {behind pending ahead levels tokens levels' next} :
      (ahead.dropWhile isBlank).head? ≠ some '\n' →
      Indents (behind ++ pending) (ahead.takeWhile isBlank) (ahead.dropWhile isBlank) levels tokens
        levels' next →
      Turn .newline behind pending ahead levels tokens
        ⟨.upon (behind ++ pending ++ ahead.takeWhile isBlank) [] (ahead.dropWhile isBlank), levels',
          next⟩
  | measured {behind pending ahead levels tokens levels' next} :
      Indents behind pending ahead levels tokens levels' next →
      Turn .updateIndent behind pending ahead levels tokens
        ⟨.upon (behind ++ pending) [] ahead, levels', next⟩
  | blank {behind c ahead levels} : isBlank c = true →
      Turn .outer behind [] (c :: ahead) levels []
        ⟨.upon (behind ++ [c]) [] ahead, levels, some .outer⟩
  | lineEnd {behind ahead levels} :
      Turn .outer behind [] ('\n' :: ahead) levels []
        ⟨.upon behind ['\n'] ahead, levels, some .newline⟩
  | single {behind c ahead levels kind} : Kind.ofChar? c = some kind →
      Turn .outer behind [] (c :: ahead) levels [.upon kind.type behind [c] ahead]
        ⟨.upon (behind ++ [c]) [] ahead, levels, some .outer⟩
  | enters {behind c ahead levels state} : Enters ahead c state →
      Turn .outer behind [] (c :: ahead) levels []
        ⟨.upon behind [c] ahead, levels, some state⟩
  | unexpected {behind c ahead levels} : IsPlain c → isNameStart c = false →
      Turn .outer behind [] (c :: ahead) levels
        [.errorUpon (Error.unexpected c).message behind [c] ahead]
        ⟨.upon behind [c] ahead, levels, none⟩
  | eof {behind levels tokens levels'} : Indents behind [] [] levels tokens levels' (some .outer) →
      Turn .outer behind [] [] levels (tokens ++ [.upon Kind.eof.type behind [] []])
        ⟨.upon behind [] [] true, levels', none⟩
  | badEnd {behind levels tokens levels'} : Indents behind [] [] levels tokens levels' none →
      Turn .outer behind [] [] levels tokens ⟨.upon behind [] [] true, levels', none⟩
  | quoted {state mark behind pending ahead rest levels} : Quote state mark →
      ahead.dropWhile (Script.staysBefore [mark]) = mark :: rest →
      Turn state behind pending ahead levels
        [.upon Kind.quote.type (behind ++ pending) (ahead.takeWhile (Script.staysBefore [mark]))
          (mark :: rest)]
        ⟨.upon (behind ++ pending ++ ahead.takeWhile (Script.staysBefore [mark]) ++ [mark]) [] rest,
          levels, some .outer⟩
  | runaway {state mark behind pending ahead levels} : Quote state mark →
      (ahead.dropWhile (Script.staysBefore [mark])).head? ≠ some mark →
      Turn state behind pending ahead levels
        [.errorUpon (Error.runawayQuote (ahead.takeWhile (Script.staysBefore [mark]))).message
          (behind ++ pending) (ahead.takeWhile (Script.staysBefore [mark]))
          (ahead.dropWhile (Script.staysBefore [mark]))]
        ⟨.upon (behind ++ pending) (ahead.takeWhile (Script.staysBefore [mark]))
          (ahead.dropWhile (Script.staysBefore [mark])), levels, none⟩
  | word {state p kind behind pending ahead levels} : Word state p kind →
      Turn state behind pending ahead levels
        [.upon kind.type behind (pending ++ ahead.takeWhile p) (ahead.dropWhile p)]
        ⟨.upon (behind ++ (pending ++ ahead.takeWhile p)) [] (ahead.dropWhile p), levels,
          some .outer⟩
  | ellipsis {behind pending ahead levels} :
      pending ++ ahead.takeWhile (· == '.') = ['.', '.', '.'] →
      Turn .reference behind pending ahead levels
        [.upon Kind.reference.type behind (pending ++ ahead.takeWhile (· == '.'))
          (ahead.dropWhile (· == '.'))]
        ⟨.upon (behind ++ (pending ++ ahead.takeWhile (· == '.'))) []
          (ahead.dropWhile (· == '.')), levels, some .outer⟩
  | malformed {behind pending ahead levels} :
      pending ++ ahead.takeWhile (· == '.') ≠ ['.', '.', '.'] →
      Turn .reference behind pending ahead levels
        [.errorUpon (Error.malformedReference (pending ++ ahead.takeWhile (· == '.'))).message
          behind (pending ++ ahead.takeWhile (· == '.')) (ahead.dropWhile (· == '.'))]
        ⟨.upon behind (pending ++ ahead.takeWhile (· == '.')) (ahead.dropWhile (· == '.')),
          levels, none⟩

theorem length_takeWhile_add_dropWhile (p : Char → Bool) (text : List Char) :
    (text.takeWhile p).length + (text.dropWhile p).length = text.length := by
  rw [← List.length_append, List.takeWhile_append_dropWhile]

theorem blank_of_takeWhile (text : List Char) :
    ∀ c ∈ text.takeWhile isBlank, isBlank c = true := by
  intro c hc
  exact List.mem_takeWhile_imp hc

theorem append_read (p : Char → Bool) (behind pending ahead : List Char) :
    behind ++ pending ++ ahead.takeWhile p ++ ahead.dropWhile p = behind ++ pending ++ ahead := by
  rw [List.append_assoc _ (ahead.takeWhile p), List.takeWhile_append_dropWhile]

theorem append_read_pending (p : Char → Bool) (behind pending ahead : List Char) :
    behind ++ (pending ++ ahead.takeWhile p) ++ ahead.dropWhile p = behind ++ pending ++ ahead := by
  rw [← List.append_assoc behind, append_read]

/-- How many more moves a state may take beyond what the text ahead of it pays for. -/
def State.effort : State → Nat
  | .outer => 9
  | .newline | .updateIndent => 19
  | _ => 18

/-- More moves than a scan makes from a pause on. Each character ahead pays for the calls that read
it, and each open indentation for the call that closes it. -/
def effort (x : Pause Levels State) : Nat :=
  match x.next with
  | none => 0
  | some state =>
    12 * (x.cursor.source.size - x.cursor.position) + 2 * x.data.length + state.effort

theorem effort_upon {behind pending ahead : List Char} {levels : Levels} {state : State}
    {e : Bool} :
    effort ⟨.upon behind pending ahead e, levels, some state⟩ =
      12 * ahead.length + 2 * levels.length + state.effort := by
  have hrest : (behind ++ pending ++ ahead).length - (behind.length + pending.length) =
      ahead.length := by
    simp only [List.length_append]
    omega
  simp only [effort, Cursor.upon, Source.size_ofList, hrest]

theorem effort_none {c : Cursor} {levels : Levels} : effort ⟨c, levels, none⟩ = 0 := rfl

section

variable {state : State} {behind pending ahead : List Char} {levels : Levels} {tokens : List Token}
  {y : Pause Levels State}

theorem Indents.effort_le {lead : List Char} {levels' : Levels} {next : Option State}
    (h : Indents behind lead ahead levels tokens levels' next) :
    effort ⟨.upon (behind ++ lead) [] ahead, levels', next⟩ ≤
      12 * ahead.length + 2 * levels'.length + State.outer.effort := by
  cases h <;> simp only [effort_upon, effort_none, Nat.le_refl, Nat.zero_le]

theorem take_one_ne {c : Char} {text : List Char} (h : text.head? ≠ some c) :
    (text.take 1 == [c]) = false := by
  cases text with
  | nil => rfl
  | cons d text => simpa using h

theorem exec_newline_line (h : (ahead.dropWhile isBlank).head? ≠ some '\n') :
    newline.exec (.upon behind pending ahead) levels =
      (updateIndent.exec (.upon (behind ++ pending) (ahead.takeWhile isBlank)
        (ahead.dropWhile isBlank)) levels).after [] 3 := by
  have hstop := take_one_ne h
  change (Script.ignore >>= fun _ => Script.acceptRun blanks >>= fun _ =>
    Script.lookingAt ['\n'] >>= _).exec _ _ = _
  have hblank : (fun c => decide (c ∈ blanks)) = isBlank := rfl
  simp [hblank, hstop]

theorem Enters.exec {c : Char} (h : Enters ahead c state) :
    ∃ m, outer.exec (.upon behind [] (c :: ahead)) levels =
        ⟨[], .upon behind [c] ahead, levels, .ok (some state), m⟩ ∧
      m ≤ 2 ∧ state.effort = State.outer.effort + 9 := by
  cases h with
  | doubleQuote => exact ⟨1, by simp [outer, blanks, Kind.ofChar?], by omega, rfl⟩
  | singleQuote => exact ⟨1, by simp [outer, blanks, Kind.ofChar?], by omega, rfl⟩
  | reference => exact ⟨1, by simp [outer, blanks, Kind.ofChar?], by omega, rfl⟩
  | directive hd hcap =>
    exact ⟨2, by simp [outer, blanks, Kind.ofChar?, hd, hcap], by omega, rfl⟩
  | comment hcap =>
    refine ⟨2, ?_, by omega, rfl⟩
    cases hd : ahead.head? with
    | none => simp [outer, blanks, Kind.ofChar?, hd]
    | some d => simp [outer, blanks, Kind.ofChar?, hd, hcap d hd]
  | identifier hplain hstart =>
    obtain ⟨hb, hn, hk, hdq, hsq, hdot, hsign⟩ := hplain
    have hmem : c ∉ blanks := of_decide_eq_false hb
    exact ⟨1, by simp [outer, hmem, hn, hk, hdq, hsq, hdot, hsign, hstart], by omega, rfl⟩

theorem Quote.graph_eq {mark : Char} (h : Quote state mark) : graph state = quote mark := by
  cases h <;> rfl

theorem exec_quote_closed {mark : Char} {rest : List Char}
    (h : ahead.dropWhile (Script.staysBefore [mark]) = mark :: rest) :
    (quote mark).exec (.upon behind pending ahead) levels =
      ⟨[.upon Kind.quote.type (behind ++ pending) (ahead.takeWhile (Script.staysBefore [mark]))
          (mark :: rest)],
        .upon (behind ++ pending ++ ahead.takeWhile (Script.staysBefore [mark]) ++ [mark]) [] rest,
        levels, .ok (some .outer), 6⟩ := by
  simp only [quote, Script.exec_ignore, Script.exec_acceptTo, Script.exec_lookingAt, h]
  simp [emit]

theorem exec_quote_runaway {mark : Char}
    (h : (ahead.dropWhile (Script.staysBefore [mark])).head? ≠ some mark) :
    (quote mark).exec (.upon behind pending ahead) levels =
      ⟨[.errorUpon (Error.runawayQuote (ahead.takeWhile (Script.staysBefore [mark]))).message
          (behind ++ pending) (ahead.takeWhile (Script.staysBefore [mark]))
          (ahead.dropWhile (Script.staysBefore [mark]))],
        .upon (behind ++ pending) (ahead.takeWhile (Script.staysBefore [mark]))
          (ahead.dropWhile (Script.staysBefore [mark])),
        levels, .ok none, 5⟩ := by
  have hstop := take_one_ne h
  simp only [quote, Script.exec_ignore, Script.exec_acceptTo, Script.exec_lookingAt,
    List.length_singleton, hstop]
  simp [stopWith]

theorem exec_reference :
    reference.exec (.upon behind pending ahead) levels =
      let text := pending ++ ahead.takeWhile (· == '.')
      let rest := ahead.dropWhile (· == '.')
      if text = ['.', '.', '.'] then
        ⟨[.upon Kind.reference.type behind text rest], .upon (behind ++ text) [] rest, levels,
          .ok (some .outer), 3⟩
      else
        ⟨[.errorUpon (Error.malformedReference text).message behind text rest],
          .upon behind text rest, levels, .ok none, 3⟩ := by
  have hdot : (fun c => decide (c ∈ ['.'])) = fun c => c == '.' := by
    funext c
    by_cases hc : c = '.' <;> simp [hc]
  simp only [reference, Script.exec_acceptRun, hdot, Script.exec_current]
  split
  · simp [emit]
  · simp [stopWith]

/-- What is called is a turn that was listed, and the moves it takes are paid for. -/
theorem Turn.exec (h : Turn state behind pending ahead levels tokens y) :
    ∃ m, (graph state).exec (.upon behind pending ahead) levels =
        ⟨tokens, y.cursor, y.data, .ok y.next, m⟩ ∧
      m + 1 + effort y ≤ effort ⟨.upon behind pending ahead, levels, some state⟩ := by
  cases h with
  | @blankLine _ _ _ rest _ hrest =>
    have hblank : (fun c => decide (c ∈ blanks)) = isBlank := rfl
    have hlen := length_takeWhile_add_dropWhile isBlank ahead
    refine ⟨4, by simp [graph, newline, hblank, hrest], ?_⟩
    simp only [effort_upon, hrest, List.length_cons] at hlen ⊢
    omega
  | line hline hindents =>
    obtain ⟨m, hexec, hm⟩ := hindents.exec false
    have hlen := length_takeWhile_add_dropWhile isBlank ahead
    refine ⟨m + 3, ?_, ?_⟩
    · rw [graph, exec_newline_line hline, hexec]
      simp [Nat.add_comm]
    · have hnext := hindents.effort_le
      simp only [effort_upon, State.effort] at hnext ⊢
      omega
  | measured hindents =>
    obtain ⟨m, hexec, hm⟩ := hindents.exec false
    refine ⟨m, hexec, ?_⟩
    have hnext := hindents.effort_le
    simp only [effort_upon, State.effort] at hnext ⊢
    omega
  | blank hc =>
    have hmem : _ ∈ blanks := of_decide_eq_true hc
    refine ⟨2, by simp [graph, outer, hmem], ?_⟩
    simp only [effort_upon, List.length_cons]
    omega
  | lineEnd =>
    refine ⟨1, by simp [graph, outer, blanks], ?_⟩
    simp only [effort_upon, State.effort, List.length_cons]
    omega
  | @single _ c _ _ kind hkind =>
    have hmem : c ∉ blanks ∧ c ≠ '\n' := by
      constructor <;> rintro h
      · simp only [blanks, List.mem_cons, List.not_mem_nil, or_false] at h
        rcases h with rfl | rfl <;> cases hkind
      · subst h
        cases hkind
    refine ⟨2, by simp [graph, outer, hmem.1, hmem.2, hkind, emit], ?_⟩
    simp only [effort_upon, List.length_cons]
    omega
  | enters henters =>
    obtain ⟨m, hexec, hm, heffort⟩ := henters.exec
    refine ⟨m, hexec, ?_⟩
    simp only [effort_upon, heffort, List.length_cons]
    omega
  | unexpected hplain hstart =>
    obtain ⟨hb, hn, hk, hdq, hsq, hdot, hsign⟩ := hplain
    have hmem : _ ∉ blanks := of_decide_eq_false hb
    refine ⟨2, by simp [graph, outer, hmem, hn, hk, hdq, hsq, hdot, hsign, hstart, stopWith], ?_⟩
    simp only [effort_upon, effort_none, State.effort]
    omega
  | eof hindents =>
    obtain ⟨m, hexec, hm⟩ := hindents.exec true
    refine ⟨m + 2, ?_, ?_⟩
    · simp only [graph, outer, Script.exec_next_nil, finish, Script.exec_bind hexec]
      simp [emit]
      omega
    · simp only [effort_upon, effort_none, State.effort]
      omega
  | badEnd hindents =>
    obtain ⟨m, hexec, hm⟩ := hindents.exec true
    refine ⟨m + 1, ?_, ?_⟩
    · simp only [graph, outer, Script.exec_next_nil, finish, Script.exec_bind hexec]
      simp [Nat.add_comm]
    · simp only [effort_upon, effort_none, State.effort]
      omega
  | @quoted _ mark _ _ _ rest _ hquote hrest =>
    have hlen := length_takeWhile_add_dropWhile (Script.staysBefore [mark]) ahead
    rw [hrest, List.length_cons] at hlen
    refine ⟨6, by rw [hquote.graph_eq, exec_quote_closed hrest], ?_⟩
    cases hquote <;>
    · simp only [effort_upon, State.effort]
      omega
  | runaway hquote hrest =>
    refine ⟨5, by rw [hquote.graph_eq, exec_quote_runaway hrest], ?_⟩
    cases hquote <;>
    · simp only [effort_upon, effort_none, State.effort]
      omega
  | @word _ p _ _ _ _ _ hword =>
    have hlen := length_takeWhile_add_dropWhile p ahead
    refine ⟨2, ?_, ?_⟩
    · cases hword <;> simp [graph, directive, comment, identifier, emit]
    · cases hword <;>
      · simp only [effort_upon, State.effort]
        omega
  | ellipsis hdots =>
    have hlen := length_takeWhile_add_dropWhile (· == '.') ahead
    refine ⟨3, by rw [graph, exec_reference, if_pos hdots], ?_⟩
    simp only [effort_upon, State.effort]
    omega
  | malformed hdots =>
    refine ⟨3, by rw [graph, exec_reference, if_neg hdots], ?_⟩
    simp only [effort_upon, effort_none, State.effort]
    omega

/-- The windows that a state may be called with. Only the state that reads on within a line and the
one that measures blanks are particular. -/
def State.Takes : State → List Char → Prop
  | .outer, pending => pending = []
  | .updateIndent, pending => ∀ c ∈ pending, isBlank c = true
  | _, _ => True

theorem turn_outer_cons (c : Char) :
    ∃ tokens y, Turn .outer behind [] (c :: ahead) levels tokens y := by
  by_cases hb : isBlank c = true
  · exact ⟨_, _, .blank hb⟩
  by_cases hn : c = '\n'
  · subst hn
    exact ⟨_, _, .lineEnd⟩
  cases hk : Kind.ofChar? c with
  | some kind => exact ⟨_, _, .single hk⟩
  | none =>
    by_cases hdq : c = '\x22'
    · subst hdq
      exact ⟨_, _, .enters .doubleQuote⟩
    by_cases hsq : c = '\x27'
    · subst hsq
      exact ⟨_, _, .enters .singleQuote⟩
    by_cases hdot : c = '.'
    · subst hdot
      exact ⟨_, _, .enters .reference⟩
    by_cases hsign : c = '#'
    · subst hsign
      by_cases hcap : ∃ d, ahead.head? = some d ∧ d ∈ capitals
      · obtain ⟨d, hd, hcap⟩ := hcap
        exact ⟨_, _, .enters (.directive hd hcap)⟩
      · refine ⟨_, _, .enters (.comment ?_)⟩
        intro d hd hmem
        exact hcap ⟨d, hd, hmem⟩
    have hplain : IsPlain c := ⟨by simpa using hb, hn, hk, hdq, hsq, hdot, hsign⟩
    cases hstart : isNameStart c with
    | true => exact ⟨_, _, .enters (.identifier hplain hstart)⟩
    | false => exact ⟨_, _, .unexpected hplain hstart⟩

theorem turn_quote {mark : Char} (h : Quote state mark) :
    ∃ tokens y, Turn state behind pending ahead levels tokens y := by
  by_cases hclosed : (ahead.dropWhile (Script.staysBefore [mark])).head? = some mark
  · obtain ⟨rest, hrest⟩ := List.head?_eq_some_iff.mp hclosed
    exact ⟨_, _, .quoted h hrest⟩
  · exact ⟨_, _, .runaway h hclosed⟩

/-- Every call with a window that the state takes is a turn. -/
theorem turn_total (behind ahead : List Char) (htakes : state.Takes pending) (hbase : 0 ∈ levels) :
    ∃ tokens y, Turn state behind pending ahead levels tokens y := by
  cases state with
  | newline =>
    by_cases hline : (ahead.dropWhile isBlank).head? = some '\n'
    · obtain ⟨rest, hrest⟩ := List.head?_eq_some_iff.mp hline
      exact ⟨_, _, .blankLine hrest⟩
    · obtain ⟨_, _, _, hindents⟩ :=
        indents_total (behind ++ pending) (ahead.dropWhile isBlank) (blank_of_takeWhile ahead) hbase
      exact ⟨_, _, .line hline hindents⟩
  | outer =>
    cases (htakes : pending = [])
    cases ahead with
    | cons c ahead => exact turn_outer_cons c
    | nil =>
      obtain ⟨_, _, next, hindents⟩ := indents_of_nil behind [] hbase
      cases next with
      | none => exact ⟨_, _, .badEnd hindents⟩
      | some next =>
        have hnext : next = .outer := by cases hindents <;> rfl
        subst hnext
        exact ⟨_, _, .eof hindents⟩
  | updateIndent =>
    obtain ⟨_, _, _, hindents⟩ := indents_total behind ahead htakes hbase
    exact ⟨_, _, .measured hindents⟩
  | doubleQuote => exact turn_quote .double
  | singleQuote => exact turn_quote .single
  | directive => exact ⟨_, _, .word .directive⟩
  | comment => exact ⟨_, _, .word .comment⟩
  | identifier => exact ⟨_, _, .word .identifier⟩
  | reference =>
    by_cases hdots : pending ++ ahead.takeWhile (· == '.') = ['.', '.', '.']
    · exact ⟨_, _, .ellipsis hdots⟩
    · exact ⟨_, _, .malformed hdots⟩

end

end DocModelLexer.Grammar
