import DocModelLexer.Proofs.Grammar.Continuation
import DocModelLexer.Proofs.Grammar.LineByLine
import DocModelLexer.Proofs.Grammar.Shape

namespace DocModelLexer

/-- The offset behind a token, and behind the closing mark of a quote. -/
def Token.follow (t : Token) : Int := t.ends + if t.type = Grammar.Kind.quote.type then 1 else 0

theorem Token.follow_upon {kind : Grammar.Kind} (hkind : kind ≠ .quote)
    (behind pending ahead : List Char) :
    (upon kind.type behind pending ahead).follow = (behind ++ pending).length := by
  have htype : (upon kind.type behind pending ahead).type ≠ Grammar.Kind.quote.type := by
    intro h
    exact hkind (Grammar.Kind.type_injective h)
  rw [follow, if_neg htype, (upon_standsAt _ _ _ _).2.2, Int.add_zero, List.length_append]

namespace Grammar

open Pause (Leads)

/-- A state that goes on to `next` has seen what stands where it stopped: a character, or `none` at
the end of the source. -/
def State.StopsAt : State → (next : State) → (stop : Option Char) → Prop
  | .newline, .outer, stop => ∀ c, stop = some c → isBlank c = false ∧ c ≠ '\n'
  | .outer, .directive, stop => ∃ c, stop = some c ∧ c ∈ capitals
  | .outer, .comment, stop => ∀ c, stop = some c → c ∉ capitals
  | .directive, _, stop => ∀ c, stop = some c → decide (c ∈ capitals) = false
  | .comment, _, stop => ∀ c, stop = some c → Script.staysBefore [] c = false
  | .identifier, _, stop => ∀ c, stop = some c → isNameChar c = false
  | .reference, _, stop => ∀ c, stop = some c → (c == '.') = false
  | _, _, _ => True

section

variable {state next : State} {behind pending ahead : List Char} {levels : Levels}
  {ts : List Token} {y : Pause Levels State} {t : Token}

theorem Word.stopsAt_iff {p : Char → Bool} {kind : Kind} (h : Word state p kind)
    (next : State) (stop : Option Char) :
    state.StopsAt next stop ↔ ∀ c, stop = some c → p c = false := by
  cases h <;> rfl

theorem run_before (p : Char → Bool) (ahead : List Char) {other : List Char}
    (hother : ∀ c, other.head? = some c → p c = false) :
    (ahead.takeWhile p ++ other).takeWhile p = ahead.takeWhile p ∧
      (ahead.takeWhile p ++ other).dropWhile p = other := by
  have hrun : ∀ c ∈ ahead.takeWhile p, p c = true := fun _ hc => List.mem_takeWhile_imp hc
  have htake := takeWhile_stop (ahead.takeWhile p) hother
  have hdrop := dropWhile_stop (ahead.takeWhile p) hother
  rw [List.takeWhile_eq_self_iff.mpr hrun] at htake
  rw [List.dropWhile_eq_nil_iff.mpr hrun] at hdrop
  exact ⟨htake, hdrop⟩

theorem run_through {p : Char → Bool} {ahead rest : List Char} {c : Char}
    (hrest : ahead.dropWhile p = c :: rest) :
    ahead = ahead.takeWhile p ++ [c] ++ rest ∧ ∀ other : List Char,
      (ahead.takeWhile p ++ [c] ++ other).takeWhile p = ahead.takeWhile p ∧
        (ahead.takeWhile p ++ [c] ++ other).dropWhile p = c :: other := by
  have hhead : (ahead.dropWhile p).head? = some c := by
    rw [hrest]
    rfl
  have hstop := not_of_head_dropWhile hhead
  refine ⟨?_, fun other => ?_⟩
  · rw [List.append_assoc, List.singleton_append, ← hrest, List.takeWhile_append_dropWhile]
  · rw [List.append_assoc]
    apply run_before
    rintro d ⟨⟩
    exact hstop

theorem Turn.exists_stop (h : Turn state behind pending ahead levels ts y)
    (hy : y.next = some next) :
    ∃ taken behind' pending' ahead', ahead = taken ++ ahead' ∧
      y.cursor = .upon behind' pending' ahead' ∧ behind' ++ pending' = behind ++ pending ++ taken ∧
      state.StopsAt next ahead'.head? ∧ (next = .identifier → state = .outer ∧ taken ≠ []) ∧
      ∀ other : List Char, state.StopsAt next other.head? →
        Turn state behind pending (taken ++ other) levels ts
          ⟨.upon behind' pending' other, y.data, some next⟩ := by
  have hread (p : Char → Bool) : ahead = ahead.takeWhile p ++ ahead.dropWhile p :=
    List.takeWhile_append_dropWhile.symm
  have hends (p : Char → Bool) : ∀ c, (ahead.dropWhile p).head? = some c → p c = false :=
    fun _ hc => not_of_head_dropWhile hc
  cases h with
  | @blankLine _ _ _ rest _ hrest =>
    cases hy
    obtain ⟨hahead, hthrough⟩ := run_through hrest
    refine ⟨_, _, _, rest, hahead, rfl, rfl, trivial, nofun, fun other _ => ?_⟩
    obtain ⟨htake, hdrop⟩ := hthrough other
    have hturn := @Turn.blankLine behind pending _ _ levels hdrop
    rwa [htake] at hturn
  | line hline hindents =>
    cases hindents.next_eq hy
    cases hy
    refine ⟨_, _, [], _, hread isBlank, rfl, List.append_nil _, ?_, nofun, fun other hother => ?_⟩
    · intro c hc
      refine ⟨hends isBlank c hc, ?_⟩
      rintro rfl
      exact hline hc
    · obtain ⟨htake, hdrop⟩ := run_before isBlank ahead fun c hc => (hother c hc).1
      have hother' : ((ahead.takeWhile isBlank ++ other).dropWhile isBlank).head? ≠ some '\n' := by
        rw [hdrop]
        intro hn
        exact (hother _ hn).2 rfl
      have hturn := Turn.line hother' (by
        rw [htake, hdrop]
        exact hindents.before other)
      rwa [htake, hdrop] at hturn
  | measured hindents =>
    cases hindents.next_eq hy
    cases hy
    refine ⟨[], _, [], ahead, rfl, rfl, by simp, trivial, nofun, fun other _ => ?_⟩
    exact .measured (hindents.before other)
  | @blank _ c rest _ hc =>
    cases hy
    refine ⟨[c], _, [], rest, rfl, rfl, by simp, trivial, nofun, fun other _ => ?_⟩
    exact .blank hc
  | @lineEnd _ rest =>
    cases hy
    refine ⟨['\n'], _, _, rest, rfl, rfl, by simp, trivial, nofun, fun other _ => ?_⟩
    exact .lineEnd
  | @single _ c rest _ kind hkind =>
    cases hy
    refine ⟨[c], _, [], rest, rfl, rfl, by simp, trivial, nofun, fun other _ => ?_⟩
    rw [Token.upon_ahead _ _ _ rest other]
    exact .single hkind
  | @enters _ c rest _ _ henters =>
    cases hy
    refine ⟨[c], _, _, rest, rfl, rfl, by simp, ?_, fun _ => ⟨rfl, List.cons_ne_nil _ _⟩,
      fun other hother => .enters ?_⟩
    · cases henters with
      | directive hd hcap => exact ⟨_, hd, hcap⟩
      | comment hcap => exact hcap
      | _ => trivial
    · cases henters with
      | doubleQuote => exact .doubleQuote
      | singleQuote => exact .singleQuote
      | reference => exact .reference
      | directive =>
        obtain ⟨d, hd, hcap⟩ := hother
        exact .directive hd hcap
      | comment => exact .comment hother
      | identifier hplain hstart => exact .identifier hplain hstart
  | unexpected => cases hy
  | eof => cases hy
  | badEnd => cases hy
  | @quoted _ mark _ _ _ rest _ hquote hrest =>
    cases hy
    obtain ⟨hahead, hthrough⟩ := run_through hrest
    refine ⟨_, _, [], rest, hahead, rfl, by simp, ?_, nofun, fun other _ => ?_⟩
    · cases hquote <;> trivial
    · obtain ⟨htake, hdrop⟩ := hthrough other
      have hturn := @Turn.quoted _ _ behind pending _ _ levels hquote hdrop
      rwa [htake, Token.upon_ahead _ _ _ _ (mark :: rest)] at hturn
  | runaway => cases hy
  | @word _ p kind _ _ _ _ hword =>
    cases hy
    refine ⟨_, _, [], _, hread p, rfl, by simp, (hword.stopsAt_iff _ _).mpr (hends p), nofun,
      fun other hother => ?_⟩
    obtain ⟨htake, hdrop⟩ := run_before p ahead ((hword.stopsAt_iff _ _).mp hother)
    have hturn := @Turn.word _ _ _ behind pending (ahead.takeWhile p ++ other) levels hword
    rwa [htake, hdrop, Token.upon_ahead _ _ _ _ (ahead.dropWhile p)] at hturn
  | ellipsis hdots =>
    cases hy
    refine ⟨_, _, [], _, hread (· == '.'), rfl, by simp, hends (· == '.'), nofun,
      fun other hother => ?_⟩
    obtain ⟨htake, hdrop⟩ := run_before (· == '.') ahead hother
    have hturn : Turn .reference behind pending (_ ++ other) levels _ _ :=
      .ellipsis (by rwa [htake])
    rwa [htake, hdrop, Token.upon_ahead _ _ _ _ (ahead.dropWhile (· == '.'))] at hturn
  | malformed => cases hy

/-- The scan comes to a pause in every text that is the same up to one character behind the window.
Where an identifier has begun, that character may be another, too. -/
def Recurs (ts : List Token) (y : Pause Levels State) : Prop :=
  ∀ state, y.next = some state → ∃ behind pending ahead, y.cursor = .upon behind pending ahead ∧
    ∀ other : List Char, other.head? = ahead.head? ∨ state = .identifier →
      ∃ m, Leads graph (start (String.ofList (behind ++ pending ++ other))) ts m
        ⟨.upon behind pending other, y.data, some state⟩

/-- A turn goes on from there before every text that it stops at. If it takes nothing, the calls
before it must not tell that text from its own, either. -/
theorem Turn.recurs {before : List Token} (h : Turn state behind pending ahead levels ts y)
    (hbefore : Recurs before ⟨.upon behind pending ahead, levels, some state⟩)
    (hy : y.next = some next) :
    ∃ taken behind' pending' ahead', ahead = taken ++ ahead' ∧
      y.cursor = .upon behind' pending' ahead' ∧ behind' ++ pending' = behind ++ pending ++ taken ∧
      state.StopsAt next ahead'.head? ∧ (next = .identifier → state = .outer ∧ taken ≠ []) ∧
      ∀ other : List Char, state.StopsAt next other.head? →
        (taken = [] → other.head? = ahead'.head? ∨ state = .identifier) →
        ∃ m, Leads graph (start (String.ofList (behind' ++ pending' ++ other))) (before ++ ts) m
          ⟨.upon behind' pending' other, y.data, some next⟩ := by
  obtain ⟨taken, behind', pending', ahead', rfl, hcursor, hread, hstop, hname, hother⟩ :=
    h.exists_stop hy
  obtain ⟨b, p, a, hbegin, hleads⟩ := hbefore state rfl
  obtain ⟨rfl, rfl, rfl⟩ := Cursor.upon_injective hbegin
  refine ⟨taken, behind', pending', ahead', rfl, hcursor, hread, hstop, hname,
    fun other hstops hsame => ?_⟩
  have hhead : (taken ++ other).head? = (taken ++ ahead').head? ∨ state = .identifier := by
    cases taken with
    | nil => exact hsame rfl
    | cons => exact .inl rfl
  obtain ⟨m, hm⟩ := hleads (taken ++ other) hhead
  obtain ⟨k, hexec, -⟩ := (hother other hstops).exec
  rw [hread, List.append_assoc (behind ++ pending)]
  exact ⟨_, hm.trans (.one hexec)⟩

theorem leads_recurs {text : String} {m : Nat} (h : Leads graph (start text) ts m y) :
    Recurs ts y := by
  refine start_induct (P := Recurs) h ?_ ?_
  · rw [start_eq_upon]
    intro state hstate
    cases hstate
    refine ⟨[], [], text.toList, rfl, fun other _ => ⟨0, ?_⟩⟩
    rw [start_eq_upon, String.toList_ofList]
    exact .refl _
  · intro before n state behind pending ahead levels ts z _ _ _ hbefore hturn next hnext
    obtain ⟨taken, behind', pending', ahead', -, hcursor, -, hstop, hname, hleads⟩ :=
      hturn.recurs hbefore hnext
    refine ⟨behind', pending', ahead', hcursor, fun other hother => hleads other ?_ ?_⟩
    -- what begins an identifier is taken by a call that does not look behind it
    · rcases hother with hother | rfl
      · rwa [hother]
      · obtain ⟨rfl, -⟩ := hname rfl
        trivial
    · intro hnone
      refine hother.imp_right fun hidentifier => ?_
      exact absurd hnone (hname hidentifier).2

/-- The types of the tokens that blanks behind them may belong to or may move, or behind which there
is nothing. -/
def inseparable : List Int :=
  [Kind.indent.type, Kind.dedent.type, Kind.comment.type, Kind.eof.type, errorType]

theorem errorType_mem_inseparable : errorType ∈ inseparable := by decide

theorem Indents.type_mem {lead : List Char} {levels' : Levels} {next : Option State}
    (h : Indents behind lead ahead levels ts levels' next) (ht : t ∈ ts) :
    t.type ∈ inseparable := by
  cases h with
  | same => cases ht
  | opens =>
    rw [List.mem_singleton.mp ht]
    exact List.mem_cons_self
  | closes =>
    rw [type_of_mem_dedents ht]
    decide
  | inconsistent =>
    rcases List.mem_append.mp ht with ht | ht
    · rw [type_of_mem_dedents ht]
      decide
    · rw [List.mem_singleton.mp ht]
      exact errorType_mem_inseparable

theorem Word.stopsAt_blank {p : Char → Bool} {kind : Kind} (h : Word state p kind)
    (hkind : kind ≠ .comment) {c : Char} (hc : isBlank c = true) :
    state.StopsAt next (some c) := by
  rw [h.stopsAt_iff]
  rintro d ⟨⟩
  have hd : c = ' ' ∨ c = '\t' := by simpa [isBlank, blanks] using hc
  cases h with
  | directive => rcases hd with rfl | rfl <;> decide
  | comment => contradiction
  | identifier => rcases hd with rfl | rfl <;> decide +kernel

theorem Word.reads {p : Char → Bool} {kind : Kind} (h : Word state p kind) (hkind : kind ≠ .comment)
    (hmeets : state.Meets behind pending ahead) (hrest : ahead.dropWhile p = ahead) :
    state = .identifier := by
  cases h with
  | directive =>
    obtain ⟨d, hd, hcap⟩ := hmeets
    rw [← hrest] at hd
    exact absurd hcap (of_decide_eq_false (not_of_head_dropWhile hd))
  | comment => contradiction
  | identifier => rfl

/-- Behind the token that a turn delivers, the scan goes on in the same line, and the turn would
stop at a blank. -/
theorem Turn.stopsAt_blank (h : Turn state behind pending ahead levels ts y)
    (hholds : state.Holds pending) (hmeets : state.Meets behind pending ahead) (ht : t ∈ ts)
    (htype : t.type ∉ inseparable) :
    ∃ known rest, y = ⟨.upon known [] rest, levels, some .outer⟩ ∧ t.follow = known.length ∧
      (rest = ahead → state = .identifier) ∧
      ∀ c, isBlank c = true → state.StopsAt .outer (some c) := by
  have hone {u : Token} (hu : t ∈ [u]) (hmem : u.type ∈ inseparable) : False := by
    rw [List.mem_singleton.mp hu] at htype
    exact htype hmem
  have heof : Kind.eof.type ∈ inseparable := by decide
  have hcomment : Kind.comment.type ∈ inseparable := by decide
  cases h with
  | blankLine => cases ht
  | line _ hindents => exact absurd (hindents.type_mem ht) htype
  | measured => cases hholds
  | blank => cases ht
  | lineEnd => cases ht
  | @single _ c rest _ kind hkind =>
    rw [List.mem_singleton.mp ht]
    refine ⟨_, rest, rfl, Token.follow_upon ?_ _ _ _, ?_, fun _ _ => trivial⟩
    · rintro rfl
      unfold Kind.ofChar? at hkind
      split at hkind <;> cases hkind
    · intro hrest
      exact absurd hrest.symm (List.cons_ne_self c rest)
  | enters => cases ht
  | unexpected => exact (hone ht errorType_mem_inseparable).elim
  | eof hindents =>
    rcases List.mem_append.mp ht with ht | ht
    · exact absurd (hindents.type_mem ht) htype
    · exact (hone ht heof).elim
  | badEnd hindents => exact absurd (hindents.type_mem ht) htype
  | @quoted _ mark _ _ _ rest _ hquote hrest =>
    rw [List.mem_singleton.mp ht]
    refine ⟨_, rest, rfl, ?_, ?_, ?_⟩
    · have hquote : (Token.upon Kind.quote.type (behind ++ pending)
          (ahead.takeWhile (Script.staysBefore [mark])) (mark :: rest)).type = Kind.quote.type := rfl
      rw [Token.follow, if_pos hquote, (Token.upon_standsAt _ _ _ _).2.2]
      simp only [List.length_append, List.length_singleton, Int.natCast_add, Int.cast_ofNat_Int]
    · intro hsame
      have hle := length_takeWhile_add_dropWhile (Script.staysBefore [mark]) ahead
      rw [hrest, ← hsame, List.length_cons] at hle
      omega
    · intro c _
      cases hquote <;> trivial
  | runaway => exact (hone ht errorType_mem_inseparable).elim
  | @word _ p kind _ _ _ _ hword =>
    have hkind : kind ≠ .comment := by
      rintro rfl
      exact hone ht hcomment
    rw [List.mem_singleton.mp ht]
    refine ⟨_, _, rfl, Token.follow_upon ?_ _ _ _, hword.reads hkind hmeets,
      fun c hc => hword.stopsAt_blank hkind hc⟩
    cases hword <;> decide
  | ellipsis hdots =>
    rw [List.mem_singleton.mp ht]
    refine ⟨_, _, rfl, Token.follow_upon (by decide) _ _ _, ?_, ?_⟩
    · intro hsame
      cases (hholds : pending = ['.'])
      have hle := length_takeWhile_add_dropWhile (· == '.') ahead
      have hlen := congrArg List.length hdots
      rw [hsame] at hle
      simp only [List.length_append, List.length_cons, List.length_nil] at hlen
      omega
    · rintro c hc d ⟨⟩
      have hd : c = ' ' ∨ c = '\t' := by simpa [isBlank, blanks] using hc
      rcases hd with rfl | rfl <;> decide
  | malformed => exact (hone ht errorType_mem_inseparable).elim

theorem exists_ends_line {tail : List Char} (htail : tail = [] ∨ tail.head? = some '\n')
    (hlevels : Grounded levels) :
    ∃ lexemes, ∀ known, Ends ⟨.upon known [] tail, levels, some .outer⟩ lexemes := by
  rcases htail with rfl | htail
  · exact ⟨_, fun known => .of_eof hlevels⟩
  · obtain ⟨later, rfl⟩ := List.head?_eq_some_iff.mp htail
    refine ⟨linesLexemes (Text.splitOn '\n' later) levels, fun known => .of_quiet .lineEnd ?_⟩
    have hends := Ends.of_lines known ['\n'] (Text.splitOn_ne_nil '\n' later)
      (fun _ hline => Text.not_mem_of_mem_splitOn hline) hlevels
    rwa [Text.intercalate_splitOn] at hends

theorem exists_ends (rest : List Char) (hlevels : Grounded levels) :
    ∃ lexemes, ∀ known blank : List Char, (∀ c ∈ blank, isBlank c = true) →
      Ends ⟨.upon known [] (blank ++ rest), levels, some .outer⟩ lexemes := by
  obtain ⟨line, tail, hline, htail, rfl⟩ := Text.exists_line rest
  obtain ⟨later, hlater⟩ := exists_ends_line htail hlevels
  refine ⟨goingOn (lexemesOf line) later, fun known blank hblank => ?_⟩
  have hfeed : '\n' ∉ blank ++ line := by
    intro hmem
    rcases List.mem_append.mp hmem with hmem | hmem
    · exact Bool.noConfusion (hblank _ hmem)
    · exact hline hmem
  have hends : EndsLine tail := by
    rintro c hc
    rcases htail with rfl | htail
    · cases hc
    · exact Option.some.inj (hc.symm.trans htail)
  have hgoes : Ends ⟨.upon known [] (blank ++ line ++ tail), levels, some .outer⟩ _ :=
    .of_lexemesOf hfeed hends hlater
  rwa [lexemesOf_append_of_blank hblank, List.append_assoc] at hgoes

/-- Behind a token that blanks cannot belong to, all blanks give the same lexemes. -/
theorem exists_lexemes {text : String} (ht : t ∈ tokens text) (htype : t.type ∉ inseparable) :
    ∃ (known rest : List Char) (lexemes : List (Int × String)), text.toList = known ++ rest ∧
      t.follow = known.length ∧ ∀ blank : List Char, (∀ c ∈ blank, isBlank c = true) →
        (tokens (String.ofList (known ++ (blank ++ rest)))).map Token.lexeme = lexemes := by
  obtain ⟨before, n, state, behind, pending, ahead, levels, ts, z, hleads, htext, hholds, hturn,
    hmem⟩ := exists_turn ht
  obtain ⟨known, rest, rfl, hfollow, hsame, hstopsAt⟩ :=
    hturn.stopsAt_blank hholds (meets_of_leads hleads) hmem htype
  obtain ⟨taken, _, _, _, rfl, hcursor, hread, hstop, -, hother⟩ :=
    hturn.recurs (leads_recurs hleads) rfl
  obtain ⟨rfl, rfl, rfl⟩ := Cursor.upon_injective hcursor
  obtain ⟨lexemes, hends⟩ := exists_ends rest (leads_nested hleads).grounded
  rw [List.append_nil] at hread
  refine ⟨known, rest, (before ++ ts).map Token.lexeme ++ lexemes.map Lexeme.typeAndValue, ?_,
    hfollow, fun blank hblank => ?_⟩
  · rw [← htext, hread, List.append_assoc (behind ++ pending)]
  · have hstops : state.StopsAt .outer (blank ++ rest).head? := by
      cases blank with
      | nil => exact hstop
      | cons c blank => exact hstopsAt c (hblank c List.mem_cons_self)
    have hhead : taken = [] → (blank ++ rest).head? = rest.head? ∨ state = .identifier := by
      rintro rfl
      exact .inr (hsame rfl)
    obtain ⟨m, hm⟩ := hother (blank ++ rest) hstops hhead
    obtain ⟨y, ⟨later, k, hlater, hlexemes⟩, hy⟩ := hends known blank hblank
    rw [List.append_nil] at hm
    rw [tokens_of_leads (hm.trans hlater) hy, List.map_append, hlexemes]

end

/-- Blanks are neutral behind a token that they cannot belong to: every token of the text keeps its
type and its value, also one that reports an error. -/
theorem tokens_insert_blanks (text blank : String) (t : Token) (ht : t ∈ tokens text)
    (htype : t.type ∉ inseparable) (hblank : ∀ c ∈ blank.toList, c = ' ' ∨ c = '\t') :
    ∃ known rest : String, text = known ++ rest ∧ t.follow = known.length ∧
      (tokens (known ++ blank ++ rest)).map Token.lexeme = (tokens text).map Token.lexeme := by
  have hisBlank : ∀ c ∈ blank.toList, isBlank c = true := by
    intro c hc
    simpa [isBlank, blanks] using hblank c hc
  obtain ⟨known, rest, lexemes, htext, hfollow, hlexemes⟩ := exists_lexemes ht htype
  have hplain := hlexemes [] (List.forall_mem_nil _)
  have hpadded := hlexemes blank.toList hisBlank
  have hsame : String.ofList (known ++ ([] ++ rest)) = text := by
    rw [List.nil_append, ← htext, String.ofList_toList]
  have hinserted : String.ofList (known ++ (blank.toList ++ rest)) =
      String.ofList known ++ blank ++ String.ofList rest := by
    rw [String.ofList_append, String.ofList_append, String.ofList_toList, String.append_assoc]
  refine ⟨String.ofList known, String.ofList rest, ?_, ?_, ?_⟩
  · rw [← String.ofList_append, ← htext, String.ofList_toList]
  · rw [hfollow, String.length_ofList]
  · rw [← hinserted, hpadded, ← hsame, hplain]

theorem tokens_insert_blanks_quote :
    ∃ known rest : String, "a:\"b\"=.." = known ++ rest ∧ 5 = (known.length : Int) ∧
      (tokens (known ++ " \t" ++ rest)).map Token.lexeme =
        [(8, "a"), (8, ":"), (9, "b"), (3, "="), (-1, "Malformed reference ellipsis: ..")] := by
  let t : Token := ⟨Kind.quote.type, "b", some ⟨⟨1, 4, 3⟩, ⟨1, 5, 4⟩⟩⟩
  have ht : t ∈ tokens "a:\"b\"=.." := by decide +kernel
  have hblank : ∀ c ∈ " \t".toList, c = ' ' ∨ c = '\t' := by simp
  obtain ⟨known, rest, htext, hfollow, hlexemes⟩ :=
    tokens_insert_blanks "a:\"b\"=.." " \t" t ht (by decide) hblank
  have hplain : (tokens "a:\"b\"=..").map Token.lexeme =
      [(8, "a"), (8, ":"), (9, "b"), (3, "="), (-1, "Malformed reference ellipsis: ..")] := by
    decide +kernel
  exact ⟨known, rest, htext, hfollow, hlexemes.trans hplain⟩

end Grammar

end DocModelLexer
