import DocModelLexer.Proofs.Grammar.Course

namespace DocModelLexer

namespace Token

def opens (t : Token) : Bool := t.type == Grammar.Kind.indent.type

def closes (t : Token) : Bool := t.type == Grammar.Kind.dedent.type

def isEof (t : Token) : Bool := t.type == Grammar.Kind.eof.type

end Token

namespace Grammar

open Pause (Leads)

/-- The texts of the open indentations behind a token, innermost first. -/
def nest (texts : List String) (t : Token) : List String :=
  if t.opens then t.value :: texts else if t.closes then texts.tail else texts

/-- The texts of the indentations that tokens have opened and not closed again, innermost first. -/
def unclosed (tokens : List Token) : List String := tokens.foldl nest []

def openings (tokens : List Token) : Nat := tokens.countP Token.opens

def closings (tokens : List Token) : Nat := tokens.countP Token.closes

/-- How the open indentations stand to the tokens that came before. -/
structure Nested (tokens : List Token) (levels : Levels) : Prop where
  widths : ∃ ws : List Nat, (unclosed tokens).map (fun text => measure text.toList) = ws.map .ok ∧
    levels = ws.map Int.ofNat ++ [0]
  increasing : levels.Pairwise (· > ·)
  balanced : ∀ earlier, earlier <+: tokens → closings earlier ≤ openings earlier
  depth : openings tokens = closings tokens + (unclosed tokens).length

section

variable {tokens : List Token} {levels : Levels} {t : Token}

theorem unclosed_concat : unclosed (tokens ++ [t]) = nest (unclosed tokens) t := by
  simp [unclosed]

theorem openings_concat :
    openings (tokens ++ [t]) = openings tokens + if t.opens then 1 else 0 := by
  simp [openings, List.countP_singleton]

theorem closings_concat :
    closings (tokens ++ [t]) = closings tokens + if t.closes then 1 else 0 := by
  simp [closings, List.countP_singleton]

theorem not_closes_of_opens (h : t.opens = true) : t.closes = false := by
  have ht : t.type = Kind.indent.type := by simpa [Token.opens] using h
  simp [Token.closes, ht, Kind.type]

theorem Kind.ofChar?_ne {c : Char} {kind : Kind} (h : Kind.ofChar? c = some kind) :
    kind ≠ .indent ∧ kind ≠ .dedent ∧ kind ≠ .eof := by
  unfold Kind.ofChar? at h
  split at h <;> cases h <;> decide

theorem opens_upon (kind : Kind) (behind pending ahead : List Char) :
    (Token.upon kind.type behind pending ahead).opens = decide (kind = .indent) := by
  cases kind <;> rfl

theorem closes_upon (kind : Kind) (behind pending ahead : List Char) :
    (Token.upon kind.type behind pending ahead).closes = decide (kind = .dedent) := by
  cases kind <;> rfl

theorem isEof_upon (kind : Kind) (behind pending ahead : List Char) :
    (Token.upon kind.type behind pending ahead).isEof = decide (kind = .eof) := by
  cases kind <;> rfl

namespace Nested

theorem base : Nested [] Levels.base where
  widths := ⟨[], rfl, rfl⟩
  increasing := by simp [Levels.base]
  balanced := by
    intro earlier h
    rw [List.prefix_nil.mp h]
    exact Nat.le_refl _
  depth := rfl

theorem balanced_concat (h : Nested tokens levels)
    (ht : closings (tokens ++ [t]) ≤ openings (tokens ++ [t])) :
    ∀ earlier, earlier <+: tokens ++ [t] → closings earlier ≤ openings earlier := by
  intro earlier hearlier
  rcases List.prefix_concat_iff.mp hearlier with rfl | hearlier
  · exact ht
  · exact h.balanced earlier hearlier

theorem opened {n : Nat} {top : Int} (h : Nested tokens (top :: levels)) (ht : t.opens = true)
    (hn : measure t.value.toList = .ok n) (htop : top < n) :
    Nested (tokens ++ [t]) ((n : Int) :: top :: levels) := by
  have hcloses := not_closes_of_opens ht
  have hunclosed : unclosed (tokens ++ [t]) = t.value :: unclosed tokens := by
    rw [unclosed_concat, nest, if_pos ht]
  have hdepth : openings (tokens ++ [t]) =
      closings (tokens ++ [t]) + (unclosed (tokens ++ [t])).length := by
    rw [openings_concat, closings_concat, hunclosed, h.depth, ht, hcloses, List.length_cons]
    simp only [if_true, Bool.false_eq_true, if_false]
    omega
  refine ⟨?_, ?_, h.balanced_concat (by omega), hdepth⟩
  · obtain ⟨ws, hws, hlevels⟩ := h.widths
    refine ⟨n :: ws, ?_, ?_⟩
    · rw [hunclosed, List.map_cons, hws, hn]
      rfl
    · rw [hlevels]
      rfl
  · refine List.pairwise_cons.mpr ⟨?_, h.increasing⟩
    intro level hlevel
    rcases List.mem_cons.mp hlevel with rfl | hlevel
    · exact htop
    · have hlt : top > level := (List.pairwise_cons.mp h.increasing).1 level hlevel
      omega

theorem closed {level : Int} (h : Nested tokens (level :: levels)) (hne : levels ≠ [])
    (ht : t.closes = true) : Nested (tokens ++ [t]) levels := by
  have hopens : t.opens = false := by
    cases hopens : t.opens with
    | false => rfl
    | true => simp [not_closes_of_opens hopens] at ht
  have hunclosed : unclosed (tokens ++ [t]) = (unclosed tokens).tail := by
    rw [unclosed_concat, nest, hopens, ht]
    rfl
  obtain ⟨ws, hws, hlevels⟩ := h.widths
  -- the base is not closed, so something above it is
  obtain ⟨w, ws, rfl⟩ : ∃ w rest, ws = w :: rest := by
    cases ws with
    | nil =>
      cases hlevels
      contradiction
    | cons w ws => exact ⟨w, ws, rfl⟩
  obtain ⟨text, texts, htexts⟩ : ∃ text texts, unclosed tokens = text :: texts := by
    cases hopen : unclosed tokens with
    | nil => simp [hopen] at hws
    | cons text texts => exact ⟨text, texts, rfl⟩
  rw [htexts, List.tail_cons] at hunclosed
  rw [htexts] at hws
  have hdepth : openings (tokens ++ [t]) =
      closings (tokens ++ [t]) + (unclosed (tokens ++ [t])).length := by
    rw [openings_concat, closings_concat, hunclosed, h.depth, ht, hopens, htexts, List.length_cons]
    simp only [if_true, Bool.false_eq_true, if_false]
    omega
  refine ⟨⟨ws, ?_, (List.cons.inj hlevels).2⟩, (List.pairwise_cons.mp h.increasing).2,
    h.balanced_concat (by omega), hdepth⟩
  rw [hunclosed]
  exact (List.cons.inj hws).2

theorem kept (h : Nested tokens levels) (hopens : t.opens = false) (hcloses : t.closes = false) :
    Nested (tokens ++ [t]) levels := by
  have hunclosed : unclosed (tokens ++ [t]) = unclosed tokens := by
    rw [unclosed_concat, nest, hopens, hcloses]
    rfl
  have hdepth : openings (tokens ++ [t]) =
      closings (tokens ++ [t]) + (unclosed (tokens ++ [t])).length := by
    rw [openings_concat, closings_concat, hunclosed, h.depth, hopens, hcloses]
    simp only [Bool.false_eq_true, if_false]
    omega
  exact ⟨hunclosed ▸ h.widths, h.increasing, h.balanced_concat (by omega), hdepth⟩

theorem dedents {closed : Levels} {top : Int} (h : Nested tokens (closed ++ top :: levels))
    (behind lead ahead : List Char) :
    Nested (tokens ++ dedents behind lead ahead closed.length) (top :: levels) := by
  induction closed generalizing tokens behind lead with
  | nil => simpa [Grammar.dedents] using h
  | cons level closed ih =>
    have hone := h.closed (t := .upon Kind.dedent.type behind lead ahead) (by simp) rfl
    simpa [Grammar.dedents] using ih hone (behind ++ lead) []

theorem indents {behind lead ahead : List Char} {ts : List Token} {levels' : Levels}
    {next : Option State} (h : Nested tokens levels)
    (hindents : Indents behind lead ahead levels ts levels' next) :
    Nested (tokens ++ ts) levels' := by
  cases hindents with
  | same => simpa using h
  | opens hn hlt => exact h.opened rfl (by simpa [Token.upon] using hn) hlt
  | closes => exact h.dedents behind lead ahead
  | inconsistent =>
    rw [← List.append_assoc]
    exact (h.dedents behind lead ahead).kept rfl rfl

/-- One call of a state keeps the nesting. -/
theorem turn {state : State} {behind pending ahead : List Char} {ts : List Token}
    {y : Pause Levels State} (h : Nested tokens levels)
    (hturn : Turn state behind pending ahead levels ts y) : Nested (tokens ++ ts) y.data := by
  cases hturn with
  | blankLine => simpa using h
  | line _ hindents => exact h.indents hindents
  | measured hindents => exact h.indents hindents
  | blank => simpa using h
  | lineEnd => simpa using h
  | single hkind =>
    obtain ⟨hindent, hdedent, _⟩ := Kind.ofChar?_ne hkind
    refine h.kept ?_ ?_
    · simp [opens_upon, hindent]
    · simp [closes_upon, hdedent]
  | enters => simpa using h
  | unexpected => exact h.kept rfl rfl
  | eof hindents =>
    rw [← List.append_assoc]
    exact (h.indents hindents).kept rfl rfl
  | badEnd hindents => exact h.indents hindents
  | quoted => exact h.kept rfl rfl
  | runaway => exact h.kept rfl rfl
  | word hword => exact h.kept (by cases hword <;> rfl) (by cases hword <;> rfl)
  | ellipsis => exact h.kept rfl rfl
  | malformed => exact h.kept rfl rfl

theorem nonneg (h : Nested tokens levels) (level : Int) (hmem : level ∈ levels) : 0 ≤ level := by
  obtain ⟨ws, _, rfl⟩ := h.widths
  rcases List.mem_append.mp hmem with hmem | hmem
  · obtain ⟨w, _, rfl⟩ := List.mem_map.mp hmem
    exact Int.natCast_nonneg w
  · simp_all

theorem base_mem (h : Nested tokens levels) : 0 ∈ levels := by
  obtain ⟨ws, _, rfl⟩ := h.widths
  simp

theorem grounded (h : Nested tokens levels) : Grounded levels := ⟨h.base_mem, h.nonneg⟩

theorem eq_nil_of_zero (h : Nested tokens (0 :: levels)) : levels = [] := by
  cases levels with
  | nil => rfl
  | cons level levels =>
    have hlt : 0 > level := (List.pairwise_cons.mp h.increasing).1 level (by simp)
    have hle := h.nonneg level (by simp)
    omega

theorem of_end {behind ahead : List Char} {ts : List Token} {levels' : Levels} {next : Option State}
    (h : Nested tokens levels) (hindents : Indents behind [] ahead levels ts levels' next) :
    levels' = [0] ∧ next = some .outer ∧ ∀ t ∈ ts, t.type = Kind.dedent.type := by
  have hzero {n : Nat} (hn : measure [] = .ok n) : n = 0 := by
    cases hn
    rfl
  have hnext := hindents.next_of_nil h.grounded
  cases hindents with
  | same hn =>
    cases hzero hn
    refine ⟨?_, rfl, by simp⟩
    rw [h.eq_nil_of_zero]
    rfl
  | @opens n top left hn hlt =>
    have htop := h.nonneg top (by simp)
    have := hzero hn
    omega
  | closes hn =>
    cases hzero hn
    refine ⟨?_, rfl, fun t ht => type_of_mem_dedents ht⟩
    rw [(h.dedents behind [] ahead).eq_nil_of_zero]
    rfl
  | inconsistent => contradiction

theorem depth_of_base (h : Nested tokens [0]) : openings tokens = closings tokens := by
  obtain ⟨ws, hws, hlevels⟩ := h.widths
  have hlen := congrArg List.length hlevels
  have hsame := congrArg List.length hws
  have hdepth := h.depth
  simp only [List.length_append, List.length_map, List.length_singleton] at hlen hsame
  omega

end Nested

end

theorem Indents.isEof_eq {behind lead ahead : List Char} {levels levels' : Levels}
    {tokens : List Token} {next : Option State}
    (h : Indents behind lead ahead levels tokens levels' next) : ∀ t ∈ tokens, t.isEof = false := by
  have hdedent {n : Nat} {t : Token} (ht : t ∈ dedents behind lead ahead n) : t.isEof = false := by
    rw [Token.isEof, type_of_mem_dedents ht]
    rfl
  intro t ht
  cases h with
  | same => cases ht
  | opens =>
    rw [List.mem_singleton.mp ht]
    rfl
  | closes => exact hdedent ht
  | inconsistent =>
    rcases List.mem_append.mp ht with ht | ht
    · exact hdedent ht
    · rw [List.mem_singleton.mp ht]
      rfl

theorem Turn.of_isEof {state : State} {behind pending ahead : List Char} {levels : Levels}
    {tokens : List Token} {y : Pause Levels State} {t : Token}
    (h : Turn state behind pending ahead levels tokens y) (ht : t ∈ tokens)
    (heof : t.isEof = true) :
    state = .outer ∧ pending = [] ∧ ahead = [] ∧ ∃ closing levels',
      Indents behind [] [] levels closing levels' (some .outer) := by
  cases h with
  | blankLine => cases ht
  | line _ hindents => simp [hindents.isEof_eq t ht] at heof
  | measured hindents => simp [hindents.isEof_eq t ht] at heof
  | blank => cases ht
  | lineEnd => cases ht
  | single hkind =>
    rw [List.mem_singleton.mp ht, isEof_upon] at heof
    exact absurd (of_decide_eq_true heof) (Kind.ofChar?_ne hkind).2.2
  | enters => cases ht
  | unexpected =>
    rw [List.mem_singleton.mp ht] at heof
    cases heof
  | eof hindents => exact ⟨rfl, rfl, rfl, _, _, hindents⟩
  | badEnd hindents => simp [hindents.isEof_eq t ht] at heof
  | quoted =>
    rw [List.mem_singleton.mp ht] at heof
    cases heof
  | runaway =>
    rw [List.mem_singleton.mp ht] at heof
    cases heof
  | word hword =>
    rw [List.mem_singleton.mp ht, isEof_upon] at heof
    cases hword <;> cases heof
  | ellipsis =>
    rw [List.mem_singleton.mp ht] at heof
    cases heof
  | malformed =>
    rw [List.mem_singleton.mp ht] at heof
    cases heof

section

variable {text : String} {n : Nat}

theorem leads_nested {tokens : List Token} {m : Nat} {y : Pause Levels State}
    (h : Leads graph (start text) tokens m y) : Nested tokens y.data := by
  refine start_induct (P := fun tokens y => Nested tokens y.data) h .base ?_
  intro before n state behind pending ahead levels ts z _ _ _ hbefore hturn
  exact hbefore.turn hturn

/-- The move after the `k`-th marks the end of the source, where only the base is open. -/
def MarksEnd (text : String) (k : Nat) : Prop :=
  ∃ before c, (∀ t ∈ before, t.isEof = false) ∧
    scanned text k = ⟨before, .unfinished, ⟨c, [0], .emit Kind.eof.type (.done none)⟩⟩

theorem marksEnd_of_end {before ts : List Token} {m : Nat} {behind : List Char}
    {levels levels' : Levels}
    (h : Leads graph (start text) before m
      ⟨.upon behind [] [], levels, some .outer⟩) (hbefore : ∀ t ∈ before, t.isEof = false)
    (hindents : Indents behind [] [] levels ts levels' (some .outer)) : ∃ k, MarksEnd text k := by
  obtain ⟨rfl, -, -⟩ := (leads_nested h).of_end hindents
  obtain ⟨k, hexec, -⟩ := hindents.exec true
  have hcall : Scan.move graph (Pause.scan ⟨.upon behind [] [], levels, some .outer⟩) =
      .quiet ⟨.upon behind [] [], levels, outer⟩ := rfl
  have hread : Scan.move graph ⟨.upon behind [] [], levels, outer⟩ =
      .quiet ⟨.upon behind [] [] true, levels, finish⟩ := by
    simp [Scan.move, outer, Script.next, Script.perform, Bind.bind, Script.bind, Cursor.perform,
      Cursor.next_upon_nil]
  have hclose : (Scan.move graph).run (k + 0) ⟨.upon behind [] [] true, levels, finish⟩ =
      ⟨ts ++ [], .unfinished,
        ⟨.upon (behind ++ []) [] [] true, [0], .emit Kind.eof.type (.done none)⟩⟩ :=
    Scan.run_bind hexec 0
  refine ⟨m + (1 + (1 + (k + 0))), before ++ ts, .upon (behind ++ []) [] [] true, ?_, ?_⟩
  · intro t ht
    rcases List.mem_append.mp ht with ht | ht
    · exact hbefore t ht
    · exact hindents.isEof_eq t ht
  · change (Scan.move graph).run _ (Pause.scan (start text)) = _
    rw [h.run, Producer.run_quiet hcall, Producer.run_quiet hread, hclose, List.append_nil]

theorem marksEnd_of_leads {tokens : List Token} {m : Nat} {y : Pause Levels State}
    (h : Leads graph (start text) tokens m y) :
    (∀ t ∈ tokens, t.isEof = false) ∨ ∃ k, MarksEnd text k := by
  refine start_induct (P := fun tokens _ => (∀ t ∈ tokens, t.isEof = false) ∨ ∃ k, MarksEnd text k)
    h (.inl (by simp)) ?_
  intro before n state behind pending ahead levels ts z hleads _ _ hmarks hturn
  rcases hmarks with hbefore | hmarks
  · by_cases hts : ∃ t ∈ ts, t.isEof = true
    · obtain ⟨t, ht, heof⟩ := hts
      obtain ⟨rfl, rfl, rfl, closing, levels', hindents⟩ := hturn.of_isEof ht heof
      exact .inr (marksEnd_of_end hleads hbefore hindents)
    · left
      intro t ht
      rcases List.mem_append.mp ht with ht | ht
      · exact hbefore t ht
      · by_cases heof : t.isEof = true
        · exact absurd ⟨t, ht, heof⟩ hts
        · simpa using heof
  · exact .inr hmarks

theorem scanned_of_isEof {t : Token} (ht : t ∈ (scanned text n).tokens) (heof : t.isEof = true) :
    (scanned text n).last.upcoming? = some none ∧ (scanned text n).last.data = [0] := by
  obtain ⟨m, y, hleads, -⟩ := leads_tokens text
  obtain ⟨k, before, c, hbefore, hk⟩ : ∃ k, MarksEnd text k := by
    rcases marksEnd_of_leads hleads with hnone | hmarks
    · have hmem := (scanned_tokens_le text n).subset ht
      simp [hnone t hmem] at heof
    · exact hmarks
  rcases Nat.lt_or_ge k n with hlt | hle
  · obtain ⟨j, rfl⟩ : ∃ j, n = k + (1 + j) := ⟨n - k - 1, by omega⟩
    have hopen : (producer.run k (scan (.ofString text))).ending = .unfinished :=
      congrArg Run.ending hk
    have hlast : (producer.run k (scan (.ofString text))).last =
        ⟨c, [0], .emit Kind.eof.type (.done none)⟩ := congrArg Run.last hk
    have hemit : producer ⟨c, [0], .emit Kind.eof.type (.done none)⟩ = _ :=
      Scan.move_emit Kind.eof.type (.done none) c [0]
    simp only [scanned]
    rw [producer.run_add k (1 + j) hopen, hlast, Producer.run_emit hemit]
    cases j with
    | zero => exact ⟨rfl, rfl⟩
    | succ j => exact ⟨rfl, rfl⟩
  · have hmem := (producer.tokens_run_le hle (scan (.ofString text))).subset ht
    have htokens : (producer.run k (scan (.ofString text))).tokens = before :=
      congrArg Run.tokens hk
    rw [htokens] at hmem
    simp [hbefore t hmem] at heof

theorem isError_of_end {before : List Token} {m : Nat} {behind : List Char} {levels : Levels}
    (h : Leads graph (start text) before m
      ⟨.upon behind [] [], levels, some .outer⟩) :
    ∀ t ∈ (tokens text).drop before.length, t.isError = false := by
  have hnested : Nested before levels := leads_nested h
  obtain ⟨ts, levels', next, hindents⟩ := indents_of_nil behind [] hnested.base_mem
  obtain ⟨-, rfl, hdedents⟩ := hnested.of_end hindents
  obtain ⟨k, hexec, -⟩ := (Turn.eof hindents).exec
  rw [tokens_of_leads (h.trans (.one hexec)) rfl, List.drop_left]
  intro t ht
  have htype : t.type = Kind.dedent.type ∨ t.type = Kind.eof.type := by
    rcases List.mem_append.mp ht with ht | ht
    · exact .inl (hdedents t ht)
    · rw [List.mem_singleton.mp ht]
      exact .inr rfl
  rcases htype with htype | htype <;>
  · rw [Token.isError, htype]
    rfl

end

/-- Between two calls and at the end, the open indentations are those that the tokens have left
unclosed. So no more is closed than was opened, all is closed at the end of the source, and what
that closes is consistent. -/
theorem scanned_nested (text : String) :
    (∀ n next, (scanned text n).last.upcoming? = some next →
      Nested (scanned text n).tokens (scanned text n).last.data) ∧
    (∀ earlier, earlier <+: tokens text → closings earlier ≤ openings earlier) ∧
    (∀ n t, t ∈ (scanned text n).tokens → t.isEof = true → (scanned text n).last.data = [0] ∧
      openings (scanned text n).tokens = closings (scanned text n).tokens) ∧
    (∀ n, (scanned text n).last.upcoming? = some (some .outer) →
      (scanned text n).last.cursor.position = (scanned text n).last.cursor.source.size →
      ∀ t ∈ (tokens text).drop (scanned text n).tokens.length, t.isError = false) := by
  have hnested : ∀ n next, (scanned text n).last.upcoming? = some next →
      Nested (scanned text n).tokens (scanned text n).last.data := by
    intro n next h
    obtain ⟨m, hleads⟩ := leads_scanned h
    exact leads_nested hleads
  refine ⟨hnested, ?_, ?_, ?_⟩
  · obtain ⟨m, y, hleads, -⟩ := leads_tokens text
    exact (leads_nested hleads).balanced
  · intro n t ht heof
    obtain ⟨hnext, hdata⟩ := scanned_of_isEof ht heof
    have hlast := hnested n none hnext
    rw [hdata] at hlast
    exact ⟨hdata, hlast.depth_of_base⟩
  · intro n hnext hend
    obtain ⟨m, hleads⟩ := leads_scanned hnext
    have hfits := (fits_start text).leads hleads
    obtain ⟨behind, pending, ahead, hcursor, htakes⟩ := hfits.2 .outer rfl
    cases (htakes : pending = [])
    simp only at hcursor
    rw [hcursor] at hend hleads
    have hahead : ahead = [] := by
      have hlen : ahead.length = 0 := by
        simp only [Cursor.upon, Source.size_ofList, List.length_append, List.length_nil] at hend
        omega
      exact List.eq_nil_of_length_eq_zero hlen
    subst hahead
    exact isError_of_end hleads

theorem scanned_nested_two_lines :
    Nested (scanned "a\n  b" 22).tokens [2, 0] ∧ closings ((tokens "a\n  b").take 4) ≤ 1 ∧
      openings (scanned "a\n  b" 34).tokens = closings (scanned "a\n  b" 34).tokens ∧
      ∀ t ∈ (tokens "a\n  b").drop 3, t.isError = false := by
  obtain ⟨hnested, hbalanced, heof, hend⟩ := scanned_nested "a\n  b"
  refine ⟨?_, ?_, ?_, ?_⟩
  · have hdata : (scanned "a\n  b" 22).last.data = [2, 0] := by decide +kernel
    rw [← hdata]
    exact hnested 22 (some .outer) (by decide +kernel)
  · have hone : openings ((tokens "a\n  b").take 4) = 1 := by decide +kernel
    rw [← hone]
    exact hbalanced _ (List.take_prefix 4 _)
  · exact (heof 34 (.upon Kind.eof.type "a\n  b".toList [] []) (by decide +kernel) rfl).2
  · have hlen : (scanned "a\n  b" 27).tokens.length = 3 := by decide +kernel
    rw [← hlen]
    exact hend 27 (by decide +kernel) (by decide +kernel)

end Grammar

end DocModelLexer
