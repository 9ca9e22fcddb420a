import DocModelLexer.Proofs.Grammar.Turn

namespace DocModelLexer.Grammar

open Pause (Leads)

/-- A pause from which the scan can go on: the base indentation is open, and the next state takes
the pending text. -/
def Fits (x : Pause Levels State) : Prop :=
  0 ∈ x.data ∧ ∀ state, x.next = some state →
    ∃ behind pending ahead, x.cursor = .upon behind pending ahead ∧ state.Takes pending

section

variable {state : State} {behind pending ahead : List Char} {levels : Levels} {tokens : List Token}
  {x y : Pause Levels State} {m : Nat}

theorem Indents.base_mem {lead : List Char} {levels' : Levels} {next : Option State}
    (h : Indents behind lead ahead levels tokens levels' next) (hbase : 0 ∈ levels) :
    0 ∈ levels' := by
  cases h with
  | same => exact hbase
  | opens => exact List.mem_cons_of_mem _ hbase
  | @closes n closed levels _ _ hclosed =>
    rcases List.mem_append.mp hbase with hmem | hmem
    · have := hclosed 0 hmem
      omega
    · exact hmem
  | @inconsistent n top closed levels _ _ hclosed =>
    rcases List.mem_append.mp hbase with hmem | hmem
    · have := hclosed 0 hmem
      omega
    · exact hmem

theorem Indents.next_eq {lead : List Char} {levels' : Levels} {next : Option State}
    (h : Indents behind lead ahead levels tokens levels' next) (hnext : next = some state) :
    state = .outer := by
  cases h <;> simp_all

/-- Indentations that measured blanks can leave open: the base is one, and none is less wide. -/
def Grounded (levels : Levels) : Prop := 0 ∈ levels ∧ ∀ level ∈ levels, 0 ≤ level

theorem Indents.grounded {lead : List Char} {levels' : Levels} {next : Option State}
    (h : Indents behind lead ahead levels tokens levels' next) (hlevels : Grounded levels) :
    Grounded levels' := by
  refine ⟨h.base_mem hlevels.1, ?_⟩
  intro level hmem
  cases h with
  | same => exact hlevels.2 level hmem
  | opens =>
    rcases List.mem_cons.mp hmem with rfl | hmem
    · omega
    · exact hlevels.2 level hmem
  | closes => exact hlevels.2 level (List.mem_append_right _ hmem)
  | inconsistent => exact hlevels.2 level (List.mem_append_right _ hmem)

theorem Indents.next_of_nil {levels' : Levels} {next : Option State}
    (h : Indents behind [] ahead levels tokens levels' next) (hlevels : Grounded levels) :
    next = some .outer := by
  cases h with
  | same => rfl
  | opens => rfl
  | closes => rfl
  | @inconsistent n top closed left hn _ _ hlt =>
    have hzero : n = 0 := by
      cases hn
      rfl
    have htop := hlevels.2 top (by simp)
    omega

theorem Fits.upon (hbase : 0 ∈ levels) (htakes : state.Takes pending) :
    Fits ⟨.upon behind pending ahead, levels, some state⟩ := by
  refine ⟨hbase, ?_⟩
  intro s hs
  cases hs
  exact ⟨_, _, _, rfl, htakes⟩

theorem Fits.over (c : Cursor) (hbase : 0 ∈ levels) : Fits ⟨c, levels, none⟩ := by
  refine ⟨hbase, ?_⟩
  intro s hs
  cases hs

theorem Indents.fits {behind' ahead' lead : List Char} {levels' : Levels} {next : Option State}
    (h : Indents behind lead ahead levels tokens levels' next) (hbase : 0 ∈ levels) :
    Fits ⟨.upon behind' [] ahead', levels', next⟩ := by
  have hleft := h.base_mem hbase
  cases next with
  | none => exact .over _ hleft
  | some state =>
    cases h.next_eq rfl
    exact .upon hleft rfl

theorem Turn.fits (h : Turn state behind pending ahead levels tokens y) (hbase : 0 ∈ levels) :
    Fits y := by
  cases h with
  | blankLine => exact .upon hbase trivial
  | line _ hindents => exact hindents.fits hbase
  | measured hindents => exact hindents.fits hbase
  | blank => exact .upon hbase rfl
  | lineEnd => exact .upon hbase trivial
  | single => exact .upon hbase rfl
  | enters henters =>
    apply Fits.upon hbase
    cases henters <;> trivial
  | unexpected => exact .over _ hbase
  | eof hindents => exact .over _ (hindents.base_mem hbase)
  | badEnd hindents => exact .over _ (hindents.base_mem hbase)
  | quoted => exact .upon hbase rfl
  | runaway => exact .over _ hbase
  | word => exact .upon hbase rfl
  | ellipsis => exact .upon hbase rfl
  | malformed => exact .over _ hbase

theorem turn_of_exec {c' : Cursor} {levels' : Levels} {next : Option State}
    (htakes : state.Takes pending) (hbase : 0 ∈ levels)
    (h : (graph state).exec (.upon behind pending ahead) levels =
      ⟨tokens, c', levels', .ok next, m⟩) :
    Turn state behind pending ahead levels tokens ⟨c', levels', next⟩ := by
  obtain ⟨ts, y, hturn⟩ := turn_total behind ahead htakes hbase
  obtain ⟨k, hexec, _⟩ := hturn.exec
  rw [hexec] at h
  obtain ⟨rfl, rfl, rfl, hnext, -⟩ := Script.Outcome.mk.inj h
  cases hnext
  exact hturn

/-- What every turn keeps, with the tokens delivered so far, holds wherever the scan pauses. -/
theorem turns_induct {P : List Token → Pause Levels State → Prop} {before : List Token}
    (h : Leads graph x tokens m y) (hfits : Fits x) (hinit : P before x)
    (hturn : ∀ before state behind pending ahead levels ts y,
      P before ⟨.upon behind pending ahead, levels, some state⟩ →
      Turn state behind pending ahead levels ts y → P (before ++ ts) y) :
    P (before ++ tokens) y := by
  induction h generalizing before with
  | refl => simpa using hinit
  | call hexec _ ih =>
    obtain ⟨behind, pending, ahead, hcursor, htakes⟩ := hfits.2 _ rfl
    simp only at hcursor
    subst hcursor
    have ht := turn_of_exec htakes hfits.1 hexec
    rw [← List.append_assoc]
    exact ih (ht.fits hfits.1) (hturn _ _ _ _ _ _ _ _ hinit ht)

theorem Fits.leads (hfits : Fits x) (h : Leads graph x tokens m y) : Fits y := by
  induction h with
  | refl => exact hfits
  | call hexec _ ih =>
    obtain ⟨behind, pending, ahead, hcursor, htakes⟩ := hfits.2 _ rfl
    simp only at hcursor
    subst hcursor
    exact ih ((turn_of_exec htakes hfits.1 hexec).fits hfits.1)

/-- From every such pause the scan comes to an end, with the effort that was foreseen. -/
theorem exists_end (hfits : Fits x) :
    ∃ tokens m y, Leads graph x tokens m y ∧ y.next = none ∧ m ≤ effort x := by
  generalize heffort : effort x = k
  induction k using Nat.strongRecOn generalizing x with
  | ind k ih =>
    obtain ⟨c, levels, next⟩ := x
    cases next with
    | none => exact ⟨[], 0, _, .refl _, rfl, Nat.zero_le _⟩
    | some state =>
      obtain ⟨behind, pending, ahead, hcursor, htakes⟩ := hfits.2 _ rfl
      simp only at hcursor
      subst hcursor
      have hbase : 0 ∈ levels := hfits.1
      obtain ⟨ts, z, hturn⟩ := turn_total behind ahead htakes hbase
      obtain ⟨m, hexec, hm⟩ := hturn.exec
      obtain ⟨later, n, y, hleads, hy, hn⟩ := ih (effort z) (by omega) (hturn.fits hbase) rfl
      exact ⟨ts ++ later, m + 1 + n, y, .call hexec hleads, hy, by omega⟩

def first (source : Source) (levels : Levels) (state : State) : Pause Levels State :=
  ⟨{ source }, levels, some state⟩

theorem first_eq_upon (source : Source) (levels : Levels) (state : State) :
    first source levels state = ⟨.upon [] [] source.toList, levels, some state⟩ := by
  have hsource : source = .ofList source.toList := source.eq_ofList_toList
  simp only [first, Cursor.upon, List.nil_append, List.length_nil, Nat.add_zero, ← hsource]

theorem fits_first {source : Source} (hbase : 0 ∈ levels) (htakes : state.Takes []) :
    Fits (first source levels state) := by
  rw [first_eq_upon]
  exact .upon hbase htakes

theorem effort_first_lt (source : Source) (levels : Levels) (state : State) :
    3 * (effort (first source levels state) + 1) < budget source levels := by
  have hstate : state.effort ≤ 19 := by cases state <;> decide
  have hlen := source.length_toList
  rw [first_eq_upon, effort_upon, hlen, budget]
  omega

theorem run_eq {source : Source} (hbase : 0 ∈ levels) (htakes : state.Takes []) :
    ∃ m y, Leads graph (first source levels state) (run source levels state).tokens m y ∧
      y.next = none ∧ 3 * (m + 1) < budget source levels ∧
      run source levels state = ⟨(run source levels state).tokens, .finished, y.scan⟩ := by
  have hfits : Fits (first source levels state) := fits_first hbase htakes
  obtain ⟨tokens, m, y, hleads, hy, hm⟩ := exists_end hfits
  have hbudget := effort_first_lt source levels state
  have hrun : run source levels state = ⟨tokens, .finished, y.scan⟩ :=
    hleads.run_finished hy (by omega)
  rw [hrun]
  exact ⟨m, y, hleads, hy, by omega, rfl⟩

theorem run_of_leads {source : Source} (hbase : 0 ∈ levels) (htakes : state.Takes [])
    (h : Leads graph (first source levels state) tokens m y) (hy : y.next = none) :
    run source levels state = ⟨tokens, .finished, y.scan⟩ := by
  obtain ⟨n, z, hleads, hz, _, hrun⟩ := run_eq hbase htakes
  have hlong := hleads.run_finished hz (n := m + n + 1) (by omega)
  rw [hrun, ← hlong]
  exact h.run_finished hy (by omega)

end

section

variable {text : String} {tokens' : List Token} {m : Nat} {y : Pause Levels State}

def start (text : String) : Pause Levels State := first (.ofString text) Levels.base .newline

theorem fits_start (text : String) : Fits (start text) := fits_first (by simp [Levels.base]) trivial

theorem start_eq_upon (text : String) :
    start text = ⟨.upon [] [] text.toList, Levels.base, some .newline⟩ := by
  rw [start, first_eq_upon, Source.ofString, Source.toList_ofList]

/-- What is pending when a state is called in the scan of a text. A line feed stays pending until
the next line is read, and the first character of a longer lexeme until its state is called. -/
def State.Holds : State → List Char → Prop
  | .newline, pending => ∀ c ∈ pending, isBlank c = true ∨ c = '\n'
  | .outer, pending => pending = []
  | .updateIndent, _ => False
  | .doubleQuote, pending => pending = ['\x22']
  | .singleQuote, pending => pending = ['\x27']
  | .directive, pending => pending = ['#']
  | .comment, pending => pending = ['#']
  | .identifier, pending => ∃ c, pending = [c]
  | .reference, pending => pending = ['.']

/-- A scan stands in its text, before a state that finds its own in the window. -/
def StandsIn (text : List Char) (x : Pause Levels State) : Prop :=
  ∀ state, x.next = some state →
    ∃ behind pending ahead, x.cursor = .upon behind pending ahead ∧
      behind ++ pending ++ ahead = text ∧ state.Holds pending

theorem Enters.holds {state : State} {c : Char} {ahead : List Char} (h : Enters ahead c state) :
    state.Holds [c] := by
  cases h with
  | identifier => exact ⟨_, rfl⟩
  | _ => rfl

theorem Turn.standsIn {state : State} {behind pending ahead : List Char} {levels : Levels}
    {tokens : List Token} (h : Turn state behind pending ahead levels tokens y) :
    StandsIn (behind ++ pending ++ ahead) y := by
  have hread (p : Char → Bool) : ahead.takeWhile p ++ ahead.dropWhile p = ahead :=
    List.takeWhile_append_dropWhile
  intro s hs
  cases h with
  | @blankLine _ _ _ rest _ hrest =>
    cases hs
    refine ⟨_, _, _, rfl, ?_, ?_⟩
    · have htext := hread isBlank
      rw [hrest] at htext
      simp only [List.append_assoc, List.singleton_append, htext]
    · intro c hc
      rcases List.mem_append.mp hc with hc | hc
      · exact .inl (List.mem_takeWhile_imp hc)
      · exact .inr (List.mem_singleton.mp hc)
  | line _ hindents =>
    cases hindents.next_eq hs
    exact ⟨_, _, _, rfl, by simp [hread], rfl⟩
  | measured hindents =>
    cases hindents.next_eq hs
    exact ⟨_, _, _, rfl, by simp, rfl⟩
  | blank =>
    cases hs
    exact ⟨_, _, _, rfl, by simp, rfl⟩
  | lineEnd =>
    cases hs
    exact ⟨_, _, _, rfl, by simp, by simp [State.Holds]⟩
  | single =>
    cases hs
    exact ⟨_, _, _, rfl, by simp, rfl⟩
  | enters henters =>
    cases hs
    exact ⟨_, _, _, rfl, by simp, henters.holds⟩
  | unexpected => cases hs
  | eof => cases hs
  | badEnd => cases hs
  | @quoted _ mark _ _ _ rest _ _ hrest =>
    cases hs
    refine ⟨_, _, _, rfl, ?_, rfl⟩
    have htext := hread (Script.staysBefore [mark])
    rw [hrest] at htext
    simp only [List.append_assoc, List.append_nil, List.singleton_append]
    rw [htext]
  | runaway => cases hs
  | word =>
    cases hs
    exact ⟨_, _, _, rfl, by simp [hread], rfl⟩
  | ellipsis =>
    cases hs
    exact ⟨_, _, _, rfl, by simp [hread], rfl⟩
  | malformed => cases hs

theorem start_induct {P : List Token → Pause Levels State → Prop}
    (h : Leads graph (start text) tokens' m y) (hinit : P [] (start text))
    (hturn : ∀ before n state behind pending ahead levels ts z,
      Leads graph (start text) before n ⟨.upon behind pending ahead, levels, some state⟩ →
      behind ++ pending ++ ahead = text.toList → state.Holds pending →
      P before ⟨.upon behind pending ahead, levels, some state⟩ →
      Turn state behind pending ahead levels ts z → P (before ++ ts) z) :
    P tokens' y := by
  let Q (tokens : List Token) (x : Pause Levels State) : Prop :=
    (∃ n, Leads graph (start text) tokens n x) ∧ StandsIn text.toList x ∧ P tokens x
  have hstart : StandsIn text.toList (start text) := by
    rw [start_eq_upon]
    intro s hs
    cases hs
    exact ⟨_, _, _, rfl, rfl, by simp [State.Holds]⟩
  have hall : Q ([] ++ tokens') y :=
    turns_induct h (fits_start text) ⟨⟨0, .refl _⟩, hstart, hinit⟩ ?_
  · exact hall.2.2
  · rintro before state behind pending ahead levels ts z ⟨⟨n, hleads⟩, hstands, hbefore⟩ hz
    obtain ⟨b, p, a, hcursor, htext, hholds⟩ := hstands state rfl
    obtain ⟨rfl, rfl, rfl⟩ := Cursor.upon_injective hcursor
    obtain ⟨k, hexec, _⟩ := hz.exec
    exact ⟨⟨_, hleads.trans (.one hexec)⟩, htext ▸ hz.standsIn,
      hturn _ _ _ _ _ _ _ _ _ hleads htext hholds hbefore hz⟩

theorem leads_tokens (text : String) :
    ∃ m y, Leads graph (start text) (tokens text) m y ∧ y.next = none ∧
      3 * (m + 1) < budget (.ofString text) ∧
      run (.ofString text) = ⟨tokens text, .finished, y.scan⟩ := by
  have hbase : 0 ∈ Levels.base := by simp [Levels.base]
  have htakes : State.newline.Takes [] := trivial
  exact run_eq hbase htakes

theorem exists_turn {t : Token} (ht : t ∈ tokens text) :
    ∃ before n state behind pending ahead levels ts z,
      Leads graph (start text) before n ⟨.upon behind pending ahead, levels, some state⟩ ∧
      behind ++ pending ++ ahead = text.toList ∧ state.Holds pending ∧
      Turn state behind pending ahead levels ts z ∧ t ∈ ts := by
  obtain ⟨m, y, hleads, -⟩ := leads_tokens text
  refine start_induct (P := fun tokens _ => ∀ t ∈ tokens,
    ∃ before n state behind pending ahead levels ts z,
      Leads graph (start text) before n ⟨.upon behind pending ahead, levels, some state⟩ ∧
      behind ++ pending ++ ahead = text.toList ∧ state.Holds pending ∧
      Turn state behind pending ahead levels ts z ∧ t ∈ ts) hleads (by simp) ?_ t ht
  intro before n state behind pending ahead levels ts z hleads htext hholds hbefore hturn t ht
  rcases List.mem_append.mp ht with ht | ht
  · exact hbefore t ht
  · exact ⟨before, n, state, behind, pending, ahead, levels, ts, z, hleads, htext, hholds, hturn, ht⟩

theorem run_of_leads_start (h : Leads graph (start text) tokens' m y) (hy : y.next = none) :
    run (.ofString text) = ⟨tokens', .finished, y.scan⟩ :=
  run_of_leads (by simp [Levels.base]) trivial h hy

theorem tokens_of_leads (h : Leads graph (start text) tokens' m y) (hy : y.next = none) :
    tokens text = tokens' := by
  rw [tokens, run_of_leads_start h hy]

def scanned (text : String) (n : Nat) : Run (Scan Levels State) :=
  producer.run n (scan (.ofString text))

theorem scanned_tokens_le (text : String) (n : Nat) : (scanned text n).tokens <+: tokens text := by
  obtain ⟨m, y, hleads, hy, _, _⟩ := leads_tokens text
  have hwhole : scanned text (n + m + 1) = ⟨tokens text, .finished, y.scan⟩ :=
    hleads.run_finished hy (by omega)
  have hprefix : (scanned text n).tokens <+: (scanned text (n + m + 1)).tokens :=
    producer.tokens_run_le (by omega) _
  rwa [hwhole] at hprefix

theorem leads_scanned {n : Nat} {next : Option State}
    (h : (scanned text n).last.upcoming? = some next) :
    ∃ m, Leads graph (start text) (scanned text n).tokens m
      ⟨(scanned text n).last.cursor, (scanned text n).last.data, next⟩ := by
  have hrun : scanned text n = ⟨(scanned text n).tokens, (scanned text n).ending,
      Pause.scan ⟨(scanned text n).last.cursor, (scanned text n).last.data, next⟩⟩ :=
    Run.ext rfl rfl (Pause.eq_scan_of_upcoming h)
  exact Pause.leads_of_run hrun

end

end DocModelLexer.Grammar
