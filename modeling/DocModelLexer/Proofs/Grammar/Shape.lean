import DocModelLexer.Proofs.Grammar.Tiling

namespace DocModelLexer.Grammar

open Pause (Leads)

def StartsLine (behind : List Char) : Prop := ∀ c, behind.getLast? = some c → c = '\n'

/-- `lead` are all the blanks that a line begins with, and they are not all that stands on it. -/
structure LeadsLine (behind lead ahead : List Char) : Prop where
  starts : StartsLine behind
  blank : ∀ c ∈ lead, isBlank c = true
  stops : ∀ c, ahead.head? = some c → isBlank c = false ∧ c ≠ '\n'

/-- What the text `body` of a token of a kind is like between `behind` and `ahead`. -/
def Kind.Shape (behind body ahead : List Char) : Kind → Prop
  | identifier =>
    (∃ c rest, body = c :: rest ∧ isNameStart c = true ∧ ∀ d ∈ rest, isNameChar d = true) ∧
      ∀ d, ahead.head? = some d → isNameChar d = false
  | directive =>
    (∃ rest, body = '#' :: rest ∧ rest ≠ [] ∧ ∀ d ∈ rest, d ∈ capitals) ∧
      ∀ d, ahead.head? = some d → d ∉ capitals
  | comment =>
    (∃ rest, body = '#' :: rest ∧ ∀ d, rest.head? = some d → d ∉ capitals) ∧
      (∀ d ∈ body, d ≠ '\n' ∧ d ≠ '\x00') ∧
      ∀ d, ahead.head? = some d → d = '\n' ∨ d = '\x00'
  | quote =>
    ∃ mark, (mark = '\x22' ∨ mark = '\x27') ∧ behind.getLast? = some mark ∧
      ahead.head? = some mark ∧ ∀ d ∈ body, d ≠ mark ∧ d ≠ '\n' ∧ d ≠ '\x00'
  | reference => body = ['.', '.', '.'] ∧ behind.getLast? ≠ some '.' ∧ ahead.head? ≠ some '.'
  | indent => body ≠ [] ∧ LeadsLine behind body ahead
  | dedent => body = [] ∨ LeadsLine behind body ahead
  | eof => body = [] ∧ ahead = []
  | kind => ∃ c, body = [c] ∧ ofChar? c = some kind

/-- The token stands in the text with the shape of its kind, if it is no error. -/
def Shaped (chars : List Char) (t : Token) : Prop :=
  ∀ kind : Kind, t.type = kind.type → ∃ behind body ahead, chars = behind ++ body ++ ahead ∧
    t.value = String.ofList body ∧ t.StandsAt behind.length (behind.length + body.length) ∧
    kind.Shape behind body ahead

/-- No two dots meet here. -/
def DotsApart (behind ahead : List Char) : Prop :=
  behind.getLast? = some '.' → ahead.head? ≠ some '.'

/-- What the text around its window is like when a state is called. How a lexeme begins, and what
stands before it, is known to the state that was called earlier, and not to the one that reads
it. -/
def State.Meets (behind pending ahead : List Char) : State → Prop
  | .newline => StartsLine (behind ++ pending)
  | .outer => DotsApart behind ahead
  | .directive => ∃ d, ahead.head? = some d ∧ d ∈ capitals
  | .comment => ∀ d, ahead.head? = some d → d ∉ capitals
  | .identifier => ∀ c ∈ pending, isNameStart c = true
  | .reference => behind.getLast? ≠ some '.'
  | _ => True

theorem Kind.type_injective : Function.Injective Kind.type := by
  intro kind kind' h
  cases kind <;> cases kind' <;> first | rfl | cases h

theorem Kind.type_ne_errorType (kind : Kind) : kind.type ≠ errorType := by
  cases kind <;> decide

theorem Kind.shape_of_ofChar {c : Char} {kind : Kind} (h : ofChar? c = some kind)
    (behind ahead : List Char) : kind.Shape behind [c] ahead := by
  unfold ofChar? at h
  split at h <;> cases h <;> exact ⟨_, rfl, rfl⟩

section

variable {chars behind body ahead pending lead : List Char} {state : State} {kind : Kind}
  {p : Char → Bool}

theorem not_of_head_dropWhile {c : Char} (h : (ahead.dropWhile p).head? = some c) :
    p c = false := by
  have hstop := List.head?_dropWhile_not p ahead
  rw [h] at hstop
  exact hstop

theorem stays_iff {stops : List Char} {c : Char} :
    Script.staysBefore stops c = true ↔ c ∉ stops ∧ c ≠ '\n' ∧ c ≠ '\x00' := by
  simp [Script.staysBefore]

theorem stop_of_head_dropWhile {stops : List Char} {c : Char}
    (h : (ahead.dropWhile (Script.staysBefore stops)).head? = some c) :
    c ∈ stops ∨ c = '\n' ∨ c = '\x00' := by
  have hstop := not_of_head_dropWhile h
  by_contra hneither
  rw [not_or, not_or] at hneither
  rw [stays_iff.mpr hneither] at hstop
  cases hstop

theorem StartsLine.leadsLine (h : StartsLine behind)
    (hahead : (ahead.dropWhile isBlank).head? ≠ some '\n') :
    LeadsLine behind (ahead.takeWhile isBlank) (ahead.dropWhile isBlank) where
  starts := h
  blank := blank_of_takeWhile ahead
  stops := by
    intro c hc
    refine ⟨not_of_head_dropWhile hc, ?_⟩
    rintro rfl
    exact hahead hc

theorem dotsApart_of_not_mem (hbody : body ≠ []) (hdot : '.' ∉ body) (behind ahead : List Char) :
    DotsApart (behind ++ body) ahead := by
  intro hlast
  rw [List.getLast?_append, List.getLast?_eq_some_getLast hbody, Option.some_or] at hlast
  have hmem := List.getLast_mem hbody
  rw [Option.some.inj hlast] at hmem
  exact absurd hmem hdot

theorem dotsApart_of_ne {c : Char} (hc : c ≠ '.') (behind ahead : List Char) :
    DotsApart (behind ++ [c]) ahead := by
  apply dotsApart_of_not_mem (List.cons_ne_nil c [])
  intro hdot
  exact hc (List.mem_singleton.mp hdot).symm

theorem LeadsLine.dotsApart (h : LeadsLine behind lead ahead) : DotsApart (behind ++ lead) ahead := by
  cases lead with
  | nil =>
    intro hlast
    rw [List.append_nil] at hlast
    cases h.starts _ hlast
  | cons c lead =>
    apply dotsApart_of_not_mem (List.cons_ne_nil c lead)
    intro hdot
    cases h.blank '.' hdot

theorem Shaped.upon (hchars : chars = behind ++ body ++ ahead) (h : kind.Shape behind body ahead) :
    Shaped chars (.upon kind.type behind body ahead) := by
  intro kind' hkind
  cases Kind.type_injective hkind
  exact ⟨behind, body, ahead, hchars, rfl, Token.upon_standsAt _ _ _ _, h⟩

theorem Shaped.errorUpon (message : String) :
    Shaped chars (.errorUpon message behind body ahead) := by
  intro kind hkind
  exact absurd hkind.symm kind.type_ne_errorType

theorem Enters.meets {c : Char} (h : Enters ahead c state) (hdots : DotsApart behind (c :: ahead)) :
    state.Meets behind [c] ahead := by
  cases h with
  | doubleQuote => trivial
  | singleQuote => trivial
  | reference =>
    intro hlast
    exact hdots hlast rfl
  | directive hd hcap => exact ⟨_, hd, hcap⟩
  | comment hcap => exact hcap
  | identifier _ hstart =>
    intro d hd
    rw [List.mem_singleton.mp hd]
    exact hstart

theorem dedents_shaped (hchars : chars = behind ++ lead ++ ahead)
    (hlead : Kind.dedent.Shape behind lead ahead) (n : Nat) :
    ∀ t ∈ dedents behind lead ahead n, Shaped chars t := by
  induction n generalizing behind lead with
  | zero =>
    intro t ht
    cases ht
  | succ n ih =>
    intro t ht
    rcases List.mem_cons.mp ht with rfl | ht
    · exact .upon hchars hlead
    · have hrest : chars = (behind ++ lead) ++ [] ++ ahead := by simpa using hchars
      exact ih hrest (.inl rfl) t ht

theorem Indents.shaped {levels levels' : Levels} {ts : List Token} {next : Option State}
    (h : Indents behind lead ahead levels ts levels' next) (hlevels : Grounded levels)
    (hchars : chars = behind ++ lead ++ ahead) (hlead : Kind.dedent.Shape behind lead ahead) :
    ∀ t ∈ ts, Shaped chars t := by
  intro t ht
  cases h with
  | same => cases ht
  | @opens n top left hn hlt =>
    -- no open indentation is narrower than nothing, so there is something to measure
    have hne : lead ≠ [] := by
      intro hnil
      subst hnil
      have htop := hlevels.2 top List.mem_cons_self
      cases hn
      omega
    rw [List.mem_singleton.mp ht]
    exact .upon hchars ⟨hne, hlead.resolve_left hne⟩
  | closes => exact dedents_shaped hchars hlead _ t ht
  | inconsistent =>
    rcases List.mem_append.mp ht with ht | ht
    · exact dedents_shaped hchars hlead _ t ht
    · rw [List.mem_singleton.mp ht]
      exact .errorUpon _

theorem Word.shape (h : Word state p kind) (hholds : state.Holds pending)
    (hmeets : state.Meets behind pending ahead) :
    kind.Shape behind (pending ++ ahead.takeWhile p) (ahead.dropWhile p) := by
  cases h with
  | directive =>
    cases (hholds : pending = ['#'])
    obtain ⟨d, hd, hcap⟩ := hmeets
    obtain ⟨rest, rfl⟩ := List.head?_eq_some_iff.mp hd
    refine ⟨⟨_, rfl, ?_, ?_⟩, ?_⟩
    · simp [hcap]
    · intro c hc
      exact of_decide_eq_true (List.mem_takeWhile_imp (p := fun c => decide (c ∈ capitals)) hc)
    · intro c hc
      exact of_decide_eq_false (not_of_head_dropWhile hc)
  | comment =>
    cases (hholds : pending = ['#'])
    -- the state before has looked at the character behind the sign, and left it
    refine ⟨⟨ahead.takeWhile (Script.staysBefore []), rfl, ?_⟩, ?_, ?_⟩
    · intro d hd
      apply hmeets d
      rw [List.head?_takeWhile] at hd
      exact (Option.filter_eq_some_iff.mp hd).1
    · intro d hd
      rcases List.mem_cons.mp hd with rfl | hd
      · decide
      · exact (stays_iff.mp (List.mem_takeWhile_imp hd)).2
    · intro d hd
      exact (stop_of_head_dropWhile hd).resolve_left List.not_mem_nil
  | identifier =>
    obtain ⟨c, rfl⟩ := hholds
    refine ⟨⟨c, _, rfl, hmeets c (List.mem_singleton_self c), ?_⟩, ?_⟩
    · intro d hd
      exact List.mem_takeWhile_imp hd
    · intro d hd
      exact not_of_head_dropWhile hd

theorem Word.dotsApart (h : Word state p kind) (hshape : kind.Shape behind body ahead) :
    DotsApart (behind ++ body) ahead := by
  cases h with
  | directive =>
    obtain ⟨⟨rest, rfl, -, hrest⟩, -⟩ := hshape
    apply dotsApart_of_not_mem (List.cons_ne_nil _ _)
    intro hdot
    rcases List.mem_cons.mp hdot with hdot | hdot
    · cases hdot
    · exact absurd (hrest _ hdot) (by decide)
  | comment =>
    obtain ⟨-, -, hahead⟩ := hshape
    intro _ hdot
    rcases hahead _ hdot with hdot | hdot <;> cases hdot
  | identifier =>
    obtain ⟨⟨c, rest, rfl, hstart, hrest⟩, -⟩ := hshape
    apply dotsApart_of_not_mem (List.cons_ne_nil _ _)
    intro hdot
    rcases List.mem_cons.mp hdot with rfl | hdot
    · exact absurd hstart (by decide +kernel)
    · exact absurd (hrest _ hdot) (by decide +kernel)

variable {levels : Levels} {ts : List Token} {y : Pause Levels State}

theorem Turn.shaped (h : Turn state behind pending ahead levels ts y)
    (hchars : chars = behind ++ pending ++ ahead) (hholds : state.Holds pending)
    (hmeets : state.Meets behind pending ahead) (hlevels : Grounded levels) :
    ∀ t ∈ ts, Shaped chars t := by
  have hword (p : Char → Bool) := hchars.trans (append_read_pending p behind pending ahead).symm
  have hbody (p : Char → Bool) := hchars.trans (append_read p behind pending ahead).symm
  intro t ht
  cases h with
  | blankLine => cases ht
  | line hline hindents =>
    have hleads : StartsLine (behind ++ pending) := hmeets
    exact hindents.shaped hlevels (hbody isBlank) (.inr (hleads.leadsLine hline)) t ht
  | measured => cases hholds
  | blank => cases ht
  | lineEnd => cases ht
  | @single _ c rest _ kind hkind =>
    have htext : chars = behind ++ [c] ++ rest := by simpa using hchars
    rw [List.mem_singleton.mp ht]
    exact .upon htext (Kind.shape_of_ofChar hkind behind rest)
  | enters => cases ht
  | unexpected =>
    rw [List.mem_singleton.mp ht]
    exact .errorUpon _
  | eof hindents =>
    rcases List.mem_append.mp ht with ht | ht
    · exact hindents.shaped hlevels hchars (.inl rfl) t ht
    · rw [List.mem_singleton.mp ht]
      exact .upon hchars ⟨rfl, rfl⟩
  | badEnd hindents => exact hindents.shaped hlevels hchars (.inl rfl) t ht
  | @quoted _ mark _ _ _ rest _ hquote hrest =>
    cases hquote.pending_eq hholds
    have htext := hbody (Script.staysBefore [mark])
    rw [hrest] at htext
    rw [List.mem_singleton.mp ht]
    refine .upon htext ⟨mark, hquote.mark_eq, List.getLast?_concat, rfl, ?_⟩
    intro d hd
    obtain ⟨hmark, hplain⟩ := stays_iff.mp (List.mem_takeWhile_imp hd)
    exact ⟨mt List.mem_singleton.mpr hmark, hplain⟩
  | runaway =>
    rw [List.mem_singleton.mp ht]
    exact .errorUpon _
  | @word _ p _ _ _ _ _ hkind =>
    rw [List.mem_singleton.mp ht]
    exact .upon (hword p) (hkind.shape hholds hmeets)
  | ellipsis hdots =>
    rw [List.mem_singleton.mp ht]
    refine .upon (hword _) ⟨hdots, hmeets, ?_⟩
    intro hdot
    cases not_of_head_dropWhile hdot
  | malformed =>
    rw [List.mem_singleton.mp ht]
    exact .errorUpon _

theorem Turn.meets (h : Turn state behind pending ahead levels ts y)
    (hholds : state.Holds pending) (hmeets : state.Meets behind pending ahead) :
    ∀ next, y.next = some next →
      ∃ behind pending ahead, y.cursor = .upon behind pending ahead ∧
        next.Meets behind pending ahead := by
  intro next hnext
  cases h with
  | blankLine =>
    cases hnext
    refine ⟨_, _, _, rfl, ?_⟩
    intro c hc
    rw [← List.append_assoc, List.getLast?_concat] at hc
    exact (Option.some.inj hc).symm
  | line hline hindents =>
    cases hindents.next_eq hnext
    have hleads : StartsLine (behind ++ pending) := hmeets
    exact ⟨_, _, _, rfl, (hleads.leadsLine hline).dotsApart⟩
  | measured => cases hholds
  | @blank _ c _ _ hc =>
    cases hnext
    refine ⟨_, _, _, rfl, dotsApart_of_ne ?_ _ _⟩
    rintro rfl
    cases hc
  | lineEnd =>
    cases hnext
    refine ⟨_, _, _, rfl, ?_⟩
    intro c hc
    rw [List.getLast?_concat] at hc
    exact (Option.some.inj hc).symm
  | @single _ c _ _ _ hkind =>
    cases hnext
    refine ⟨_, _, _, rfl, dotsApart_of_ne ?_ _ _⟩
    rintro rfl
    cases hkind
  | enters henters =>
    cases hnext
    exact ⟨_, _, _, rfl, henters.meets hmeets⟩
  | unexpected => cases hnext
  | eof => cases hnext
  | badEnd => cases hnext
  | quoted hquote =>
    cases hnext
    refine ⟨_, _, _, rfl, dotsApart_of_ne ?_ _ _⟩
    rcases hquote.mark_eq with rfl | rfl <;> decide
  | runaway => cases hnext
  | word hword =>
    cases hnext
    exact ⟨_, _, _, rfl, hword.dotsApart (hword.shape hholds hmeets)⟩
  | ellipsis =>
    cases hnext
    refine ⟨_, _, _, rfl, ?_⟩
    intro _ hdot
    cases not_of_head_dropWhile hdot
  | malformed => cases hnext

end

/-- At every pause of the scan of a text the next state is met as it expects: each turn hands on how
its text meets the state that it calls. -/
theorem leads_meets {text : String} {tokens : List Token} {m : Nat} {y : Pause Levels State}
    (h : Leads graph (start text) tokens m y) :
    ∀ state, y.next = some state → ∃ behind pending ahead,
      y.cursor = .upon behind pending ahead ∧ state.Meets behind pending ahead := by
  refine start_induct (P := fun _ y => ∀ state, y.next = some state → ∃ behind pending ahead,
    y.cursor = .upon behind pending ahead ∧ state.Meets behind pending ahead) h ?_ ?_
  · intro state hstate
    cases hstate
    refine ⟨[], [], text.toList, congrArg Pause.cursor (start_eq_upon text), ?_⟩
    intro c hc
    cases hc
  · intro before n state behind pending ahead levels ts z _ _ hholds hbefore hturn
    obtain ⟨b, p, a, hcursor, hmeets⟩ := hbefore state rfl
    obtain ⟨rfl, rfl, rfl⟩ := Cursor.upon_injective hcursor
    exact hturn.meets hholds hmeets

theorem meets_of_leads {text : String} {tokens : List Token} {m : Nat} {state : State}
    {behind pending ahead : List Char} {levels : Levels}
    (h : Leads graph (start text) tokens m ⟨.upon behind pending ahead, levels, some state⟩) :
    state.Meets behind pending ahead := by
  obtain ⟨_, _, _, hcursor, hmeets⟩ := leads_meets h state rfl
  obtain ⟨rfl, rfl, rfl⟩ := Cursor.upon_injective hcursor
  exact hmeets

theorem shaped_of_mem_tokens {text : String} {t : Token} (ht : t ∈ tokens text) :
    Shaped text.toList t := by
  obtain ⟨_, _, _, _, _, _, _, _, _, hleads, htext, hholds, hturn, hmem⟩ := exists_turn ht
  have hmeets := meets_of_leads hleads
  exact hturn.shaped htext.symm hholds hmeets (leads_nested hleads).grounded t hmem

/-- Every token of a text has the shape of its kind where it stands: it is complete, and as long as
it can be. -/
theorem tokens_shaped (text : String) (t : Token) (ht : t ∈ tokens text) (kind : Kind)
    (hkind : t.type = kind.type) :
    ∃ behind body ahead, text.toList = behind ++ body ++ ahead ∧ t.value = String.ofList body ∧
      t.StandsAt behind.length (behind.length + body.length) ∧ kind.Shape behind body ahead := by
  have hshaped := shaped_of_mem_tokens ht
  exact hshaped kind hkind

theorem tokens_shaped_indent :
    ∃ behind body ahead, "a\n\t...".toList = behind ++ body ++ ahead ∧
      "\t" = String.ofList body ∧ behind.length = 2 ∧ body ≠ [] ∧ LeadsLine behind body ahead := by
  let t : Token := ⟨Kind.indent.type, "\t", some ⟨⟨2, 1, 2⟩, ⟨2, 2, 3⟩⟩⟩
  have ht : t ∈ tokens "a\n\t..." := by decide +kernel
  obtain ⟨behind, body, ahead, htext, hvalue, ⟨-, hbegins, -⟩, hne, hleads⟩ :=
    tokens_shaped "a\n\t..." t ht .indent rfl
  exact ⟨behind, body, ahead, htext, hvalue, (Int.ofNat_inj.mp hbegins).symm, hne, hleads⟩

end DocModelLexer.Grammar
