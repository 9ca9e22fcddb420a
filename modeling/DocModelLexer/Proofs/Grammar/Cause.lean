import DocModelLexer.Proofs.Grammar.Complaint
import DocModelLexer.Proofs.Grammar.Finality
import DocModelLexer.Proofs.Grammar.Separation
import DocModelLexer.Proofs.Grammar.Stack

namespace DocModelLexer.Grammar

open Pause (Leads)

/-- The widths of the indentations that tokens have left open, innermost first, and of the base. -/
def openWidths (tokens : List Token) : List Int :=
  (unclosed tokens).map (fun text => widthOf text.toList) ++ [0]

/-- Why a scan ends in an error: what its text is like around the stretch that the error quotes, and
what tokens come before. -/
inductive Cause (before : List Token) : List Char → Error → List Char → Prop where
  | unexpected {behind : List Char} {c : Char} {ahead : List Char} :
      IsPlain c → isNameStart c = false → Cause before behind (.unexpected c) ahead
  | malformed {behind : List Char} {n : Nat} {ahead : List Char} : n ≠ 0 → n ≠ 3 →
      behind.getLast? ≠ some '.' → ahead.head? ≠ some '.' →
      Cause before behind (.malformedReference (List.replicate n '.')) ahead
  /-- A mark that is behind all tokens opens a quote, and the line or a NUL ends it. -/
  | runaway {known : List Char} {mark : Char} {body ahead : List Char} :
      mark = '\x22' ∨ mark = '\x27' → (∀ t ∈ before, t.follow ≤ known.length) →
      (∀ c ∈ body, c ≠ mark ∧ c ≠ '\n' ∧ c ≠ '\x00') →
      (∀ c, ahead.head? = some c → c = '\n' ∨ c = '\x00') →
      Cause before (known ++ [mark]) (.runawayQuote body) ahead
  /-- No indentation that was open before the line is as wide as its blanks, and `expected` is the
  widest of those that are less wide. -/
  | inconsistent {known lead : List Char} {expected : Int} {found : Nat} {ahead : List Char} :
      LeadsLine known lead ahead → measure lead = .ok found →
      (found : Int) ∉ openWidths (before.filter (·.endsBefore known.length)) →
      expected ∈ openWidths (before.filter (·.endsBefore known.length)) → expected < found →
      (∀ level ∈ openWidths (before.filter (·.endsBefore known.length)), level < found →
        level ≤ expected) →
      Cause before (known ++ lead) (.inconsistentDedent expected found) ahead

theorem map_widthOf {texts : List String} {ws : List Nat}
    (h : texts.map (fun text => measure text.toList) = ws.map .ok) :
    texts.map (fun text => widthOf text.toList) = ws.map Int.ofNat := by
  induction texts generalizing ws with
  | nil =>
    cases ws with
    | nil => rfl
    | cons => cases h
  | cons text texts ih =>
    cases ws with
    | nil => cases h
    | cons w ws =>
      obtain ⟨hw, hrest⟩ := List.cons.inj h
      rw [List.map_cons, List.map_cons, widthOf_of_measure hw, ih hrest]
      rfl

theorem Nested.openWidths_eq {tokens : List Token} {levels : Levels} (h : Nested tokens levels) :
    openWidths tokens = levels := by
  obtain ⟨ws, hws, rfl⟩ := h.widths
  rw [openWidths, map_widthOf hws]

section

variable {text : String} {state : State} {behind pending lead ahead left rest : List Char}
  {levels : Levels} {before closing ts : List Token} {e : Error} {y : Pause Levels State} {m : Nat}

theorem Turn.follow_le (h : Turn state behind pending ahead levels ts y)
    (hholds : state.Holds pending) (hmeets : state.Meets behind pending ahead) :
    ∀ t ∈ ts, t.follow ≤ reach y := by
  intro t ht
  by_cases hquote : t.type = Kind.quote.type
  · have htype : t.type ∉ inseparable := by
      rw [hquote]
      decide
    obtain ⟨known, rest, rfl, hfollow, -⟩ := h.stopsAt_blank hholds hmeets ht htype
    rw [reach_closed]
    omega
  · have hends := (h.between t ht).ends_le
    rwa [Token.follow, if_neg hquote, Int.add_zero]

theorem leads_follow_le (h : Leads graph (start text) ts m y) : ∀ t ∈ ts, t.follow ≤ reach y := by
  refine start_induct (P := fun ts y => ∀ t ∈ ts, t.follow ≤ reach y) h (by simp) ?_
  intro before n state behind pending ahead levels ts z hleads _ hholds hbefore hturn t ht
  rcases List.mem_append.mp ht with ht | ht
  · have hle := hbefore t ht
    have hreach := reach_le hturn
    rw [reach_some] at hle
    omega
  · exact hturn.follow_le hholds (meets_of_leads hleads) t ht

theorem Turn.pending_of_newline (h : Turn state behind pending ahead levels ts y)
    (hy : y.next = some .newline) : y.cursor.tokenStart < y.cursor.position := by
  cases h with
  | blankLine => simp [Cursor.upon]
  | line _ hindents => cases hindents.next_eq hy
  | measured hindents => cases hindents.next_eq hy
  | lineEnd => simp [Cursor.upon]
  | enters henters =>
    cases hy
    cases henters
  | _ => cases hy

theorem leads_newline_pending (h : Leads graph (start text) ts m y) (hy : y.next = some .newline) :
    ts = [] ∨ y.cursor.tokenStart < y.cursor.position := by
  refine start_induct (P := fun ts y => y.next = some .newline →
    ts = [] ∨ y.cursor.tokenStart < y.cursor.position) h (fun _ => .inl rfl) ?_ hy
  intro before n state behind pending ahead levels ts z _ _ _ _ hturn hz
  exact .inr (hturn.pending_of_newline hz)

theorem filter_endsBefore (lead rest : List Char) (n : Nat)
    (h : Leads graph (start text) before m ⟨.upon behind pending ahead, levels, some .newline⟩) :
    (before ++ dedents (behind ++ pending) lead rest n).filter
      (·.endsBefore (behind ++ pending).length) = before := by
  have hbefore : before.filter (·.endsBefore (behind ++ pending).length) = before := by
    refine List.filter_eq_self.mpr fun t ht => ?_
    have hbetween := leads_between h (fits_start text) rfl t ht
    have hends := hbetween.ends_le
    rw [reach_some] at hends
    have hpending : before = [] ∨ behind.length < behind.length + pending.length :=
      leads_newline_pending h rfl
    rcases hpending with rfl | hlt
    · cases ht
    · rw [hbetween.endsBefore_eq, decide_eq_true_eq, List.length_append]
      omega
  have hclosing : (dedents (behind ++ pending) lead rest n).filter
      (·.endsBefore (behind ++ pending).length) = [] := by
    refine List.filter_eq_nil_iff.mpr fun t ht => ?_
    have hbetween := dedents_between n t ht
    have hbegins := hbetween.le_begins
    have hle := hbetween.begins_le
    rw [hbetween.endsBefore_eq, decide_eq_true_eq]
    omega
  rw [List.filter_append, hbefore, hclosing, List.append_nil]

theorem Fails.cause (h : Fails state behind pending ahead levels closing e left rest)
    (hleads : Leads graph (start text) before m ⟨.upon behind pending ahead, levels, some state⟩)
    (hholds : state.Holds pending) : Cause (before ++ closing) left e rest := by
  have hmeets := meets_of_leads hleads
  cases h with
  | unexpected hplain hstart => exact .unexpected hplain hstart
  | @inconsistent _ _ _ closed inner n top hline hn hclosed hlt =>
    have hnested := leads_nested hleads
    have hstacked : Stacked (closed ++ top :: inner) := hnested.stacked
    have hstarts : StartsLine (behind ++ pending) := hmeets
    have hopen := hnested.openWidths_eq
    refine .inconsistent (hstarts.leadsLine hline) hn ?_ ?_ hlt ?_ <;>
      rw [filter_endsBefore _ _ _ hleads, hopen]
    · exact mt (hstacked.mem_iff hclosed (Int.le_of_lt hlt)).mp (Int.ne_of_lt hlt)
    · exact List.mem_append_right _ List.mem_cons_self
    · intro level hmem hlevel
      rcases List.mem_append.mp hmem with hmem | hmem
      · have hwide := hclosed level hmem
        omega
      · exact hstacked.pop.le_top hmem
  | @runaway _ mark _ _ _ _ hquote hrest =>
    cases hquote.pending_eq hholds
    refine .runaway hquote.mark_eq ?_ ?_ ?_
    · intro t ht
      rw [List.append_nil] at ht
      exact leads_follow_le hleads t ht
    · intro c hc
      obtain ⟨hmark, hplain⟩ := stays_iff.mp (List.mem_takeWhile_imp hc)
      exact ⟨mt List.mem_singleton.mpr hmark, hplain⟩
    · intro c hc
      refine (stop_of_head_dropWhile hc).resolve_left ?_
      intro hmark
      rw [List.mem_singleton.mp hmark] at hc
      exact hrest hc
  | malformed hdots =>
    cases (hholds : pending = ['.'])
    have hpoints : ['.'] ++ ahead.takeWhile (· == '.') =
        List.replicate (1 + (ahead.takeWhile (· == '.')).length) '.' := by
      refine List.eq_replicate_iff.mpr ⟨by simp [Nat.add_comm], ?_⟩
      intro c hc
      rcases List.mem_append.mp hc with hc | hc
      · exact List.mem_singleton.mp hc
      · simpa using List.mem_takeWhile_imp hc
    rw [hpoints] at hdots ⊢
    refine .malformed (by omega) ?_ hmeets ?_
    · intro hthree
      rw [hthree] at hdots
      exact hdots rfl
    · intro hdot
      cases not_of_head_dropWhile hdot

end

/-- The error at the end of the tokens of a text stands over a stretch of a single line, its message
is about that stretch, and it has a cause there. -/
theorem error_cause (text : String) (before : List Token) (t : Token)
    (htokens : tokens text = before ++ [t]) (herror : t.isError = true) :
    ∃ (e : Error) (behind ahead : List Char) (span : Span),
      text.toList = behind ++ e.subject ++ ahead ∧ '\n' ∉ e.subject ∧
      t = ⟨errorType, e.message, some span⟩ ∧ span.start.line = span.stop.line ∧
      span.start.offset = behind.length ∧
      span.stop.offset = (behind ++ e.subject).length ∧ Cause before behind e ahead := by
  have ht : t ∈ tokens text := by simp [htokens]
  obtain ⟨earlier, n, state, _, _, _, levels, closing, e, behind, ahead, hleads, htext, hholds,
    hfails, hall, hmessage⟩ := exists_fails ht herror
  have hbefore : earlier ++ closing = before := List.append_cancel_right (hall.symm.trans htokens)
  have hsubject := hfails.lineFeed_not_mem hholds
  have hcause := hfails.cause hleads hholds
  rw [hbefore] at hcause
  obtain ⟨-, hbegins, hends⟩ := Token.errorUpon_standsAt e.message behind e.subject ahead
  refine ⟨e, behind, ahead, _, (hfails.text_eq.trans htext).symm, hsubject, hmessage,
    Cursor.span_upon_line behind hsubject ahead, hbegins, ?_, hcause⟩
  rw [List.length_append]
  exact hends

theorem error_cause_dedent :
    ∃ (e : Error) (behind ahead : List Char), "a\n  b\n c".toList = behind ++ e.subject ++ ahead ∧
      e.message = "Inconsistent dedent. Expecting 0 but found 1." ∧ behind.length = 7 ∧
      Cause (tokens "a\n  b\n c").dropLast behind e ahead := by
  let t : Token := ⟨errorType, "Inconsistent dedent. Expecting 0 but found 1.",
    some ⟨⟨3, 2, 7⟩, ⟨3, 2, 7⟩⟩⟩
  have htokens : tokens "a\n  b\n c" = (tokens "a\n  b\n c").dropLast ++ [t] := by decide +kernel
  obtain ⟨e, behind, ahead, span, htext, -, ht, -, hstart, -, hcause⟩ :=
    error_cause "a\n  b\n c" _ t htokens rfl
  obtain ⟨-, hmessage, hspan⟩ := Token.mk.inj ht
  cases hspan
  exact ⟨e, behind, ahead, htext, hmessage.symm, (Int.ofNat_inj.mp hstart).symm, hcause⟩

end DocModelLexer.Grammar
