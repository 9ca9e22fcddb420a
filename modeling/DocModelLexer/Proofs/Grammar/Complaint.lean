import DocModelLexer.Proofs.Grammar.Message
import DocModelLexer.Proofs.Grammar.Nesting

namespace DocModelLexer

namespace Text

variable {c : Char}

theorem not_mem_hexDigits (hc : c.toNat < 0x20) (width n : Nat) :
    c ∉ (hexDigits width n).map Char.toUpper := by
  have hdigit : ∀ d < 16, 0x20 ≤ (Nat.digitChar d).toUpper.toNat := by decide
  have hdigits (n : Nat) : ∀ d ∈ Nat.toDigits 16 n, 0x20 ≤ d.toUpper.toNat := by
    induction n using Nat.strongRecOn with
    | ind n ih =>
      intro d hd
      rw [Nat.toDigits_eq_if (by decide)] at hd
      split at hd
      · rename_i hlt
        rw [List.mem_singleton.mp hd]
        exact hdigit n hlt
      · rename_i hlt
        rcases List.mem_append.mp hd with hd | hd
        · exact ih (n / 16) (by omega) d hd
        · rw [List.mem_singleton.mp hd]
          exact hdigit (n % 16) (Nat.mod_lt _ (by decide))
  intro hmem
  obtain ⟨d, hd, rfl⟩ := List.mem_map.mp hmem
  rw [hexDigits, List.leftpad] at hd
  rcases List.mem_append.mp hd with hd | hd
  · rw [(List.mem_replicate.mp hd).2] at hc
    exact absurd hc (by decide)
  · exact absurd hc (Nat.not_lt.mpr (hdigits n d hd))

theorem not_mem_toString (hc : c.toNat < 0x20) (n : Int) : c ∉ (toString n).toList := by
  intro hmem
  rw [toList_toString] at hmem
  rcases List.mem_append.mp hmem with hmem | hmem
  · split at hmem
    · rw [List.mem_singleton.mp hmem] at hc
      exact absurd hc (by decide)
    · cases hmem
  · have hdigit := Nat.isDigit_of_mem_toDigits (by decide) (Nat.le_refl 10) hmem
    have hle : 48 ≤ c.val := (by simpa [Char.isDigit] using hdigit : 48 ≤ c.val ∧ c.val ≤ 57).1
    have hlow : 48 ≤ c.toNat := UInt32.le_iff_toNat_le.mp hle
    omega

theorem lineFeed_not_mem_toString (n : Int) : '\n' ∉ (toString n).toList :=
  not_mem_toString (by decide) n

end Text

namespace Grammar

/-- The stretch of the source that a message quotes. -/
def Error.subject : Error → List Char
  | .unexpected c => [c]
  | .inconsistentDedent .. => []
  | .runawayQuote text | .malformedReference text => text

theorem Error.not_mem_message {c : Char} (hc : c.toNat < 0x20) {e : Error} (h : c ∉ e.subject) :
    c ∉ e.message.toList := by
  have hwords (words : String) (hwords : words.toList.all fun d => 0x20 ≤ d.toNat) :
      c ∉ words.toList := by
    intro hmem
    have hle := List.all_eq_true.mp hwords c hmem
    exact absurd hc (Nat.not_lt.mpr (of_decide_eq_true hle))
  cases e with
  | unexpected d =>
    have hcode := Text.not_mem_hexDigits hc 4 d.toNat
    have hmessage : (unexpected d).message = "Unexpected unicode character (U+" ++
        String.ofList ((Text.hexDigits 4 d.toNat).map Char.toUpper) ++ " '" ++ String.singleton d ++
        "') in outer context." := rfl
    have hfirst := hwords "Unexpected unicode character (U+" (by decide)
    have hmark := hwords " '" (by decide)
    have hlast := hwords "') in outer context." (by decide)
    have hd : c ∉ (String.singleton d).toList := by simpa [subject] using h
    rw [hmessage]
    simp only [String.toList_append, String.toList_ofList, List.mem_append, not_or]
    exact ⟨⟨⟨⟨hfirst, hcode⟩, hmark⟩, hd⟩, hlast⟩
  | inconsistentDedent expected found =>
    have hexpected := Text.not_mem_toString hc expected
    have hfound := Text.not_mem_toString hc found
    have hmessage : (inconsistentDedent expected found).message =
        "Inconsistent dedent. Expecting " ++ toString expected ++ " but found " ++ toString found ++
        "." := rfl
    have hfirst := hwords "Inconsistent dedent. Expecting " (by decide)
    have hmiddle := hwords " but found " (by decide)
    have hlast := hwords "." (by decide)
    rw [hmessage]
    simp only [String.toList_append, List.mem_append, not_or]
    exact ⟨⟨⟨⟨hfirst, hexpected⟩, hmiddle⟩, hfound⟩, hlast⟩
  | runawayQuote text =>
    have hmessage : (runawayQuote text).message = "Runaway quote: " ++ String.ofList text := rfl
    have hfirst := hwords "Runaway quote: " (by decide)
    rw [hmessage]
    simp only [String.toList_append, String.toList_ofList, List.mem_append, not_or]
    exact ⟨hfirst, h⟩
  | malformedReference text =>
    have hmessage : (malformedReference text).message =
        "Malformed reference ellipsis: " ++ String.ofList text := rfl
    have hfirst := hwords "Malformed reference ellipsis: " (by decide)
    rw [hmessage]
    simp only [String.toList_append, String.toList_ofList, List.mem_append, not_or]
    exact ⟨hfirst, h⟩

theorem Error.lineFeed_not_mem_message {e : Error} (h : '\n' ∉ e.subject) :
    '\n' ∉ e.message.toList :=
  e.not_mem_message (by decide) h

def Complains (chars : List Char) (t : Token) : Prop :=
  ∃ (e : Error) (behind ahead : List Char), chars = behind ++ e.subject ++ ahead ∧
    '\n' ∉ e.subject ∧ t = .errorUpon e.message behind e.subject ahead

/-- A call that ends a scan with an error: the window and the open indentations it is called
with, the tokens it delivers before the error, the error, and the text before and behind what
that quotes. -/
inductive Fails : State → List Char → List Char → List Char → Levels → List Token → Error →
    List Char → List Char → Prop where
  | unexpected {behind c ahead levels} : IsPlain c → isNameStart c = false →
      Fails .outer behind [] (c :: ahead) levels [] (.unexpected c) behind ahead
  | inconsistent {behind pending ahead} {closed inner : Levels} {n : Nat} {top : Int} :
      (ahead.dropWhile isBlank).head? ≠ some '\n' → measure (ahead.takeWhile isBlank) = .ok n →
      (∀ level ∈ closed, (n : Int) < level) → top < n →
      Fails .newline behind pending ahead (closed ++ top :: inner)
        (dedents (behind ++ pending) (ahead.takeWhile isBlank) (ahead.dropWhile isBlank)
          closed.length)
        (.inconsistentDedent top n) (behind ++ pending ++ ahead.takeWhile isBlank)
        (ahead.dropWhile isBlank)
  | runaway {state mark behind pending ahead levels} : Quote state mark →
      (ahead.dropWhile (Script.staysBefore [mark])).head? ≠ some mark →
      Fails state behind pending ahead levels []
        (.runawayQuote (ahead.takeWhile (Script.staysBefore [mark]))) (behind ++ pending)
        (ahead.dropWhile (Script.staysBefore [mark]))
  | malformed {behind pending ahead levels} :
      pending ++ ahead.takeWhile (· == '.') ≠ ['.', '.', '.'] →
      Fails .reference behind pending ahead levels []
        (.malformedReference (pending ++ ahead.takeWhile (· == '.'))) behind
        (ahead.dropWhile (· == '.'))

section

variable {state : State} {behind pending ahead left rest : List Char} {levels : Levels}
  {tokens closing : List Token} {t : Token} {e : Error} {y : Pause Levels State}

theorem Fails.text_eq (h : Fails state behind pending ahead levels closing e left rest) :
    left ++ e.subject ++ rest = behind ++ pending ++ ahead := by
  cases h with
  | unexpected => simp [Error.subject]
  | inconsistent =>
    rw [Error.subject, List.append_nil]
    exact append_read isBlank _ _ _
  | runaway => exact append_read _ _ _ _
  | malformed => exact append_read_pending _ _ _ _

theorem Fails.lineFeed_not_mem (h : Fails state behind pending ahead levels closing e left rest)
    (hholds : state.Holds pending) : '\n' ∉ e.subject := by
  cases h with
  | unexpected hplain => simpa [Error.subject] using hplain.2.1.symm
  | inconsistent => simp [Error.subject]
  | runaway =>
    intro hmem
    have hstays := List.mem_takeWhile_imp hmem
    simp [Script.staysBefore] at hstays
  | malformed =>
    cases (hholds : pending = ['.'])
    intro hmem
    rcases List.mem_append.mp hmem with hmem | hmem
    · cases List.mem_singleton.mp hmem
    · have hpoint := List.mem_takeWhile_imp hmem
      simp at hpoint

theorem not_isError_single {kind : Kind} (ht : t ∈ [Token.upon kind.type behind pending ahead]) :
    t.isError = false := by
  rw [List.mem_singleton.mp ht]
  cases kind <;> rfl

theorem not_isError_dedents {n : Nat} (ht : t ∈ dedents behind pending ahead n) :
    t.isError = false := by
  rw [Token.isError, type_of_mem_dedents ht]
  rfl

theorem Indents.fails {levels' : Levels} {next : Option State}
    (h : Indents behind pending ahead levels tokens levels' next) (ht : t ∈ tokens)
    (herror : t.isError = true) :
    next = none ∧ ∃ (n : Nat) (closed : Levels) (top : Int) (inner : Levels), measure pending = .ok n ∧
      (∀ level ∈ closed, (n : Int) < level) ∧ top < n ∧ levels = closed ++ top :: inner ∧
      tokens = dedents behind pending ahead closed.length ++ [t] ∧
      t = .errorUpon (Error.inconsistentDedent top n).message (behind ++ pending) [] ahead := by
  cases h with
  | same => cases ht
  | opens =>
    rw [not_isError_single ht] at herror
    cases herror
  | closes =>
    rw [not_isError_dedents ht] at herror
    cases herror
  | inconsistent hn hne hclosed hlt =>
    rcases List.mem_append.mp ht with ht | ht
    · rw [not_isError_dedents ht] at herror
      cases herror
    · cases List.mem_singleton.mp ht
      exact ⟨rfl, _, _, _, _, hn, hclosed, hlt, rfl, rfl, rfl⟩

theorem Turn.fails (h : Turn state behind pending ahead levels tokens y)
    (hholds : state.Holds pending) (hlevels : Grounded levels) (ht : t ∈ tokens)
    (herror : t.isError = true) :
    y.next = none ∧ ∃ closing e left rest,
      Fails state behind pending ahead levels closing e left rest ∧ tokens = closing ++ [t] ∧
      t = .errorUpon e.message left e.subject rest := by
  -- beside the indentation, only three turns complain; the tokens of all others are no errors
  cases h with
  | blankLine => cases ht
  | line hline hindents =>
    obtain ⟨hnext, n, closed, top, inner, hn, hclosed, hlt, rfl, htokens, hmessage⟩ :=
      hindents.fails ht herror
    exact ⟨hnext, _, _, _, _, .inconsistent hline hn hclosed hlt, htokens, hmessage⟩
  | measured => cases hholds
  | blank => cases ht
  | lineEnd => cases ht
  | single =>
    rw [not_isError_single ht] at herror
    cases herror
  | enters => cases ht
  | unexpected hplain hstart =>
    cases List.mem_singleton.mp ht
    exact ⟨rfl, _, _, _, _, .unexpected hplain hstart, rfl, rfl⟩
  | eof hindents =>
    rcases List.mem_append.mp ht with ht | ht
    · cases (hindents.fails ht herror).1
    · rw [not_isError_single ht] at herror
      cases herror
  | badEnd hindents => cases hindents.next_of_nil hlevels
  | quoted =>
    rw [not_isError_single ht] at herror
    cases herror
  | runaway hquote hrest =>
    cases List.mem_singleton.mp ht
    exact ⟨rfl, _, _, _, _, .runaway hquote hrest, rfl, rfl⟩
  | word =>
    rw [not_isError_single ht] at herror
    cases herror
  | ellipsis =>
    rw [not_isError_single ht] at herror
    cases herror
  | malformed hdots =>
    cases List.mem_singleton.mp ht
    exact ⟨rfl, _, _, _, _, .malformed hdots, rfl, rfl⟩

end

open Pause (Leads)

section

variable {text : String} {t : Token}

theorem exists_fails (ht : t ∈ tokens text) (herror : t.isError = true) :
    ∃ before n state behind pending ahead levels closing e left rest,
      Leads graph (start text) before n ⟨.upon behind pending ahead, levels, some state⟩ ∧
      behind ++ pending ++ ahead = text.toList ∧ state.Holds pending ∧
      Fails state behind pending ahead levels closing e left rest ∧
      tokens text = before ++ closing ++ [t] ∧ t = .errorUpon e.message left e.subject rest := by
  obtain ⟨before, n, state, behind, pending, ahead, levels, ts, z, hleads, htext, hholds, hturn,
    hmem⟩ := exists_turn ht
  obtain ⟨hnext, closing, e, left, rest, hfails, rfl, hmessage⟩ :=
    hturn.fails hholds (leads_nested hleads).grounded hmem herror
  obtain ⟨m, hexec, -⟩ := hturn.exec
  have htokens := tokens_of_leads (hleads.trans (.one hexec)) hnext
  rw [← List.append_assoc] at htokens
  exact ⟨before, n, state, behind, pending, ahead, levels, closing, e, left, rest, hleads, htext,
    hholds, hfails, htokens, hmessage⟩

theorem complains_of_mem_tokens (ht : t ∈ tokens text) (herror : t.isError = true) :
    Complains text.toList t := by
  obtain ⟨_, _, _, _, _, _, _, _, e, left, rest, -, htext, hholds, hfails, -, hmessage⟩ :=
    exists_fails ht herror
  exact ⟨e, left, rest, (hfails.text_eq.trans htext).symm, hfails.lineFeed_not_mem hholds, hmessage⟩

end

end Grammar

end DocModelLexer
