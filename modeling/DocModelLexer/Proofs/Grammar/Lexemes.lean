import DocModelLexer.Proofs.Grammar.Course

namespace DocModelLexer.Grammar

open Pause (Leads)

/-- What may stand behind a line: nothing, or the line feed that ends it. -/
def EndsLine (tail : List Char) : Prop := ∀ c, tail.head? = some c → c = '\n'

section

variable {tail : List Char}

theorem takeWhile_stop {p : Char → Bool} (text : List Char)
    (htail : ∀ c, tail.head? = some c → p c = false) :
    (text ++ tail).takeWhile p = text.takeWhile p := by
  induction text with
  | nil =>
    cases tail with
    | nil => rfl
    | cons c tail => simp [htail c rfl]
  | cons c text ih =>
    by_cases hc : p c = true <;> simp [hc, ih]

theorem dropWhile_stop {p : Char → Bool} (text : List Char)
    (htail : ∀ c, tail.head? = some c → p c = false) :
    (text ++ tail).dropWhile p = text.dropWhile p ++ tail := by
  induction text with
  | nil =>
    cases tail with
    | nil => rfl
    | cons c tail => simp [htail c rfl]
  | cons c text ih =>
    by_cases hc : p c = true <;> simp [hc, ih]

theorem takeWhile_line (p : Char → Bool) (text : List Char) (hp : p '\n' = false)
    (htail : EndsLine tail) :
    (text ++ tail).takeWhile p = text.takeWhile p :=
  takeWhile_stop text fun c hc => htail c hc ▸ hp

theorem dropWhile_line (p : Char → Bool) (text : List Char) (hp : p '\n' = false)
    (htail : EndsLine tail) :
    (text ++ tail).dropWhile p = text.dropWhile p ++ tail :=
  dropWhile_stop text fun c hc => htail c hc ▸ hp

theorem takeWhile_congr {p q : Char → Bool} {text : List Char}
    (h : ∀ c ∈ text, p c = q c) :
    text.takeWhile p = text.takeWhile q := by
  induction text with
  | nil => rfl
  | cons c text ih =>
    have htail : ∀ d ∈ text, p d = q d := by
      intro d hd
      exact h d (List.mem_cons_of_mem _ hd)
    rw [List.takeWhile_cons, List.takeWhile_cons, h c List.mem_cons_self, ih htail]

theorem drop_length_takeWhile (p : Char → Bool) (text : List Char) :
    text.drop (text.takeWhile p).length = text.dropWhile p := by
  induction text with
  | nil => rfl
  | cons c text ih =>
    by_cases hc : p c = true <;> simp [hc, ih]

theorem dropWhile_congr {p q : Char → Bool} {text : List Char}
    (h : ∀ c ∈ text, p c = q c) :
    text.dropWhile p = text.dropWhile q := by
  rw [← drop_length_takeWhile, ← drop_length_takeWhile, takeWhile_congr h]

end

theorem lexemeAt_suffix (c : Char) (text : List Char) : (lexemeAt c text).2 <:+ text := by
  unfold lexemeAt
  split
  · exact List.suffix_refl _
  split
  · simp only [quoteLexeme]
    split
    · exact List.nil_suffix
    · rename_i d rest hrest
      have hcons : (d :: rest) <:+ text := hrest ▸ List.drop_suffix _ _
      exact (List.suffix_cons d rest).trans hcons
  split
  · unfold signLexeme
    split <;> exact List.dropWhile_suffix _
  split
  · exact List.dropWhile_suffix _
  split
  · exact List.dropWhile_suffix _
  · exact List.suffix_refl _

/-- From one pause to another the scan gives these lexemes. -/
def Gives (x : Pause Levels State) (lexemes : List Lexeme) (y : Pause Levels State) : Prop :=
  ∃ tokens m, Leads graph x tokens m y ∧
    tokens.map Token.lexeme = lexemes.map Lexeme.typeAndValue

namespace Gives

variable {x y z : Pause Levels State} {lexemes later : List Lexeme}

theorem trans (h : Gives x lexemes y) (hlater : Gives y later z) :
    Gives x (lexemes ++ later) z := by
  obtain ⟨ts, m, hleads, hts⟩ := h
  obtain ⟨us, n, hrest, hus⟩ := hlater
  exact ⟨ts ++ us, m + n, hleads.trans hrest, by simp [hts, hus]⟩

theorem of_turn {state : State} {behind pending ahead : List Char} {levels : Levels}
    {tokens : List Token} (h : Turn state behind pending ahead levels tokens y)
    (htokens : tokens.map Token.lexeme = lexemes.map Lexeme.typeAndValue) :
    Gives ⟨.upon behind pending ahead, levels, some state⟩ lexemes y := by
  obtain ⟨m, hexec, _⟩ := h.exec
  exact ⟨tokens, m + 1, Leads.one hexec, htokens⟩

theorem of_enters {c : Char} {state : State} {behind ahead : List Char} {levels : Levels}
    (henters : Enters ahead c state)
    (h : Gives ⟨.upon behind [c] ahead, levels, some state⟩ lexemes y) :
    Gives ⟨.upon behind [] (c :: ahead), levels, some .outer⟩ lexemes y := by
  have hfirst : Gives ⟨.upon behind [] (c :: ahead), levels, some .outer⟩ []
      ⟨.upon behind [c] ahead, levels, some state⟩ := of_turn (.enters henters) rfl
  exact hfirst.trans h

end Gives

/-- Where the scan pauses behind some lexemes: it is over behind an error, and else it reads on in
what is ahead. -/
def Continues (lexemes : List Lexeme) (ahead : List Char) (levels : Levels)
    (y : Pause Levels State) : Prop :=
  if lexemes.any (·.isError) then y.next = none
  else ∃ behind, y = ⟨.upon behind [] ahead, levels, some .outer⟩

section

variable {state : State} {behind pending text tail : List Char} {levels : Levels}

theorem gives_word {p : Char → Bool} {kind : Kind} (behind pending : List Char) (levels : Levels)
    (q : Char → Bool) (hword : Word state p kind)
    (hp : p '\n' = false) (hq : ∀ c ∈ text, p c = q c) (htail : EndsLine tail) :
    ∃ y, Gives ⟨.upon behind pending (text ++ tail), levels, some state⟩
        [.token kind (pending ++ text.takeWhile q)] y ∧
      Continues [.token kind (pending ++ text.takeWhile q)] (text.dropWhile q ++ tail) levels
        y := by
  refine ⟨_, Gives.of_turn (.word hword) ?_, ?_⟩
  · simp [takeWhile_line p text hp htail, takeWhile_congr hq, Token.upon, Token.lexeme,
      Lexeme.typeAndValue]
  · rw [dropWhile_line p text hp htail, dropWhile_congr hq]
    exact ⟨_, rfl⟩

theorem gives_quote {mark : Char} (behind pending : List Char) (levels : Levels)
    (hquote : Quote state mark) (htext : '\n' ∉ text) (htail : EndsLine tail) :
    ∃ y, Gives ⟨.upon behind pending (text ++ tail), levels, some state⟩
        [(quoteLexeme mark text).1] y ∧
      Continues [(quoteLexeme mark text).1] ((quoteLexeme mark text).2 ++ tail) levels y := by
  have hp : Script.staysBefore [mark] '\n' = false := by simp [Script.staysBefore]
  have hq : ∀ c ∈ text, Script.staysBefore [mark] c = (c != mark && isNoNul c) := by
    intro c hc
    have hn : c ≠ '\n' := by
      rintro rfl
      exact htext hc
    by_cases hm : c = mark <;> by_cases h0 : c = '\x00' <;>
      simp [Script.staysBefore, isNoNul, hm, h0, hn]
  have hmark : mark ≠ '\n' := by cases hquote <;> decide
  have htake := takeWhile_line _ text hp htail
  have hdrop := dropWhile_line _ text hp htail
  have hbody := takeWhile_congr hq
  simp only [quoteLexeme, ← hbody, drop_length_takeWhile]
  cases hrest : text.dropWhile (Script.staysBefore [mark]) with
  | nil =>
    refine ⟨_, Gives.of_turn (.runaway hquote ?_) ?_, rfl⟩
    · rw [hdrop, hrest, List.nil_append]
      intro h
      exact hmark (htail mark h)
    · simp [htake, Token.errorUpon, Token.lexeme, Lexeme.typeAndValue]
  | cons c rest =>
    by_cases hc : c = mark
    · subst hc
      have hclosed : (text ++ tail).dropWhile (Script.staysBefore [c]) = c :: (rest ++ tail) := by
        rw [hdrop, hrest, List.cons_append]
      refine ⟨_, Gives.of_turn (.quoted hquote hclosed) ?_, ?_⟩
      · simp [htake, Token.upon, Token.lexeme, Lexeme.typeAndValue]
      · simp only [if_true]
        exact ⟨_, rfl⟩
    · refine ⟨_, Gives.of_turn (.runaway hquote ?_) ?_, ?_⟩
      · rw [hdrop, hrest]
        simpa using hc
      · simp [htake, hc, Token.errorUpon, Token.lexeme, Lexeme.typeAndValue]
      · simp [hc, Continues, Lexeme.isError]

theorem points_eq_iff (text : List Char) :
    ('.' :: text.takeWhile (· == '.')).length = 3 ↔
      '.' :: text.takeWhile (· == '.') = ['.', '.', '.'] := by
  constructor
  · intro hlen
    have hall : ∀ c ∈ '.' :: text.takeWhile (· == '.'), c = '.' := by
      intro c hc
      rcases List.mem_cons.mp hc with rfl | hc
      · rfl
      · simpa using List.mem_takeWhile_imp hc
    have hreplicate := List.eq_replicate_of_mem hall
    rw [hlen] at hreplicate
    exact hreplicate
  · intro h
    rw [h]
    rfl

theorem gives_point (behind text : List Char) (levels : Levels) (htail : EndsLine tail) :
    ∃ y, Gives ⟨.upon behind ['.'] (text ++ tail), levels, some .reference⟩
        [(pointLexeme text).1] y ∧
      Continues [(pointLexeme text).1] ((pointLexeme text).2 ++ tail) levels y := by
  have htake := takeWhile_line (· == '.') text rfl htail
  have hdrop := dropWhile_line (· == '.') text rfl htail
  have hiff := points_eq_iff text
  simp only [pointLexeme]
  by_cases hdots : ('.' :: text.takeWhile (· == '.')) = ['.', '.', '.']
  · rw [if_pos (hiff.mpr hdots)]
    refine ⟨_, Gives.of_turn (.ellipsis ?_) ?_, ?_⟩
    · rw [htake]
      exact hdots
    · simp [htake, Token.upon, Token.lexeme, Lexeme.typeAndValue]
    · rw [hdrop]
      exact ⟨_, rfl⟩
  · rw [if_neg fun h => hdots (hiff.mp h)]
    refine ⟨_, Gives.of_turn (.malformed ?_) ?_, rfl⟩
    · rw [htake]
      exact hdots
    · simp [htake, Token.errorUpon, Token.lexeme, Lexeme.typeAndValue]

theorem gives_sign (htext : '\n' ∉ text) (htail : EndsLine tail) :
    ∃ y, Gives ⟨.upon behind [] ('#' :: (text ++ tail)), levels, some .outer⟩
        [(signLexeme text).1] y ∧
      Continues [(signLexeme text).1] ((signLexeme text).2 ++ tail) levels y := by
  have hcap : '\n' ∉ capitals := by decide
  unfold signLexeme
  split
  · rename_i hnone
    have henters : Enters (text ++ tail) '#' .comment := by
      refine .comment ?_
      intro d hd hmem
      cases text with
      | nil => exact absurd (htail d hd ▸ hmem) (by simp [hcap])
      | cons c text =>
        cases hd
        simp [hmem] at hnone
    have hq : ∀ c ∈ text, Script.staysBefore [] c = isNoNul c := by
      intro c hc
      have hn : c ≠ '\n' := by
        rintro rfl
        exact htext hc
      by_cases h0 : c = '\x00' <;> simp [Script.staysBefore, isNoNul, h0, hn]
    have hfeed : Script.staysBefore [] '\n' = false := by simp [Script.staysBefore]
    obtain ⟨y, hgives, hy⟩ := gives_word behind ['#'] levels isNoNul .comment hfeed hq htail
    exact ⟨y, .of_enters henters hgives, hy⟩
  · rename_i hsome
    have henters : Enters (text ++ tail) '#' .directive := by
      cases text with
      | nil => exact absurd rfl hsome
      | cons c text =>
        by_cases hc : c ∈ capitals
        · exact .directive rfl hc
        · exact absurd (by simp [hc]) hsome
    obtain ⟨y, hgives, hy⟩ := gives_word behind ['#'] levels (· ∈ capitals) .directive
      (by simp [hcap]) (fun _ _ => rfl) htail
    exact ⟨y, .of_enters henters hgives, hy⟩

/-- Within a line the scan gives the lexeme that the grammar finds there: the scan sees more text
than that line, but a line feed ends every run of characters that it reads. -/
theorem gives_lexeme (behind : List Char) (levels : Levels) {c : Char} (hc : isBlank c = false)
    (hn : c ≠ '\n') (htext : '\n' ∉ text) (htail : EndsLine tail) :
    ∃ y, Gives ⟨.upon behind [] (c :: (text ++ tail)), levels, some .outer⟩
        [(lexemeAt c text).1] y ∧
      Continues [(lexemeAt c text).1] ((lexemeAt c text).2 ++ tail) levels y := by
  cases hkind : Kind.ofChar? c with
  | some kind =>
    simp only [lexemeAt, hkind]
    refine ⟨_, Gives.of_turn (.single hkind) ?_, ⟨_, rfl⟩⟩
    simp [Token.upon, Token.lexeme, Lexeme.typeAndValue]
  | none =>
    by_cases hdq : c = '\x22'
    · subst hdq
      obtain ⟨y, hgives, hy⟩ := gives_quote behind ['\x22'] levels .double htext htail
      exact ⟨y, .of_enters .doubleQuote hgives, hy⟩
    by_cases hsq : c = '\x27'
    · subst hsq
      obtain ⟨y, hgives, hy⟩ := gives_quote behind ['\x27'] levels .single htext htail
      exact ⟨y, .of_enters .singleQuote hgives, hy⟩
    have hquote : ¬(c = '\x22' ∨ c = '\x27') := by simp [hdq, hsq]
    by_cases hsign : c = '#'
    · subst hsign
      exact gives_sign htext htail
    by_cases hdot : c = '.'
    · subst hdot
      obtain ⟨y, hgives, hy⟩ := gives_point behind text levels htail
      exact ⟨y, .of_enters .reference hgives, hy⟩
    have hplain : IsPlain c := ⟨hc, hn, hkind, hdq, hsq, hdot, hsign⟩
    simp only [lexemeAt, hkind, if_neg hquote, if_neg hsign, if_neg hdot]
    cases hstart : isNameStart c with
    | true =>
      obtain ⟨y, hgives, hy⟩ := gives_word behind [c] levels isNameChar .identifier rfl
        (fun _ _ => rfl) htail
      exact ⟨y, .of_enters (.identifier hplain hstart) hgives, hy⟩
    | false =>
      refine ⟨_, Gives.of_turn (.unexpected hplain hstart) ?_, rfl⟩
      simp [Token.errorUpon, Token.lexeme, Lexeme.typeAndValue]

end

end DocModelLexer.Grammar
