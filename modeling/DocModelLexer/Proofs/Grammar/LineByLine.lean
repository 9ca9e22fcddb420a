import DocModelLexer.Proofs.Grammar.Lexemes

namespace DocModelLexer.Grammar

open Pause (Leads)

section

variable {behind pending ahead lead text tail line : List Char} {levels levels' : Levels}
  {tokens : List Token} {next : Option State} {x y : Pause Levels State}
  {lexemes later : List Lexeme}

theorem dedents_lexemes (behind lead ahead : List Char) (closed : Levels) (k : Nat) :
    (dedents behind (if k = 0 then lead else []) ahead closed.length).map Token.lexeme =
      ((closed.zipIdx k).map fun (_, i) =>
        Lexeme.token .dedent (if i = 0 then lead else [])).map Lexeme.typeAndValue := by
  induction closed generalizing behind k with
  | nil => rfl
  | cons level closed ih =>
    have hrest := ih (behind ++ if k = 0 then lead else []) (k + 1)
    simp only [Nat.add_eq_zero_iff, Nat.one_ne_zero, and_false, if_false] at hrest
    simp [dedents, hrest, Token.upon, Token.lexeme, Lexeme.typeAndValue]

theorem indentLexemes_append {n : Nat} {top : Int} {closed left : Levels}
    (hn : measure lead = .ok n) (hne : closed ≠ []) (hclosed : ∀ level ∈ closed, (n : Int) < level)
    (htop : top ≤ n) :
    indentLexemes lead (closed ++ top :: left) =
      ((closed.zipIdx.map fun (_, i) => Lexeme.token .dedent (if i = 0 then lead else [])) ++
        if top = n then [] else [.error (.inconsistentDedent top n)], top :: left) := by
  have hopen : ¬(n : Int) < top := by omega
  have htake : (closed ++ top :: left).takeWhile ((n : Int) < ·) = closed := by
    rw [List.takeWhile_append_of_pos (fun level hl => decide_eq_true (hclosed level hl))]
    simp [hopen]
  have hdrop : (closed ++ top :: left).dropWhile ((n : Int) < ·) = top :: left := by
    rw [List.dropWhile_append_of_pos (fun level hl => decide_eq_true (hclosed level hl))]
    simp [hopen]
  obtain ⟨first, inner, rfl⟩ := List.exists_cons_of_ne_nil hne
  have hfirst : (n : Int) < first := hclosed first (by simp)
  rw [List.cons_append] at htake hdrop ⊢
  simp only [indentLexemes, widthOf_of_measure hn, htake, hdrop]
  rw [if_neg (by omega), if_neg (by omega)]
  split <;> simp

theorem Indents.lexemes_eq (h : Indents behind lead ahead levels tokens levels' next) :
    tokens.map Token.lexeme = (indentLexemes lead levels).1.map Lexeme.typeAndValue ∧
      (indentLexemes lead levels).2 = levels' ∧
      next = if (indentLexemes lead levels).1.any (·.isError) then none else some .outer := by
  have hfirst (closed : Levels) := dedents_lexemes behind lead ahead closed 0
  simp only [if_true] at hfirst
  cases h with
  | same hn => simp [indentLexemes, widthOf_of_measure hn]
  | @opens n top levels hn hlt =>
    have hne : (n : Int) ≠ top := by omega
    simp [indentLexemes, widthOf_of_measure hn, hne, hlt, Lexeme.isError, Token.upon, Token.lexeme,
      Lexeme.typeAndValue]
  | closes hn hne hclosed =>
    rw [indentLexemes_append hn hne hclosed (Int.le_refl _), if_pos rfl, List.append_nil]
    exact ⟨hfirst _, rfl, by simp [Lexeme.isError]⟩
  | @inconsistent n top closed left hn hne hclosed hlt =>
    rw [indentLexemes_append hn hne hclosed (by omega), if_neg (by omega)]
    refine ⟨?_, rfl, by simp [Lexeme.isError]⟩
    simp [hfirst, Token.errorUpon, Token.lexeme, Lexeme.typeAndValue]

/-- From a pause the scan gives these lexemes and is over. -/
def Ends (x : Pause Levels State) (lexemes : List Lexeme) : Prop :=
  ∃ y, Gives x lexemes y ∧ y.next = none

/-- The lexemes `later` behind others, unless those come to an error. -/
def goingOn (lexemes later : List Lexeme) : List Lexeme :=
  if lexemes.any (·.isError) then lexemes else lexemes ++ later

theorem goingOn_nil (later : List Lexeme) : goingOn [] later = later := rfl

theorem goingOn_assoc (lexemes later last : List Lexeme) :
    goingOn (goingOn lexemes later) last = goingOn lexemes (goingOn later last) := by
  cases h : lexemes.any (·.isError) <;> cases hlater : later.any (·.isError) <;>
    simp [goingOn, h, hlater]

theorem lexemesOf_blank {c : Char} (hc : isBlank c = true) :
    lexemesOf (c :: text) = lexemesOf text := by
  rw [lexemesOf, if_pos hc]

theorem lexemesOf_cons {c : Char} (hc : isBlank c = false) :
    lexemesOf (c :: text) = goingOn [(lexemeAt c text).1] (lexemesOf (lexemeAt c text).2) := by
  rw [lexemesOf, if_neg (by simp [hc])]
  simp [goingOn]

theorem lexemesOf_dropWhile (line : List Char) :
    lexemesOf (line.dropWhile isBlank) = lexemesOf line := by
  induction line with
  | nil => rfl
  | cons c line ih =>
    cases hc : isBlank c with
    | true => rw [List.dropWhile_cons_of_pos hc, ih, lexemesOf_blank hc]
    | false => rw [List.dropWhile_cons_of_neg (by simp [hc])]

theorem lexemesOf_append_of_blank {blank : List Char} (h : ∀ c ∈ blank, isBlank c = true)
    (text : List Char) : lexemesOf (blank ++ text) = lexemesOf text := by
  rw [← lexemesOf_dropWhile, List.dropWhile_append_of_pos h, lexemesOf_dropWhile]

theorem mem_goingOn {l : Lexeme} (h : l ∈ goingOn lexemes later) : l ∈ lexemes ∨ l ∈ later := by
  unfold goingOn at h
  split at h
  · exact .inl h
  · exact List.mem_append.mp h

theorem forall_mem_lexemesOf {P : Lexeme → Prop}
    (h : ∀ c rest, c :: rest <:+ text → P (lexemeAt c rest).1) : ∀ l ∈ lexemesOf text, P l := by
  generalize hlen : text.length = n
  induction n using Nat.strongRecOn generalizing text with
  | ind n ih =>
    intro l hl
    cases text with
    | nil =>
      rw [lexemesOf] at hl
      cases hl
    | cons c text =>
      rw [List.length_cons] at hlen
      have hlater (rest : List Char) (hsuffix : rest <:+ text) : ∀ l ∈ lexemesOf rest, P l := by
        have hle := hsuffix.length_le
        refine ih rest.length (by omega) (fun d later hd => ?_) rfl
        exact h d later ((hd.trans hsuffix).trans (List.suffix_cons c text))
      cases hc : isBlank c with
      | true =>
        rw [lexemesOf_blank hc] at hl
        exact hlater text (List.suffix_refl text) l hl
      | false =>
        rw [lexemesOf_cons hc] at hl
        rcases mem_goingOn hl with hl | hl
        · rw [List.mem_singleton.mp hl]
          exact h c text (List.suffix_refl _)
        · exact hlater _ (lexemeAt_suffix c text) l hl

theorem lineLexemes_fst (line : List Char) (levels : Levels) :
    (lineLexemes line levels).1 = goingOn (indentLexemes (line.takeWhile isBlank) levels).1
      (lexemesOf (line.dropWhile isBlank)) := by
  simp only [lineLexemes, goingOn]
  split <;> rfl

theorem lineLexemes_snd (line : List Char) (levels : Levels) :
    (lineLexemes line levels).2 = (indentLexemes (line.takeWhile isBlank) levels).2 := by
  simp only [lineLexemes]
  split <;> rfl

theorem linesLexemes_singleton (line : List Char) (levels : Levels) :
    linesLexemes [line] levels =
      goingOn (lineLexemes line levels).1
        ((indentLexemes [] (lineLexemes line levels).2).1 ++ [.token .eof []]) := by
  simp only [linesLexemes, goingOn, List.append_assoc]

theorem linesLexemes_cons {lines : List (List Char)} (hne : lines ≠ []) :
    linesLexemes (line :: lines) levels =
      if line.all isBlank then linesLexemes lines levels
      else
        goingOn (lineLexemes line levels).1 (linesLexemes lines (lineLexemes line levels).2) := by
  rw [linesLexemes]
  · rfl
  · exact hne

namespace Ends

theorem of_gives (h : Gives x lexemes y) (hlater : Ends y later) : Ends x (lexemes ++ later) := by
  obtain ⟨z, hgives, hz⟩ := hlater
  exact ⟨z, h.trans hgives, hz⟩

theorem of_quiet {state : State} (h : Turn state behind pending ahead levels [] y)
    (hlater : Ends y later) : Ends ⟨.upon behind pending ahead, levels, some state⟩ later :=
  of_gives (.of_turn h rfl : Gives _ [] y) hlater

theorem of_continues (h : Gives x lexemes y) (hy : Continues lexemes ahead levels y)
    (hlater : ∀ behind, Ends ⟨.upon behind [] ahead, levels, some .outer⟩ later) :
    Ends x (goingOn lexemes later) := by
  unfold Continues at hy
  unfold goingOn
  split
  · rename_i herror
    rw [if_pos herror] at hy
    exact ⟨y, h, hy⟩
  · rename_i herror
    rw [if_neg herror] at hy
    obtain ⟨behind, rfl⟩ := hy
    exact of_gives h (hlater behind)

theorem of_lexemesOf (htext : '\n' ∉ text) (htail : EndsLine tail)
    (hlater : ∀ behind, Ends ⟨.upon behind [] tail, levels, some .outer⟩ later) :
    Ends ⟨.upon behind [] (text ++ tail), levels, some .outer⟩
      (goingOn (lexemesOf text) later) := by
  generalize hlen : text.length = n
  induction n using Nat.strongRecOn generalizing text behind with
  | ind n ih =>
    cases text with
    | nil =>
      rw [lexemesOf, goingOn_nil]
      exact hlater behind
    | cons c text =>
      have hrest : '\n' ∉ text := by
        intro h
        exact htext (List.mem_cons_of_mem _ h)
      rw [List.length_cons] at hlen
      cases hc : isBlank c with
      | true =>
        rw [lexemesOf_blank hc]
        exact of_quiet (.blank hc) (ih text.length (by omega) hrest rfl)
      | false =>
        have hn : c ≠ '\n' := by
          rintro rfl
          exact htext List.mem_cons_self
        obtain ⟨y, hgives, hy⟩ := gives_lexeme behind levels hc hn hrest htail
        rw [lexemesOf_cons hc, goingOn_assoc]
        apply of_continues hgives hy
        intro behind
        have hsuffix := lexemeAt_suffix c text
        have hle := hsuffix.length_le
        have hleft : '\n' ∉ (lexemeAt c text).2 := by
          intro h
          exact hrest (hsuffix.subset h)
        exact ih _ (by omega) hleft rfl

theorem of_line (behind pending line tail : List Char) (hline : '\n' ∉ line) (htail : EndsLine tail)
    (hends : line.dropWhile isBlank = [] → tail = []) (hlevels : Grounded levels)
    (hlater : ∀ behind,
      Ends ⟨.upon behind [] tail, (lineLexemes line levels).2, some .outer⟩ later) :
    Ends ⟨.upon behind pending (line ++ tail), levels, some .newline⟩
      (goingOn (lineLexemes line levels).1 later) := by
  have htake := takeWhile_line isBlank line rfl htail
  have hdrop := dropWhile_line isBlank line rfl htail
  have hrest : '\n' ∉ line.dropWhile isBlank := by
    intro h
    exact hline ((List.dropWhile_suffix isBlank).subset h)
  have hhead : ((line ++ tail).dropWhile isBlank).head? ≠ some '\n' := by
    rw [hdrop]
    intro hn
    cases hd : line.dropWhile isBlank with
    | nil =>
      rw [hd, hends hd] at hn
      cases hn
    | cons c cs =>
      rw [hd] at hn hrest
      cases hn
      exact hrest List.mem_cons_self
  obtain ⟨tokens, levels', next, hindents⟩ := indents_total (behind ++ pending)
    ((line ++ tail).dropWhile isBlank) (blank_of_takeWhile _) hlevels.1
  obtain ⟨htokens, hleft, hnext⟩ := hindents.lexemes_eq
  rw [htake] at htokens hleft hnext
  rw [lineLexemes_fst, goingOn_assoc]
  rw [lineLexemes_snd, hleft] at hlater
  refine of_continues (.of_turn (.line hhead hindents) htokens) ?_
    fun behind => of_lexemesOf hrest htail hlater
  rw [hnext, hdrop]
  unfold Continues
  split
  · rfl
  · exact ⟨_, rfl⟩

theorem of_eof (hlevels : Grounded levels) :
    Ends ⟨.upon behind [] [], levels, some .outer⟩
      ((indentLexemes [] levels).1 ++ [.token .eof []]) := by
  obtain ⟨tokens, levels', next, hindents⟩ := indents_of_nil behind [] hlevels.1
  obtain ⟨htokens, -, -⟩ := hindents.lexemes_eq
  cases hindents.next_of_nil hlevels
  refine ⟨_, .of_turn (.eof hindents) ?_, rfl⟩
  simp [htokens, Token.upon, Token.lexeme, Lexeme.typeAndValue]

end Ends

theorem lineLexemes_grounded (hlevels : Grounded levels) :
    Grounded (lineLexemes line levels).2 := by
  obtain ⟨tokens, levels', next, hindents⟩ :=
    indents_total [] [] (blank_of_takeWhile line) hlevels.1
  rw [lineLexemes_snd, hindents.lexemes_eq.2.1]
  exact hindents.grounded hlevels

theorem Ends.of_lines (behind pending : List Char) {lines : List (List Char)} (hne : lines ≠ [])
    (hlines : ∀ line ∈ lines, '\n' ∉ line) (hlevels : Grounded levels) :
    Ends ⟨.upon behind pending (['\n'].intercalate lines), levels, some .newline⟩
      (linesLexemes lines levels) := by
  induction lines generalizing behind pending levels with
  | nil => contradiction
  | cons line lines ih =>
    have hline : '\n' ∉ line := hlines line List.mem_cons_self
    have hrest : ∀ l ∈ lines, '\n' ∉ l := by
      intro l hl
      exact hlines l (List.mem_cons_of_mem _ hl)
    cases lines with
    | nil =>
      have hlast := Ends.of_line behind pending line [] hline
        (by simp [EndsLine]) (fun _ => rfl) hlevels
        fun behind => Ends.of_eof (lineLexemes_grounded hlevels)
      simpa [linesLexemes, goingOn, List.append_assoc] using hlast
    | cons second lines =>
      have hcat : ['\n'].intercalate (line :: second :: lines) =
          line ++ '\n' :: ['\n'].intercalate (second :: lines) := by
        simp [List.intercalate]
      rw [hcat, linesLexemes_cons (by simp)]
      split
      · rename_i hblank
        have hall : ∀ c ∈ line, isBlank c = true := by simpa using hblank
        refine Ends.of_quiet (.blankLine ?_) (ih _ _ (by simp) hrest hlevels)
        rw [List.dropWhile_append_of_pos hall]
        rfl
      · rename_i hblank
        have hsome : line.dropWhile isBlank ≠ [] := by
          intro h
          exact hblank (by simpa using List.dropWhile_eq_nil_iff.mp h)
        have hgo := Ends.of_line behind pending line
          ('\n' :: ['\n'].intercalate (second :: lines)) hline
          (by rintro c ⟨⟩; rfl) (fun h => absurd h hsome) hlevels
          fun behind => Ends.of_quiet .lineEnd
            (ih _ _ (by simp) hrest (lineLexemes_grounded hlevels))
        exact hgo

end

theorem map_lexeme_tokens {lines : List (List Char)} {text : String} (hne : lines ≠ [])
    (hlines : ∀ line ∈ lines, '\n' ∉ line) (htext : text.toList = ['\n'].intercalate lines) :
    (tokens text).map Token.lexeme =
      (linesLexemes lines Levels.base).map Lexeme.typeAndValue := by
  have hbase : Grounded Levels.base := by simp [Grounded, Levels.base]
  obtain ⟨y, ⟨ts, m, hleads, htokens⟩, hy⟩ := Ends.of_lines [] [] hne hlines hbase
  rw [← htext, ← start_eq_upon] at hleads
  rw [tokens_of_leads hleads hy]
  exact htokens

theorem map_lexeme_tokens_splitOn (text : String) :
    (tokens text).map Token.lexeme =
      (linesLexemes (Text.splitOn '\n' text.toList) Levels.base).map Lexeme.typeAndValue :=
  map_lexeme_tokens (Text.splitOn_ne_nil '\n' text.toList)
    (fun _ hline => Text.not_mem_of_mem_splitOn hline)
    (Text.intercalate_splitOn '\n' text.toList).symm

end DocModelLexer.Grammar
