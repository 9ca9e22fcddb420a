import DocModelLexer.Proofs.Grammar.Complaint
import DocModelLexer.Proofs.Grammar.LineByLine
import DocModelLexer.Proofs.Text.Lines
import DocModelLexer.Text.LineEnds

namespace DocModelLexer

namespace Text

theorem unifyLineEnds_of_not_mem {text : List Char} (h : '\r' ∉ text) :
    unifyLineEnds text = text := by
  fun_induction unifyLineEnds text with
  | case1 => rfl
  | case2 text ih => simp at h
  | case3 c text _ ih =>
    obtain ⟨hc, htext⟩ := not_or.mp (mt List.mem_cons.mpr h)
    rw [if_neg (Ne.symm hc), ih htext]

end Text

namespace Grammar

variable {c : Char} {text rest : List Char} {levels : Levels}

def Lexeme.isComment : Lexeme → Bool
  | .token .comment _ => true
  | _ => false

theorem quoteLexeme_append {mark : Char} (h : (quoteLexeme mark text).1.isError = false)
    (rest : List Char) :
    quoteLexeme mark (text ++ rest) =
      ((quoteLexeme mark text).1, (quoteLexeme mark text).2 ++ rest) := by
  simp only [quoteLexeme] at h ⊢
  cases hclosed : text.drop (text.takeWhile fun c => c != mark && isNoNul c).length with
  | nil =>
    rw [hclosed] at h
    cases h
  | cons d left =>
    have hlen : (text.takeWhile fun c => c != mark && isNoNul c).length < text.length := by
      have hdrop := congrArg List.length hclosed
      rw [List.length_drop, List.length_cons] at hdrop
      omega
    have hbody : ((text ++ rest).takeWhile fun c => c != mark && isNoNul c) =
        text.takeWhile fun c => c != mark && isNoNul c := by
      rw [List.takeWhile_append, if_neg (Nat.ne_of_lt hlen)]
    rw [hbody, List.drop_append_of_le_length (Nat.le_of_lt hlen), hclosed]
    rfl

theorem lexemeAt_append (herror : (lexemeAt c text).1.isError = false)
    (hcomment : (lexemeAt c text).1.isComment = false) (rest : List Char) :
    lexemeAt c (text ++ '\r' :: rest) =
      ((lexemeAt c text).1, (lexemeAt c text).2 ++ '\r' :: rest) := by
  have htake {p : Char → Bool} (hp : p '\r' = false) :
      (text ++ '\r' :: rest).takeWhile p = text.takeWhile p :=
    takeWhile_stop text (by rintro _ ⟨⟩; exact hp)
  have hdrop {p : Char → Bool} (hp : p '\r' = false) :
      (text ++ '\r' :: rest).dropWhile p = text.dropWhile p ++ '\r' :: rest :=
    dropWhile_stop text (by rintro _ ⟨⟩; exact hp)
  unfold lexemeAt at herror hcomment ⊢
  cases hkind : Kind.ofChar? c with
  | some kind => rfl
  | none =>
    rw [hkind] at herror hcomment
    simp only at herror hcomment ⊢
    split
    · rename_i hquote
      rw [if_pos hquote] at herror
      exact quoteLexeme_append herror _
    rename_i hquote
    rw [if_neg hquote] at hcomment
    split
    · rename_i hsign
      rw [if_pos hsign] at hcomment
      have hcap : decide ('\r' ∈ capitals) = false := by decide
      unfold signLexeme at hcomment ⊢
      rw [htake hcap]
      split
      · rename_i hnone
        rw [hnone] at hcomment
        cases hcomment
      · rw [hdrop hcap]
    split
    · unfold pointLexeme
      rw [htake (by decide), hdrop (by decide)]
    split
    · rw [htake (by decide), hdrop (by decide)]
    · rfl

theorem lexemeAt_return (rest : List Char) :
    lexemeAt '\r' rest = (.error (.unexpected '\r'), rest) := by
  have hkind : Kind.ofChar? '\r' = none := by decide
  have hstart : isNameStart '\r' = false := by decide
  simp [lexemeAt, hkind, hstart]

theorem mem_lexemesOf_return (herror : ∀ l ∈ lexemesOf text, l.isError = false)
    (hcomment : ∀ l ∈ lexemesOf text, l.isComment = false) (rest : List Char) :
    .error (.unexpected '\r') ∈ lexemesOf (text ++ '\r' :: rest) := by
  generalize hlen : text.length = n
  induction n using Nat.strongRecOn generalizing text with
  | ind n ih =>
    cases text with
    | nil =>
      rw [List.nil_append, lexemesOf_cons (by decide), lexemeAt_return]
      simp [goingOn, Lexeme.isError]
    | cons c text =>
      rw [List.length_cons] at hlen
      rw [List.cons_append]
      cases hc : isBlank c with
      | true =>
        rw [lexemesOf_blank hc] at herror hcomment ⊢
        exact ih text.length (by omega) herror hcomment rfl
      | false =>
        rw [lexemesOf_cons hc] at herror hcomment ⊢
        have hfirst : (lexemeAt c text).1 ∈
            goingOn [(lexemeAt c text).1] (lexemesOf (lexemeAt c text).2) := by
          unfold goingOn
          split <;> simp
        have hplain := herror _ hfirst
        have hgoing (later : List Lexeme) :
            goingOn [(lexemeAt c text).1] later = (lexemeAt c text).1 :: later := by
          simp [goingOn, hplain]
        rw [hgoing] at herror hcomment
        rw [lexemeAt_append hplain (hcomment _ List.mem_cons_self), hgoing]
        have hle := (lexemeAt_suffix c text).length_le
        have hlater := ih (lexemeAt c text).2.length (by omega)
          (fun l hl => herror l (List.mem_cons_of_mem _ hl))
          (fun l hl => hcomment l (List.mem_cons_of_mem _ hl)) rfl
        exact List.mem_cons_of_mem _ hlater

section

variable {lexemes later : List Lexeme}

theorem mem_goingOn_left {l : Lexeme} (h : l ∈ lexemes) (later : List Lexeme) :
    l ∈ goingOn lexemes later := by
  unfold goingOn
  split
  · exact h
  · exact List.mem_append_left _ h

theorem goingOn_of_no_error (h : ∀ l ∈ lexemes, l.isError = false) (later : List Lexeme) :
    goingOn lexemes later = lexemes ++ later := by
  have hany : ¬lexemes.any (·.isError) = true := by simpa using h
  rw [goingOn, if_neg hany]

theorem no_error_of_goingOn (h : ∀ l ∈ goingOn lexemes later, l.isError = false) :
    (∀ l ∈ lexemes, l.isError = false) ∧ ∀ l ∈ later, l.isError = false := by
  have hfirst : ∀ l ∈ lexemes, l.isError = false := fun l hl => h l (mem_goingOn_left hl later)
  rw [goingOn_of_no_error hfirst] at h
  exact ⟨hfirst, fun l hl => h l (List.mem_append_right _ hl)⟩

end

variable {last : List Char}

theorem mem_lineLexemes_return (herror : ∀ l ∈ (lineLexemes last levels).1, l.isError = false)
    (hcomment : ∀ l ∈ lexemesOf last, l.isComment = false) (rest : List Char) :
    .error (.unexpected '\r') ∈ (lineLexemes (last ++ '\r' :: rest) levels).1 := by
  have hstop : ∀ c, ('\r' :: rest).head? = some c → isBlank c = false := by
    rintro _ ⟨⟩
    decide
  rw [lineLexemes_fst, lexemesOf_dropWhile] at herror ⊢
  obtain ⟨hindents, hrest⟩ := no_error_of_goingOn herror
  rw [takeWhile_stop last hstop, goingOn_of_no_error hindents]
  exact List.mem_append_right _ (mem_lexemesOf_return hrest hcomment rest)

theorem mem_linesLexemes_return {lines : List (List Char)}
    (herror : ∀ l ∈ linesLexemes (lines ++ [last]) levels, l.isError = false)
    (hcomment : ∀ l ∈ lexemesOf last, l.isComment = false) (rest : List Char)
    (more : List (List Char)) :
    .error (.unexpected '\r') ∈ linesLexemes (lines ++ (last ++ '\r' :: rest) :: more) levels := by
  induction lines generalizing levels with
  | nil =>
    rw [List.nil_append, linesLexemes_singleton] at herror
    have hline := mem_lineLexemes_return (no_error_of_goingOn herror).1 hcomment rest
    rw [List.nil_append]
    cases more with
    | nil =>
      rw [linesLexemes_singleton]
      exact mem_goingOn_left hline _
    | cons second more =>
      have hvisible : ¬(last ++ '\r' :: rest).all isBlank = true := by
        have hblank : isBlank '\r' = false := by decide
        simp [hblank]
      rw [linesLexemes_cons (by simp), if_neg hvisible]
      exact mem_goingOn_left hline _
  | cons line lines ih =>
    rw [List.cons_append, linesLexemes_cons (by simp)] at herror ⊢
    split at herror
    · rename_i hblank
      rw [if_pos hblank]
      exact ih herror
    · rename_i hvisible
      obtain ⟨hline, hlater⟩ := no_error_of_goingOn herror
      rw [if_neg hvisible, goingOn_of_no_error hline]
      exact List.mem_append_right _ (ih hlater)

theorem splitOn_return {lines : List (List Char)} (hlines : ∀ line ∈ lines, '\n' ∉ line)
    (hlast : '\n' ∉ last) (ahead : List Char) :
    ∃ rest more, Text.splitOn '\n' (Text.ended lines ++ last ++ '\r' :: ahead) =
      lines ++ (last ++ '\r' :: rest) :: more := by
  obtain ⟨rest, behind, hrest, hbehind, rfl⟩ := Text.exists_line ahead
  have hline : '\n' ∉ last ++ '\r' :: rest := by simp [hlast, hrest]
  refine ⟨rest, ?_⟩
  have htext : Text.ended lines ++ last ++ '\r' :: (rest ++ behind) =
      Text.ended lines ++ (last ++ '\r' :: rest ++ behind) := by simp
  rw [htext, Text.splitOn_ended hlines]
  rcases hbehind with rfl | hbehind
  · exact ⟨[], by rw [List.append_nil, Text.splitOn_of_not_mem hline]⟩
  · obtain ⟨behind, rfl⟩ := List.head?_eq_some_iff.mp hbehind
    exact ⟨Text.splitOn '\n' behind, by
      rw [Text.splitOn_append, Text.splitOn_of_not_mem hline, List.singleton_append]⟩

def returnMessage : String := (Error.unexpected '\r').message

theorem exists_return_error {known text : String} {lines : List (List Char)} {ahead : List Char}
    (hknown : known.toList = Text.ended lines ++ last) (hlines : ∀ line ∈ lines, '\n' ∉ line)
    (hlast : '\n' ∉ last) (herror : ∀ t ∈ tokens known, t.isError = false)
    (hcomment : ∀ l ∈ lexemesOf last, l.isComment = false)
    (htext : text.toList = known.toList ++ '\r' :: ahead) :
    ∃ t ∈ tokens text, t.isError = true ∧ t.value = returnMessage := by
  obtain ⟨rest, more, hsplit⟩ := splitOn_return hlines hlast ahead
  have hclean : ∀ l ∈ linesLexemes (lines ++ [last]) Levels.base, l.isError = false := by
    have hpieces : Text.splitOn '\n' known.toList = lines ++ [last] := by
      rw [hknown, Text.splitOn_ended hlines, Text.splitOn_of_not_mem hlast]
    intro l hl
    have hmem : l.typeAndValue ∈ (tokens known).map Token.lexeme := by
      rw [map_lexeme_tokens_splitOn, hpieces]
      exact List.mem_map_of_mem hl
    obtain ⟨t, ht, hlexeme⟩ := List.mem_map.mp hmem
    cases l with
    | token kind text => rfl
    | error e =>
      have htype : t.type = errorType := congrArg Prod.fst hlexeme
      have hno := herror t ht
      simp [Token.isError, htype] at hno
  have hmem : (errorType, returnMessage) ∈ (tokens text).map Token.lexeme := by
    rw [map_lexeme_tokens_splitOn, htext, hknown, hsplit]
    exact List.mem_map_of_mem (mem_linesLexemes_return hclean hcomment rest more)
  obtain ⟨t, ht, hlexeme⟩ := List.mem_map.mp hmem
  have htype : t.type = errorType := congrArg Prod.fst hlexeme
  exact ⟨t, ht, by simp [Token.isError, htype], congrArg Prod.snd hlexeme⟩

theorem value_ne_returnMessage {text : String} {t : Token} (htext : '\r' ∉ text.toList)
    (ht : t ∈ tokens text) (herror : t.isError = true) : t.value ≠ returnMessage := by
  obtain ⟨e, behind, ahead, hchars, -, rfl⟩ := complains_of_mem_tokens ht herror
  have hsubject : '\r' ∉ e.subject := by
    intro hmem
    rw [hchars] at htext
    exact htext (List.mem_append_left _ (List.mem_append_right _ hmem))
  have hmessage := e.not_mem_message (by decide) hsubject
  intro hsame
  have hvalue : e.message = returnMessage := hsame
  rw [hvalue] at hmessage
  exact hmessage (by decide +kernel)

end Grammar

end DocModelLexer
