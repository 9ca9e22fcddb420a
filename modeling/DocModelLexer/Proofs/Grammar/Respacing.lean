import DocModelLexer.Proofs.Grammar.LineByLine
import DocModelLexer.Proofs.Grammar.Nesting
import Mathlib.Data.List.DropRight
import Mathlib.Data.List.Forall2

namespace DocModelLexer

open List (Forall₂)

/-- A token of a text and the one that takes its place when indentations are made of spaces. -/
structure Token.Respaced (t u : Token) : Prop where
  type_eq : u.type = t.type
  value_eq :
    if t.opens ∨ t.closes then
      ∃ n, Grammar.measure t.value.toList = .ok n ∧
        u.value = String.ofList (List.replicate n ' ')
    else u.value = t.value

namespace Grammar

def spaces (blanks : List Char) : List Char :=
  match measure blanks with
  | .ok width => List.replicate width ' '
  | .error _ => blanks

/-- A line with its leading blanks as spaces. -/
def respaceLine (line : List Char) : List Char :=
  spaces (line.takeWhile isBlank) ++ line.dropWhile isBlank

def respace (text : String) : String :=
  String.ofList (['\n'].intercalate ((Text.splitOn '\n' text.toList).map respaceLine))

variable {lead line text : List Char} {levels : Levels} {n : Nat}

theorem measureFrom_replicate (width n : Nat) :
    measureFrom width (List.replicate n ' ') = .ok (width + n) := by
  induction n generalizing width with
  | zero => rfl
  | succ n ih =>
    rw [List.replicate_succ, measureFrom, if_pos rfl, ih, Nat.add_assoc, Nat.add_comm 1 n]

theorem spaces_of_measure (h : measure lead = .ok n) : spaces lead = List.replicate n ' ' := by
  rw [spaces, h]

theorem measure_spaces (h : measure lead = .ok n) : measure (spaces lead) = .ok n := by
  rw [spaces_of_measure h, measure, measureFrom_replicate, Nat.zero_add]

theorem isBlank_of_mem_spaces (h : measure lead = .ok n) : ∀ c ∈ spaces lead, isBlank c = true := by
  intro c hc
  rw [spaces_of_measure h] at hc
  rw [List.eq_of_mem_replicate hc]
  rfl

section

variable (line : List Char)

theorem takeWhile_respaceLine :
    (respaceLine line).takeWhile isBlank = spaces (line.takeWhile isBlank) := by
  obtain ⟨n, hn⟩ := measure_of_blank (blank_of_takeWhile line)
  have hrest : (line.dropWhile isBlank).takeWhile isBlank = [] :=
    List.takeWhile_eq_nil_iff.mpr fun hlen => List.dropWhile_get_zero_not isBlank line hlen
  rw [respaceLine, List.takeWhile_append_of_pos (isBlank_of_mem_spaces hn), hrest,
    List.append_nil]

theorem dropWhile_respaceLine : (respaceLine line).dropWhile isBlank = line.dropWhile isBlank := by
  obtain ⟨n, hn⟩ := measure_of_blank (blank_of_takeWhile line)
  rw [respaceLine, List.dropWhile_append_of_pos (isBlank_of_mem_spaces hn),
    List.dropWhile_idempotent]

theorem all_respaceLine : (respaceLine line).all isBlank = line.all isBlank := by
  rw [Bool.eq_iff_iff, List.all_eq_true, List.all_eq_true, ← List.dropWhile_eq_nil_iff,
    ← List.dropWhile_eq_nil_iff, dropWhile_respaceLine]

end

theorem lineFeed_not_mem_respaceLine (h : '\n' ∉ line) : '\n' ∉ respaceLine line := by
  obtain ⟨n, hn⟩ := measure_of_blank (blank_of_takeWhile line)
  intro hmem
  rcases List.mem_append.mp hmem with hmem | hmem
  · cases isBlank_of_mem_spaces hn _ hmem
  · exact h ((List.dropWhile_suffix isBlank).subset hmem)

def Lexeme.isIndentation : Lexeme → Bool
  | token kind _ => kind = .indent ∨ kind = .dedent
  | error _ => false

/-- A lexeme and what it becomes: the blanks of an indentation become spaces, and all else stays. -/
inductive Lexeme.Respaced : Lexeme → Lexeme → Prop where
  | blanks {kind : Kind} {lead : List Char} {n : Nat} : kind = .indent ∨ kind = .dedent →
      measure lead = .ok n → Respaced (.token kind lead) (.token kind (List.replicate n ' '))
  | same {lexeme : Lexeme} : lexeme.isIndentation = false → Respaced lexeme lexeme

abbrev Respaces : List Lexeme → List Lexeme → Prop := Forall₂ Lexeme.Respaced

namespace Respaces

variable {lexemes lexemes' later later' : List Lexeme}

theorem of_plain (h : ∀ l ∈ lexemes, l.isIndentation = false) : Respaces lexemes lexemes :=
  List.forall₂_same.mpr fun l hl => .same (h l hl)

theorem any_isError (h : Respaces lexemes lexemes') :
    lexemes'.any (·.isError) = lexemes.any (·.isError) := by
  induction h with
  | nil => rfl
  | cons hfirst _ ih =>
    cases hfirst with
    | blanks => exact ih
    | same => rw [List.any_cons, List.any_cons, ih]

theorem goingOn (h : Respaces lexemes lexemes') (hlater : Respaces later later') :
    Respaces (Grammar.goingOn lexemes later) (Grammar.goingOn lexemes' later') := by
  unfold Grammar.goingOn
  rw [h.any_isError]
  split
  · exact h
  · exact List.rel_append h hlater

end Respaces

theorem isIndentation_lexemeAt (c : Char) (text : List Char) :
    (lexemeAt c text).1.isIndentation = false := by
  unfold lexemeAt
  split
  · rename_i kind hkind
    obtain ⟨hindent, hdedent, -⟩ := Kind.ofChar?_ne hkind
    simp [Lexeme.isIndentation, hindent, hdedent]
  split
  · simp only [quoteLexeme]
    split
    · rfl
    · dsimp only
      split <;> rfl
  split
  · unfold signLexeme
    split <;> rfl
  split
  · simp only [pointLexeme]
    split <;> rfl
  split <;> rfl

theorem respaces_lexemesOf (text : List Char) : Respaces (lexemesOf text) (lexemesOf text) :=
  .of_plain (forall_mem_lexemesOf fun c rest _ => isIndentation_lexemeAt c rest)

theorem respaces_indentLexemes (hn : measure lead = .ok n) (levels : Levels) :
    Respaces (indentLexemes lead levels).1 (indentLexemes (spaces lead) levels).1 ∧
      (indentLexemes (spaces lead) levels).2 = (indentLexemes lead levels).2 := by
  have hspaces := spaces_of_measure hn
  have hopened : Lexeme.Respaced (.token .indent lead) (.token .indent (spaces lead)) := by
    rw [hspaces]
    exact .blanks (.inl rfl) hn
  have hclosed (i : Nat) : Lexeme.Respaced (.token .dedent (if i = 0 then lead else []))
      (.token .dedent (if i = 0 then spaces lead else [])) := by
    split
    · rw [hspaces]
      exact .blanks (.inr rfl) hn
    · exact .blanks (n := 0) (.inr rfl) rfl
  have hdedents (closed : Levels) : Respaces
      (closed.zipIdx.map fun x => .token .dedent (if x.2 = 0 then lead else []))
      (closed.zipIdx.map fun x => .token .dedent (if x.2 = 0 then spaces lead else [])) := by
    rw [Respaces, List.forall₂_map_left_iff, List.forall₂_map_right_iff]
    exact List.forall₂_same.mpr fun x _ => hclosed x.2
  simp only [indentLexemes, widthOf_of_measure hn, widthOf_of_measure (measure_spaces hn)]
  cases levels with
  | nil => exact ⟨.nil, rfl⟩
  | cons top levels =>
    simp only
    split
    · exact ⟨.nil, rfl⟩
    split
    · exact ⟨.cons hopened .nil, rfl⟩
    split
    · exact ⟨hdedents _, rfl⟩
    split
    · exact ⟨hdedents _, rfl⟩
    · exact ⟨List.rel_append (hdedents _) (.cons (.same rfl) .nil), rfl⟩

theorem respaces_lineLexemes (line : List Char) (levels : Levels) :
    Respaces (lineLexemes line levels).1 (lineLexemes (respaceLine line) levels).1 ∧
      (lineLexemes (respaceLine line) levels).2 = (lineLexemes line levels).2 := by
  obtain ⟨n, hn⟩ := measure_of_blank (blank_of_takeWhile line)
  obtain ⟨hindents, hlevels⟩ := respaces_indentLexemes hn levels
  rw [lineLexemes_fst, lineLexemes_fst, lineLexemes_snd, lineLexemes_snd, takeWhile_respaceLine,
    dropWhile_respaceLine]
  exact ⟨hindents.goingOn (respaces_lexemesOf _), hlevels⟩

theorem respaces_linesLexemes (lines : List (List Char)) (levels : Levels) :
    Respaces (linesLexemes lines levels) (linesLexemes (lines.map respaceLine) levels) := by
  induction lines generalizing levels with
  | nil => exact .nil
  | cons line lines ih =>
    obtain ⟨hline, hlevels⟩ := respaces_lineLexemes line levels
    cases lines with
    | nil =>
      have hend (levels : Levels) :
          Respaces ((indentLexemes [] levels).1 ++ [.token .eof []])
            ((indentLexemes [] levels).1 ++ [.token .eof []]) :=
        List.rel_append (respaces_indentLexemes rfl levels).1 (.cons (.same rfl) .nil)
      rw [linesLexemes_singleton, List.map_singleton, linesLexemes_singleton, hlevels]
      exact hline.goingOn (hend _)
    | cons second lines =>
      have hne : (second :: lines).map respaceLine ≠ [] := List.cons_ne_nil _ _
      rw [linesLexemes_cons (List.cons_ne_nil second lines), List.map_cons,
        linesLexemes_cons hne, all_respaceLine, hlevels]
      split
      · exact ih levels
      · exact hline.goingOn (ih _)

theorem Lexeme.isIndentation_eq {l : Lexeme} {t : Token} (h : t.lexeme = l.typeAndValue) :
    l.isIndentation = (t.opens || t.closes) := by
  obtain ⟨htype, -⟩ := Prod.mk.inj h
  cases l with
  | token kind text =>
    simp only [Token.opens, Token.closes, htype]
    cases kind <;> rfl
  | error e =>
    simp only [Token.opens, Token.closes, htype]
    rfl

theorem Lexeme.Respaced.token {l l' : Lexeme} {t u : Token} (h : l.Respaced l')
    (ht : t.lexeme = l.typeAndValue) (hu : u.lexeme = l'.typeAndValue) : t.Respaced u := by
  have hindents := isIndentation_eq ht
  obtain ⟨htype, hvalue⟩ := Prod.mk.inj ht
  obtain ⟨htype', hvalue'⟩ := Prod.mk.inj hu
  cases h with
  | @blanks kind lead n hkind hn =>
    refine ⟨htype'.trans htype.symm, ?_⟩
    have hopens : t.opens ∨ t.closes := by simpa [isIndentation, hkind] using hindents.symm
    rw [if_pos hopens, hvalue, String.toList_ofList]
    exact ⟨n, hn, hvalue'⟩
  | same hplain =>
    refine ⟨htype'.trans htype.symm, ?_⟩
    have hopens : ¬(t.opens ∨ t.closes) := by simpa [hplain] using hindents.symm
    rw [if_neg hopens]
    exact hvalue'.trans hvalue.symm

theorem Respaces.tokens {lexemes lexemes' : List Lexeme} {ts us : List Token}
    (h : Respaces lexemes lexemes') (hts : ts.map Token.lexeme = lexemes.map Lexeme.typeAndValue)
    (hus : us.map Token.lexeme = lexemes'.map Lexeme.typeAndValue) :
    Forall₂ Token.Respaced ts us := by
  induction h generalizing ts us with
  | nil =>
    rw [List.map_eq_nil_iff.mp hts, List.map_eq_nil_iff.mp hus]
    exact .nil
  | cons hfirst _ ih =>
    obtain ⟨t, ts, rfl, ht, hts⟩ := List.map_eq_cons_iff.mp hts
    obtain ⟨u, us, rfl, hu, hus⟩ := List.map_eq_cons_iff.mp hus
    exact .cons (hfirst.token ht hu) (ih hts hus)

/-- Only the width of indentation matters: a text and what it becomes when its indentation is made
of spaces have the same tokens, but for the blanks that those of an indentation carry. -/
theorem tokens_respace (text : String) :
    Forall₂ Token.Respaced (tokens text) (tokens (respace text)) := by
  have hne := Text.splitOn_ne_nil '\n' text.toList
  have hlines : ∀ line ∈ Text.splitOn '\n' text.toList, '\n' ∉ line :=
    fun _ hline => Text.not_mem_of_mem_splitOn hline
  have hrespaced : ∀ line ∈ (Text.splitOn '\n' text.toList).map respaceLine, '\n' ∉ line := by
    intro line hline
    obtain ⟨line, hmem, rfl⟩ := List.mem_map.mp hline
    exact lineFeed_not_mem_respaceLine (hlines line hmem)
  have hold := map_lexeme_tokens hne hlines (Text.intercalate_splitOn '\n' text.toList).symm
  have hnew : (tokens (respace text)).map Token.lexeme = _ :=
    map_lexeme_tokens (by simpa using hne) hrespaced String.toList_ofList
  exact (respaces_linesLexemes _ _).tokens hold hnew

example : (tokens "a\n \tb").map Token.lexeme =
      [(8, "a"), (1, " \t"), (8, "b"), (2, ""), (13, "")] ∧
    (tokens (respace "a\n \tb")).map Token.lexeme =
      [(8, "a"), (1, "    "), (8, "b"), (2, ""), (13, "")] := by
  decide +kernel

end Grammar

end DocModelLexer
