import DocModelLexer.Proofs.Grammar.Complaint
import DocModelLexer.Proofs.Grammar.LineByLine
import DocModelLexer.Proofs.Token.Undump

namespace DocModelLexer.Grammar

/-- The text of the source that a lexeme is about. -/
def Lexeme.subject : Lexeme → List Char
  | token _ text => text
  | error e => e.subject

theorem Lexeme.lineFeed_not_mem_value {l : Lexeme} (h : '\n' ∉ l.subject) :
    '\n' ∉ l.typeAndValue.2.toList := by
  cases l with
  | token kind text => rwa [typeAndValue, String.toList_ofList]
  | error e => exact e.lineFeed_not_mem_message h

theorem subject_lexemeAt_subset (c : Char) (text : List Char) :
    (lexemeAt c text).1.subject ⊆ c :: text := by
  have htaken (p : Char → Bool) : text.takeWhile p ⊆ text := (List.takeWhile_prefix p).subset
  have hsingle : [c] ⊆ c :: text := List.cons_subset_cons c (List.nil_subset text)
  unfold lexemeAt
  split
  · exact hsingle
  split
  · simp only [quoteLexeme]
    split
    · exact List.Subset.trans (htaken _) (List.subset_cons_self c text)
    · dsimp only
      split <;> exact List.Subset.trans (htaken _) (List.subset_cons_self c text)
  split
  · rename_i hsign
    subst hsign
    unfold signLexeme
    split
    · exact List.cons_subset_cons _ (htaken _)
    · rename_i letters _ hletters
      exact List.cons_subset_cons _ (htaken _)
  split
  · rename_i hpoint
    subst hpoint
    simp only [pointLexeme]
    split <;> exact List.cons_subset_cons _ (htaken _)
  split
  · exact List.cons_subset_cons _ (htaken _)
  · exact hsingle

theorem subject_indentLexemes_subset (lead : List Char) (levels : Levels) :
    ∀ l ∈ (indentLexemes lead levels).1, l.subject ⊆ lead := by
  have hdedents (closed : Levels) :
      ∀ l ∈ closed.zipIdx.map fun x => Lexeme.token .dedent (if x.2 = 0 then lead else []),
        l.subject ⊆ lead := by
    intro l hl
    obtain ⟨_, -, rfl⟩ := List.mem_map.mp hl
    simp only [Lexeme.subject]
    split
    · exact List.Subset.refl lead
    · exact List.nil_subset lead
  unfold indentLexemes
  cases levels with
  | nil => simp
  | cons top levels =>
    dsimp only
    split
    · simp
    split
    · simp [Lexeme.subject]
    split
    · exact hdedents _
    split
    · exact hdedents _
    · intro l hl
      rcases List.mem_append.mp hl with hl | hl
      · exact hdedents _ l hl
      · rw [List.mem_singleton.mp hl]
        exact List.nil_subset lead

theorem lineFeed_not_mem_lineLexemes {line : List Char} (hline : '\n' ∉ line) (levels : Levels) :
    ∀ l ∈ (lineLexemes line levels).1, '\n' ∉ l.subject := by
  intro l hl
  rw [lineLexemes_fst] at hl
  rcases mem_goingOn hl with hl | hl
  · intro hmem
    have hlead := subject_indentLexemes_subset _ _ l hl hmem
    exact hline ((List.takeWhile_prefix isBlank).subset hlead)
  · refine forall_mem_lexemesOf (P := fun l => '\n' ∉ l.subject) (fun c rest hrest hmem => ?_) l hl
    have hsuffix := hrest.trans (List.dropWhile_suffix isBlank)
    exact hline (hsuffix.subset (subject_lexemeAt_subset c rest hmem))

theorem lineFeed_not_mem_linesLexemes {lines : List (List Char)}
    (hlines : ∀ line ∈ lines, '\n' ∉ line) (levels : Levels) :
    ∀ l ∈ linesLexemes lines levels, '\n' ∉ l.subject := by
  induction lines generalizing levels with
  | nil => simp [linesLexemes]
  | cons line lines ih =>
    have hline := lineFeed_not_mem_lineLexemes (hlines line List.mem_cons_self) levels
    have hlater := ih fun l hl => hlines l (List.mem_cons_of_mem line hl)
    intro l hl
    cases lines with
    | nil =>
      rw [linesLexemes_singleton] at hl
      rcases mem_goingOn hl with hl | hl
      · exact hline l hl
      rcases List.mem_append.mp hl with hl | hl
      · intro hmem
        cases subject_indentLexemes_subset _ _ l hl hmem
      · rw [List.mem_singleton.mp hl]
        exact List.not_mem_nil
    | cons second lines =>
      rw [linesLexemes_cons (List.cons_ne_nil second lines)] at hl
      split at hl
      · exact hlater levels l hl
      · exact (mem_goingOn hl).elim (hline l) (hlater _ l)

/-- Every token of a text is a lexeme of one of its lines. -/
theorem exists_lexeme {text : String} {t : Token} (ht : t ∈ tokens text) :
    ∃ l : Lexeme, t.lexeme = l.typeAndValue ∧ '\n' ∉ l.subject := by
  have hlines : ∀ line ∈ Text.splitOn '\n' text.toList, '\n' ∉ line :=
    fun _ hline => Text.not_mem_of_mem_splitOn hline
  have hmem : t.lexeme ∈ (tokens text).map Token.lexeme := List.mem_map_of_mem ht
  rw [map_lexeme_tokens_splitOn] at hmem
  obtain ⟨l, hl, heq⟩ := List.mem_map.mp hmem
  exact ⟨l, heq.symm, lineFeed_not_mem_linesLexemes hlines _ l hl⟩

theorem lineFeed_not_mem_value {text : String} {t : Token} (ht : t ∈ tokens text) :
    '\n' ∉ t.value.toList := by
  obtain ⟨l, hl, hsubject⟩ := exists_lexeme ht
  have hvalue : t.value = l.typeAndValue.2 := congrArg Prod.snd hl
  rw [hvalue]
  exact l.lineFeed_not_mem_value hsubject

theorem tells_kind (kind : Kind) : names.Tells kind.type := by
  cases kind <;> exact ⟨by decide +kernel, by decide +kernel, by decide +kernel⟩

theorem tells_error : names.Tells errorType :=
  ⟨by decide +kernel, by decide +kernel, by decide +kernel⟩

theorem tells_of_mem {text : String} {t : Token} (ht : t ∈ tokens text) : names.Tells t.type := by
  obtain ⟨l, hl, -⟩ := exists_lexeme ht
  have htype : t.type = l.typeAndValue.1 := congrArg Prod.fst hl
  rw [htype]
  cases l with
  | token kind text => exact tells_kind kind
  | error e => exact tells_error

end DocModelLexer.Grammar
