import DocModelLexer.Proofs.Grammar.WholeLines

namespace DocModelLexer

/-- A token of a text into which a line of `length` characters is put at `offset`. Its line feed is
one of them. -/
def Token.afterLine (offset length : Nat) (t : Token) : Token :=
  if t.begins < offset then t else t.moved 1 length

namespace Grammar

open Pause (Leads)
open Text (ended)

variable {lines : List (List Char)} {behind pending blank rest : List Char} {levels : Levels}
  {ts : List Token} {text text' : String} {m m' : Nat}

theorem leads_blankLine (behind pending rest : List Char) (levels : Levels)
    (hblank : ∀ c ∈ blank, isBlank c = true) :
    ∃ m, Leads graph ⟨.upon behind pending (blank ++ '\n' :: rest), levels, some .newline⟩ [] m
      ⟨.upon (behind ++ pending) (blank ++ ['\n']) rest, levels, some .newline⟩ := by
  have htake : (blank ++ '\n' :: rest).takeWhile isBlank = blank := by
    rw [List.takeWhile_append_of_pos hblank]
    exact List.append_nil blank
  have hdrop : (blank ++ '\n' :: rest).dropWhile isBlank = '\n' :: rest := by
    rw [List.dropWhile_append_of_pos hblank]
    rfl
  have hturn := @Turn.blankLine behind pending _ _ levels hdrop
  rw [htake] at hturn
  obtain ⟨m, hexec, -⟩ := hturn.exec
  exact ⟨m + 1, .one hexec⟩

theorem map_afterLine {before later : List Token} {offset length : Nat}
    (hbefore : ∀ t ∈ before, t.begins < offset) (hlater : ∀ t ∈ later, (offset : Int) ≤ t.begins) :
    (before ++ later).map (Token.afterLine offset length) =
      before ++ later.map (Token.moved 1 length) := by
  have hkept : before.map (Token.afterLine offset length) = before := by
    refine (List.map_congr_left fun t ht => ?_).trans (List.map_id before)
    exact if_pos (hbefore t ht)
  have hmoved : later.map (Token.afterLine offset length) = later.map (Token.moved 1 length) := by
    refine List.map_congr_left fun t ht => ?_
    have hle := hlater t ht
    exact if_neg (by omega)
  rw [List.map_append, hkept, hmoved]

theorem tokens_of_leads_blankLine (hlines : ∀ line ∈ lines, '\n' ∉ line)
    (hread : behind ++ pending = ended lines) (hblank : ∀ c ∈ blank, isBlank c = true)
    (hts : ∀ t ∈ ts, t.begins < (ended lines).length)
    (h : Leads graph (start text) ts m ⟨.upon behind pending rest, levels, some .newline⟩)
    (h' : Leads graph (start text') ts m'
      ⟨.upon behind pending (blank ++ '\n' :: rest), levels, some .newline⟩) :
    tokens text' =
      (tokens text).map (Token.afterLine (ended lines).length (blank.length + 1)) := by
  have hfeed : '\n' ∉ blank := fun hmem => Bool.noConfusion (hblank _ hmem)
  have hmore : ∀ line ∈ lines ++ [blank], '\n' ∉ line := by
    intro line hline
    rcases List.mem_append.mp hline with hline | hline
    · exact hlines line hline
    · rwa [List.mem_singleton.mp hline]
  have hgone : behind ++ pending ++ (blank ++ ['\n']) = ended (lines ++ [blank]) := by
    rw [hread, Text.ended_append, Text.ended_cons]
    rfl
  obtain ⟨k, hpass⟩ := leads_blankLine behind pending rest levels hblank
  have hpassed := h'.trans hpass
  rw [List.append_nil] at hpassed
  have hlen : (ended (lines ++ [blank])).length = (ended lines).length + (blank.length + 1) := by
    rw [← hgone, hread, List.length_append, List.length_append, List.length_singleton]
  have hmoved : Token.moved (lines ++ [blank]).length (ended (lines ++ [blank])).length =
      Token.moved 1 (blank.length + 1) ∘ Token.moved lines.length (ended lines).length := by
    funext t
    rw [Function.comp, Token.moved_moved, hlen, List.length_append, List.length_singleton]
  obtain ⟨j, hrest⟩ := run_between (.ofList rest) ((fits_start text).leads h).1
  rw [tokens_of_leads_lines hlines h hread, tokens_of_leads_lines hmore hpassed hgone,
    map_afterLine hts]
  · rw [List.map_map, hmoved]
  · intro t ht
    obtain ⟨u, hu, rfl⟩ := List.mem_map.mp ht
    have hle := ((hrest u hu).moved lines.length (ended lines).length).le_begins
    omega

/-- Behind known lines a line of blanks is invisible: either the scan does not get there, or it goes
on behind that line as it would without. -/
theorem Reading.tokens_blankLine {known : List Char} {z : Front} (h : Reading known ts z)
    (hblank : ∀ c ∈ blank, isBlank c = true) (htext : text.toList = known ++ '\n' :: rest)
    (htext' : text'.toList = known ++ '\n' :: (blank ++ '\n' :: rest)) :
    tokens text' = (tokens text).map (Token.afterLine (known.length + 1) (blank.length + 1)) := by
  have hts : ∀ t ∈ ts, t.begins < (known.length + 1 : Nat) := by
    intro t ht
    have hbetween := h.between t ht
    have hbegins := hbetween.begins_le
    have hends := hbetween.ends_le
    omega
  cases z with
  | within behind pending left levels next =>
    cases next with
    | some state => cases h.settled
    | none =>
      have hkept : (ts ++ []).map (Token.afterLine (known.length + 1) (blank.length + 1)) =
          ts ++ [] := map_afterLine hts (List.forall_mem_nil _)
      rw [h.tokens_eq htext, h.tokens_eq htext']
      simpa using hkept.symm
  | past behind pending levels =>
    have hlines : ∀ line ∈ Text.splitOn '\n' known, '\n' ∉ line :=
      fun _ hline => Text.not_mem_of_mem_splitOn hline
    have hlen : (ended (Text.splitOn '\n' known)).length = known.length + 1 := by
      rw [Text.ended_splitOn, List.length_append, List.length_singleton]
    obtain ⟨m, hleads⟩ := h.leads text rest htext
    obtain ⟨m', hleads'⟩ := h.leads text' _ htext'
    rw [← hlen] at hts ⊢
    exact tokens_of_leads_blankLine hlines h.read_eq hblank hts hleads hleads'

theorem tokens_blankLine_first (hblank : ∀ c ∈ blank, isBlank c = true)
    (htext' : text'.toList = blank ++ '\n' :: text.toList) :
    tokens text' = (tokens text).map (Token.afterLine 0 (blank.length + 1)) := by
  have hnone : ∀ line ∈ ([] : List (List Char)), '\n' ∉ line := List.forall_mem_nil _
  have hplain : Leads graph (start text) [] 0
      ⟨.upon [] [] text.toList, Levels.base, some .newline⟩ := by
    rw [start_eq_upon]
    exact .refl _
  have hpadded : Leads graph (start text') [] 0
      ⟨.upon [] [] (blank ++ '\n' :: text.toList), Levels.base, some .newline⟩ := by
    rw [start_eq_upon, htext']
    exact .refl _
  exact tokens_of_leads_blankLine hnone rfl hblank (List.forall_mem_nil _) hplain hpadded

/-- A line of blanks is invisible between the lines of a text: the tokens before it stay, those
behind it move down by that line, and there are no others. -/
theorem tokens_insert_blankLine (before blank after : String)
    (hbefore : before = "" ∨ before.toList.getLast? = some '\n')
    (hblank : ∀ c ∈ blank.toList, c = ' ' ∨ c = '\t') :
    tokens (before ++ blank ++ "\n" ++ after) =
        (tokens (before ++ after)).map (Token.afterLine before.length (blank.length + 1)) ∧
      ∀ t ∈ tokens (before ++ after), t.span.isSome := by
  have hisBlank : ∀ c ∈ blank.toList, isBlank c = true := by
    intro c hc
    simpa [isBlank, blanks] using hblank c hc
  have hbase : 0 ∈ Levels.base := by simp [Levels.base]
  obtain ⟨_, hplaces⟩ := run_between (.ofString (before ++ after)) hbase
  refine ⟨?_, fun t ht => (hplaces t ht).placed⟩
  rcases hbefore with rfl | hbefore
  · exact tokens_blankLine_first hisBlank (by simp)
  · obtain ⟨known, hknown⟩ := List.getLast?_eq_some_iff.mp hbefore
    obtain ⟨ts, z, hreading⟩ := exists_reading known
    have hlen : before.length = known.length + 1 := by
      rw [← String.length_toList, hknown, List.length_append, List.length_singleton]
    have hplain : (before ++ after).toList = known ++ '\n' :: after.toList := by simp [hknown]
    have hpadded : (before ++ blank ++ "\n" ++ after).toList =
        known ++ '\n' :: (blank.toList ++ '\n' :: after.toList) := by simp [hknown]
    rw [hlen]
    exact hreading.tokens_blankLine hisBlank hplain hpadded

theorem tokens_insert_blankLine_dedent :
    tokens "a\n  b\n \t\nc" = (tokens "a\n  b\nc").map (Token.afterLine 6 3) ∧
      ⟨8, "c", some ⟨⟨4, 1, 9⟩, ⟨4, 2, 10⟩⟩⟩ ∈ tokens "a\n  b\n \t\nc" := by
  have hblank : ∀ c ∈ " \t".toList, c = ' ' ∨ c = '\t' := by simp
  obtain ⟨hall, -⟩ := tokens_insert_blankLine "a\n  b\n" " \t" "c" (.inr (by decide)) hblank
  have htokens : tokens "a\n  b\n \t\nc" =
      (tokens "a\n  b\nc").map (Token.afterLine 6 3) := hall
  refine ⟨htokens, ?_⟩
  rw [htokens]
  exact List.mem_map.mpr ⟨⟨8, "c", some ⟨⟨3, 1, 6⟩, ⟨3, 2, 7⟩⟩⟩, by decide +kernel, by decide⟩

end Grammar

end DocModelLexer
