import DocModelLexer.Proofs.Grammar.Nesting

namespace DocModelLexer

namespace Token

def begins (t : Token) : Int :=
  match t.span with
  | some span => span.start.offset
  | none => 0

def ends (t : Token) : Int :=
  match t.span with
  | some span => span.stop.offset
  | none => 0

def covers (t : Token) (i : Nat) : Prop := t.begins ≤ i ∧ (i : Int) < t.ends

instance (t : Token) (i : Nat) : Decidable (t.covers i) := inferInstanceAs (Decidable (_ ∧ _))

/-- A token stands over the text from offset `i` up to offset `j`. -/
def StandsAt (t : Token) (i j : Nat) : Prop := t.span.isSome ∧ t.begins = i ∧ t.ends = j

theorem upon_standsAt (type : Int) (behind pending ahead : List Char) :
    (upon type behind pending ahead).StandsAt behind.length (behind.length + pending.length) := by
  simp [StandsAt, upon, begins, ends, Cursor.span, Cursor.upon, Source.spanOf,
    Source.offset_positionAt]

theorem errorUpon_standsAt (message : String) (behind pending ahead : List Char) :
    (errorUpon message behind pending ahead).StandsAt behind.length
      (behind.length + pending.length) := by
  simp [StandsAt, errorUpon, begins, ends, Cursor.span, Cursor.upon, Source.spanOf,
    Source.offset_positionAt]

end Token

namespace Grammar

open Pause (Leads)

/-- Why a character `c` at offset `i` of a text may stand outside all tokens. -/
inductive Gap (chars : List Char) (tokens : List Token) (i : Nat) (c : Char) : Prop where
  | blank : isBlank c = true → Gap chars tokens i c
  | lineFeed : c = '\n' → Gap chars tokens i c
  | mark {t : Token} {j k : Nat} : t ∈ tokens → t.type = Kind.quote.type → t.begins = j + 1 →
      t.ends = k → chars[j]? = some c → chars[k]? = some c → i = j ∨ i = k →
      c = '\x22' ∨ c = '\x27' → Gap chars tokens i c
  | runaway {t : Token} {body : List Char} : t ∈ tokens → t.isError = true →
      t.value = (Error.runawayQuote body).message → t.begins = i + 1 →
      c = '\x22' ∨ c = '\x27' → Gap chars tokens i c

/-- Tokens tile a text up to the offset `reach`. -/
structure Tiles (chars : List Char) (tokens : List Token) (reach : Nat) : Prop where
  stands : ∀ t ∈ tokens, ∃ i j : Nat, t.StandsAt i j ∧ i ≤ j ∧ j ≤ reach ∧
    (t.isError = false → t.value = String.ofList ((chars.drop i).take (j - i))) ∧
    (t.isEof = true → i = chars.length ∧ j = chars.length)
  ordered : tokens.Pairwise fun t u => t.ends ≤ u.begins
  gaps : ∀ i c, chars[i]? = some c → i < reach → (∀ t ∈ tokens, ¬ t.covers i) →
    Gap chars tokens i c
  within : reach ≤ chars.length

section

variable {chars : List Char} {tokens ts : List Token} {i reach : Nat} {c : Char}

theorem Gap.append (h : Gap chars tokens i c) (ts : List Token) : Gap chars (tokens ++ ts) i c := by
  cases h with
  | blank hc => exact .blank hc
  | lineFeed hc => exact .lineFeed hc
  | mark ht htype hj hk hcj hck hi hc =>
    exact .mark (List.mem_append_left _ ht) htype hj hk hcj hck hi hc
  | runaway ht herror hvalue hi hc =>
    exact .runaway (List.mem_append_left _ ht) herror hvalue hi hc

namespace Tiles

theorem nil : Tiles chars [] 0 :=
  ⟨by simp, .nil, fun i _ _ hi => absurd hi (Nat.not_lt_zero i), Nat.zero_le _⟩

/-- The next token begins behind the last, and what lies around it up to the new reach are gaps. -/
theorem token {t : Token} {j reach' : Nat} (h : Tiles chars tokens reach) (ht : t.StandsAt i j)
    (hi : reach ≤ i) (hij : i ≤ j) (hj : j ≤ reach') (hwithin : reach' ≤ chars.length)
    (hvalue : t.isError = false → t.value = String.ofList ((chars.drop i).take (j - i)))
    (heof : t.isEof = true → i = chars.length ∧ j = chars.length)
    (hgap : ∀ k c, chars[k]? = some c → reach ≤ k → k < reach' → k < i ∨ j ≤ k →
      Gap chars (tokens ++ [t]) k c) :
    Tiles chars (tokens ++ [t]) reach' where
  stands := by
    intro u hu
    rcases List.mem_append.mp hu with hu | hu
    · obtain ⟨a, b, hstands, hab, hb, hrest⟩ := h.stands u hu
      exact ⟨a, b, hstands, hab, by omega, hrest⟩
    · rw [List.mem_singleton.mp hu]
      exact ⟨i, j, ht, hij, hj, hvalue, heof⟩
  ordered := by
    refine List.pairwise_append.mpr ⟨h.ordered, List.pairwise_singleton _ _, ?_⟩
    intro u hu v hv
    obtain ⟨a, b, hstands, _, hb, _⟩ := h.stands u hu
    rw [List.mem_singleton.mp hv, hstands.2.2, ht.2.1]
    omega
  gaps := by
    intro k c hc hk hout
    by_cases hbefore : k < reach
    · exact (h.gaps k c hc hbefore fun u hu => hout u (List.mem_append_left _ hu)).append [t]
    · refine hgap k c hc (by omega) hk ?_
      have hnot := hout t (by simp)
      rw [Token.covers, ht.2.1, ht.2.2] at hnot
      omega
  within := hwithin

variable {behind pending ahead : List Char}

theorem mem_of_window (hchars : chars = behind ++ pending ++ ahead) (hc : chars[i]? = some c)
    (hle : behind.length ≤ i) (hlt : i < (behind ++ pending).length) : c ∈ pending := by
  rw [hchars, List.getElem?_append_left hlt, List.getElem?_append_right hle] at hc
  exact List.mem_of_getElem? hc

theorem length_window_le (hchars : chars = behind ++ pending ++ ahead) :
    (behind ++ pending).length ≤ chars.length := by
  rw [hchars]
  exact (List.prefix_append _ _).length_le

theorem skip (h : Tiles chars tokens behind.length) (hchars : chars = behind ++ pending ++ ahead)
    (hpending : ∀ c ∈ pending, isBlank c = true ∨ c = '\n') :
    Tiles chars tokens (behind ++ pending).length where
  stands := by
    intro t ht
    obtain ⟨i, j, hstands, hij, hj, hrest⟩ := h.stands t ht
    rw [List.length_append]
    exact ⟨i, j, hstands, hij, by omega, hrest⟩
  ordered := h.ordered
  gaps := by
    intro i c hc hi hout
    by_cases hbefore : i < behind.length
    · exact h.gaps i c hc hbefore hout
    · rcases hpending c (mem_of_window hchars hc (by omega) hi) with hblank | hfeed
      · exact .blank hblank
      · exact .lineFeed hfeed
  within := length_window_le hchars

theorem upon (h : Tiles chars tokens behind.length) (hchars : chars = behind ++ pending ++ ahead)
    (kind : Kind) (hkind : kind = .eof → pending = [] ∧ ahead = []) :
    Tiles chars (tokens ++ [.upon kind.type behind pending ahead]) (behind ++ pending).length := by
  have hlen : (behind ++ pending).length = behind.length + pending.length := List.length_append
  refine h.token (Token.upon_standsAt _ _ _ _) (Nat.le_refl _) (by omega) (by omega)
    (length_window_le hchars) ?_ ?_ ?_
  · intro _
    rw [hchars, List.append_assoc, List.drop_left, Nat.add_sub_cancel_left, List.take_left]
    rfl
  · intro heof
    rw [isEof_upon] at heof
    obtain ⟨rfl, rfl⟩ := hkind (of_decide_eq_true heof)
    simp [hchars]
  · intro k c _ hk hlt hout
    omega

theorem errorUpon (h : Tiles chars tokens behind.length)
    (hchars : chars = behind ++ pending ++ ahead) (message : String) :
    Tiles chars (tokens ++ [.errorUpon message behind pending ahead])
      (behind ++ pending).length := by
  have hlen : (behind ++ pending).length = behind.length + pending.length := List.length_append
  refine h.token (Token.errorUpon_standsAt _ _ _ _) (Nat.le_refl _) (by omega) (by omega)
    (length_window_le hchars) ?_ ?_ ?_
  · intro herror
    cases herror
  · intro heof
    cases heof
  · intro k c _ hk hlt hout
    omega

theorem dedents (h : Tiles chars tokens behind.length) (hchars : chars = behind ++ pending ++ ahead)
    {n : Nat} (hn : n ≠ 0) :
    Tiles chars (tokens ++ Grammar.dedents behind pending ahead n) (behind ++ pending).length := by
  induction n generalizing tokens behind pending with
  | zero => contradiction
  | succ n ih =>
    have hone := h.upon hchars .dedent (by simp)
    rw [Grammar.dedents, ← List.singleton_append, ← List.append_assoc]
    by_cases hlast : n = 0
    · subst hlast
      simpa [Grammar.dedents] using hone
    · have hrest : chars = (behind ++ pending) ++ [] ++ ahead := by simpa using hchars
      have hmore := ih hone hrest hlast
      rwa [List.append_nil] at hmore

theorem indents {levels levels' : Levels} {next : Option State}
    (h : Tiles chars tokens behind.length) (hchars : chars = behind ++ pending ++ ahead)
    (hblank : ∀ c ∈ pending, isBlank c = true)
    (hindents : Indents behind pending ahead levels ts levels' next) :
    Tiles chars (tokens ++ ts) (behind ++ pending).length := by
  cases hindents with
  | same =>
    rw [List.append_nil]
    exact h.skip hchars fun c hc => .inl (hblank c hc)
  | opens => exact h.upon hchars .indent (by simp)
  | closes _ hne => exact h.dedents hchars (mt List.eq_nil_of_length_eq_zero hne)
  | @inconsistent n top _ _ _ hne =>
    have hclosed := h.dedents hchars (mt List.eq_nil_of_length_eq_zero hne)
    have hrest : chars = (behind ++ pending) ++ [] ++ ahead := by simpa using hchars
    have herror := hclosed.errorUpon hrest (Error.inconsistentDedent top n).message
    rw [List.append_nil] at herror
    rw [← List.append_assoc]
    exact herror

variable {mark : Char} {body rest : List Char}

theorem quoted (h : Tiles chars tokens behind.length)
    (hchars : chars = behind ++ [mark] ++ body ++ mark :: rest)
    (hmark : mark = '\x22' ∨ mark = '\x27') :
    Tiles chars (tokens ++ [.upon Kind.quote.type (behind ++ [mark]) body (mark :: rest)])
      (behind ++ [mark] ++ body ++ [mark]).length := by
  have hstart : (behind ++ [mark]).length = behind.length + 1 := by simp
  have hend : (behind ++ [mark] ++ body ++ [mark]).length =
      (behind ++ [mark]).length + body.length + 1 := by
    rw [List.length_append, List.length_append, List.length_singleton]
  have hstands := Token.upon_standsAt Kind.quote.type (behind ++ [mark]) body (mark :: rest)
  have hbefore : chars[behind.length]? = some mark := by simp [hchars]
  have hafter : chars[(behind ++ [mark]).length + body.length]? = some mark := by
    rw [hchars, ← List.length_append, List.getElem?_append_right (Nat.le_refl _), Nat.sub_self]
    rfl
  have hwithin : (behind ++ [mark] ++ body ++ [mark]).length ≤ chars.length := by
    have htext : chars = (behind ++ [mark] ++ body) ++ [mark] ++ rest := by simp [hchars]
    exact length_window_le htext
  refine h.token hstands (by omega) (by omega) (by omega) hwithin ?_ ?_ ?_
  · intro _
    rw [hchars, List.append_assoc, List.drop_left, Nat.add_sub_cancel_left, List.take_left]
    rfl
  · intro heof
    cases heof
  · intro k c hc hk hlt hout
    have hside : k = behind.length ∨ k = (behind ++ [mark]).length + body.length := by omega
    have hcmark : c = mark := by
      rcases hside with rfl | rfl
      · exact Option.some.inj (hc.symm.trans hbefore)
      · exact Option.some.inj (hc.symm.trans hafter)
    subst hcmark
    refine .mark (List.mem_append_right _ (List.mem_singleton_self _)) rfl ?_ hstands.2.2 hbefore
      hafter hside hmark
    rw [hstands.2.1, hstart]
    rfl

theorem runaway (h : Tiles chars tokens behind.length)
    (hchars : chars = behind ++ [mark] ++ body ++ rest) (hmark : mark = '\x22' ∨ mark = '\x27') :
    Tiles chars
      (tokens ++ [.errorUpon (Error.runawayQuote body).message (behind ++ [mark]) body rest])
      (behind ++ [mark] ++ body).length := by
  have hstart : (behind ++ [mark]).length = behind.length + 1 := by simp
  have hend : (behind ++ [mark] ++ body).length = (behind ++ [mark]).length + body.length :=
    List.length_append
  have hstands := Token.errorUpon_standsAt (Error.runawayQuote body).message (behind ++ [mark]) body
    rest
  have hbefore : chars[behind.length]? = some mark := by simp [hchars]
  refine h.token hstands (by omega) (by omega) (by omega) (length_window_le hchars) ?_ ?_ ?_
  · intro herror
    cases herror
  · intro heof
    cases heof
  · intro k c hc hk hlt hout
    have hside : k = behind.length := by omega
    subst hside
    cases Option.some.inj (hc.symm.trans hbefore)
    refine .runaway (List.mem_append_right _ (List.mem_singleton_self _)) rfl rfl ?_ hmark
    rw [hstands.2.1, hstart]
    rfl

end Tiles

theorem Quote.mark_eq {state : State} {mark : Char} (h : Quote state mark) :
    mark = '\x22' ∨ mark = '\x27' := by
  cases h
  · exact .inl rfl
  · exact .inr rfl

theorem Quote.pending_eq {state : State} {mark : Char} {pending : List Char} (h : Quote state mark)
    (hholds : state.Holds pending) : pending = [mark] := by
  cases h <;> exact hholds

/-- Tokens tile a text up to the window of a pause, or up to anywhere once the scan is over. -/
def TilesUntil (chars : List Char) (tokens : List Token) (y : Pause Levels State) : Prop :=
  ∃ reach, Tiles chars tokens reach ∧ (y.next ≠ none → reach = y.cursor.tokenStart)

theorem Tiles.pause {y : Pause Levels State} (h : Tiles chars tokens y.cursor.tokenStart) :
    TilesUntil chars tokens y := by
  refine ⟨_, h, ?_⟩
  intro _
  rfl

theorem Tiles.over {y : Pause Levels State} (h : Tiles chars tokens reach) (hy : y.next = none) :
    TilesUntil chars tokens y := by
  refine ⟨_, h, ?_⟩
  intro hnext
  contradiction

theorem Turn.tiles {state : State} {behind pending ahead : List Char} {levels : Levels}
    {y : Pause Levels State} (hturn : Turn state behind pending ahead levels ts y)
    (hchars : chars = behind ++ pending ++ ahead) (hholds : state.Holds pending)
    (h : Tiles chars tokens behind.length) : TilesUntil chars (tokens ++ ts) y := by
  have hword (p : Char → Bool) := hchars.trans (append_read_pending p behind pending ahead).symm
  have hbody (p : Char → Bool) := hchars.trans (append_read p behind pending ahead).symm
  cases hturn with
  | blankLine =>
    rw [List.append_nil]
    exact (h.skip hchars hholds).pause
  | line _ hindents =>
    have hskip := h.skip hchars hholds
    have hrest := hskip.indents (hbody isBlank) (blank_of_takeWhile ahead) hindents
    exact hrest.pause
  | measured => cases hholds
  | @blank _ c rest _ hc =>
    have htext : chars = behind ++ [c] ++ rest := by simpa using hchars
    rw [List.append_nil]
    exact (h.skip htext (by simpa using .inl hc)).pause
  | lineEnd =>
    rw [List.append_nil]
    exact h.pause
  | @single _ c rest _ kind hkind =>
    have htext : chars = behind ++ [c] ++ rest := by simpa using hchars
    have hone := h.upon htext kind fun he => absurd he (Kind.ofChar?_ne hkind).2.2
    exact hone.pause
  | enters =>
    rw [List.append_nil]
    exact h.pause
  | @unexpected _ c rest _ _ _ =>
    have htext : chars = behind ++ [c] ++ rest := by simpa using hchars
    exact (h.errorUpon htext _).over rfl
  | eof hindents =>
    have hclosed := h.indents hchars (by simp) hindents
    have htext : chars = (behind ++ []) ++ [] ++ [] := by simpa using hchars
    have hmarked := hclosed.upon htext .eof fun _ => ⟨rfl, rfl⟩
    rw [List.append_nil] at hmarked
    rw [← List.append_assoc]
    exact hmarked.over rfl
  | badEnd hindents => exact (h.indents hchars (by simp) hindents).over rfl
  | @quoted _ mark _ _ _ rest _ hquote hrest =>
    cases hquote.pending_eq hholds
    have htext := hbody (Script.staysBefore [mark])
    rw [hrest] at htext
    exact (h.quoted htext hquote.mark_eq).pause
  | @runaway _ mark _ _ _ _ hquote _ =>
    cases hquote.pending_eq hholds
    exact (h.runaway (hbody _) hquote.mark_eq).over rfl
  | @word _ p kind _ _ _ _ hkind =>
    have hne : kind ≠ .eof := by cases hkind <;> exact Kind.noConfusion
    have hone := h.upon (hword p) kind fun he => absurd he hne
    exact hone.pause
  | ellipsis =>
    have hone := h.upon (hword (· == '.')) .reference fun he => Kind.noConfusion he
    exact hone.pause
  | malformed => exact (h.errorUpon (hword _) _).over rfl

end

theorem leads_tiles {text : String} {tokens : List Token} {m : Nat} {y : Pause Levels State}
    (h : Leads graph (start text) tokens m y) : ∃ reach, Tiles text.toList tokens reach := by
  have hall : TilesUntil text.toList tokens y := by
    refine start_induct h (Tiles.pause (.nil : Tiles text.toList [] 0)) ?_
    rintro before n state behind pending ahead levels ts z _ htext hholds ⟨reach, htiles, hreach⟩ hz
    cases hreach (by simp)
    exact hz.tiles htext.symm hholds htiles
  obtain ⟨reach, htiles, _⟩ := hall
  exact ⟨reach, htiles⟩

theorem Turn.tokens_ne_nil {state : State} {behind pending ahead : List Char} {levels : Levels}
    {tokens : List Token} {y : Pause Levels State}
    (h : Turn state behind pending ahead levels tokens y) (hy : y.next = none) : tokens ≠ [] := by
  have hindents {behind lead ahead : List Char} {levels levels' : Levels} {next : Option State}
      (h : Indents behind lead ahead levels tokens levels' next) (hnext : next = none) :
      tokens ≠ [] := by
    subst hnext
    cases h
    simp
  cases h with
  | blankLine => cases hy
  | line _ h => exact hindents h hy
  | measured h => exact hindents h hy
  | blank => cases hy
  | lineEnd => cases hy
  | single => simp
  | enters => cases hy
  | unexpected => simp
  | eof => simp
  | badEnd h => exact hindents h rfl
  | quoted => simp
  | runaway => simp
  | word => simp
  | ellipsis => simp
  | malformed => simp

theorem tokens_ne_nil (text : String) : tokens text ≠ [] := by
  obtain ⟨m, y, hleads, hy, _⟩ := leads_tokens text
  refine start_induct (P := fun tokens y => y.next = none → tokens ≠ []) hleads ?_ ?_ hy
  · intro hnext
    cases hnext
  · intro before n state behind pending ahead levels ts z _ _ _ _ hturn hz
    exact List.append_ne_nil_of_right_ne_nil _ (hturn.tokens_ne_nil hz)

/-- The tokens of a text stand one behind the other, each over the text that is its value. What
stands outside all, before the last of them, are blanks, line feeds and the marks of quotes. -/
theorem tokens_tile (text : String) :
    (∀ t ∈ tokens text, t.span.isSome ∧ 0 ≤ t.begins ∧ t.begins ≤ t.ends ∧
      t.ends ≤ (Source.ofString text).size) ∧
    (∀ t ∈ tokens text, t.isError = false →
      t.value = String.ofList ((Source.ofString text).slice t.begins.toNat t.ends.toNat)) ∧
    ((tokens text).Pairwise fun t u => t.ends ≤ u.begins ∧ ∀ i, ¬(t.covers i ∧ u.covers i)) ∧
    (∀ t ∈ tokens text, t.isEof = true →
      t.begins = (Source.ofString text).size ∧ t.ends = (Source.ofString text).size) ∧
    (∃ last, (tokens text).getLast? = some last ∧ ∀ (i : Nat) (c : Char),
      text.toList[i]? = some c → (i : Int) < last.begins → (∀ t ∈ tokens text, ¬ t.covers i) →
      Gap text.toList (tokens text) i c) := by
  obtain ⟨m, y, hleads, -⟩ := leads_tokens text
  obtain ⟨reach, htiles⟩ := leads_tiles hleads
  have hsize : (Source.ofString text).size = text.toList.length := Source.size_ofList _
  have hslice (i j : Nat) : (Source.ofString text).slice i j =
      (text.toList.drop i).take (j - i) := by
    rw [Source.slice_eq, Source.ofString, Source.toList_ofList]
  have hwithin := htiles.within
  refine ⟨?_, ?_, ?_, ?_, ?_⟩
  · intro t ht
    obtain ⟨i, j, ⟨hspan, hi, hj⟩, hij, hle, _⟩ := htiles.stands t ht
    rw [hi, hj, hsize]
    exact ⟨hspan, by omega, by omega, by omega⟩
  · intro t ht herror
    obtain ⟨i, j, ⟨_, hi, hj⟩, _, _, hvalue, _⟩ := htiles.stands t ht
    rw [hi, hj, Int.toNat_natCast, Int.toNat_natCast, hslice]
    exact hvalue herror
  · refine htiles.ordered.imp fun {t u} htu => ⟨htu, ?_⟩
    rintro i ⟨⟨_, ht⟩, ⟨hu, _⟩⟩
    omega
  · intro t ht heof
    obtain ⟨i, j, ⟨_, hi, hj⟩, _, _, _, hend⟩ := htiles.stands t ht
    obtain ⟨rfl, rfl⟩ := hend heof
    rw [hi, hj, hsize]
    exact ⟨rfl, rfl⟩
  · have hne := tokens_ne_nil text
    refine ⟨(tokens text).getLast hne, List.getLast?_eq_some_getLast hne, ?_⟩
    intro i c hc hi hout
    obtain ⟨a, b, ⟨_, ha, _⟩, hab, hb, _⟩ := htiles.stands _ (List.getLast_mem hne)
    exact htiles.gaps i c hc (by omega) hout

theorem tokens_tile_quote :
    "b" = String.ofList ((Source.ofString "a 'b'").slice 3 4) ∧
      (Source.ofString "a 'b'").size = 5 ∧
      Gap "a 'b'".toList (tokens "a 'b'") 2 '\x27' := by
  obtain ⟨_, hvalue, _, heof, last, hlast, hgap⟩ := tokens_tile "a 'b'"
  have hquote : ⟨9, "b", some ⟨⟨1, 4, 3⟩, ⟨1, 5, 4⟩⟩⟩ ∈ tokens "a 'b'" := by decide +kernel
  have hend : (tokens "a 'b'").getLast? = some ⟨13, "", some ⟨⟨1, 6, 5⟩, ⟨1, 6, 5⟩⟩⟩ := by
    decide +kernel
  refine ⟨hvalue _ hquote rfl, ?_, ?_⟩
  · have hsize := (heof _ (List.mem_of_getLast? hend) rfl).1
    exact Int.ofNat_inj.mp hsize.symm
  · cases Option.some.inj (hlast.symm.trans hend)
    exact hgap 2 '\x27' (by decide) (by decide) (by decide +kernel)

end Grammar

end DocModelLexer
