import DocModelLexer.Proofs.Grammar.Message
import DocModelLexer.Proofs.Text.Lines
import DocModelLexer.Token.Undump
import Mathlib.Data.List.Basic

namespace DocModelLexer

namespace Text

theorem natDecimal?_toDigits (n : Nat) : natDecimal? (Nat.toDigits 10 n) = some n := by
  have hdigits : (Nat.toDigits 10 n).all Char.isDigit = true := by
    rw [List.all_eq_true]
    intro c hc
    exact Nat.isDigit_of_mem_toDigits (by decide) (Nat.le_refl 10) hc
  rw [natDecimal?, if_pos ⟨Nat.toDigits_ne_nil, hdigits⟩, Nat.ofDigitChars_ten_toDigits]

theorem mem_toString {n : Int} {c : Char} (h : c ∈ (toString n).toList) :
    c = '-' ∨ c.isDigit = true := by
  rw [toList_toString] at h
  rcases List.mem_append.mp h with h | h
  · split at h
    · exact .inl (List.mem_singleton.mp h)
    · cases h
  · exact .inr (Nat.isDigit_of_mem_toDigits (by decide) (Nat.le_refl 10) h)

theorem decimal?_toString (n : Int) : decimal? (toString n).toList = some n := by
  have hread := natDecimal?_toDigits n.natAbs
  rw [decimal?, toList_toString]
  by_cases hneg : n < 0
  · have hsign : ['-'].isPrefixOf? (['-'] ++ Nat.toDigits 10 n.natAbs) =
        some (Nat.toDigits 10 n.natAbs) := List.isPrefixOf?_eq_some_iff_append_eq.mpr rfl
    rw [if_pos hneg, hsign]
    simp only [hread, Option.map_some, Option.some.injEq, Int.negOfNat_eq,
      Int.ofNat_eq_natCast]
    omega
  · have hsign : ['-'].isPrefixOf? ([] ++ Nat.toDigits 10 n.natAbs) = none := by
      refine Option.eq_none_iff_forall_ne_some.mpr fun digits hdigits => ?_
      have hmem : '-' ∈ Nat.toDigits 10 n.natAbs := by
        have hcons := List.isPrefixOf?_eq_some_iff_append_eq.mp hdigits
        rw [List.nil_append] at hcons
        exact hcons ▸ List.mem_cons_self
      cases Nat.isDigit_of_mem_toDigits (by decide) (Nat.le_refl 10) hmem
    rw [if_neg hneg, hsign]
    simp only [List.nil_append, hread, Option.map_some, Option.some.injEq, Int.ofNat_eq_natCast]
    omega

end Text

variable {names : TokenNames} {positions : Bool} {t : Token} {tokens : List Token}

namespace Token

def placeText (positions : Bool) (t : Token) : List Char :=
  match positions, t.span with
  | true, some span =>
    (toString span.start.line).toList ++ ':' :: (toString span.start.column).toList ++ ['\t']
  | _, _ => []

/-- What a dump tells of a token. -/
def shown (names : TokenNames) (positions : Bool) (t : Token) : TokenRecord :=
  let record := t.record (some names)
  { record with place := if positions then record.place else none }

def shownText (names : TokenNames) (positions : Bool) (t : Token) : List Char :=
  t.placeText positions ++ '\x7b' :: ((names.name t.type).toList ++
    [',', ' ', '\x22'] ++ (t.value.toList ++ ['\x22', '\x7d']))

theorem toList_dumpLine (names : TokenNames) (positions : Bool) (t : Token) :
    (t.dumpLine (some names) positions).toList = t.shownText names positions ++ ['\n'] := by
  unfold dumpLine shownText placeText
  have hmarks : (toString ":").toList = [':'] ∧ (toString "\t").toList = ['\t'] := ⟨rfl, rfl⟩
  cases positions <;> cases t.span <;> simp [format, typeLabel, hmarks]

theorem mem_placeText {c : Char} (h : c ∈ t.placeText positions) :
    c = '-' ∨ c.isDigit = true ∨ c = ':' ∨ c = '\t' := by
  unfold placeText at h
  split at h
  · simp only [List.mem_append, List.mem_cons, List.not_mem_nil, or_false] at h
    rcases h with (h | h | h) | h
    · exact (Text.mem_toString h).imp_right .inl
    · exact .inr (.inr (.inl h))
    · exact (Text.mem_toString h).imp_right .inl
    · exact .inr (.inr (.inr h))
  · cases h

theorem lineFeed_not_mem_shownText (hvalue : '\n' ∉ t.value.toList)
    (hname : '\n' ∉ (names.name t.type).toList) : '\n' ∉ t.shownText names positions := by
  have hplace : '\n' ∉ t.placeText positions := by
    intro hmem
    rcases mem_placeText hmem with h | h | h | h <;> cases h
  simp [shownText, hplace, hname, hvalue]

end Token

namespace TokenRecord

theorem splitOn_place (line column : Int) :
    Text.splitOn ':' ((toString line).toList ++ ':' :: (toString column).toList) =
      [(toString line).toList, (toString column).toList] := by
  have hcolon (n : Int) : ':' ∉ (toString n).toList := by
    intro hmem
    rcases Text.mem_toString hmem with h | h <;> cases h
  rw [Text.splitOn_append, Text.splitOn_of_not_mem (hcolon line),
    Text.splitOn_of_not_mem (hcolon column)]
  rfl

theorem readPlace_toString (line column : Int) :
    readPlace ((toString line).toList ++ ':' :: (toString column).toList ++ ['\t']) =
      some (some (line, column)) := by
  have htab : ['\t'].isSuffixOf?
      ((toString line).toList ++ ':' :: (toString column).toList ++ ['\t']) =
        some ((toString line).toList ++ ':' :: (toString column).toList) :=
    List.isSuffixOf?_eq_some_iff_append_eq.mpr rfl
  rw [readPlace, if_neg (by simp)]
  simp only [htab, Option.bind_eq_bind, Option.bind_some, splitOn_place, Text.decimal?_toString,
    Option.pure_def]

theorem readPlace_placeText (names : TokenNames) (positions : Bool) (t : Token) :
    readPlace (t.placeText positions) = some (t.shown names positions).place := by
  cases positions with
  | false => rfl
  | true =>
    cases hspan : t.span with
    | none => simp [readPlace, Token.placeText, Token.shown, Token.record, hspan]
    | some span =>
      simp only [Token.placeText, hspan, readPlace_toString, Token.shown, Token.record, if_true,
        Option.map_some]

end TokenRecord

/-- A table has a name for a type that tells it from all others, and that can stand in a dump. -/
structure TokenNames.Tells (names : TokenNames) (type : Int) : Prop where
  typeOf?_name : names.typeOf? (names.name type) = some type
  comma_not_mem : ',' ∉ (names.name type).toList
  lineFeed_not_mem : '\n' ∉ (names.name type).toList

/-- The line of a token is read back, whatever stands in its value. -/
theorem TokenRecord.ofDumpLine?_shownText (h : names.Tells t.type) :
    ofDumpLine? names (t.shownText names positions) = some (t.shown names positions) := by
  have hbrace : ∀ c ∈ t.placeText positions, (c != '\x7b') = true := by
    intro c hc
    rw [bne_iff_ne]
    rintro rfl
    rcases Token.mem_placeText hc with h | h | h | h <;> cases h
  have hcomma : ∀ c ∈ (names.name t.type).toList, (c != ',') = true := by
    intro c hc
    rw [bne_iff_ne]
    rintro rfl
    exact h.comma_not_mem hc
  have hplace := readPlace_placeText names positions t
  -- what is left behind the place, behind the brace, and behind the label
  let valued := t.value.toList ++ ['\x22', '\x7d']
  let framed := (names.name t.type).toList ++ [',', ' ', '\x22'] ++ valued
  have hplaced : (t.shownText names positions).takeWhile (· != '\x7b') = t.placeText positions ∧
      (t.shownText names positions).dropWhile (· != '\x7b') = '\x7b' :: framed := by
    rw [Token.shownText, List.takeWhile_append_of_pos hbrace, List.dropWhile_append_of_pos hbrace]
    exact ⟨List.append_nil _, rfl⟩
  have hframed : ['\x7b'].isPrefixOf? ('\x7b' :: framed) = some framed :=
    List.isPrefixOf?_eq_some_iff_append_eq.mpr rfl
  have hlabel : framed.takeWhile (· != ',') = (names.name t.type).toList ∧
      framed.dropWhile (· != ',') = [',', ' ', '\x22'] ++ valued := by
    simp only [framed, List.append_assoc]
    rw [List.takeWhile_append_of_pos hcomma, List.dropWhile_append_of_pos hcomma]
    exact ⟨List.append_nil _, rfl⟩
  have hvalued : [',', ' ', '\x22'].isPrefixOf? ([',', ' ', '\x22'] ++ valued) = some valued :=
    List.isPrefixOf?_eq_some_iff_append_eq.mpr rfl
  have hvalue : ['\x22', '\x7d'].isSuffixOf? valued = some t.value.toList :=
    List.isSuffixOf?_eq_some_iff_append_eq.mpr rfl
  simp only [ofDumpLine?, hplaced, hplace, hframed, hlabel, hvalued, hvalue, String.ofList_toList,
    h.typeOf?_name, Option.bind_eq_bind, Option.bind_some, Option.pure_def]
  rfl

theorem toList_dump (names : TokenNames) (positions : Bool) (tokens : List Token) :
    (dump (some names) positions tokens).toList =
      Text.ended (tokens.map (·.shownText names positions)) := by
  simp [dump, Text.ended, Token.toList_dumpLine, List.flatMap_map]

theorem mapM_ofDumpLine? (hnames : ∀ t ∈ tokens, names.Tells t.type) :
    (tokens.map (·.shownText names positions)).mapM (TokenRecord.ofDumpLine? names) =
      some (tokens.map (·.shown names positions)) := by
  induction tokens with
  | nil => rfl
  | cons t tokens ih =>
    rw [List.map_cons, List.mapM_cons,
      TokenRecord.ofDumpLine?_shownText (hnames t List.mem_cons_self),
      ih fun u hu => hnames u (List.mem_cons_of_mem t hu)]
    rfl

/-- A dump has one line for each token, and is read back. -/
theorem undump?_dump (hnames : ∀ t ∈ tokens, names.Tells t.type)
    (hvalues : ∀ t ∈ tokens, '\n' ∉ t.value.toList) (positions : Bool) :
    Text.splitOn '\n' (dump (some names) positions tokens).toList =
        tokens.map (·.shownText names positions) ++ [[]] ∧
      undump? names (dump (some names) positions tokens) =
        some (tokens.map (·.shown names positions)) := by
  have hlines : ∀ line ∈ tokens.map (·.shownText names positions), '\n' ∉ line := by
    intro line hline
    obtain ⟨t, ht, rfl⟩ := List.mem_map.mp hline
    exact Token.lineFeed_not_mem_shownText (hvalues t ht) (hnames t ht).lineFeed_not_mem
  have hcut : Text.splitOn '\n' (dump (some names) positions tokens).toList =
      tokens.map (·.shownText names positions) ++ [[]] := by
    have hended := Text.splitOn_ended hlines []
    rwa [List.append_nil, ← toList_dump] at hended
  refine ⟨hcut, ?_⟩
  simp only [undump?, hcut, List.getLast?_concat, if_true, List.dropLast_concat]
  exact mapM_ofDumpLine? hnames

end DocModelLexer
