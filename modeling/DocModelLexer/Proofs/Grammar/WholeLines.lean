import DocModelLexer.Proofs.Grammar.Conclusion
import DocModelLexer.Proofs.Grammar.Continuation
import DocModelLexer.Proofs.Grammar.Tiling
import DocModelLexer.Proofs.Scan.Advance

namespace DocModelLexer

open Text (ended)

namespace Token

structure Between (t : Token) (i j : Nat) : Prop where
  placed : t.span.isSome
  le_begins : i ≤ t.begins
  begins_le : t.begins ≤ t.ends
  ends_le : t.ends ≤ j

variable {t : Token} {i j i' j' : Nat}

theorem StandsAt.between (h : t.StandsAt i j) (hi : i' ≤ i) (hij : i ≤ j) (hj : j ≤ j') :
    t.Between i' j' := by
  obtain ⟨hplaced, hbegins, hends⟩ := h
  exact ⟨hplaced, by omega, by omega, by omega⟩

theorem Between.mono (h : t.Between i j) (hi : i' ≤ i) (hj : j ≤ j') : t.Between i' j' := by
  obtain ⟨hplaced, hbegins, hle, hends⟩ := h
  exact ⟨hplaced, by omega, hle, by omega⟩

theorem Between.moved (h : t.Between i j) (lines length : Nat) :
    (t.moved lines length).Between (i + length) (j + length) := by
  obtain ⟨hplaced, hbegins, hle, hends⟩ := h
  obtain ⟨span, hspan⟩ := Option.isSome_iff_exists.mp hplaced
  simp only [begins, ends, hspan] at hbegins hle hends
  constructor <;>
    simp only [Token.moved, begins, ends, hspan, Option.map_some, Option.isSome_some, Span.moved,
      Position.moved]
  all_goals omega

end Token

namespace Grammar

open Pause (Leads)

variable {state : State} {behind pending lead ahead : List Char} {levels levels' : Levels}
  {ts : List Token} {next : Option State} {x y : Pause Levels State} {m : Nat}

/-- How far the tokens of a scan reach that has come to a pause. -/
def reach (x : Pause Levels State) : Nat :=
  if x.next = none then x.cursor.position else x.cursor.tokenStart

theorem dedents_between (n : Nat) :
    ∀ t ∈ dedents behind lead ahead n, t.Between behind.length (behind ++ lead).length := by
  induction n generalizing behind lead with
  | zero => simp [dedents]
  | succ n ih =>
    intro t ht
    have hlen : (behind ++ lead).length = behind.length + lead.length := List.length_append
    rcases List.mem_cons.mp ht with rfl | ht
    · exact (Token.upon_standsAt _ _ _ _).between (Nat.le_refl _) (by omega) (by omega)
    · exact (ih t ht).mono (by omega) (by simp)

variable {lines : List (List Char)} {rest : List Char} {text : String}

theorem Indents.between (h : Indents behind lead ahead levels ts levels' next) :
    ∀ t ∈ ts, t.Between behind.length (behind ++ lead).length := by
  have hlen : (behind ++ lead).length = behind.length + lead.length := List.length_append
  intro t ht
  cases h with
  | same => cases ht
  | opens =>
    cases List.mem_singleton.mp ht
    exact (Token.upon_standsAt _ _ _ _).between (Nat.le_refl _) (by omega) (by omega)
  | closes => exact dedents_between _ t ht
  | inconsistent =>
    rcases List.mem_append.mp ht with ht | ht
    · exact dedents_between _ t ht
    · cases List.mem_singleton.mp ht
      exact (Token.errorUpon_standsAt _ _ _ _).between (by omega) (by simp) (by simp)

section

variable {e : Bool}

theorem reach_some : reach ⟨.upon behind pending ahead e, levels, some state⟩ = behind.length := rfl

theorem reach_none :
    reach ⟨.upon behind pending ahead e, levels, none⟩ = behind.length + pending.length := rfl

theorem reach_closed : reach ⟨.upon behind [] ahead e, levels, next⟩ = behind.length := by
  cases next <;> rfl

end

theorem reach_le (h : Turn state behind pending ahead levels ts y) : behind.length ≤ reach y := by
  cases h <;> simp only [reach_closed, reach_some, reach_none, List.length_append] <;> omega

/-- A turn delivers its tokens between the beginning of its window and where it pauses. -/
theorem Turn.between (h : Turn state behind pending ahead levels ts y) :
    ∀ t ∈ ts, t.Between behind.length (reach y) := by
  have hupon {t : Token} {type : Int} {b p a : List Char} (ht : t ∈ [Token.upon type b p a])
      (hb : behind.length ≤ b.length) (hreach : (b ++ p).length ≤ reach y) :
      t.Between behind.length (reach y) := by
    rw [List.length_append] at hreach
    rw [List.mem_singleton.mp ht]
    exact (Token.upon_standsAt type b p a).between hb (Nat.le_add_right _ _) hreach
  have herror {t : Token} {message : String} {b p a : List Char}
      (ht : t ∈ [Token.errorUpon message b p a]) (hb : behind.length ≤ b.length)
      (hreach : (b ++ p).length ≤ reach y) : t.Between behind.length (reach y) := by
    rw [List.length_append] at hreach
    rw [List.mem_singleton.mp ht]
    exact (Token.errorUpon_standsAt message b p a).between hb (Nat.le_add_right _ _) hreach
  intro t ht
  cases h with
  | blankLine => cases ht
  | line _ hindents =>
    rw [reach_closed]
    exact (hindents.between t ht).mono (by simp) (Nat.le_refl _)
  | measured hindents =>
    rw [reach_closed]
    exact hindents.between t ht
  | blank => cases ht
  | lineEnd => cases ht
  | single => exact hupon ht (Nat.le_refl _) (Nat.le_refl _)
  | enters => cases ht
  | unexpected => exact herror ht (Nat.le_refl _) (by rw [reach_none, List.length_append])
  | eof hindents =>
    rcases List.mem_append.mp ht with ht | ht
    · rw [reach_closed]
      exact (hindents.between t ht).mono (Nat.le_refl _) (by simp)
    · exact hupon ht (Nat.le_refl _) (by simp [reach_closed])
  | badEnd hindents =>
    rw [reach_closed]
    exact (hindents.between t ht).mono (Nat.le_refl _) (by simp)
  | quoted => exact hupon ht (by simp) (by simp [reach_closed])
  | runaway => exact herror ht (by simp) (by rw [reach_none, List.length_append])
  | word => exact hupon ht (Nat.le_refl _) (Nat.le_refl _)
  | ellipsis => exact hupon ht (Nat.le_refl _) (Nat.le_refl _)
  | malformed => exact herror ht (Nat.le_refl _) (by rw [reach_none, List.length_append])

theorem leads_between {i : Nat} (h : Leads graph x ts m y) (hfits : Fits x) (hx : reach x = i) :
    ∀ t ∈ ts, t.Between i (reach y) := by
  let P (tokens : List Token) (y : Pause Levels State) : Prop :=
    i ≤ reach y ∧ ∀ t ∈ tokens, t.Between i (reach y)
  have hall : P ([] ++ ts) y := by
    refine turns_induct h hfits ⟨Nat.le_of_eq hx.symm, by simp⟩ ?_
    rintro before state behind pending ahead levels ts z ⟨hle, hbefore⟩ hturn
    rw [reach_some] at hle hbefore
    have hreach := reach_le hturn
    refine ⟨Nat.le_trans hle hreach, ?_⟩
    intro t ht
    rcases List.mem_append.mp ht with ht | ht
    · exact (hbefore t ht).mono (Nat.le_refl _) hreach
    · exact (hturn.between t ht).mono hle (Nat.le_refl _)
  exact hall.2

theorem run_between (source : Source) (hbase : 0 ∈ levels) :
    ∃ j, ∀ t ∈ (run source levels).tokens, t.Between 0 j := by
  have htakes : State.newline.Takes [] := trivial
  obtain ⟨m, y, hleads, -⟩ := @run_eq .newline levels source hbase htakes
  exact ⟨reach y, leads_between hleads (fits_first hbase htakes) rfl⟩

/-- A new line is read in the same way whatever is left of the one before. -/
theorem leads_newline
    (h : Leads graph ⟨.upon (behind ++ pending) [] ahead, levels, some .newline⟩ ts m y)
    (hy : y.next = none) :
    Leads graph ⟨.upon behind pending ahead, levels, some .newline⟩ ts m y := by
  cases h with
  | refl => cases hy
  | call hexec hlater =>
    refine .call ?_ hlater
    rw [← hexec]
    simp only [graph, newline, Script.exec_ignore, List.append_nil]

/-- Behind whole lines the rest of a text is scanned as a text of its own. -/
theorem tokens_of_leads_lines (hlines : ∀ line ∈ lines, '\n' ∉ line)
    (h : Leads graph (start text) ts m ⟨.upon behind pending rest, levels, some .newline⟩)
    (hread : behind ++ pending = ended lines) :
    tokens text = ts ++ (run (.ofList rest) levels).tokens.map
      (Token.moved lines.length (ended lines).length) := by
  have hbase : 0 ∈ levels := ((fits_start text).leads h).1
  have htakes : State.newline.Takes [] := trivial
  obtain ⟨k, y, hrest, hy, -⟩ := @run_eq .newline levels (.ofList rest) hbase htakes
  obtain ⟨j, hmoved⟩ := leads_after_lines hrest (fits_first hbase htakes) hlines
  rw [first_eq_upon, Pause.after_upon, Source.toList_ofList, List.append_nil] at hmoved
  rw [← hread] at hmoved ⊢
  exact tokens_of_leads (h.trans (leads_newline hmoved hy)) hy

/-- What a scan makes of a text that begins with `known` and a line feed, as far as `known` decides
it. -/
structure Reading (known : List Char) (ts : List Token) (z : Front) : Prop where
  settled : z.isSettled = true
  known_eq : z.known = known
  leads : ∀ text rest, text.toList = known ++ '\n' :: rest →
    ∃ m, Leads graph (start text) ts m (z.pause rest)

theorem exists_reading (known : List Char) : ∃ ts z, Reading known ts z := by
  have hbase : 0 ∈ Levels.base := by simp [Levels.base]
  obtain ⟨ts, z, hz, hknown, hleads⟩ := exists_settled
    (.within [] [] known Levels.base (some .newline)) fun rest => .upon hbase trivial
  refine ⟨ts, z, hz, hknown, ?_⟩
  intro text rest htext
  rw [start_eq_upon, htext]
  exact hleads rest

namespace Reading

variable {known : List Char} {z : Front}

theorem between (h : Reading known ts z) : ∀ t ∈ ts, t.Between 0 known.length := by
  obtain ⟨m, hleads⟩ := h.leads (String.ofList (known ++ ['\n'])) [] String.toList_ofList
  intro t ht
  have hstart : reach (start (String.ofList (known ++ ['\n']))) = 0 := rfl
  refine (leads_between hleads (fits_start _) hstart t ht).mono (Nat.le_refl _) ?_
  rw [← h.known_eq]
  cases z with
  | past behind pending => exact (List.prefix_append _ _).length_le
  | within behind pending text levels next =>
    cases next with
    | none =>
      simp [Front.pause, Front.known, reach_none]
    | some => cases h.settled

theorem exists_isError {behind pending left : List Char}
    (h : Reading known ts (.within behind pending left levels none)) :
    ∃ t, ts.getLast? = some t ∧ t.isError = true := by
  obtain ⟨m, hleads⟩ := h.leads (String.ofList (known ++ ['\n'])) [] String.toList_ofList
  obtain ⟨t, ht, hterminal⟩ := (leads_concludes hleads (fits_start _) rfl).last rfl
  refine ⟨t, ht, ?_⟩
  obtain ⟨reach, htiles⟩ := leads_tiles hleads
  obtain ⟨i, j, ⟨-, -, hends⟩, -, -, -, heof⟩ := htiles.stands t (List.mem_of_getLast? ht)
  have hbetween := h.between t (List.mem_of_getLast? ht)
  cases hmark : t.isEof with
  | false => simpa [Token.isTerminal, hmark] using hterminal
  | true =>
    have hlen := (heof hmark).2
    rw [String.toList_ofList, List.length_append, List.length_singleton] at hlen
    have hle := hbetween.ends_le
    omega

theorem tokens_eq {behind pending left : List Char}
    (h : Reading known ts (.within behind pending left levels none))
    (htext : text.toList = known ++ '\n' :: rest) : tokens text = ts := by
  obtain ⟨m, hleads⟩ := h.leads text rest htext
  exact tokens_of_leads hleads rfl

theorem read_eq {behind pending : List Char} (h : Reading known ts (.past behind pending levels)) :
    behind ++ (pending ++ ['\n']) = ended (Text.splitOn '\n' known) := by
  rw [Text.ended_splitOn, ← h.known_eq, Front.known, List.append_assoc]

theorem tokens_eq_append {behind pending : List Char}
    (h : Reading known ts (.past behind pending levels))
    (htext : text.toList = known ++ '\n' :: rest) :
    tokens text = ts ++ (run (.ofList rest) levels).tokens.map
      (Token.moved (known.count '\n' + 1) (known.length + 1)) := by
  obtain ⟨m, hleads⟩ := h.leads text rest htext
  have hlines : ∀ line ∈ Text.splitOn '\n' known, '\n' ∉ line :=
    fun _ hline => Text.not_mem_of_mem_splitOn hline
  have hall := tokens_of_leads_lines hlines hleads h.read_eq
  rwa [Text.length_splitOn, Text.ended_splitOn, List.length_append, List.length_singleton] at hall

end Reading

end Grammar

end DocModelLexer
