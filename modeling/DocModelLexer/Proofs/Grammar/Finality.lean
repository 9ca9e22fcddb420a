import DocModelLexer.Proofs.Grammar.WholeLines

namespace DocModelLexer

def Token.endsBefore (t : Token) (offset : Nat) : Bool :=
  t.span.any fun span => span.stop.offset < (offset : Int)

theorem Token.Between.endsBefore_eq {t : Token} {i j : Nat} (h : t.Between i j) (offset : Nat) :
    t.endsBefore offset = decide (t.ends < offset) := by
  obtain ⟨span, hspan⟩ := Option.isSome_iff_exists.mp h.placed
  simp [Token.endsBefore, Token.ends, hspan]

namespace Grammar

open Pause (Leads)
open Text (ended)

def tokensBefore (text : String) (offset : Nat) : List Token :=
  (tokens text).filter (·.endsBefore offset)

/-- After `n` moves the scan of a text stands at an offset with nothing pending. -/
def RestsAt (text : String) (offset n : Nat) : Prop :=
  (scanned text n).last.cursor.tokenStart = offset ∧
    (scanned text n).last.cursor.position = offset

instance (text : String) (offset n : Nat) : Decidable (RestsAt text offset n) :=
  inferInstanceAs (Decidable (_ ∧ _))

/-- It does so for the first time. -/
structure FirstRestsAt (text : String) (offset n : Nat) : Prop where
  rests : RestsAt text offset n
  first : ∀ k < n, ¬RestsAt text offset k

variable {text : String} {behind pending rest : List Char} {levels : Levels} {ts : List Token}
  {m n : Nat}

theorem sound_scanned (text : String) (n : Nat) : (scanned text n).last.cursor.Sound :=
  Scan.sound_run graph (.ofString text) Levels.base (some State.newline) n

theorem scanned_of_leads {y : Pause Levels State} (h : Leads graph (start text) ts m y) (n : Nat) :
    (scanned text (m + n)).last = ((Scan.move graph).run n y.scan).last := by
  have hrun := congrArg Run.last (h.run n)
  exact hrun

theorem firstRestsAt_newline (hpending : pending ≠ [])
    (h : Leads graph (start text) ts m ⟨.upon behind pending rest, levels, some .newline⟩) :
    FirstRestsAt text (behind.length + pending.length) (m + 2) ∧
      (scanned text (m + 2)).last.data = levels := by
  have hpos := List.length_pos_iff.mpr hpending
  have hnext : (scanned text (m + 2)).last.cursor =
      .upon (behind ++ pending) [] rest ∧ (scanned text (m + 2)).last.data = levels := by
    rw [scanned_of_leads h]
    have hignore : Cursor.ignore (.upon behind pending rest) =
        .ok () (.upon (behind ++ pending) [] rest) := Cursor.ignore_upon
    exact ⟨congrArg Cursor.left hignore, rfl⟩
  have hcalled : (scanned text (m + 1)).last.cursor = .upon behind pending rest := by
    rw [scanned_of_leads h]
    rfl
  refine ⟨⟨?_, ?_⟩, hnext.2⟩
  · rw [RestsAt, hnext.1]
    simp [Cursor.upon]
  · rintro k hk ⟨hstart, -⟩
    have hle := (Scan.follows_run (Nat.le_of_lt_succ hk) (sound_scanned text k)).start_le
    change (scanned text k).last.cursor.tokenStart ≤
      (scanned text (m + 1)).last.cursor.tokenStart at hle
    rw [hcalled, hstart] at hle
    simp only [Cursor.upon] at hle
    omega

namespace Reading

variable {known : List Char} {z : Front}

theorem tokensBefore_eq (h : Reading known ts z) (htext : text.toList = known ++ '\n' :: rest) :
    tokensBefore text (known.length + 1) = ts := by
  have hkept : ts.filter (·.endsBefore (known.length + 1)) = ts := by
    refine List.filter_eq_self.mpr fun t ht => ?_
    have hbetween := h.between t ht
    have hends := hbetween.ends_le
    rw [hbetween.endsBefore_eq, decide_eq_true_eq]
    omega
  cases z with
  | within behind pending left levels next =>
    cases next with
    | some state => cases h.settled
    | none => rw [tokensBefore, h.tokens_eq htext, hkept]
  | past behind pending levels =>
    obtain ⟨m, hleads⟩ := h.leads text rest htext
    obtain ⟨j, hrest⟩ := run_between (.ofList rest) ((fits_start text).leads hleads).1
    have hlater : ((run (.ofList rest) levels).tokens.map
        (Token.moved (known.count '\n' + 1) (known.length + 1))).filter
          (·.endsBefore (known.length + 1)) = [] := by
      refine List.filter_eq_nil_iff.mpr fun t ht => ?_
      obtain ⟨u, hu, rfl⟩ := List.mem_map.mp ht
      have hbetween := (hrest u hu).moved (known.count '\n' + 1) (known.length + 1)
      have hbegins := hbetween.le_begins
      have hle := hbetween.begins_le
      rw [hbetween.endsBefore_eq, decide_eq_true_eq]
      omega
    rw [tokensBefore, h.tokens_eq_append htext, List.filter_append, hkept, hlater, List.append_nil]

/-- Where no error is met, the scan comes to the line that follows with the same indentations open,
whatever that line is. -/
theorem exists_firstRestsAt (h : Reading known ts z)
    (hclean : ∀ t, ts.getLast? = some t → t.isError = false) :
    ∃ levels, ∀ text rest, text.toList = known ++ '\n' :: rest →
      ∃ n, FirstRestsAt text (known.length + 1) n ∧ (scanned text n).last.data = levels := by
  cases z with
  | within behind pending left levels next =>
    cases next with
    | some state => cases h.settled
    | none =>
      obtain ⟨t, ht, herror⟩ := h.exists_isError
      rw [hclean t ht] at herror
      cases herror
  | past behind pending levels =>
    refine ⟨levels, fun text rest htext => ?_⟩
    obtain ⟨m, hleads⟩ := h.leads text rest htext
    have hlen : behind.length + (pending ++ ['\n']).length = known.length + 1 := by
      rw [← h.known_eq, Front.known, List.length_append, List.length_append,
        List.length_singleton]
      omega
    have hrests := firstRestsAt_newline (by simp) hleads
    rw [hlen] at hrests
    exact ⟨m + 2, hrests⟩

end Reading

/-- Finished lines are final: the tokens that end before the last line feed of `done` are the same
whatever follows. Unless they end in an error, the scan comes to that offset with the same
indentations open. -/
theorem tokensBefore_append_eq (done rest rest' : String)
    (hdone : done.toList.getLast? = some '\n') :
    tokensBefore (done ++ rest) done.length = tokensBefore (done ++ rest') done.length ∧
      ((∀ t, (tokensBefore (done ++ rest) done.length).getLast? = some t → t.isError = false) →
        ∃ n n', FirstRestsAt (done ++ rest) done.length n ∧
          FirstRestsAt (done ++ rest') done.length n' ∧
          (scanned (done ++ rest) n).last.data = (scanned (done ++ rest') n').last.data) := by
  obtain ⟨known, hknown⟩ := List.getLast?_eq_some_iff.mp hdone
  obtain ⟨ts, z, hreading⟩ := exists_reading known
  have htext (rest : String) : (done ++ rest).toList = known ++ '\n' :: rest.toList := by
    simp [hknown]
  have hlen : done.length = known.length + 1 := by
    rw [← String.length_toList, hknown, List.length_append, List.length_singleton]
  have hbefore (rest : String) : tokensBefore (done ++ rest) done.length = ts := by
    rw [hlen]
    exact hreading.tokensBefore_eq (htext rest)
  refine ⟨by rw [hbefore, hbefore], fun hclean => ?_⟩
  rw [hbefore] at hclean
  obtain ⟨levels, hrests⟩ := hreading.exists_firstRestsAt hclean
  rw [hlen]
  obtain ⟨n, hfirst, hlevels⟩ := hrests (done ++ rest) rest.toList (htext rest)
  obtain ⟨n', hfirst', hlevels'⟩ := hrests (done ++ rest') rest'.toList (htext rest')
  exact ⟨n, n', hfirst, hfirst', hlevels.trans hlevels'.symm⟩

theorem tokensBefore_append_eq_indented :
    "a\n  b\n".toList.getLast? = some '\n' ∧
      tokensBefore "a\n  b\n c" 6 = tokensBefore "a\n  b\n'c" 6 ∧
      ∃ n n', FirstRestsAt "a\n  b\n c" 6 n ∧ FirstRestsAt "a\n  b\n'c" 6 n' ∧
        (scanned "a\n  b\n c" n).last.data = (scanned "a\n  b\n'c" n').last.data := by
  have hdone : "a\n  b\n".toList.getLast? = some '\n' := by decide
  have hlast : (tokensBefore "a\n  b\n c" 6).getLast? =
      some ⟨8, "b", some ⟨⟨2, 3, 4⟩, ⟨2, 4, 5⟩⟩⟩ := by decide +kernel
  obtain ⟨htokens, hrests⟩ := tokensBefore_append_eq "a\n  b\n" " c" "'c" hdone
  refine ⟨hdone, htokens, hrests fun t ht => ?_⟩
  cases hlast.symm.trans ht
  rfl

end Grammar

end DocModelLexer
