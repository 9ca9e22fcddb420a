import DocModelLexer.Proofs.Cursor.Faults
import Mathlib.Data.List.TakeWhile

namespace DocModelLexer.Cursor

variable {behind pending ahead : List Char} {c : Cursor}

/-- A run takes a round for each character that it takes, and one more that it takes back. -/
theorem rounds_upon (p : Char → Bool) (behind pending ahead : List Char) :
    Rounds p ((ahead.takeWhile p).length + 1) (upon behind pending ahead)
      (.ok () (upon behind (pending ++ ahead.takeWhile p) (ahead.dropWhile p))) := by
  induction ahead generalizing pending with
  | nil =>
    rw [List.takeWhile_nil, List.dropWhile_nil, List.append_nil, ← backup_upon_end]
    exact .meetsEnd next_upon_nil
  | cons ch ahead ih =>
    cases hch : p ch with
    | true =>
      have hrest := ih (pending ++ [ch])
      rw [List.append_assoc] at hrest
      rw [List.takeWhile_cons_of_pos hch, List.dropWhile_cons_of_pos hch]
      exact .goesOn (next_upon_cons ch) hch hrest
    | false =>
      have hnot : ¬p ch = true := by simp [hch]
      rw [List.takeWhile_cons_of_neg hnot, List.dropWhile_cons_of_neg hnot, List.append_nil,
        ← backup_upon_append]
      exact .turnsBack (next_upon_cons ch) hch

theorem length_takeWhile_eq_findIdx (p : Char → Bool) (text : List Char) :
    (text.takeWhile p).length = text.findIdx fun ch => !p ch := by
  rw [List.takeWhile_eq_take_findIdx_not]
  exact List.length_take_of_le List.findIdx_le_length

/-- The place before the first character from the cursor on that satisfies `p`, or else the end. -/
def stop (c : Cursor) (p : Char → Bool) : Nat :=
  c.position + (c.source.toList.drop c.position).findIdx p

theorem stop_upon (p : Char → Bool) :
    (upon behind pending ahead).stop p = behind.length + pending.length + ahead.findIdx p := by
  simp [stop, upon]

theorem Sound.acceptWhile_eq (h : c.Sound) (hend : c.atEnd = false) (p : Char → Bool) :
    acceptWhile p c = .ok () { c with position := c.stop (!p ·) } ∧
      Rounds p (c.stop (!p ·) - c.position + 1) c (acceptWhile p c) := by
  obtain ⟨behind, pending, ahead, hc, -⟩ := h.exists_upon
  rw [hend] at hc
  rw [hc]
  have hstop : (upon behind pending ahead).stop (!p ·) =
      behind.length + pending.length + (ahead.takeWhile p).length := by
    rw [stop_upon, length_takeWhile_eq_findIdx]
  have hmoved : { upon behind pending ahead with
      position := behind.length + pending.length + (ahead.takeWhile p).length } =
        upon behind (pending ++ ahead.takeWhile p) (ahead.dropWhile p) := by
    rw [← upon_position, List.takeWhile_append_dropWhile]
  have hcount : behind.length + pending.length + (ahead.takeWhile p).length -
      (upon behind pending ahead).position = (ahead.takeWhile p).length :=
    Nat.add_sub_cancel_left _ _
  rw [hstop, hmoved, hcount, acceptWhile_upon]
  exact ⟨rfl, rounds_upon p behind pending ahead⟩

theorem Sound.acceptWhile_error (h : c.Sound) (hend : c.atEnd = true) (p : Char → Bool) :
    acceptWhile p c = .error .pastEnd c := by
  obtain ⟨behind, pending, ahead, hc, hahead⟩ := h.exists_upon
  rw [hahead hend, hend] at hc
  rw [hc]
  exact acceptWhile_upon_end p

/-- A run over some characters stops before the first that is not among them, a run up to some
before the first that is, or is a line feed or a NUL, and both at the end if there is none. Where
the end is noted both fault, and have done nothing. -/
theorem runs_stop (source : Source) (ops : List Op) (chars : List Char) :
    let c := drive ops { source }
    let past := c.stop fun ch => ch ∉ chars
    let upTo := c.stop fun ch => ch ∈ chars ∨ ch = '\n' ∨ ch = '\x00'
    c.source = source ∧
    (c.atEnd = false →
      (acceptRun chars c = .ok () { c with position := past } ∧
        Rounds (· ∈ chars) (past - c.position + 1) c (acceptRun chars c)) ∧
      acceptTo chars c = .ok () { c with position := upTo } ∧
        Rounds (fun ch => ch ∉ chars ∧ ch ≠ '\n' ∧ ch ≠ '\x00') (upTo - c.position + 1) c
          (acceptTo chars c)) ∧
    (c.atEnd = true →
      acceptRun chars c = .error .pastEnd c ∧ acceptTo chars c = .error .pastEnd c) := by
  intro c past upTo
  have hfollows : Follows { source } c := (sound_new source).follows_drive ops
  have hsound := hfollows.sound
  -- the first character that ends a run is the first that the run does not take
  have hpast : c.stop (fun ch => !decide (ch ∈ chars)) = past := by
    simp only [past, ← decide_not]
  have hupTo : c.stop (fun ch => !decide (ch ∉ chars ∧ ch ≠ '\n' ∧ ch ≠ '\x00')) = upTo := by
    simp only [upTo, ← decide_not, not_and_or, not_not]
  refine ⟨hfollows.source_eq, fun hend => ⟨?_, ?_⟩, fun hend => ⟨?_, ?_⟩⟩
  · rw [← hpast]
    exact hsound.acceptWhile_eq hend _
  · rw [← hupTo]
    exact hsound.acceptWhile_eq hend _
  · exact hsound.acceptWhile_error hend _
  · exact hsound.acceptWhile_error hend _

theorem runs_stop_three :
    let source := Source.ofList ['a', '1', '\n', '1']
    let c := drive [.next, .ignore] { source }
    let last := drive [.next, .next, .next] { source }
    let late := drive [.next, .next, .next, .next, .next] { source }
    acceptTo ['a'] c = .ok () { c with position := 2 } ∧
      acceptRun ['1'] last = .ok () { last with position := 4 } ∧
      acceptRun ['1'] late = .error .pastEnd late := by
  intro source c last late
  obtain ⟨-, hopen, -⟩ := runs_stop source [.next, .ignore] ['a']
  obtain ⟨-, hlast, -⟩ := runs_stop source [.next, .next, .next] ['1']
  obtain ⟨-, -, hlate⟩ := runs_stop source [.next, .next, .next, .next, .next] ['1']
  exact ⟨(hopen rfl).2.1, (hlast rfl).1.1, (hlate rfl).1⟩

end DocModelLexer.Cursor
