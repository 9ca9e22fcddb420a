import DocModelLexer.Proofs.Cursor.Faults
import DocModelLexer.Proofs.Cursor.Order
import Mathlib.Data.List.DropRight
import Mathlib.Order.Interval.Set.Defs

namespace DocModelLexer

open Text (ended splitOn)

/-- The place behind the entries of a table that are not beyond `x`, where it lies from `lo` up to
`hi`. -/
def bisect (table : Array Nat) (x : Int) (lo hi : Nat) (hhi : hi ≤ table.size) : Nat :=
  if h : lo < hi then
    let mid := (lo + hi) / 2
    have hmid : mid < table.size := by omega
    if x < table[mid] then bisect table x lo mid (Nat.le_of_lt hmid)
    else bisect table x (mid + 1) hi hhi
  else lo
termination_by hi - lo

/-- Before `lo` no entry of a table is beyond `x`, and from `hi` on each one is. -/
structure Parts (table : Array Nat) (x : Int) (lo hi : Nat) : Prop where
  le_size : hi ≤ table.size
  before : ∀ i (h : i < table.size), i < lo → (table[i] : Int) ≤ x
  behind : ∀ i (h : i < table.size), hi ≤ i → x < table[i]

theorem Parts.whole (table : Array Nat) (x : Int) : Parts table x 0 table.size where
  le_size := Nat.le_refl _
  before := fun i _ h => absurd h (Nat.not_lt_zero i)
  behind := fun _ h h' => absurd h (Nat.not_lt.mpr h')

theorem Parts.halved {table : Array Nat} {x : Int} {lo hi : Nat} (h : Parts table x lo hi)
    (hsorted : table.toList.Pairwise (· < ·)) (hle : lo ≤ hi) (hhi : hi ≤ table.size) :
    Parts table x (bisect table x lo hi hhi) (bisect table x lo hi hhi) := by
  have hordered := List.pairwise_iff_getElem.mp hsorted
  obtain ⟨-, hbefore, hbehind⟩ := h
  fun_induction bisect table x lo hi hhi with
  | case1 lo hi hhi hlt mid hmid hbeyond ih =>
    refine ih (by omega) hbefore ?_
    intro i hi' hle'
    rcases Nat.eq_or_lt_of_le hle' with rfl | hlt'
    · exact hbeyond
    · have hstep : table[mid] < table[i] := hordered mid i hmid hi' hlt'
      omega
  | case2 lo hi hhi hlt mid hmid hwithin ih =>
    refine ih (by omega) ?_ hbehind
    intro i hi' hlt'
    rcases Nat.eq_or_lt_of_le (Nat.le_of_lt_succ hlt') with rfl | hlt'
    · exact Int.not_lt.mp hwithin
    · have hstep : table[i] < table[mid] := hordered i mid hi' hmid hlt'
      omega
  | case3 lo hi hhi hdone =>
    have heq : lo = hi := by omega
    subst heq
    exact ⟨hhi, hbefore, hbehind⟩

theorem Parts.findIdx_eq {table : Array Nat} {x : Int} {n : Nat} (h : Parts table x n n) :
    table.toList.findIdx (fun k : Nat => decide (x < k)) = n := by
  rcases Nat.eq_or_lt_of_le h.le_size with hlast | hlt
  · rw [hlast, ← Array.length_toList, List.findIdx_eq_length]
    intro k hk
    obtain ⟨i, hi, rfl⟩ := List.mem_iff_getElem.mp hk
    have hle := h.before i hi (hlast ▸ hi)
    simpa using hle
  · rw [List.findIdx_eq (by simpa using hlt)]
    constructor
    · simpa using h.behind n hlt (Nat.le_refl n)
    · intro i hi
      simpa using h.before i (Nat.lt_trans hi hlt) hi

/-- Halving an ordered table finds its first entry beyond `x`. -/
theorem bisect_eq_findIdx {table : Array Nat} (x : Int) (hsorted : table.toList.Pairwise (· < ·)) :
    bisect table x 0 table.size (Nat.le_refl _) =
      table.toList.findIdx (fun k : Nat => decide (x < k)) :=
  ((Parts.whole table x).halved hsorted (Nat.zero_le _) _).findIdx_eq.symm

namespace Source

def lineTable (s : Source) : Array Nat := (0 :: lineStartsFrom 0 s.toList).toArray

/-- The position of an offset by a table of line starts. Before the first line stands the last
one. -/
def positionBy (table : Array Nat) (offset : Int) : Position :=
  let line := bisect table offset 0 table.size (Nat.le_refl _)
  let start := if line = 0 then table.back?.getD 0 else table[line - 1]?.getD 0
  ⟨line, offset - start + 1, offset⟩

theorem pairwise_lineStartsFrom (i : Nat) (text : List Char) :
    (lineStartsFrom i text).Pairwise (· < ·) := by
  induction text generalizing i with
  | nil => exact .nil
  | cons c text ih =>
    rw [lineStartsFrom]
    split
    · exact List.pairwise_cons.mpr ⟨fun k hk => lt_of_mem_lineStartsFrom hk, ih (i + 1)⟩
    · exact ih (i + 1)

theorem pairwise_lineTable (s : Source) : s.lineTable.toList.Pairwise (· < ·) :=
  List.pairwise_cons.mpr
    ⟨fun _ hk => lt_of_mem_lineStartsFrom hk, pairwise_lineStartsFrom 0 s.toList⟩

theorem lineAt_eq (offset : Int) (line start : Nat) (later : List Nat) :
    let n := later.findIdx (fun k : Nat => decide (offset < k))
    lineAt offset line start later = (line + n, (start :: later)[n]?.getD 0) := by
  induction later generalizing line start with
  | nil => rfl
  | cons next rest ih =>
    rw [lineAt]
    split
    · rename_i hle
      have hnot : decide (offset < next) = false := by simpa using hle
      rw [ih, List.findIdx_cons, hnot]
      simp [Nat.add_assoc, Nat.add_comm 1]
    · rename_i hlt
      have hyes : decide (offset < next) = true := by simpa using hlt
      rw [List.findIdx_cons, hyes]
      rfl

theorem positionBy_lineTable (s : Source) (offset : Int) :
    positionBy s.lineTable offset = s.positionAt offset := by
  have hlater : lineStartsFrom 0 s.toList = s.laterLines := s.laterLines_eq.symm
  have hfirst : s.lineTable.toList = 0 :: s.laterLines := by rw [lineTable, hlater]
  unfold positionBy positionAt
  rw [bisect_eq_findIdx offset s.pairwise_lineTable, hfirst, List.findIdx_cons]
  split
  · rename_i hneg
    have hyes : decide (offset < (0 : Nat)) = true := by simpa using hneg
    rw [hyes]
    cases hlines : s.laterLines <;> simp [lineTable, hlater, hlines]
  · rename_i hnat
    have hnot : decide (offset < (0 : Nat)) = false := by simpa using hnat
    rw [hnot, lineAt_eq]
    simp [lineTable, hlater, Nat.add_comm 1]

/-- The places of a source: on each of its lines one before every character and one at the end. -/
def places (s : Source) : Set (Int ×ₗ Int) :=
  {p | ∃ (n k : Nat) (line : List Char), (splitOn '\n' s.toList)[n]? = some line ∧
    k ≤ line.length ∧ p = toLex ((n : Int) + 1, (k : Int) + 1)}

theorem exists_line {s : Source} {i : Nat} (hi : i ≤ s.size) :
    ∃ lines before behind rest, s = ofList (ended lines ++ before ++ (behind ++ rest)) ∧
      (ended lines ++ before).length = i ∧ (∀ line ∈ lines, '\n' ∉ line) ∧
      '\n' ∉ before ++ behind ∧ (rest = [] ∨ rest.head? = some '\n') := by
  have hsize := s.length_toList
  obtain ⟨lines, before, hlines, hbefore, htake⟩ := Text.exists_ended (s.toList.take i)
  obtain ⟨behind, rest, hbehind, hrest, hdrop⟩ := Text.exists_line (s.toList.drop i)
  refine ⟨lines, before, behind, rest, ?_, ?_, hlines, by simp [hbefore, hbehind], hrest⟩
  · rw [← htake, ← hdrop, List.take_append_drop]
    exact s.eq_ofList_toList
  · rw [← htake, List.length_take]
    omega

theorem positionAt_eq {s : Source} {i : Nat} (hi : i ≤ s.size) :
    s.positionAt i = ⟨(s.toList.take i).count '\n' + 1,
      ((s.toList.take i).rtakeWhile (· ≠ '\n')).length + 1, i⟩ := by
  obtain ⟨lines, before, behind, rest, rfl, rfl, hlines, hwithin, -⟩ := exists_line hi
  have hbefore : '\n' ∉ before := fun hmem => hwithin (List.mem_append_left _ hmem)
  rw [positionAt_ended hlines hbefore, toList_ofList, List.take_left,
    Text.count_ended hlines hbefore, Text.rtakeWhile_ended lines hbefore]

theorem offsetAt_positionAt {s : Source} {i : Nat} (hi : i ≤ s.size) :
    Text.offsetAt s.toList ((s.positionAt i).line - 1) ((s.positionAt i).column - 1) = i := by
  obtain ⟨lines, before, behind, rest, rfl, rfl, hlines, hwithin, -⟩ := exists_line hi
  have hbefore : '\n' ∉ before := fun hmem => hwithin (List.mem_append_left _ hmem)
  rw [positionAt_ended hlines hbefore, toList_ofList, List.append_assoc, Int.add_sub_cancel,
    Int.add_sub_cancel, Text.offsetAt_ended hlines, List.length_append, Int.natCast_add]

theorem place_mem_places {s : Source} {i : Nat} (hi : i ≤ s.size) :
    (s.positionAt i).place ∈ s.places := by
  obtain ⟨lines, before, behind, rest, rfl, rfl, hlines, hwithin, hrest⟩ := exists_line hi
  have hbefore : '\n' ∉ before := fun hmem => hwithin (List.mem_append_left _ hmem)
  refine ⟨lines.length, before.length, before ++ behind, ?_, ?_, ?_⟩
  · rw [toList_ofList, List.append_assoc, ← List.append_assoc before]
    exact Text.getElem?_splitOn_ended hlines hwithin hrest
  · rw [List.length_append]
    omega
  · rw [positionAt_ended hlines hbefore]
    rfl

theorem exists_offset {s : Source} {place : Int ×ₗ Int} (h : place ∈ s.places) :
    ∃ i ≤ s.size, (s.positionAt i).place = place := by
  obtain ⟨n, k, line, hline, hk, rfl⟩ := h
  obtain ⟨rest, htext⟩ := Text.ended_take_isPrefix hline
  have hn : n < (splitOn '\n' s.toList).length := (List.getElem?_eq_some_iff.mp hline).1
  have hcount : ((splitOn '\n' s.toList).take n).length = n :=
    List.length_take_of_le (Nat.le_of_lt hn)
  have hlines : ∀ l ∈ (splitOn '\n' s.toList).take n, '\n' ∉ l := fun l hl =>
    Text.not_mem_of_mem_splitOn (List.mem_of_mem_take hl)
  have hbefore : '\n' ∉ line.take k := fun hmem =>
    Text.not_mem_of_mem_splitOn (List.mem_of_getElem? hline) (List.mem_of_mem_take hmem)
  generalize (splitOn '\n' s.toList).take n = lines at htext hcount hlines
  have hcut : s.toList = ended lines ++ line.take k ++ (line.drop k ++ rest) := by
    rw [← htext, List.append_assoc, List.append_assoc, ← List.append_assoc (line.take k),
      List.take_append_drop]
  have hsource : s = ofList (ended lines ++ line.take k ++ (line.drop k ++ rest)) := by
    rw [← hcut]
    exact s.eq_ofList_toList
  rw [hsource]
  refine ⟨(ended lines ++ line.take k).length, ?_, ?_⟩
  · rw [size_ofList]
    exact (List.prefix_append _ _).length_le
  · rw [positionAt_ended hlines hbefore, Position.place, hcount, List.length_take_of_le hk]

theorem bijOn_places (s : Source) :
    Set.BijOn (fun i : Nat => (s.positionAt i).place) (Set.Iic s.size) s.places := by
  have hmono : StrictMonoOn (fun i : Nat => (s.positionAt i).place) (Set.Iic s.size) :=
    fun _ _ _ hj hij => place_lt hij hj
  refine ⟨fun _ hi => place_mem_places hi, hmono.injOn, fun place hplace => ?_⟩
  obtain ⟨i, hi, heq⟩ := exists_offset hplace
  exact ⟨i, hi, heq⟩

end Source

/-- A cursor with the table of line starts that it keeps from when it is first asked for a place. -/
structure Tabled where
  cursor : Cursor
  kept : Option (Array Nat) := none

namespace Tabled

open Cursor (Op left perform)

def positionAt (offset : Int) (t : Tabled) : Position × Tabled :=
  let table := t.kept.getD t.cursor.source.lineTable
  (Source.positionBy table offset, { t with kept := some table })

def after (t : Tabled) : Op → Tabled
  | .positionAt offset => (t.positionAt offset).2
  | op => { t with cursor := left (perform op t.cursor) }

def drive (ops : List Op) (t : Tabled) : Tabled := ops.foldl after t

theorem cursor_after (t : Tabled) (op : Op) : (t.after op).cursor = left (perform op t.cursor) := by
  cases op <;> rfl

theorem cursor_drive (ops : List Op) (t : Tabled) :
    (drive ops t).cursor = Cursor.drive ops t.cursor := by
  induction ops generalizing t with
  | nil => rfl
  | cons op ops ih =>
    change (drive ops (t.after op)).cursor = Cursor.drive ops (left (perform op t.cursor))
    rw [ih, cursor_after]

/-- A kept table is that of the source, which stays the same. -/
structure Current (t : Tabled) : Prop where
  sound : t.cursor.Sound
  kept_eq : ∀ table, t.kept = some table → table = t.cursor.source.lineTable

namespace Current

variable {t : Tabled}

theorem new (source : Source) : Current { cursor := { source } } :=
  ⟨Cursor.sound_new source, by simp⟩

theorem getD_kept (h : t.Current) :
    t.kept.getD t.cursor.source.lineTable = t.cursor.source.lineTable := by
  cases hkept : t.kept with
  | none => rfl
  | some table => exact h.kept_eq table hkept

theorem after (h : t.Current) (op : Op) : (t.after op).Current := by
  have hfollows := Cursor.steady_perform op t.cursor h.sound
  have hold : Current { t with cursor := left (perform op t.cursor) } := by
    refine ⟨hfollows.sound, fun table hkept => ?_⟩
    rw [hfollows.source_eq]
    exact h.kept_eq table hkept
  cases op with
  | positionAt offset =>
    refine ⟨h.sound, fun table hkept => ?_⟩
    cases hkept
    exact h.getD_kept
  | _ => exact hold

theorem drive (h : t.Current) (ops : List Op) : (drive ops t).Current := by
  induction ops generalizing t with
  | nil => exact h
  | cons op ops ih => exact ih (h.after op)

theorem positionAt_eq (h : t.Current) (offset : Int) :
    (t.positionAt offset).1 = t.cursor.source.positionAt offset := by
  rw [Tabled.positionAt, h.getD_kept]
  exact Source.positionBy_lineTable _ offset

end Current

end Tabled

/-- Whatever a cursor has done, and whether it keeps a table or not, it tells the same place of an
offset. Offsets and places are in the same order, and each place is that of one offset, to which it
leads back. -/
theorem positionAt_bijective (source : Source) :
    (∀ (ops : List Cursor.Op) (i : Nat), i ≤ source.size →
      let before := source.toList.take i
      let p : Position := ⟨before.count '\n' + 1, (before.rtakeWhile (· ≠ '\n')).length + 1, i⟩
      let c := Cursor.drive ops { source }
      let asked := Tabled.positionAt i (Tabled.drive ops { cursor := { source } })
      Cursor.positionAt i c = .ok p c ∧ asked.1 = p ∧ asked.2.cursor = c ∧
        Text.offsetAt source.toList (p.line - 1) (p.column - 1) = i) ∧
    (∀ i j : Nat, i < j → j ≤ source.size →
      (source.positionAt i).place < (source.positionAt j).place) ∧
    Set.BijOn (fun i : Nat => (source.positionAt i).place) (Set.Iic source.size)
      source.places := by
  refine ⟨fun ops i hi => ?_, fun _ _ hij hj => Source.place_lt hij hj, source.bijOn_places⟩
  intro before p c asked
  have hsource : c.source = source := ((Cursor.sound_new source).follows_drive ops).source_eq
  have hcursor : (Tabled.drive ops { cursor := { source } }).cursor = c :=
    Tabled.cursor_drive ops _
  have hcurrent := (Tabled.Current.new source).drive ops
  have hplace : source.positionAt i = p := Source.positionAt_eq hi
  refine ⟨?_, ?_, hcursor, ?_⟩
  · rw [Cursor.positionAt, hsource, hplace]
  · rw [hcurrent.positionAt_eq, hcursor, hsource, hplace]
  · rw [← hplace]
    exact Source.offsetAt_positionAt hi

theorem positionAt_bijective_empty_line :
    let source := Source.ofList ['a', '\n', '\n', 'b']
    (Tabled.positionAt 2 (Tabled.drive [.positionAt (-1), .next] { cursor := { source } })).1 =
        ⟨2, 1, 2⟩ ∧
      Text.offsetAt source.toList 1 0 = 2 ∧
      (source.positionAt 2).place < (source.positionAt 3).place := by
  intro source
  obtain ⟨hplaces, hmono, -⟩ := positionAt_bijective source
  obtain ⟨-, hasked, -, hoffset⟩ := hplaces [.positionAt (-1), .next] 2 (by decide)
  exact ⟨hasked, hoffset, hmono 2 3 (by decide) (by decide)⟩

end DocModelLexer
