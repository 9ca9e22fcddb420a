import DocModelLexer.Proofs.Cursor.Place
import Mathlib.Data.Prod.Lex

namespace DocModelLexer

open Text (ended ended_cons ended_append)

def Position.place (p : Position) : Int ×ₗ Int := toLex (p.line, p.column)

namespace Source

theorem place_lt_append {before more : List Char} (hmore : more ≠ []) (ahead : List Char) :
    ((ofList (before ++ more ++ ahead)).positionAt before.length).place <
      ((ofList (before ++ more ++ ahead)).positionAt (before ++ more).length).place := by
  obtain ⟨lines, last, hlines, hlast, rfl⟩ := Text.exists_ended before
  obtain ⟨inner, rest, hinner, hrest, rfl⟩ := Text.exists_ended more
  have hstart := positionAt_ended hlines hlast (ended inner ++ rest ++ ahead)
  rw [← List.append_assoc] at hstart
  rw [hstart]
  cases inner with
  | nil =>
    have hline : '\n' ∉ last ++ rest := by
      rw [List.mem_append, not_or]
      exact ⟨hlast, hrest⟩
    have htext : ended lines ++ last ++ (ended [] ++ rest) = ended lines ++ (last ++ rest) := by
      simp [ended]
    have hpos : 0 < rest.length := List.length_pos_iff.mpr (by simpa [ended] using hmore)
    rw [htext, positionAt_ended hlines hline]
    apply Prod.Lex.toLex_lt_toLex.mpr
    right
    refine ⟨rfl, ?_⟩
    simp only [List.length_append]
    omega
  | cons line inner =>
    have hall : ∀ l ∈ lines ++ (last ++ line) :: inner, '\n' ∉ l := by
      intro l hl
      rcases List.mem_append.mp hl with hl | hl
      · exact hlines l hl
      · rcases List.mem_cons.mp hl with rfl | hl
        · rw [List.mem_append, not_or]
          exact ⟨hlast, hinner line List.mem_cons_self⟩
        · exact hinner l (List.mem_cons_of_mem _ hl)
    have htext : ended lines ++ last ++ (ended (line :: inner) ++ rest) =
        ended (lines ++ (last ++ line) :: inner) ++ rest := by
      simp [ended_append, ended_cons]
    rw [htext, positionAt_ended hall hrest]
    apply Prod.Lex.toLex_lt_toLex.mpr
    left
    simp only [List.length_append, List.length_cons]
    omega

variable {s : Source} {i j : Nat}

theorem place_lt (hij : i < j) (hj : j ≤ s.size) :
    (s.positionAt i).place < (s.positionAt j).place := by
  obtain ⟨behind, pending, ahead, rfl, rfl, rfl⟩ := exists_cut (Nat.le_of_lt hij) hj
  have hmore : pending ≠ [] := by
    apply List.ne_nil_of_length_pos
    omega
  rw [← List.length_append]
  exact place_lt_append hmore ahead

theorem place_le (hij : i ≤ j) (hj : j ≤ s.size) :
    (s.positionAt i).place ≤ (s.positionAt j).place := by
  rcases Nat.eq_or_lt_of_le hij with rfl | hlt
  · exact le_refl _
  · exact (place_lt hlt hj).le

end Source

end DocModelLexer
