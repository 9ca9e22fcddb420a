import DocModelLexer.Proofs.Cursor.Soundness
import DocModelLexer.Proofs.Scan.Budget

namespace DocModelLexer

open Cursor (Follows)

variable {σ ν : Type} {graph : Graph σ ν}

namespace Move

def target {τ : Type} : Move τ → τ
  | .quiet s => s
  | .emit _ s => s
  | .finish s => s
  | .fail _ s => s

end Move

theorem Scan.follows_move {s : Scan σ ν} (h : s.cursor.Sound) :
    s.cursor.Follows (move graph s).target.cursor := by
  unfold move
  split
  · exact .refl h
  · exact .refl h
  · rename_i op _ _
    have hstep := Cursor.steady_perform op s.cursor h
    split
    · rename_i reply c heq
      rw [heq] at hstep
      exact hstep
    · rename_i fault c heq
      rw [heq] at hstep
      exact hstep
  · exact .refl h
  · exact .refl h
  · exact h.ignored
  · exact .refl h
  · exact .refl h

theorem Run.last_extend {τ : Type} (p : Producer τ) (r : Run τ) :
    (r.extend p).last = r.last ∨ (r.extend p).last = (p r.last).target := by
  unfold extend
  split
  · right
    cases p r.last <;> rfl
  · exact .inl rfl
  · exact .inl rfl

/-- A longer run goes on from where a shorter one has come. -/
theorem Scan.follows_run {s : Scan σ ν} {m n : Nat} (hmn : m ≤ n)
    (h : ((move graph).run m s).last.cursor.Sound) :
    ((move graph).run m s).last.cursor.Follows ((move graph).run n s).last.cursor := by
  refine Producer.run_induct (move graph)
    (P := fun r => ((move graph).run m s).last.cursor.Follows r.last.cursor) ?_ hmn (.refl h)
  intro r hr
  rcases r.last_extend (move graph) with hlast | hlast
  · rw [hlast]
    exact hr
  · rw [hlast]
    exact hr.trans (follows_move hr.sound)

theorem Scan.sound_run (graph : Graph σ ν) (source : Source) (data : σ) (state : Option ν)
    (n : Nat) : ((move graph).run n (start source data state)).last.cursor.Sound := by
  have hstart : ((move graph).run 0 (start source data state)).last.cursor.Sound :=
    Cursor.sound_new source
  exact (follows_run (Nat.zero_le n) hstart).sound

end DocModelLexer
