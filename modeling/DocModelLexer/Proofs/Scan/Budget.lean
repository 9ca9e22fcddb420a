import DocModelLexer.Scan

namespace DocModelLexer

variable {τ : Type}

/-- A run with one more move; one that has ended makes none. -/
def Run.extend (p : Producer τ) (r : Run τ) : Run τ :=
  match r.ending with
  | .unfinished =>
    match p r.last with
    | .quiet s => { r with last := s }
    | .emit token s => { r with tokens := r.tokens ++ [token], last := s }
    | .finish s => { r with ending := .finished, last := s }
    | .fail fault s => { r with ending := .failed fault, last := s }
  | .finished => r
  | .failed _ => r

theorem Run.extend_of_ended (p : Producer τ) {r : Run τ} (h : r.ending ≠ .unfinished) :
    r.extend p = r := by
  unfold Run.extend
  split
  · contradiction
  · rfl
  · rfl

theorem Run.extend_cons (p : Producer τ) (token : Token) (r : Run τ) :
    Run.extend p { r with tokens := token :: r.tokens } =
      { r.extend p with tokens := token :: (r.extend p).tokens } := by
  obtain ⟨tokens, ending, last⟩ := r
  cases ending with
  | unfinished => cases h : p last <;> simp [Run.extend, h]
  | finished => rfl
  | failed fault => rfl

theorem Run.tokens_extend (p : Producer τ) (r : Run τ) : r.tokens <+: (r.extend p).tokens := by
  obtain ⟨tokens, ending, last⟩ := r
  cases ending with
  | unfinished => cases h : p last <;> simp [Run.extend, h]
  | finished => exact List.prefix_refl _
  | failed fault => exact List.prefix_refl _

namespace Producer

variable (p : Producer τ)

theorem run_succ (n : Nat) (s : τ) : p.run (n + 1) s = (p.run n s).extend p := by
  induction n generalizing s with
  | zero => cases h : p s <;> simp [run, Run.extend, h]
  | succ n ih =>
    rw [run, run]
    cases h : p s with
    | quiet t => exact ih t
    | emit token t =>
      simp only [ih t]
      exact (Run.extend_cons p token (p.run n t)).symm
    | finish t => rfl
    | fail fault t => rfl

theorem run_induct {P : Run τ → Prop} (hstep : ∀ r, P r → P (r.extend p)) {m n : Nat} (hmn : m ≤ n)
    {s : τ} (h : P (p.run m s)) : P (p.run n s) := by
  induction hmn with
  | refl => exact h
  | step _ ih =>
    rw [run_succ]
    exact hstep _ ih

theorem tokens_run_le {m n : Nat} (hmn : m ≤ n) (s : τ) :
    (p.run m s).tokens <+: (p.run n s).tokens :=
  run_induct p (P := fun r => (p.run m s).tokens <+: r.tokens)
    (fun r hr => hr.trans (r.tokens_extend p)) hmn (List.prefix_refl _)

/-- A run that has ended is the run under every longer budget. -/
theorem run_of_ended {m n : Nat} (hmn : m ≤ n) {s : τ} (h : (p.run m s).ending ≠ .unfinished) :
    p.run n s = p.run m s := by
  refine run_induct p (P := fun r => r = p.run m s) ?_ hmn rfl
  rintro r rfl
  exact Run.extend_of_ended p h

theorem tokens_run_of_ended {m : Nat} {s : τ} (h : (p.run m s).ending ≠ .unfinished) (n : Nat) :
    (p.run n s).tokens <+: (p.run m s).tokens := by
  rcases Nat.le_total n m with hnm | hmn
  · exact tokens_run_le p hnm s
  · exact run_of_ended p hmn h ▸ List.prefix_refl _

theorem run_unique {m n : Nat} {s : τ} (hm : (p.run m s).ending ≠ .unfinished)
    (hn : (p.run n s).ending ≠ .unfinished) : p.run m s = p.run n s := by
  rcases Nat.le_total m n with hmn | hnm
  · exact (run_of_ended p hmn hm).symm
  · exact run_of_ended p hnm hn

/-- An unfinished run of `m` moves goes on from where it came to rest. -/
theorem run_add (m n : Nat) {s : τ} (h : (p.run m s).ending = .unfinished) :
    p.run (m + n) s =
      { p.run n (p.run m s).last with
        tokens := (p.run m s).tokens ++ (p.run n (p.run m s).last).tokens } := by
  induction n with
  | zero =>
    cases hr : p.run m s with
    | mk tokens ending last =>
      rw [hr] at h
      simp_all [run]
  | succ n ih =>
    rw [← Nat.add_assoc, run_succ, ih, run_succ p n]
    generalize (p.run m s).tokens = before
    cases hr : p.run n (p.run m s).last with
    | mk tokens ending last =>
      cases ending with
      | unfinished => cases hl : p last <;> simp [Run.extend, hl]
      | finished => rfl
      | failed fault => rfl

end Producer

end DocModelLexer
