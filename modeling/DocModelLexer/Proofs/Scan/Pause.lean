import DocModelLexer.Proofs.Scan.Budget
import DocModelLexer.Proofs.Scan.Outcome

namespace DocModelLexer

variable {σ ν : Type} {graph : Graph σ ν}

theorem Run.ext {τ : Type} {r q : Run τ} (htokens : r.tokens = q.tokens)
    (hending : r.ending = q.ending) (hlast : r.last = q.last) : r = q := by
  cases r
  cases q
  simp_all

namespace Producer

variable {τ : Type} {p : Producer τ} {s t : τ}

theorem run_quiet (h : p s = .quiet t) (n : Nat) : p.run (1 + n) s = p.run n t := by
  rw [Nat.add_comm, run, h]

theorem run_emit {token : Token} (h : p s = .emit token t) (n : Nat) :
    p.run (1 + n) s = { p.run n t with tokens := token :: (p.run n t).tokens } := by
  rw [Nat.add_comm, run, h]

end Producer

namespace Scan

theorem move_emit (type : Int) (rest : Script σ (Option ν)) (c : Cursor) (d : σ) :
    move graph ⟨c, d, .emit type rest⟩ =
      .emit ⟨type, String.ofList (c.source.slice c.tokenStart c.position), some c.span⟩
        ⟨{ c with tokenStart := c.position }, d, rest⟩ := rfl

theorem move_report (message : String) (rest : Script σ (Option ν)) (c : Cursor) (d : σ) :
    move graph ⟨c, d, .report message rest⟩ =
      .emit ⟨errorType, message, some c.span⟩ ⟨c, d, rest⟩ := rfl

/-- A run carries out the first part of a script in as many moves as its outcome counts. -/
theorem run_bind {α : Type} {x : Script σ α} {f : α → Script σ (Option ν)} {c c' : Cursor}
    {d d' : σ} {tokens : List Token} {a : α} {m : Nat} (h : x.exec c d = ⟨tokens, c', d', .ok a, m⟩)
    (n : Nat) :
    (move graph).run (m + n) ⟨c, d, x.bind f⟩ =
      { (move graph).run n ⟨c', d', f a⟩ with
        tokens := tokens ++ ((move graph).run n ⟨c', d', f a⟩).tokens } := by
  induction x generalizing c d tokens m with
  | done b =>
    cases h
    simp [Script.bind]
  | fail fault => cases h
  | load rest ih =>
    obtain ⟨us, k, ho, rfl, rfl⟩ := Script.Outcome.eq_of_after h
    have hmove : move graph ⟨c, d, (Script.load rest).bind f⟩ =
        .quiet ⟨c, d, (rest d).bind f⟩ := rfl
    rw [Nat.add_assoc, Producer.run_quiet hmove, ih d ho]
  | store data rest ih =>
    obtain ⟨us, k, ho, rfl, rfl⟩ := Script.Outcome.eq_of_after h
    have hmove : move graph ⟨c, d, (Script.store data rest).bind f⟩ =
        .quiet ⟨c, data, rest.bind f⟩ := rfl
    rw [Nat.add_assoc, Producer.run_quiet hmove, ih ho]
  | emit type rest ih =>
    obtain ⟨us, k, ho, rfl, rfl⟩ := Script.Outcome.eq_of_after h
    rw [Nat.add_assoc, Script.bind, Producer.run_emit (move_emit type (rest.bind f) c d), ih ho]
    rfl
  | report message rest ih =>
    obtain ⟨us, k, ho, rfl, rfl⟩ := Script.Outcome.eq_of_after h
    rw [Nat.add_assoc, Script.bind, Producer.run_emit (move_report message (rest.bind f) c d),
      ih ho]
    rfl
  | call op rest ih =>
    rw [Script.exec] at h
    cases hop : Cursor.perform op c with
    | error fault c' => simp [hop] at h
    | ok reply cop =>
      simp only [hop] at h
      obtain ⟨us, k, ho, rfl, rfl⟩ := Script.Outcome.eq_of_after h
      have hmove : move graph ⟨c, d, (Script.call op rest).bind f⟩ =
          .quiet ⟨cop, d, (rest reply).bind f⟩ := by
        simp [Script.bind, move, hop]
      rw [Nat.add_assoc, Producer.run_quiet hmove, ih reply ho]

theorem run_script {todo : Script σ (Option ν)} {c c' : Cursor} {d d' : σ} {tokens : List Token}
    {next : Option ν} {m : Nat} (h : todo.exec c d = ⟨tokens, c', d', .ok next, m⟩) (n : Nat) :
    (move graph).run (m + n) ⟨c, d, todo⟩ =
      { (move graph).run n ⟨c', d', .done next⟩ with
        tokens := tokens ++ ((move graph).run n ⟨c', d', .done next⟩).tokens } := by
  rw [← run_bind h n, Script.bind_done]

/-- A run that comes to rest between two calls has carried out the script it began with. -/
theorem script_of_run {todo : Script σ (Option ν)} {c cl : Cursor} {d dl : σ} {n : Nat}
    {tokens : List Token} {ending : Ending} {state : Option ν}
    (h : (move graph).run n ⟨c, d, todo⟩ = ⟨tokens, ending, ⟨cl, dl, .done state⟩⟩) :
    ∃ ts c' d' next m, todo.exec c d = ⟨ts, c', d', .ok next, m⟩ ∧ m ≤ n := by
  induction todo generalizing c d n tokens with
  | done a => exact ⟨[], c, d, a, 0, rfl, Nat.zero_le n⟩
  | fail fault => cases n <;> cases h
  | load rest ih =>
    cases n with
    | zero => cases h
    | succ n =>
      obtain ⟨ts, c', d', next, m, ho, hm⟩ := ih d h
      exact ⟨ts, c', d', next, 1 + m, by rw [Script.exec, ho]; rfl, by omega⟩
  | store data rest ih =>
    cases n with
    | zero => cases h
    | succ n =>
      obtain ⟨ts, c', d', next, m, ho, hm⟩ := ih h
      exact ⟨ts, c', d', next, 1 + m, by rw [Script.exec, ho]; rfl, by omega⟩
  | emit type rest ih =>
    cases n with
    | zero => cases h
    | succ n =>
      rw [Nat.add_comm, Producer.run_emit (move_emit type rest c d)] at h
      obtain ⟨-, rfl, hlast⟩ := Run.mk.inj h
      obtain ⟨ts, c', d', next, m, ho, hm⟩ := ih (Run.ext rfl rfl hlast)
      exact ⟨_ :: ts, c', d', next, 1 + m, by rw [Script.exec, ho]; rfl, by omega⟩
  | report message rest ih =>
    cases n with
    | zero => cases h
    | succ n =>
      rw [Nat.add_comm, Producer.run_emit (move_report message rest c d)] at h
      obtain ⟨-, rfl, hlast⟩ := Run.mk.inj h
      obtain ⟨ts, c', d', next, m, ho, hm⟩ := ih (Run.ext rfl rfl hlast)
      exact ⟨_ :: ts, c', d', next, 1 + m, by rw [Script.exec, ho]; rfl, by omega⟩
  | call op rest ih =>
    cases n with
    | zero => cases h
    | succ n =>
      cases hop : Cursor.perform op c with
      | error fault c' =>
        simp [Producer.run, move, hop] at h
      | ok reply cop =>
        have hmove : move graph ⟨c, d, .call op rest⟩ = .quiet ⟨cop, d, rest reply⟩ := by
          simp [move, hop]
        rw [Nat.add_comm, Producer.run_quiet hmove] at h
        obtain ⟨ts, c', d', next, m, ho, hm⟩ := ih reply h
        exact ⟨ts, c', d', next, 1 + m, by rw [Script.exec, hop]; simp [ho], by omega⟩

end Scan

def Scan.upcoming? (s : Scan σ ν) : Option (Option ν) :=
  match s.todo with
  | .done next => some next
  | _ => none

/-- A scan between two calls: what is called next, if anything. -/
structure Pause (σ ν : Type) where
  cursor : Cursor
  data : σ
  next : Option ν

namespace Pause

def scan (x : Pause σ ν) : Scan σ ν := ⟨x.cursor, x.data, .done x.next⟩

theorem scan_injective {x y : Pause σ ν} (h : x.scan = y.scan) : x = y := by
  obtain ⟨c, d, next⟩ := x
  cases h
  rfl

theorem eq_scan_of_upcoming {s : Scan σ ν} {next : Option ν} (h : s.upcoming? = some next) :
    s = scan ⟨s.cursor, s.data, next⟩ := by
  obtain ⟨c, d, todo⟩ := s
  unfold Scan.upcoming? at h
  split at h
  · rename_i htodo
    cases h
    simp only at htodo
    rw [htodo]
    rfl
  · contradiction

/-- Calls lead from one pause to another, deliver tokens on the way, and take a number of moves. -/
inductive Leads (graph : Graph σ ν) : Pause σ ν → List Token → Nat → Pause σ ν → Prop where
  | refl (x : Pause σ ν) : Leads graph x [] 0 x
  | call {c d state ts c' d' next m later n y} :
      (graph state).exec c d = ⟨ts, c', d', .ok next, m⟩ → Leads graph ⟨c', d', next⟩ later n y →
      Leads graph ⟨c, d, some state⟩ (ts ++ later) (m + 1 + n) y

variable {x y z : Pause σ ν} {tokens later : List Token} {m n : Nat}

theorem Leads.trans (h : Leads graph x tokens m y) (hlater : Leads graph y later n z) :
    Leads graph x (tokens ++ later) (m + n) z := by
  induction h with
  | refl => simpa using hlater
  | call hexec _ ih =>
    rw [List.append_assoc, Nat.add_assoc]
    exact .call hexec (ih hlater)

theorem Leads.one {c c' : Cursor} {d d' : σ} {state : ν} {next : Option ν}
    (h : (graph state).exec c d = ⟨tokens, c', d', .ok next, m⟩) :
    Leads graph ⟨c, d, some state⟩ tokens (m + 1) ⟨c', d', next⟩ := by
  simpa using Leads.call h (.refl _)

/-- A run makes the calls that lead on from where it stands, and then what is left to it. -/
theorem Leads.run (h : Leads graph x tokens m y) (n : Nat) :
    (Scan.move graph).run (m + n) x.scan =
      { (Scan.move graph).run n y.scan with
        tokens := tokens ++ ((Scan.move graph).run n y.scan).tokens } := by
  induction h with
  | refl => simp
  | @call c d state ts c' d' next m later k y hexec _ ih =>
    have hmove : Scan.move graph (scan ⟨c, d, some state⟩) = .quiet ⟨c, d, graph state⟩ := rfl
    have hsplit : m + 1 + k + n = 1 + (m + (k + n)) := by omega
    rw [hsplit, Producer.run_quiet hmove, Scan.run_script hexec]
    change { (Scan.move graph).run (k + n) (scan ⟨c', d', next⟩) with
      tokens := ts ++ ((Scan.move graph).run (k + n) (scan ⟨c', d', next⟩)).tokens } = _
    rw [ih]
    simp

theorem Leads.run_finished (h : Leads graph x tokens m y) (hy : y.next = none) (hn : m < n) :
    (Scan.move graph).run n x.scan = ⟨tokens, .finished, y.scan⟩ := by
  obtain ⟨k, rfl⟩ : ∃ k, n = m + (k + 1) := ⟨n - m - 1, by omega⟩
  have hlast : (Scan.move graph).run (k + 1) y.scan = ⟨[], .finished, y.scan⟩ := by
    simp [Producer.run, Scan.move, scan, hy]
  rw [h.run, hlast, List.append_nil]

/-- Every run that comes to rest at a pause got there by calls. -/
theorem leads_of_run {ending : Ending}
    (h : (Scan.move graph).run n x.scan = ⟨tokens, ending, y.scan⟩) :
    ∃ m, Leads graph x tokens m y := by
  induction n using Nat.strongRecOn generalizing x tokens with
  | ind n ih =>
    obtain ⟨c, d, next⟩ := x
    cases n with
    | zero =>
      obtain ⟨rfl, -, hscan⟩ := Run.mk.inj h
      exact ⟨0, scan_injective hscan ▸ .refl _⟩
    | succ n =>
      cases next with
      | none =>
        obtain ⟨rfl, -, hscan⟩ := Run.mk.inj h
        exact ⟨0, scan_injective hscan ▸ .refl _⟩
      | some state =>
        have hmove : Scan.move graph (scan ⟨c, d, some state⟩) = .quiet ⟨c, d, graph state⟩ := rfl
        rw [Nat.add_comm, Producer.run_quiet hmove] at h
        obtain ⟨ts, c', d', next, k, hexec, hk⟩ := Scan.script_of_run h
        obtain ⟨j, rfl⟩ := Nat.exists_eq_add_of_le hk
        rw [Scan.run_script hexec] at h
        obtain ⟨rfl, hending, hlast⟩ := Run.mk.inj h
        obtain ⟨m, hm⟩ := ih j (by omega) (x := ⟨c', d', next⟩) (Run.ext rfl hending hlast)
        exact ⟨_, .call hexec hm⟩

end Pause

end DocModelLexer
