import DocModelLexer.Proofs.Grammar.TokenCount

namespace DocModelLexer

def Token.isTerminal (t : Token) : Bool := t.isEof || t.isError

namespace Grammar

open Pause (Leads)

/-- The base with more indentations opened over it; the last of the widths is innermost. -/
def Levels.ofWidths (widths : List Int) : Levels := widths.reverse ++ Levels.base

theorem Levels.base_mem_ofWidths (widths : List Int) : 0 ∈ Levels.ofWidths widths := by
  simp [Levels.ofWidths, Levels.base]

theorem isTerminal_upon (kind : Kind) (behind pending ahead : List Char) :
    (Token.upon kind.type behind pending ahead).isTerminal = decide (kind = .eof) := by
  cases kind <;> rfl

theorem isTerminal_errorUpon (message : String) (behind pending ahead : List Char) :
    (Token.errorUpon message behind pending ahead).isTerminal = true := rfl

/-- Tokens with a terminal token at their end if the scan is over, and with none otherwise. -/
structure Concludes (tokens : List Token) (next : Option State) : Prop where
  count : tokens.countP Token.isTerminal = if next = none then 1 else 0
  last : next = none → ∃ t, tokens.getLast? = some t ∧ t.isTerminal = true

namespace Concludes

variable {state : State} {tokens later : List Token} {next : Option State} {t : Token}

theorem of_none (h : ∀ t ∈ tokens, t.isTerminal = false) : Concludes tokens (some state) where
  count := by
    rw [if_neg (by simp), List.countP_eq_zero]
    intro t ht
    simp [h t ht]
  last := by
    intro hnext
    cases hnext

theorem append (h : Concludes tokens (some state)) (hlater : Concludes later next) :
    Concludes (tokens ++ later) next where
  count := by
    rw [List.countP_append, h.count, hlater.count, if_neg (by simp), Nat.zero_add]
  last := by
    intro hnext
    obtain ⟨t, ht, hterminal⟩ := hlater.last hnext
    exact ⟨t, by rw [List.getLast?_append, ht, Option.some_or], hterminal⟩

theorem terminal (ht : t.isTerminal = true) : Concludes [t] none where
  count := by simp [ht]
  last := fun _ => ⟨t, rfl, ht⟩

theorem eq_of_isTerminal {t' : Token} (h : Concludes tokens next) (ht : t ∈ tokens)
    (hterminal : t.isTerminal = true) (ht' : t' ∈ tokens) (hterminal' : t'.isTerminal = true) :
    t = t' := by
  have hle : (tokens.filter Token.isTerminal).length ≤ 1 := by
    rw [← List.countP_eq_length_filter, h.count]
    split <;> omega
  have hmem : t ∈ tokens.filter Token.isTerminal := List.mem_filter.mpr ⟨ht, hterminal⟩
  have hmem' : t' ∈ tokens.filter Token.isTerminal := List.mem_filter.mpr ⟨ht', hterminal'⟩
  match hall : tokens.filter Token.isTerminal with
  | [] =>
    rw [hall] at hmem
    cases hmem
  | [only] =>
    rw [hall] at hmem hmem'
    rw [List.mem_singleton.mp hmem, List.mem_singleton.mp hmem']
  | _ :: _ :: _ =>
    rw [hall, List.length_cons, List.length_cons] at hle
    omega

end Concludes

section

variable {state : State} {behind pending lead ahead : List Char} {levels levels' : Levels}
  {tokens : List Token} {next : Option State} {x y : Pause Levels State}

theorem dedents_not_terminal (n : Nat) :
    ∀ t ∈ dedents behind lead ahead n, t.isTerminal = false := by
  intro t ht
  simp [Token.isTerminal, Token.isEof, Token.isError, type_of_mem_dedents ht, Kind.type, errorType]

theorem Indents.concludes (h : Indents behind lead ahead levels tokens levels' next) :
    Concludes tokens next := by
  cases h with
  | same => exact .of_none (by simp)
  | opens => exact .of_none (by simp [isTerminal_upon])
  | closes => exact .of_none (dedents_not_terminal _)
  | @inconsistent n top closed left =>
    have hclosed : Concludes (dedents behind lead ahead closed.length) (some .outer) :=
      .of_none (dedents_not_terminal _)
    exact hclosed.append (.terminal (isTerminal_errorUpon _ _ _ _))

theorem concludes_upon {kind : Kind} (hkind : kind ≠ .eof) :
    Concludes [.upon kind.type behind pending ahead] (some state) :=
  .of_none (by simp [isTerminal_upon, hkind])

/-- A turn that ends the scan delivers a terminal token last, and no other turn delivers one. -/
theorem Turn.concludes (h : Turn state behind pending ahead levels tokens y) :
    Concludes tokens y.next := by
  have hquiet {s : State} : Concludes [] (some s) := .of_none (by simp)
  cases h with
  | blankLine => exact hquiet
  | line _ hindents => exact hindents.concludes
  | measured hindents => exact hindents.concludes
  | blank => exact hquiet
  | lineEnd => exact hquiet
  | single hkind => exact concludes_upon (Kind.ofChar?_ne hkind).2.2
  | enters => exact hquiet
  | unexpected => exact .terminal (isTerminal_errorUpon _ _ _ _)
  | eof hindents => exact hindents.concludes.append (.terminal (by rw [isTerminal_upon]; rfl))
  | badEnd hindents => exact hindents.concludes
  | quoted => exact concludes_upon Kind.noConfusion
  | runaway => exact .terminal (isTerminal_errorUpon _ _ _ _)
  | word hword =>
    apply concludes_upon
    cases hword <;> exact Kind.noConfusion
  | ellipsis => exact concludes_upon Kind.noConfusion
  | malformed => exact .terminal (isTerminal_errorUpon _ _ _ _)

theorem leads_concludes {m : Nat} (h : Leads graph x tokens m y) (hfits : Fits x)
    (hx : x.next = some state) : Concludes tokens y.next := by
  have hnone : Concludes [] x.next := by
    rw [hx]
    exact .of_none (by simp)
  have hall : Concludes ([] ++ tokens) y.next := by
    refine turns_induct (P := fun tokens y => Concludes tokens y.next) h hfits hnone ?_
    intro before state behind pending ahead levels ts y hbefore hturn
    exact hbefore.append hturn.concludes
  exact hall

end

theorem State.takes_nil (state : State) : state.Takes [] := by
  cases state <;> simp [Takes]

theorem run_concludes (source : Source) (widths : List Int) (state : State) :
    ∃ m y, Leads graph (first source (Levels.ofWidths widths) state)
        (run source (Levels.ofWidths widths) state).tokens m y ∧
      y.next = none ∧ m < budget source (Levels.ofWidths widths) ∧
      run source (Levels.ofWidths widths) state =
        ⟨(run source (Levels.ofWidths widths) state).tokens, .finished, y.scan⟩ ∧
      Concludes (run source (Levels.ofWidths widths) state).tokens none := by
  have hbase := Levels.base_mem_ofWidths widths
  obtain ⟨m, y, hleads, hy, hm, hrun⟩ := @run_eq _ _ source hbase state.takes_nil
  have hconcludes := leads_concludes hleads (fits_first hbase state.takes_nil) rfl
  rw [hy] at hconcludes
  exact ⟨m, y, hleads, hy, by omega, hrun, hconcludes⟩

end Grammar

end DocModelLexer
