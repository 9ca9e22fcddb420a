import DocModelLexer.Proofs.Cursor.Window
import DocModelLexer.Proofs.Text.Lines

namespace DocModelLexer

open Text (ended ended_cons)

variable {line rest : List Char} {lines : List (List Char)}

namespace Source

theorem lt_of_mem_lineStartsFrom {i k : Nat} {text : List Char} (h : k ∈ lineStartsFrom i text) :
    i < k := by
  induction text generalizing i with
  | nil => cases h
  | cons c text ih =>
    rw [lineStartsFrom] at h
    split at h
    · rcases List.mem_cons.mp h with rfl | h
      · exact Nat.lt_succ_self i
      · exact Nat.lt_of_succ_lt (ih h)
    · exact Nat.lt_of_succ_lt (ih h)

theorem lineStartsFrom_append (h : '\n' ∉ line) (i : Nat) (rest : List Char) :
    lineStartsFrom i (line ++ rest) = lineStartsFrom (i + line.length) rest := by
  induction line generalizing i with
  | nil => rfl
  | cons c line ih =>
    have hc : c ≠ '\n' := by
      rintro rfl
      exact h List.mem_cons_self
    have htail : '\n' ∉ line := fun hmem => h (List.mem_cons_of_mem _ hmem)
    have hlen : i + (c :: line).length = i + 1 + line.length := by
      rw [List.length_cons]
      omega
    rw [List.cons_append, lineStartsFrom, if_neg hc, ih htail, hlen]

theorem lineAt_lineStartsFrom (i n start : Nat) (rest : List Char) :
    lineAt (i : Int) n start (lineStartsFrom i rest) = (n, start) := by
  cases hstarts : lineStartsFrom i rest with
  | nil => rfl
  | cons next later =>
    have hnext : i < next := lt_of_mem_lineStartsFrom (hstarts ▸ List.mem_cons_self)
    rw [lineAt, if_neg (by omega)]

theorem lineAt_ended {offset : Int} {i : Nat} (hlines : ∀ line ∈ lines, '\n' ∉ line)
    (hle : (i + (ended lines).length : Nat) ≤ offset) (n : Nat) (rest : List Char) :
    lineAt offset n i (lineStartsFrom i (ended lines ++ rest)) =
      lineAt offset (n + lines.length) (i + (ended lines).length)
        (lineStartsFrom (i + (ended lines).length) rest) := by
  induction lines generalizing i n with
  | nil => rfl
  | cons line lines ih =>
    have hline : '\n' ∉ line := hlines line List.mem_cons_self
    have hmore : ∀ line ∈ lines, '\n' ∉ line := fun l hl => hlines l (List.mem_cons_of_mem _ hl)
    have hlen : i + (ended (line :: lines)).length = i + line.length + 1 + (ended lines).length := by
      rw [ended_cons, List.length_append, List.length_cons]
      omega
    have hcount : n + (line :: lines).length = n + 1 + lines.length := by
      rw [List.length_cons]
      omega
    rw [hlen] at hle
    rw [hlen, hcount, ended_cons, List.append_assoc, List.cons_append,
      lineStartsFrom_append hline, lineStartsFrom, if_pos rfl, lineAt, if_pos (by omega)]
    exact ih hmore hle (n + 1)

theorem positionAt_ended {before : List Char} (hlines : ∀ line ∈ lines, '\n' ∉ line)
    (hbefore : '\n' ∉ before) (ahead : List Char) :
    (ofList (ended lines ++ before ++ ahead)).positionAt (ended lines ++ before).length =
      ⟨lines.length + 1, before.length + 1, (ended lines ++ before).length⟩ := by
  have hnat : ¬((ended lines ++ before).length : Int) < 0 := by omega
  have hlen : (ended lines ++ before).length = 0 + (ended lines).length + before.length := by
    rw [List.length_append, Nat.zero_add]
  have hline : lineAt ((ended lines ++ before).length : Int) 1 0
      (ofList (ended lines ++ before ++ ahead)).laterLines =
        (1 + lines.length, (ended lines).length) := by
    change lineAt _ 1 0 (lineStartsFrom 0 (ended lines ++ before ++ ahead)) = _
    rw [List.append_assoc, hlen, lineAt_ended hlines (by omega), lineStartsFrom_append hbefore,
      lineAt_lineStartsFrom, Nat.zero_add]
  rw [positionAt, if_neg hnat, hline]
  simp only [Position.mk.injEq, and_true]
  rw [hlen]
  omega

end Source

theorem Cursor.span_upon {before pending : List Char} (hlines : ∀ line ∈ lines, '\n' ∉ line)
    (hwithin : '\n' ∉ before ++ pending) (ahead : List Char) :
    (upon (ended lines ++ before) pending ahead).span =
      ⟨⟨lines.length + 1, before.length + 1, (ended lines ++ before).length⟩,
        ⟨lines.length + 1, (before ++ pending).length + 1,
          (ended lines ++ before ++ pending).length⟩⟩ := by
  have hbefore : '\n' ∉ before := fun hmem => hwithin (List.mem_append_left _ hmem)
  have hstart := Source.positionAt_ended hlines hbefore (pending ++ ahead)
  have hstop := Source.positionAt_ended hlines hwithin ahead
  rw [← List.append_assoc] at hstart
  rw [← List.append_assoc] at hstop
  have hlen : ((ended lines ++ before).length + pending.length : Nat) =
      (ended lines ++ before ++ pending).length := List.length_append.symm
  simp only [span, upon, Source.spanOf]
  rw [hlen, hstart, hstop]

theorem Cursor.span_upon_line (behind : List Char) {pending : List Char} (hpending : '\n' ∉ pending)
    (ahead : List Char) :
    (upon behind pending ahead).span.start.line = (upon behind pending ahead).span.stop.line := by
  obtain ⟨lines, before, hlines, hbefore, rfl⟩ := Text.exists_ended behind
  have hwithin : '\n' ∉ before ++ pending := by simp [hbefore, hpending]
  rw [span_upon hlines hwithin]

end DocModelLexer
