import DocModelLexer.Proofs.Cursor.Place
import DocModelLexer.Token

namespace DocModelLexer

open Text (ended)

/-- A place behind `lines` more lines of `length` characters in all. -/
def Position.moved (lines length : Nat) (p : Position) : Position :=
  ⟨p.line + lines, p.column, p.offset + length⟩

def Span.moved (lines length : Nat) (s : Span) : Span :=
  ⟨s.start.moved lines length, s.stop.moved lines length⟩

def Token.moved (lines length : Nat) (t : Token) : Token :=
  { t with span := t.span.map (·.moved lines length) }

theorem Position.moved_moved (p : Position) (n k n' k' : Nat) :
    (p.moved n k).moved n' k' = p.moved (n + n') (k + k') := by
  simp [moved, Int.add_assoc]

theorem Token.moved_moved (t : Token) (n k n' k' : Nat) :
    (t.moved n k).moved n' k' = t.moved (n + n') (k + k') := by
  simp [moved, Span.moved, Position.moved_moved, Function.comp_def]

variable {lines : List (List Char)} {behind pending ahead : List Char}

namespace Source

theorem positionAt_append (before ahead ahead' : List Char) :
    (ofList (before ++ ahead)).positionAt before.length =
      (ofList (before ++ ahead')).positionAt before.length := by
  obtain ⟨lines, last, hlines, hlast, rfl⟩ := Text.exists_ended before
  rw [positionAt_ended hlines hlast, positionAt_ended hlines hlast]

theorem positionAt_lines (hlines : ∀ line ∈ lines, '\n' ∉ line) (before ahead : List Char) :
    (ofList (ended lines ++ before ++ ahead)).positionAt (ended lines ++ before).length =
      ((ofList (before ++ ahead)).positionAt before.length).moved lines.length
        (ended lines).length := by
  obtain ⟨inner, last, hinner, hlast, rfl⟩ := Text.exists_ended before
  have hall : ∀ line ∈ lines ++ inner, '\n' ∉ line := by
    intro line hline
    rcases List.mem_append.mp hline with hline | hline
    · exact hlines line hline
    · exact hinner line hline
  have htext : ended lines ++ (ended inner ++ last) = ended (lines ++ inner) ++ last := by
    rw [Text.ended_append, List.append_assoc]
  rw [htext, positionAt_ended hall hlast, positionAt_ended hinner hlast, ← htext]
  simp only [Position.moved, List.length_append, Position.mk.injEq, true_and]
  omega

end Source

namespace Cursor

theorem span_upon_ahead (behind pending ahead ahead' : List Char) :
    (upon behind pending ahead).span = (upon behind pending ahead').span := by
  have hstart := Source.positionAt_append behind (pending ++ ahead) (pending ++ ahead')
  have hstop := Source.positionAt_append (behind ++ pending) ahead ahead'
  rw [List.length_append, List.append_assoc, List.append_assoc] at hstop
  simp only [span, upon, Source.spanOf, List.append_assoc, hstart, hstop]

def after (before : List Char) (c : Cursor) : Cursor where
  source := .ofList (before ++ c.source.toList)
  tokenStart := before.length + c.tokenStart
  position := before.length + c.position
  atEnd := c.atEnd

theorem after_upon (before : List Char) (e : Bool) :
    (upon behind pending ahead e).after before = upon (before ++ behind) pending ahead e := by
  simp [after, upon, Nat.add_assoc]

theorem span_upon_lines (hlines : ∀ line ∈ lines, '\n' ∉ line) :
    (upon (ended lines ++ behind) pending ahead).span =
      (upon behind pending ahead).span.moved lines.length (ended lines).length := by
  have hstart := Source.positionAt_lines hlines behind (pending ++ ahead)
  have hstop := Source.positionAt_lines hlines (behind ++ pending) ahead
  simp only [List.length_append, List.append_assoc] at hstart hstop
  simp only [span, upon, Source.spanOf, Span.moved, List.append_assoc, List.length_append,
    Nat.add_assoc, hstart, hstop]

end Cursor

end DocModelLexer
