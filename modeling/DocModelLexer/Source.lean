import DocModelLexer.Position

namespace DocModelLexer

/-- The offsets at which a line begins after a line feed, for characters that stand from offset
`i` on. -/
def lineStartsFrom : Nat → List Char → List Nat
  | _, [] => []
  | i, c :: cs =>
    if c = '\n' then (i + 1) :: lineStartsFrom (i + 1) cs else lineStartsFrom (i + 1) cs

/-- A text with the table of the line starts after its first line. Characters are Unicode scalar
values, here and in every other text, so there are no texts with a lone surrogate. -/
structure Source where
  chars : Array Char
  laterLines : List Nat
  laterLines_eq : laterLines = lineStartsFrom 0 chars.toList

namespace Source

def ofList (cs : List Char) : Source := ⟨cs.toArray, lineStartsFrom 0 cs, by simp⟩

def ofString (text : String) : Source := ofList text.toList

def toList (s : Source) : List Char := s.chars.toList

def size (s : Source) : Nat := s.chars.size

def slice (s : Source) (i j : Nat) : List Char := (s.chars.extract i j).toList

instance : Inhabited Source := ⟨ofList []⟩

@[ext] theorem ext {s t : Source} (h : s.chars = t.chars) : s = t := by
  obtain ⟨cs, later, hs⟩ := s
  obtain ⟨ds, later', ht⟩ := t
  subst hs ht
  cases h
  rfl

@[simp] theorem toList_ofList (cs : List Char) : (ofList cs).toList = cs := by simp [ofList, toList]

@[simp] theorem size_ofList (cs : List Char) : (ofList cs).size = cs.length := by
  simp [ofList, size]

theorem length_toList (s : Source) : s.toList.length = s.size := by simp [toList, size]

theorem slice_eq (s : Source) (i j : Nat) : s.slice i j = (s.toList.drop i).take (j - i) := by
  simp [slice, toList]

/-- The number and the start of the last line that begins at or before `offset`, among the line
number `line` at `start` and the later ones. -/
def lineAt (offset : Int) : (line start : Nat) → (later : List Nat) → Nat × Nat
  | line, start, [] => (line, start)
  | line, start, next :: rest =>
    if (next : Int) ≤ offset then lineAt offset (line + 1) next rest else (line, start)

/-- The position of an offset. An offset before the text lies on line zero, whose columns count
from the start of the last line. -/
def positionAt (s : Source) (offset : Int) : Position :=
  if offset < 0 then
    ⟨0, offset - s.laterLines.getLastD 0 + 1, offset⟩
  else
    let (line, start) := lineAt offset 1 0 s.laterLines
    ⟨line, offset - start + 1, offset⟩

def spanOf (s : Source) (i j : Nat) : Span := ⟨s.positionAt i, s.positionAt j⟩

end Source

end DocModelLexer
