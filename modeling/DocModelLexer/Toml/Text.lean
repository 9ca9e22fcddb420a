namespace DocModelLexer.Toml

/-- Control characters, which may stand neither in a text nor in a comment. -/
def isControl (c : Char) : Bool := (c.toNat < 0x20 || c.toNat == 0x7f) && c != '\t'

def isLineControl (c : Char) : Bool := isControl c && c != '\n'

def isBlank (c : Char) : Bool := c == ' ' || c == '\t'

def isSpace (c : Char) : Bool := isBlank c || c == '\n'

def hexValue? (c : Char) : Option Nat :=
  if '0' ≤ c ∧ c ≤ '9' then some (c.toNat - '0'.toNat)
  else if 'a' ≤ c ∧ c ≤ 'f' then some (c.toNat - 'a'.toNat + 10)
  else if 'A' ≤ c ∧ c ≤ 'F' then some (c.toNat - 'A'.toNat + 10)
  else none

/-- The character with the number that exactly `count` hexadecimal digits give, if there is one. -/
def hexChar? (count : Nat) (text : List Char) : Option (Char × List Char) := do
  let digits ← (text.take count).mapM hexValue?
  let number := digits.foldl (fun n d => 16 * n + d) 0
  if digits.length = count ∧ number.isValidChar then
    some (Char.ofNat number, text.drop count)
  else none

/-- The character that an escape stands for; the text begins behind the backslash. -/
def escape? : List Char → Option (Char × List Char)
  | 'b' :: rest => some ('\x08', rest)
  | 't' :: rest => some ('\t', rest)
  | 'n' :: rest => some ('\n', rest)
  | 'f' :: rest => some ('\x0c', rest)
  | 'r' :: rest => some ('\r', rest)
  | '\x22' :: rest => some ('\x22', rest)
  | '\\' :: rest => some ('\\', rest)
  | 'u' :: rest => hexChar? 4 rest
  | 'U' :: rest => hexChar? 8 rest
  | _ => none

/-- A backslash at the end of a line swallows the line's end and all space that follows it; blanks
may stand between the two. -/
def joinLines? (text : List Char) : Option (List Char) :=
  match text.dropWhile isBlank with
  | '\n' :: rest => some (rest.dropWhile isSpace)
  | _ => none

private theorem length_dropWhile_le (p : Char → Bool) (text : List Char) :
    (text.dropWhile p).length ≤ text.length :=
  (List.dropWhile_suffix p).length_le

private theorem length_of_hexChar? {count : Nat} {text rest : List Char} {c : Char}
    (h : hexChar? count text = some (c, rest)) : rest.length ≤ text.length := by
  simp only [hexChar?, Option.bind_eq_bind, Option.bind_eq_some_iff] at h
  obtain ⟨digits, _, h⟩ := h
  split at h
  · obtain ⟨-, rfl⟩ := Prod.mk.inj (Option.some.inj h)
    simp
  · simp at h

theorem length_of_escape? {text rest : List Char} {c : Char} (h : escape? text = some (c, rest)) :
    rest.length ≤ text.length := by
  fun_cases escape? text
  case case8 text => exact Nat.le_succ_of_le (length_of_hexChar? h)
  case case9 text => exact Nat.le_succ_of_le (length_of_hexChar? h)
  all_goals simp_all [escape?]

theorem length_of_joinLines? {text rest : List Char} (h : joinLines? text = some rest) :
    rest.length ≤ text.length := by
  unfold joinLines? at h
  split at h
  · next r hr =>
    have h1 := length_dropWhile_le isBlank text
    have h2 := length_dropWhile_le isSpace r
    rw [hr] at h1
    simp only [Option.some.injEq] at h
    subst h
    simp only [List.length_cons] at h1
    omega
  · simp at h

private def push (c : Char) (r : List Char × List Char) : List Char × List Char := (c :: r.1, r.2)

/-- Text with escapes up to a double mark. This and the functions below read the characters behind
the opening mark, and answer the text together with what follows the closing mark. -/
def escapedText? : List Char → Option (List Char × List Char)
  | [] => none
  | '\x22' :: rest => some ([], rest)
  | '\\' :: text =>
    match h : escape? text with
    | some (c, rest) =>
      have := length_of_escape? h
      (escapedText? rest).map (push c)
    | none => none
  | c :: text => if isControl c then none else (escapedText? text).map (push c)
termination_by text => text.length

/-- Text with escapes over several lines, up to three double marks. -/
def escapedLines? : List Char → Option (List Char × List Char)
  | [] => none
  | '\x22' :: '\x22' :: '\x22' :: rest => some ([], rest)
  | '\\' :: text =>
    match h : escape? text with
    | some (c, rest) =>
      have := length_of_escape? h
      (escapedLines? rest).map (push c)
    | none =>
      match h' : joinLines? text with
      | some rest =>
        have := length_of_joinLines? h'
        escapedLines? rest
      | none => none
  | c :: text => if isLineControl c then none else (escapedLines? text).map (push c)
termination_by text => text.length

def plainText? : List Char → Option (List Char × List Char)
  | [] => none
  | '\x27' :: rest => some ([], rest)
  | c :: text => if isControl c then none else (plainText? text).map (push c)

/-- Text as it stands over several lines, up to three single marks. -/
def plainLines? : List Char → Option (List Char × List Char)
  | [] => none
  | '\x27' :: '\x27' :: '\x27' :: rest => some ([], rest)
  | c :: text => if isLineControl c then none else (plainLines? text).map (push c)

/-- A line feed right behind three opening marks is no part of the text. -/
def dropFirstLineEnd : List Char → List Char
  | '\n' :: text => text
  | text => text

/-- Up to two marks right before three closing ones belong to the text: they are found behind the
first three that close it. -/
def takeMarks (mark : Char) (r : List Char × List Char) : List Char × List Char :=
  let count := ((r.2.take 2).takeWhile (· == mark)).length
  (r.1 ++ List.replicate count mark, r.2.drop count)

/-- A text that begins at an opening mark, of any of the four kinds. -/
def text? : List Char → Option (List Char × List Char)
  | '\x22' :: '\x22' :: '\x22' :: text =>
    (escapedLines? (dropFirstLineEnd text)).map (takeMarks '\x22')
  | '\x27' :: '\x27' :: '\x27' :: text =>
    (plainLines? (dropFirstLineEnd text)).map (takeMarks '\x27')
  | '\x22' :: text => escapedText? text
  | '\x27' :: text => plainText? text
  | _ => none

def lineText? : List Char → Option (List Char × List Char)
  | '\x22' :: text => escapedText? text
  | '\x27' :: text => plainText? text
  | _ => none

end DocModelLexer.Toml
