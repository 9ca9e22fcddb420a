namespace DocModelLexer.Text

def lineBreaks : List Char :=
  ['\n', '\r', '\x0b', '\x0c', '\x1c', '\x1d', '\x1e', '\u0085', '\u2028', '\u2029']

/-- The lines of a text as a terminal shows them, each with the characters that end it. A carriage
return and a line feed together end one line. -/
def displayLines : List Char → List (List Char)
  | [] => []
  | '\r' :: '\n' :: cs => ['\r', '\n'] :: displayLines cs
  | c :: cs =>
    if c ∈ lineBreaks then [c] :: displayLines cs
    else
      match displayLines cs with
      | [] => [[c]]
      | line :: lines => (c :: line) :: lines

def dropTrailing (c : Char) (text : List Char) : List Char :=
  (text.reverse.dropWhile (· == c)).reverse

theorem flatten_displayLines (text : List Char) : (displayLines text).flatten = text := by
  fun_induction displayLines text with
  | case1 => rfl
  | case2 cs ih => simp [ih]
  | case3 c cs _ _ ih => simp [ih]
  | case4 c cs _ _ h ih => simpa [h] using ih
  | case5 c cs _ _ line lines h ih => simpa [h] using ih

end DocModelLexer.Text
