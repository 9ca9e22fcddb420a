import DocModelLexer.Grammar.State
import DocModelLexer.Text.Split

namespace DocModelLexer.Grammar

inductive Lexeme where
  | token (kind : Kind) (text : List Char)
  | error (error : Error)
  deriving DecidableEq, Repr, Inhabited

namespace Lexeme

def typeAndValue : Lexeme → Int × String
  | token kind text => (kind.type, String.ofList text)
  | error e => (errorType, e.message)

def isError : Lexeme → Bool
  | token .. => false
  | error _ => true

end Lexeme

def isBlank (c : Char) : Bool := c ∈ blanks

def isNoNul (c : Char) : Bool := c != '\x00'

/-- Quoted text behind its opening mark, up to a closing mark on the same line. -/
def quoteLexeme (mark : Char) (text : List Char) : Lexeme × List Char :=
  let body := text.takeWhile fun c => c != mark && isNoNul c
  match text.drop body.length with
  | [] => (.error (.runawayQuote body), [])
  | c :: rest => (if c = mark then .token .quote body else .error (.runawayQuote body), rest)

def signLexeme (text : List Char) : Lexeme × List Char :=
  match text.takeWhile (· ∈ capitals) with
  | [] => (.token .comment ('#' :: text.takeWhile isNoNul), text.dropWhile isNoNul)
  | letters => (.token .directive ('#' :: letters), text.dropWhile (· ∈ capitals))

/-- A point with the points behind it; there must be three of them. -/
def pointLexeme (text : List Char) : Lexeme × List Char :=
  let points := '.' :: text.takeWhile (· == '.')
  (if points.length = 3 then .token .reference points else .error (.malformedReference points),
    text.dropWhile (· == '.'))

/-- The lexeme that begins with `c`, which is no blank, and the rest of the line. -/
def lexemeAt (c : Char) (text : List Char) : Lexeme × List Char :=
  match Kind.ofChar? c with
  | some kind => (.token kind [c], text)
  | none =>
    if c = '\x22' ∨ c = '\x27' then quoteLexeme c text
    else if c = '#' then signLexeme text
    else if c = '.' then pointLexeme text
    else if isNameStart c then
      (.token .identifier (c :: text.takeWhile isNameChar), text.dropWhile isNameChar)
    else (.error (.unexpected c), text)

private theorem length_dropWhile_le (p : Char → Bool) (text : List Char) :
    (text.dropWhile p).length ≤ text.length :=
  (List.dropWhile_suffix p).length_le

private theorem length_quoteLexeme_le (mark : Char) (text : List Char) :
    (quoteLexeme mark text).2.length ≤ text.length := by
  simp only [quoteLexeme]
  split
  · simp
  · rename_i c rest h
    have := congrArg List.length h
    simp only [List.length_drop, List.length_cons] at this
    simp only
    omega

private theorem length_signLexeme_le (text : List Char) :
    (signLexeme text).2.length ≤ text.length := by
  unfold signLexeme
  split <;> exact length_dropWhile_le _ _

theorem length_lexemeAt_le (c : Char) (text : List Char) :
    (lexemeAt c text).2.length ≤ text.length := by
  unfold lexemeAt
  split
  · simp
  · split
    · exact length_quoteLexeme_le c text
    · split
      · exact length_signLexeme_le text
      · split
        · exact length_dropWhile_le _ _
        · split
          · exact length_dropWhile_le _ _
          · simp

/-- The lexemes of the rest of a line, up to an error. -/
def lexemesOf : List Char → List Lexeme
  | [] => []
  | c :: text =>
    if isBlank c then lexemesOf text
    else
      have := length_lexemeAt_le c text
      let lexeme := lexemeAt c text
      if lexeme.1.isError then [lexeme.1] else lexeme.1 :: lexemesOf lexeme.2
termination_by text => text.length

def widthOf (text : List Char) : Int :=
  match measure text with
  | .ok width => width
  | .error _ => 0

/-- The lexemes that leading blanks give over the open indentations, and the indentations that
are open behind them. Of several closed ones the first carries the blanks. -/
def indentLexemes (lead : List Char) (levels : Levels) : List Lexeme × Levels :=
  let width := widthOf lead
  match levels with
  | [] => ([], [])
  | top :: _ =>
    if width = top then ([], levels)
    else if top < width then ([.token .indent lead], width :: levels)
    else
      let closed := levels.takeWhile (width < ·)
      let left := levels.dropWhile (width < ·)
      let dedents := closed.zipIdx.map fun (_, i) =>
        Lexeme.token .dedent (if i = 0 then lead else [])
      match left with
      | [] => (dedents, left)
      | level :: _ =>
        if level = width then (dedents, left)
        else (dedents ++ [.error (.inconsistentDedent level width)], left)

def lineLexemes (line : List Char) (levels : Levels) : List Lexeme × Levels :=
  let (indents, levels) := indentLexemes (line.takeWhile isBlank) levels
  if indents.any (·.isError) then (indents, levels)
  else (indents ++ lexemesOf (line.dropWhile isBlank), levels)

/-- The lexemes of lines in order. A line of blanks alone gives none, unless it is the last; the
last line closes what is open. -/
def linesLexemes : List (List Char) → Levels → List Lexeme
  | [], _ => []
  | [line], levels =>
    let (lexemes, levels) := lineLexemes line levels
    if lexemes.any (·.isError) then lexemes
    else lexemes ++ (indentLexemes [] levels).1 ++ [.token .eof []]
  | line :: lines, levels =>
    if line.all isBlank then linesLexemes lines levels
    else
      let (lexemes, levels) := lineLexemes line levels
      if lexemes.any (·.isError) then lexemes else lexemes ++ linesLexemes lines levels

def lexemes (text : List Char) : List Lexeme :=
  linesLexemes (Text.splitOn '\n' text) Levels.base

end DocModelLexer.Grammar
