import DocModelLexer.Token

namespace DocModelLexer.Grammar

inductive Kind where
  | indent
  | dedent
  | equals
  | opening
  | closing
  /-- One of `,`, `|` and `&`. -/
  | separator
  /-- One of `*`, `+` and `?`. -/
  | multiplicity
  | identifier
  | quote
  | reference
  /-- A number sign with capital letters. -/
  | directive
  /-- A number sign with any other text. -/
  | comment
  | eof
  deriving DecidableEq, Repr, Inhabited

namespace Kind

def all : List Kind :=
  [indent, dedent, equals, opening, closing, separator, multiplicity, identifier, quote,
    reference, directive, comment, eof]

def type : Kind → Int
  | indent => 1
  | dedent => 2
  | equals => 3
  | opening => 4
  | closing => 5
  | separator => 6
  | multiplicity => 7
  | identifier => 8
  | quote => 9
  | reference => 10
  | directive => 11
  | comment => 12
  | eof => 13

def name : Kind → String
  | indent => "indentTok"
  | dedent => "dedentTok"
  | equals => "equalsTok"
  | opening => "openTok"
  | closing => "closeTok"
  | separator => "separatorTok"
  | multiplicity => "multiplicityTok"
  | identifier => "identifierTok"
  | quote => "quoteTok"
  | reference => "referenceTok"
  | directive => "directiveTok"
  | comment => "commentTok"
  | eof => "eofTok"

def ofChar? (c : Char) : Option Kind :=
  match c with
  | '=' => some equals
  | '(' => some opening
  | ')' => some closing
  | ',' | '|' | '&' => some separator
  | '*' | '+' | '?' => some multiplicity
  | _ => none

end Kind

def names : TokenNames := .ofList (Kind.all.map fun kind => (kind.type, kind.name))

end DocModelLexer.Grammar
