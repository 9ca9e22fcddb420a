namespace DocModelLexer.Grammar

def tabWidth : Nat := 4

/-- The column reached from column `width`; the error is the first character that is not blank. -/
def measureFrom (width : Nat) : List Char → Except Char Nat
  | [] => .ok width
  | c :: cs =>
    if c = ' ' then measureFrom (width + 1) cs
    else if c = '\t' then measureFrom (width + (tabWidth - width % tabWidth)) cs
    else .error c

def measure (blanks : List Char) : Except Char Nat := measureFrom 0 blanks

/-- The widths of the open indentations, innermost first. -/
abbrev Levels := List Int

def Levels.base : Levels := [0]

end DocModelLexer.Grammar
