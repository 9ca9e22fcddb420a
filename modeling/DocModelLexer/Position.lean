namespace DocModelLexer

/-- A place in a source: its offset is counted from zero, its line and its column from one. -/
structure Position where
  line : Int
  column : Int
  offset : Int
  deriving DecidableEq, Repr, Inhabited

/-- The text from `start` up to, but without, `stop`. -/
structure Span where
  start : Position
  stop : Position
  deriving DecidableEq, Repr, Inhabited

end DocModelLexer
