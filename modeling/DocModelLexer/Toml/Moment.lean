import DocModelLexer.Toml.Number

namespace DocModelLexer.Toml

def fixedDigits? (count : Nat) (text : List Char) : Option (Nat × List Char) := do
  let digits ← (text.take count).mapM (digitBelow? 10)
  if digits.length = count then
    some (Text.ofDigits 10 digits, text.drop count)
  else none

def twoDigits? (low high : Nat) (text : List Char) : Option (Nat × List Char) := do
  let (n, rest) ← fixedDigits? 2 text
  if low ≤ n ∧ n ≤ high then some (n, rest) else none

def afterChar? (c : Char) : List Char → Option (List Char)
  | first :: rest => if first = c then some rest else none
  | [] => none

/-- A date by its form: it may name a day that its month does not have. -/
def date? (text : List Char) : Option (Date × List Char) := do
  let (year, text) ← fixedDigits? 4 text
  let (month, text) ← twoDigits? 1 12 (← afterChar? '-' text)
  let (day, text) ← twoDigits? 1 31 (← afterChar? '-' text)
  return (⟨year, month, day⟩, text)

def time? (text : List Char) : Option (Time × List Char) := do
  let (hour, text) ← twoDigits? 0 23 text
  let (minute, text) ← twoDigits? 0 59 (← afterChar? ':' text)
  let (second, text) ← twoDigits? 0 59 (← afterChar? ':' text)
  match text with
  | '.' :: behind =>
    match (behind.takeWhile fun c => (digitBelow? 10 c).isSome).filterMap (digitBelow? 10) with
    | [] => return (⟨hour, minute, second, []⟩, text)
    | digits => return (⟨hour, minute, second, digits⟩, behind.drop digits.length)
  | _ => return (⟨hour, minute, second, []⟩, text)

def offset? : List Char → Option (Int × List Char)
  | 'Z' :: rest | 'z' :: rest => some (0, rest)
  | c :: text =>
    if c = '+' ∨ c = '-' then do
      let (hours, text) ← twoDigits? 0 23 text
      let (minutes, text) ← twoDigits? 0 59 (← afterChar? ':' text)
      let total : Int := hours * 60 + minutes
      return (if c = '-' then -total else total, text)
    else none
  | [] => none

def isLeap (year : Nat) : Bool := year % 4 == 0 && (year % 100 != 0 || year % 400 == 0)

def daysIn (year month : Nat) : Nat :=
  if month = 2 then if isLeap year then 29 else 28
  else if month ∈ [4, 6, 9, 11] then 30
  else 31

/-- Whether the calendar has the date; its first year is the year 1. -/
def Date.exists (d : Date) : Bool := 1 ≤ d.year && d.day ≤ daysIn d.year d.month

/-- The time of day behind a date, with a letter or a blank between the two. -/
def timeBehind? : List Char → Option ((Time × Option Int) × List Char)
  | c :: text =>
    if c = 'T' ∨ c = 't' ∨ c = ' ' then do
      let (time, rest) ← time? text
      match offset? rest with
      | some (offset, rest) => return ((time, some offset), rest)
      | none => return ((time, none), rest)
    else none
  | [] => none

/-- A moment of any kind. A date that does not exist makes the document malformed. -/
def moment? (text : List Char) : Option (Except Error Moment × List Char) :=
  match date? text with
  | some (date, rest) =>
    let (moment, rest) := match timeBehind? rest with
      | some ((time, offset), rest) => (Moment.dateTime date time offset, rest)
      | none => (Moment.date date, rest)
    some (if date.exists then .ok moment else .error .malformed, rest)
  | none => (time? text).map fun (time, rest) => (.ok (.time time), rest)

end DocModelLexer.Toml
