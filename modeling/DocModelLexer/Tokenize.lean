import DocModelLexer.Grammar.State
import DocModelLexer.LexicalError
import DocModelLexer.Session.Reader

namespace DocModelLexer

inductive TokenizeError where
  | noRoom (bufferSize : Int)
  | lexical (error : LexicalError)
  | fault (fault : Fault)
  | stalled
  deriving DecidableEq, Repr, Inhabited

def TokenizeError.message : TokenizeError → String
  | .noRoom bufferSize => s!"buffer_size must be at least 1, got {bufferSize}"
  | .lexical e => e.text
  | .fault f => f.message
  | .stalled => ReadError.stalled.message

/-- Reads the tokens of a session up to its end or its first error token, at most `count`. -/
def collect {τ : Type} (p : Producer τ) (budget : Nat) (source filename : String) :
    (count : Nat) → Session τ → Except TokenizeError (List Token) × Session τ
  | 0, s => (.error .stalled, s)
  | count + 1, s =>
    match Session.next p budget s with
    | .ok none s => (.ok [], s)
    | .ok (some token) s =>
      if token.isError then (.error (.lexical (.ofToken token source filename)), s)
      else
        let (rest, s) := collect p budget source filename count s
        (rest.map (token :: ·), s)
    | .error (.fault f) s => (.error (.fault f), s)
    | .error _ s => (.error .stalled, s)

/-- Scans a text through a queue with room for `bufferSize` items, and cancels the scan at the
first lexical error. Also answers the notices of the session. -/
def tokenizeNoting (text filename : String) (bufferSize : Int) :
    Except TokenizeError (List Token) × List Notice :=
  let source := Source.ofString text
  let budget := Grammar.budget source
  match Session.new? (Grammar.scan source) bufferSize with
  | none => (.error (.noRoom bufferSize), [])
  | some session =>
    match Session.start Grammar.producer budget session with
    | .error _ s => (.error .stalled, s.notices)
    | .ok () s =>
      let (result, s) := collect Grammar.producer budget text filename (2 * source.size + 2) s
      (result, (s.close Grammar.producer budget).notices)

/-- All tokens of a text, the last of which marks its end. -/
def tokenize (text filename : String) (bufferSize : Int := 2) : Except TokenizeError (List Token) :=
  (tokenizeNoting text filename bufferSize).1

end DocModelLexer
