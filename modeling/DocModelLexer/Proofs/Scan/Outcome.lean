import DocModelLexer.Proofs.Cursor.Window
import DocModelLexer.Scan

namespace DocModelLexer

/-- What an uninterrupted script comes to. -/
structure Script.Outcome (σ α : Type) where
  tokens : List Token
  cursor : Cursor
  data : σ
  result : Except Fault α
  moves : Nat

namespace Script.Outcome

variable {σ α : Type}

def after (tokens : List Token) (moves : Nat) (o : Outcome σ α) : Outcome σ α :=
  { o with tokens := tokens ++ o.tokens, moves := moves + o.moves }

@[simp] theorem after_mk (tokens ts : List Token) (moves m : Nat) (c : Cursor) (d : σ)
    (r : Except Fault α) :
    after tokens moves ⟨ts, c, d, r, m⟩ = ⟨tokens ++ ts, c, d, r, moves + m⟩ := rfl

@[simp] theorem after_nil (o : Outcome σ α) : after [] 0 o = o := by
  simp [after]

@[simp] theorem after_after (tokens ts : List Token) (moves m : Nat) (o : Outcome σ α) :
    after tokens moves (after ts m o) = after (tokens ++ ts) (moves + m) o := by
  simp [after, Nat.add_assoc]

theorem eq_of_after {tokens ts : List Token} {moves m : Nat} {o : Outcome σ α} {c : Cursor} {d : σ}
    {r : Except Fault α} (h : after tokens moves o = ⟨ts, c, d, r, m⟩) :
    ∃ us k, o = ⟨us, c, d, r, k⟩ ∧ ts = tokens ++ us ∧ m = moves + k := by
  cases h
  exact ⟨_, _, rfl, rfl, rfl⟩

end Script.Outcome

def Token.upon (type : Int) (behind pending ahead : List Char) : Token :=
  ⟨type, String.ofList pending, some (Cursor.upon behind pending ahead).span⟩

def Token.errorUpon (message : String) (behind pending ahead : List Char) : Token :=
  ⟨errorType, message, some (Cursor.upon behind pending ahead).span⟩

namespace Script

variable {σ α : Type}

/-- Carries out a script. -/
def exec : Script σ α → Cursor → σ → Outcome σ α
  | done a, c, d => ⟨[], c, d, .ok a, 0⟩
  | call op rest, c, d =>
    match Cursor.perform op c with
    | .ok reply c => ((rest reply).exec c d).after [] 1
    | .error fault c => ⟨[], c, d, .error (.cursor fault), 0⟩
  | load rest, c, d => ((rest d).exec c d).after [] 1
  | store data rest, c, _ => (rest.exec c data).after [] 1
  | emit type rest, c, d =>
    let text := String.ofList (c.source.slice c.tokenStart c.position)
    (rest.exec { c with tokenStart := c.position } d).after [⟨type, text, some c.span⟩] 1
  | report message rest, c, d =>
    (rest.exec c d).after [⟨errorType, message, some c.span⟩] 1
  | fail fault, c, d => ⟨[], c, d, .error fault, 0⟩

theorem bind_done (x : Script σ α) : x.bind done = x := by
  induction x with
  | done a => rfl
  | fail fault => rfl
  | load rest ih => simp only [Script.bind, ih]
  | store data rest ih => simp only [Script.bind, ih]
  | emit type rest ih => simp only [Script.bind, ih]
  | report message rest ih => simp only [Script.bind, ih]
  | call op rest ih => simp only [Script.bind, ih]

/-- A script goes on with `f` from where its first part comes out. -/
theorem exec_bind {β : Type} {x : Script σ α} {f : α → Script σ β} {c c' : Cursor} {d d' : σ}
    {tokens : List Token} {a : α} {m : Nat} (h : x.exec c d = ⟨tokens, c', d', .ok a, m⟩) :
    (x >>= f).exec c d = ((f a).exec c' d').after tokens m := by
  change (x.bind f).exec c d = _
  induction x generalizing c d tokens m with
  | done b =>
    cases h
    simp [Script.bind]
  | fail fault => cases h
  | load rest ih =>
    obtain ⟨us, k, ho, rfl, rfl⟩ := Outcome.eq_of_after h
    rw [Script.bind, exec, ih d ho, Outcome.after_after, List.nil_append]
  | store data rest ih =>
    obtain ⟨us, k, ho, rfl, rfl⟩ := Outcome.eq_of_after h
    rw [Script.bind, exec, ih ho, Outcome.after_after, List.nil_append]
  | emit type rest ih =>
    obtain ⟨us, k, ho, rfl, rfl⟩ := Outcome.eq_of_after h
    rw [Script.bind, exec, ih ho, Outcome.after_after]
  | report message rest ih =>
    obtain ⟨us, k, ho, rfl, rfl⟩ := Outcome.eq_of_after h
    rw [Script.bind, exec, ih ho, Outcome.after_after]
  | call op rest ih =>
    rw [exec] at h
    cases hop : Cursor.perform op c with
    | error fault c' => simp [hop] at h
    | ok reply cop =>
      simp only [hop] at h
      obtain ⟨us, k, ho, rfl, rfl⟩ := Outcome.eq_of_after h
      rw [Script.bind, exec, hop]
      simp only [ih reply ho, Outcome.after_after, List.nil_append]

section

variable {behind pending ahead : List Char} {e : Bool} {d : σ}

@[simp] theorem exec_pure (a : α) (c : Cursor) :
    (pure a : Script σ α).exec c d = ⟨[], c, d, .ok a, 0⟩ := rfl

theorem exec_call {op : Cursor.Op} {f : op.Reply → Script σ α} {c c' : Cursor} {reply : op.Reply}
    (h : Cursor.perform op c = .ok reply c') :
    (perform op >>= f).exec c d = ((f reply).exec c' d).after [] 1 := by
  have hbind : (perform op >>= f) = call op f := rfl
  rw [hbind, exec, h]

@[simp] theorem exec_next_cons (c : Char) (f : Option Char → Script σ α) :
    (next >>= f).exec (.upon behind pending (c :: ahead)) d =
      ((f (some c)).exec (.upon behind (pending ++ [c]) ahead) d).after [] 1 :=
  exec_call (Cursor.next_upon_cons c)

@[simp] theorem exec_next_nil (f : Option Char → Script σ α) :
    (next >>= f).exec (.upon behind pending []) d =
      ((f none).exec (.upon behind pending [] true) d).after [] 1 :=
  exec_call Cursor.next_upon_nil

@[simp] theorem exec_peek (f : Option Char → Script σ α) :
    (peek >>= f).exec (.upon behind pending ahead) d =
      ((f ahead.head?).exec (.upon behind pending ahead) d).after [] 1 :=
  exec_call Cursor.peek_upon

@[simp] theorem exec_acceptWhile (p : Char → Bool) (f : Unit → Script σ α) :
    (acceptWhile p >>= f).exec (.upon behind pending ahead) d =
      ((f ()).exec (.upon behind (pending ++ ahead.takeWhile p) (ahead.dropWhile p))
        d).after [] 1 :=
  exec_call (Cursor.acceptWhile_upon p)

@[simp] theorem exec_acceptRun (chars : List Char) (f : Unit → Script σ α) :
    (acceptRun chars >>= f).exec (.upon behind pending ahead) d =
      ((f ()).exec (.upon behind (pending ++ ahead.takeWhile (· ∈ chars))
        (ahead.dropWhile (· ∈ chars))) d).after [] 1 :=
  exec_call (Cursor.acceptWhile_upon (· ∈ chars))

def staysBefore (chars : List Char) (c : Char) : Bool := c ∉ chars ∧ c ≠ '\n' ∧ c ≠ '\x00'

@[simp] theorem exec_acceptTo (chars : List Char) (f : Unit → Script σ α) :
    (acceptTo chars >>= f).exec (.upon behind pending ahead) d =
      ((f ()).exec (.upon behind (pending ++ ahead.takeWhile (staysBefore chars))
        (ahead.dropWhile (staysBefore chars))) d).after [] 1 :=
  exec_call (Cursor.acceptWhile_upon (staysBefore chars))

@[simp] theorem exec_lookingAt (text : List Char) (f : Bool → Script σ α) :
    (lookingAt text >>= f).exec (.upon behind pending ahead) d =
      ((f (ahead.take text.length == text)).exec (.upon behind pending ahead) d).after [] 1 :=
  exec_call (Cursor.lookingAt_upon text)

@[simp] theorem exec_current (f : List Char → Script σ α) :
    (current >>= f).exec (.upon behind pending ahead e) d =
      ((f pending).exec (.upon behind pending ahead e) d).after [] 1 :=
  exec_call Cursor.current_upon

@[simp] theorem exec_ignore (f : Unit → Script σ α) :
    (ignore >>= f).exec (.upon behind pending ahead e) d =
      ((f ()).exec (.upon (behind ++ pending) [] ahead e) d).after [] 1 :=
  exec_call Cursor.ignore_upon

@[simp] theorem exec_get (f : σ → Script σ α) (c : Cursor) :
    (get >>= f).exec c d = ((f d).exec c d).after [] 1 := rfl

@[simp] theorem exec_set (data : σ) (f : Unit → Script σ α) (c : Cursor) :
    (set data >>= f).exec c d = ((f ()).exec c data).after [] 1 := rfl

@[simp] theorem exec_deliver (type : Int) (f : Unit → Script σ α) :
    (deliver type >>= f).exec (.upon behind pending ahead e) d =
      ((f ()).exec (.upon (behind ++ pending) [] ahead e) d).after
        [.upon type behind pending ahead] 1 := by
  change Outcome.after [_] 1 ((f ()).exec { Cursor.upon behind pending ahead e with
    tokenStart := behind.length + pending.length } d) = _
  congr 2
  · simp [Token.upon, Cursor.upon, Cursor.span, Source.slice_eq]
  · simp [Cursor.upon]

@[simp] theorem exec_complain (message : String) (f : Unit → Script σ α) :
    (complain message >>= f).exec (.upon behind pending ahead e) d =
      ((f ()).exec (.upon behind pending ahead e) d).after
        [.errorUpon message behind pending ahead] 1 := rfl

end

end Script

end DocModelLexer
