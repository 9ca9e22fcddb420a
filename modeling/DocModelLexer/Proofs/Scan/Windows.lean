import DocModelLexer.Proofs.Cursor.Order
import DocModelLexer.Proofs.Scan.Advance

namespace DocModelLexer

def Cursor.token (c : Cursor) (type : Int) : Token :=
  ⟨type, String.ofList (c.source.slice c.tokenStart c.position), some c.span⟩

/-- What a state may ask of its scan. -/
inductive Request where
  | call (op : Cursor.Op)
  | emit (type : Int)
  | report (message : String)

namespace Request

/-- The cursor that a request leaves, granted or not. -/
def left (c : Cursor) : Request → Cursor
  | call op => Cursor.left (Cursor.perform op c)
  | emit _ => { c with tokenStart := c.position }
  | report _ => c

def token? (c : Cursor) : Request → Option Token
  | call _ => none
  | emit type => some (c.token type)
  | report message => some ⟨errorType, message, some c.span⟩

def emits : Request → Bool
  | emit _ => true
  | _ => false

def leftBy (requests : List Request) (c : Cursor) : Cursor := requests.foldl left c

/-- The tokens that those of the requests deliver which satisfy `keep`. -/
def tokens (keep : Request → Bool) : List Request → Cursor → List Token
  | [], _ => []
  | r :: requests, c =>
    (if keep r then (r.token? c).toList else []) ++ tokens keep requests (r.left c)

end Request

namespace Scan

variable {σ ν : Type}

def request? (s : Scan σ ν) : Option Request :=
  match s.todo with
  | .call op _ => some (.call op)
  | .emit type _ => some (.emit type)
  | .report message _ => some (.report message)
  | _ => none

/-- What a scan asks for in its first moves, up to its end. -/
def requests (graph : Graph σ ν) : Nat → Scan σ ν → List Request
  | 0, _ => []
  | n + 1, s =>
    s.request?.toList ++
      match move graph s with
      | .quiet t | .emit _ t => requests graph n t
      | .finish _ | .fail .. => []

/-- A scan does to its cursor what it asks for, and delivers the tokens it asks for. -/
theorem run_requests (graph : Graph σ ν) (n : Nat) (s : Scan σ ν) :
    ((move graph).run n s).last.cursor = Request.leftBy (requests graph n s) s.cursor ∧
      ((move graph).run n s).tokens =
        Request.tokens (fun _ => true) (requests graph n s) s.cursor := by
  induction n generalizing s with
  | zero => exact ⟨rfl, rfl⟩
  | succ n ih =>
    obtain ⟨c, d, todo⟩ := s
    cases todo with
    | done next =>
      cases next with
      | none => exact ⟨rfl, rfl⟩
      | some state => exact ih ⟨c, d, graph state⟩
    | load rest => exact ih ⟨c, d, rest d⟩
    | store data rest => exact ih ⟨c, data, rest⟩
    | fail fault => exact ⟨rfl, rfl⟩
    | emit type rest =>
      obtain ⟨hcursor, htokens⟩ := ih ⟨{ c with tokenStart := c.position }, d, rest⟩
      exact ⟨hcursor, congrArg (c.token type :: ·) htokens⟩
    | report message rest =>
      obtain ⟨hcursor, htokens⟩ := ih ⟨c, d, rest⟩
      have hreport := congrArg (Token.mk errorType message (some c.span) :: ·) htokens
      exact ⟨hcursor, hreport⟩
    | call op rest =>
      cases hop : Cursor.perform op c with
      | error fault c' =>
        simp [Producer.run, move, requests, request?, hop, Request.leftBy, Request.tokens,
          Request.left, Request.token?, Cursor.left]
      | ok reply c' =>
        have hlater := ih ⟨c', d, rest reply⟩
        simpa [Producer.run, move, requests, request?, hop, Request.leftBy, Request.tokens,
          Request.left, Request.token?, Cursor.left] using hlater

end Scan

/-- The token holds the stretch of the source from `i` to `j`, and its span tells both places. -/
structure Token.Covers (t : Token) (source : Source) (i j : Nat) : Prop where
  start_le : i ≤ j
  stop_le : j ≤ source.size
  value_eq : t.value = String.ofList (source.slice i j)
  span_eq : t.span = some (source.spanOf i j)

/-- One token ends before the other begins, by their offsets and by their lines and columns. -/
def Token.Precedes (t u : Token) : Prop :=
  ∀ p q, t.span = some p → u.span = some q →
    p.stop.offset ≤ q.start.offset ∧ p.stop.place ≤ q.start.place

theorem Token.Covers.precedes {t u : Token} {source : Source} {i j k l : Nat}
    (ht : t.Covers source i j) (hu : u.Covers source k l) (hjk : j ≤ k) : t.Precedes u := by
  intro p q hp hq
  cases ht.span_eq.symm.trans hp
  cases hu.span_eq.symm.trans hq
  constructor
  · simp only [Source.spanOf, Source.offset_positionAt]
    exact Int.ofNat_le.mpr hjk
  · exact Source.place_le hjk (Nat.le_trans hu.start_le hu.stop_le)

theorem Cursor.Sound.token_covers {c : Cursor} (h : c.Sound) (type : Int) :
    (c.token type).Covers c.source c.tokenStart c.position :=
  ⟨h.start_le, h.position_le, rfl, rfl⟩

namespace Request

variable {c : Cursor}

theorem follows_left (h : c.Sound) (r : Request) : c.Follows (r.left c) := by
  cases r with
  | call op => exact Cursor.steady_perform op c h
  | emit type => exact h.ignored
  | report message => exact .refl h

theorem follows_leftBy (h : c.Sound) (requests : List Request) :
    c.Follows (leftBy requests c) := by
  induction requests generalizing c with
  | nil => exact .refl h
  | cons r requests ih =>
    have hfirst := follows_left h r
    exact hfirst.trans (ih hfirst.sound)

theorem leftBy_append (earlier later : List Request) (c : Cursor) :
    leftBy (earlier ++ later) c = leftBy later (leftBy earlier c) :=
  List.foldl_append

theorem exists_covers_of_mem {t : Token} {requests : List Request} (h : c.Sound)
    (ht : t ∈ tokens emits requests c) :
    ∃ i j, t.Covers c.source i j ∧ c.tokenStart ≤ i ∧ j ≤ (leftBy requests c).tokenStart := by
  -- by induction on the requests; that the window never moves back carries the bound over each
  induction requests generalizing c with
  | nil => cases ht
  | cons r requests ih =>
    have hfirst := follows_left h r
    rcases List.mem_append.mp ht with hnow | hlater
    · cases r with
      | call op => cases hnow
      | report message => cases hnow
      | emit type =>
        cases List.mem_singleton.mp hnow
        refine ⟨c.tokenStart, c.position, h.token_covers type, Nat.le_refl _, ?_⟩
        exact (follows_leftBy hfirst.sound requests).start_le
    · obtain ⟨i, j, hcovers, hi, hj⟩ := ih hfirst.sound hlater
      rw [hfirst.source_eq] at hcovers
      exact ⟨i, j, hcovers, Nat.le_trans hfirst.start_le hi, hj⟩

theorem pairwise_tokens (h : c.Sound) (requests : List Request) :
    (tokens emits requests c).Pairwise Token.Precedes := by
  induction requests generalizing c with
  | nil => exact .nil
  | cons r requests ih =>
    have hfirst := follows_left h r
    have hlater := ih hfirst.sound
    cases r with
    | call op => exact hlater
    | report message => exact hlater
    | emit type =>
      refine .cons ?_ hlater
      intro u hu
      obtain ⟨i, j, hcovers, hi, -⟩ := exists_covers_of_mem hfirst.sound hu
      exact (h.token_covers type).precedes hcovers hi

end Request

/-- The windows that requests make over a source never move back, and those that are emitted do
not overlap. -/
structure Windows (source : Source) (requests : List Request) : Prop where
  forward : ∀ earlier later, requests = earlier ++ later →
    (Request.leftBy earlier { source }).tokenStart ≤
      (Request.leftBy requests { source }).tokenStart
  covers : ∀ t ∈ Request.tokens Request.emits requests { source },
    ∃ i j, t.Covers source i j ∧ (source.positionAt i).place ≤ (source.positionAt j).place
  ordered : (Request.tokens Request.emits requests { source }).Pairwise Token.Precedes

theorem Request.windows (source : Source) (requests : List Request) :
    Windows source requests := by
  have hsound := Cursor.sound_new source
  constructor
  · rintro earlier later rfl
    have hearlier := follows_leftBy hsound earlier
    rw [leftBy_append]
    exact (follows_leftBy hearlier.sound later).start_le
  · intro t ht
    obtain ⟨i, j, hcovers, -, -⟩ := exists_covers_of_mem hsound ht
    exact ⟨i, j, hcovers, Source.place_le hcovers.start_le hcovers.stop_le⟩
  · exact pairwise_tokens hsound requests

/-- What stands before the window cannot be taken back: a scan that goes on behind the fault reads
on where it was. -/
example :
    Request.tokens Request.emits
        [.call .next, .emit 1, .call .backup, .call .next, .emit 2] { source := .ofList ['a', 'b'] } =
      [⟨1, "a", some ⟨⟨1, 1, 0⟩, ⟨1, 2, 1⟩⟩⟩, ⟨2, "b", some ⟨⟨1, 2, 1⟩, ⟨1, 3, 2⟩⟩⟩] := by
  rfl

/-- Whatever is asked for, also behind a fault, the windows never move back and those emitted lie
side by side; and what a scan leaves and delivers, whatever its graph, is what its requests do. -/
theorem windows_of_every_graph (source : Source) :
    (∀ requests, Windows source requests) ∧
    ∀ (σ ν : Type) (graph : Graph σ ν) (data : σ) (state : Option ν) (m n : Nat),
      let s := Scan.start source data state
      let r := (Scan.move graph).run (m + n) s
      let requests := Scan.requests graph (m + n) s
      r.last.cursor = Request.leftBy requests { source } ∧
      r.tokens = Request.tokens (fun _ => true) requests { source } ∧
      ((Scan.move graph).run m s).last.cursor.tokenStart ≤ r.last.cursor.tokenStart := by
  refine ⟨Request.windows source, ?_⟩
  intro σ ν graph data state m n s r requests
  obtain ⟨hcursor, htokens⟩ := Scan.run_requests graph (m + n) s
  have hsound := Scan.sound_run graph source data state m
  exact ⟨hcursor, htokens, (Scan.follows_run (Nat.le_add_right m n) hsound).start_le⟩

end DocModelLexer
