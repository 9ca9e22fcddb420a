import DocModelLexer.Proofs.Cursor.Displacement
import DocModelLexer.Proofs.Grammar.Lexemes

namespace DocModelLexer

open Text (ended)

variable {lines : List (List Char)} {behind pending lead text ahead : List Char}

theorem Token.moved_upon (hlines : ∀ line ∈ lines, '\n' ∉ line) (type : Int) :
    (upon type behind pending ahead).moved lines.length (ended lines).length =
      upon type (ended lines ++ behind) pending ahead := by
  simp [upon, moved, Cursor.span_upon_lines hlines]

theorem Token.moved_errorUpon (hlines : ∀ line ∈ lines, '\n' ∉ line) (message : String) :
    (errorUpon message behind pending ahead).moved lines.length (ended lines).length =
      errorUpon message (ended lines ++ behind) pending ahead := by
  simp [errorUpon, moved, Cursor.span_upon_lines hlines]

def Pause.after {σ ν : Type} (before : List Char) (x : Pause σ ν) : Pause σ ν :=
  { x with cursor := x.cursor.after before }

theorem Pause.after_upon {σ ν : Type} (before : List Char) (d : σ) (next : Option ν) (e : Bool) :
    Pause.after before ⟨.upon behind pending ahead e, d, next⟩ =
      ⟨.upon (before ++ behind) pending ahead e, d, next⟩ := by
  rw [Pause.after, Cursor.after_upon]

theorem Token.upon_ahead (type : Int) (behind pending ahead ahead' : List Char) :
    upon type behind pending ahead = upon type behind pending ahead' := by
  rw [upon, upon, Cursor.span_upon_ahead behind pending ahead ahead']

theorem Token.errorUpon_ahead (message : String) (behind pending ahead ahead' : List Char) :
    errorUpon message behind pending ahead = errorUpon message behind pending ahead' := by
  rw [errorUpon, errorUpon, Cursor.span_upon_ahead behind pending ahead ahead']

namespace Grammar

open Pause (Leads)

variable {state : State} {levels levels' : Levels} {ts : List Token} {next : Option State}
  {x y : Pause Levels State}

theorem dedents_lines (hlines : ∀ line ∈ lines, '\n' ∉ line) (n : Nat) :
    (dedents behind lead ahead n).map (Token.moved lines.length (ended lines).length) =
      dedents (ended lines ++ behind) lead ahead n := by
  induction n generalizing behind lead with
  | zero => rfl
  | succ n ih => simp [dedents, Token.moved_upon hlines, ih]

theorem Indents.after_lines (h : Indents behind lead ahead levels ts levels' next)
    (hlines : ∀ line ∈ lines, '\n' ∉ line) :
    Indents (ended lines ++ behind) lead ahead levels
      (ts.map (Token.moved lines.length (ended lines).length)) levels' next := by
  cases h with
  | same hn => exact .same hn
  | opens hn hlt =>
    rw [List.map_singleton, Token.moved_upon hlines]
    exact .opens hn hlt
  | closes hn hne hclosed =>
    rw [dedents_lines hlines]
    exact .closes hn hne hclosed
  | inconsistent hn hne hclosed hlt =>
    rw [List.map_append, dedents_lines hlines, List.map_singleton, Token.moved_errorUpon hlines,
      ← List.append_assoc]
    exact .inconsistent hn hne hclosed hlt

/-- No state looks behind its window, so whole lines there move its tokens and nothing else. -/
theorem Turn.after_lines (h : Turn state behind pending ahead levels ts y)
    (hlines : ∀ line ∈ lines, '\n' ∉ line) :
    Turn state (ended lines ++ behind) pending ahead levels
      (ts.map (Token.moved lines.length (ended lines).length)) (y.after (ended lines)) := by
  cases h with
  | blankLine hrest =>
    rw [Pause.after_upon, ← List.append_assoc]
    exact .blankLine hrest
  | line hline hindents =>
    rw [Pause.after_upon, ← List.append_assoc, ← List.append_assoc]
    refine .line hline ?_
    rw [List.append_assoc]
    exact hindents.after_lines hlines
  | measured hindents =>
    rw [Pause.after_upon, ← List.append_assoc]
    exact .measured (hindents.after_lines hlines)
  | blank hc =>
    rw [Pause.after_upon, ← List.append_assoc]
    exact .blank hc
  | lineEnd =>
    rw [Pause.after_upon]
    exact .lineEnd
  | single hkind =>
    rw [Pause.after_upon, ← List.append_assoc, List.map_singleton, Token.moved_upon hlines]
    exact .single hkind
  | enters henters =>
    rw [Pause.after_upon]
    exact .enters henters
  | unexpected hplain hstart =>
    rw [Pause.after_upon, List.map_singleton, Token.moved_errorUpon hlines]
    exact .unexpected hplain hstart
  | eof hindents =>
    rw [Pause.after_upon, List.map_append, List.map_singleton, Token.moved_upon hlines]
    exact .eof (hindents.after_lines hlines)
  | badEnd hindents =>
    rw [Pause.after_upon]
    exact .badEnd (hindents.after_lines hlines)
  | quoted hquote hrest =>
    rw [Pause.after_upon, List.map_singleton, Token.moved_upon hlines]
    simp only [← List.append_assoc]
    exact .quoted hquote hrest
  | runaway hquote hrest =>
    rw [Pause.after_upon, List.map_singleton, Token.moved_errorUpon hlines]
    simp only [← List.append_assoc]
    exact .runaway hquote hrest
  | word hword =>
    rw [Pause.after_upon, List.map_singleton, Token.moved_upon hlines, ← List.append_assoc]
    exact .word hword
  | ellipsis hdots =>
    rw [Pause.after_upon, List.map_singleton, Token.moved_upon hlines, ← List.append_assoc]
    exact .ellipsis hdots
  | malformed hdots =>
    rw [Pause.after_upon, List.map_singleton, Token.moved_errorUpon hlines]
    exact .malformed hdots

theorem leads_after_lines {m : Nat} (h : Leads graph x ts m y) (hfits : Fits x)
    (hlines : ∀ line ∈ lines, '\n' ∉ line) :
    ∃ k, Leads graph (x.after (ended lines))
      (ts.map (Token.moved lines.length (ended lines).length)) k (y.after (ended lines)) := by
  induction h with
  | refl => exact ⟨0, .refl _⟩
  | call hexec _ ih =>
    obtain ⟨behind, pending, ahead, hcursor, htakes⟩ := hfits.2 _ rfl
    simp only at hcursor
    subst hcursor
    have hturn := turn_of_exec htakes hfits.1 hexec
    obtain ⟨k, hlater⟩ := ih (hturn.fits hfits.1)
    obtain ⟨j, hcall, -⟩ := (hturn.after_lines hlines).exec
    rw [Pause.after_upon, List.map_append]
    exact ⟨_, .call hcall hlater⟩

theorem dedents_ahead (behind lead ahead ahead' : List Char) (n : Nat) :
    dedents behind lead ahead n = dedents behind lead ahead' n := by
  induction n generalizing behind lead with
  | zero => rfl
  | succ n ih => rw [dedents, dedents, Token.upon_ahead _ _ _ ahead ahead', ih]

theorem Indents.before {ahead : List Char} (h : Indents behind lead ahead levels ts levels' next)
    (ahead' : List Char) : Indents behind lead ahead' levels ts levels' next := by
  cases h with
  | same hn => exact .same hn
  | opens hn hlt =>
    rw [Token.upon_ahead _ _ _ ahead ahead']
    exact .opens hn hlt
  | closes hn hne hclosed =>
    rw [dedents_ahead _ _ ahead ahead']
    exact .closes hn hne hclosed
  | inconsistent hn hne hclosed hlt =>
    rw [dedents_ahead _ _ ahead ahead', Token.errorUpon_ahead _ _ _ ahead ahead']
    exact .inconsistent hn hne hclosed hlt

/-- A pause over a text of which no more is known than what stands before one of its line feeds:
within that known text, or behind the line feed and before the line that follows. -/
inductive Front where
  | within (behind pending text : List Char) (levels : Levels) (next : Option State)
  | past (behind pending : List Char) (levels : Levels)

namespace Front

def pause (rest : List Char) : Front → Pause Levels State
  | within behind pending text levels next =>
    ⟨.upon behind pending (text ++ '\n' :: rest), levels, next⟩
  | past behind pending levels => ⟨.upon behind (pending ++ ['\n']) rest, levels, some .newline⟩

def known : Front → List Char
  | within behind pending text _ _ => behind ++ pending ++ text
  | past behind pending _ => behind ++ pending

end Front

theorem Enters.of_feed {c : Char} {rest : List Char} (h : Enters (text ++ '\n' :: rest) c state)
    (rest' : List Char) : Enters (text ++ '\n' :: rest') c state := by
  have hhead : (text ++ '\n' :: rest).head? = (text ++ '\n' :: rest').head? := by
    cases text <;> rfl
  cases h with
  | doubleQuote => exact .doubleQuote
  | singleQuote => exact .singleQuote
  | reference => exact .reference
  | directive hd hcap => exact .directive (hhead ▸ hd) hcap
  | comment hcap => exact .comment (hhead ▸ hcap)
  | identifier hplain hstart => exact .identifier hplain hstart

theorem Word.lineFeed {p : Char → Bool} {kind : Kind} (h : Word state p kind) : p '\n' = false := by
  cases h with
  | directive => decide
  | comment => simp [Script.staysBefore]
  | identifier => decide

theorem EndsLine.lineFeed (rest : List Char) : EndsLine ('\n' :: rest) := by
  rintro c ⟨⟩
  rfl

/-- A call before a line feed does the same whatever stands behind the line feed. -/
def Blind (state : State) (behind pending text : List Char) (levels : Levels) : Prop :=
  ∃ (ts : List Token) (z : Front), z.known = behind ++ pending ++ text ∧
    ∀ rest, Turn state behind pending (text ++ '\n' :: rest) levels ts (z.pause rest)

theorem exists_run (p : Char → Bool) (hp : p '\n' = false) (text : List Char) :
    ∃ run left, run ++ left = text ∧ (∀ c ∈ run, p c = true) ∧ ∀ rest,
      (text ++ '\n' :: rest).takeWhile p = run ∧
        (text ++ '\n' :: rest).dropWhile p = left ++ '\n' :: rest := by
  refine ⟨text.takeWhile p, text.dropWhile p, List.takeWhile_append_dropWhile,
    fun c hc => List.mem_takeWhile_imp hc, fun rest => ?_⟩
  exact ⟨takeWhile_line p text hp (.lineFeed rest), dropWhile_line p text hp (.lineFeed rest)⟩

section

variable (behind pending text : List Char) (levels : Levels)

theorem blind_newline (hbase : 0 ∈ levels) : Blind .newline behind pending text levels := by
  obtain ⟨lead, left, rfl, hlead, hrun⟩ := exists_run isBlank rfl text
  cases left with
  | nil =>
    refine ⟨[], .past (behind ++ pending) lead levels, by simp [Front.known], fun rest => ?_⟩
    obtain ⟨htake, hdrop⟩ := hrun rest
    have hturn := @Turn.blankLine behind pending _ _ levels hdrop
    rwa [htake] at hturn
  | cons c left =>
    by_cases hc : c = '\n'
    · subst hc
      refine ⟨[], .within (behind ++ pending) (lead ++ ['\n']) left levels (some .newline),
        by simp [Front.known], fun rest => ?_⟩
      obtain ⟨htake, hdrop⟩ := hrun rest
      have hturn := @Turn.blankLine behind pending _ _ levels hdrop
      rwa [htake] at hturn
    · obtain ⟨ts, levels', next, hindents⟩ := indents_total (behind ++ pending) [] hlead hbase
      refine ⟨ts, .within (behind ++ pending ++ lead) [] (c :: left) levels' next,
        by simp [Front.known], fun rest => ?_⟩
      obtain ⟨htake, hdrop⟩ := hrun rest
      have hturn : Turn .newline behind pending (lead ++ c :: left ++ '\n' :: rest) levels ts _ :=
        .line (by rw [hdrop]; simpa using hc) (by rw [htake]; exact hindents.before _)
      rwa [htake, hdrop] at hturn

theorem blind_outer : Blind .outer behind [] text levels := by
  cases text with
  | nil => exact ⟨[], .past behind [] levels, by simp [Front.known], fun rest => .lineEnd⟩
  | cons c text =>
    have hknown : behind ++ [c] ++ text = behind ++ [] ++ c :: text := by simp
    obtain ⟨ts, y, hturn⟩ : ∃ ts y, Turn .outer behind [] (c :: (text ++ ['\n'])) levels ts y :=
      turn_outer_cons c
    cases hturn with
    | blank hc =>
      exact ⟨[], .within (behind ++ [c]) [] text levels (some .outer), by simp [Front.known],
        fun rest => .blank hc⟩
    | lineEnd =>
      exact ⟨[], .within behind ['\n'] text levels (some .newline), hknown, fun rest => .lineEnd⟩
    | @single _ _ _ _ kind hkind =>
      refine ⟨[.upon kind.type behind [c] []], .within (behind ++ [c]) [] text levels (some .outer),
        by simp [Front.known], fun rest => ?_⟩
      rw [Token.upon_ahead _ _ _ [] (text ++ '\n' :: rest)]
      exact .single hkind
    | @enters _ _ _ _ state henters =>
      exact ⟨[], .within behind [c] text levels (some state), hknown,
        fun rest => .enters (henters.of_feed rest)⟩
    | unexpected hplain hstart =>
      refine ⟨[.errorUpon (Error.unexpected c).message behind [c] []],
        .within behind [c] text levels none, hknown, fun rest => ?_⟩
      rw [Token.errorUpon_ahead _ _ _ [] (text ++ '\n' :: rest)]
      exact .unexpected hplain hstart
    | quoted hquote => cases hquote
    | runaway hquote => cases hquote
    | word hword => cases hword

theorem blind_quote {mark : Char} (hquote : Quote state mark) :
    Blind state behind pending text levels := by
  have hp : Script.staysBefore [mark] '\n' = false := by simp [Script.staysBefore]
  have hmark : mark ≠ '\n' := by cases hquote <;> decide
  obtain ⟨body, left, rfl, -, hrun⟩ := exists_run _ hp text
  by_cases hclosed : left.head? = some mark
  · obtain ⟨later, rfl⟩ := List.head?_eq_some_iff.mp hclosed
    refine ⟨[.upon Kind.quote.type (behind ++ pending) body []],
      .within (behind ++ pending ++ body ++ [mark]) [] later levels (some .outer),
      by simp [Front.known], fun rest => ?_⟩
    obtain ⟨htake, hdrop⟩ := hrun rest
    have hturn : Turn state behind pending (body ++ mark :: later ++ '\n' :: rest) levels _ _ :=
      .quoted hquote hdrop
    rwa [htake, Token.upon_ahead _ _ _ _ []] at hturn
  · refine ⟨[.errorUpon (Error.runawayQuote body).message (behind ++ pending) body []],
      .within (behind ++ pending) body left levels none, by simp [Front.known], fun rest => ?_⟩
    obtain ⟨htake, hdrop⟩ := hrun rest
    have hstop : (left ++ '\n' :: rest).head? ≠ some mark := by
      cases left with
      | nil => simpa using hmark.symm
      | cons c left => exact hclosed
    have hturn : Turn state behind pending (body ++ left ++ '\n' :: rest) levels _ _ :=
      .runaway hquote (by rwa [hdrop])
    rwa [htake, hdrop, Token.errorUpon_ahead _ _ _ _ []] at hturn

theorem blind_word {p : Char → Bool} {kind : Kind} (hword : Word state p kind) :
    Blind state behind pending text levels := by
  obtain ⟨run, left, rfl, -, hrun⟩ := exists_run p hword.lineFeed text
  refine ⟨[.upon kind.type behind (pending ++ run) []],
    .within (behind ++ (pending ++ run)) [] left levels (some .outer), by simp [Front.known],
    fun rest => ?_⟩
  obtain ⟨htake, hdrop⟩ := hrun rest
  have hturn : Turn state behind pending (run ++ left ++ '\n' :: rest) levels _ _ := .word hword
  rwa [htake, hdrop, Token.upon_ahead _ _ _ _ []] at hturn

theorem blind_reference : Blind .reference behind pending text levels := by
  obtain ⟨points, left, rfl, -, hrun⟩ := exists_run (· == '.') rfl text
  by_cases hdots : pending ++ points = ['.', '.', '.']
  · refine ⟨[.upon Kind.reference.type behind (pending ++ points) []],
      .within (behind ++ (pending ++ points)) [] left levels (some .outer), by simp [Front.known],
      fun rest => ?_⟩
    obtain ⟨htake, hdrop⟩ := hrun rest
    have hturn : Turn .reference behind pending (points ++ left ++ '\n' :: rest) levels _ _ :=
      .ellipsis (by rwa [htake])
    rwa [htake, hdrop, Token.upon_ahead _ _ _ _ []] at hturn
  · refine ⟨[.errorUpon (Error.malformedReference (pending ++ points)).message behind
        (pending ++ points) []],
      .within behind (pending ++ points) left levels none, by simp [Front.known], fun rest => ?_⟩
    obtain ⟨htake, hdrop⟩ := hrun rest
    have hturn : Turn .reference behind pending (points ++ left ++ '\n' :: rest) levels _ _ :=
      .malformed (by rwa [htake])
    rwa [htake, hdrop, Token.errorUpon_ahead _ _ _ _ []] at hturn

end

theorem blind_of_takes (behind text : List Char) (htakes : state.Takes pending)
    (hbase : 0 ∈ levels) : Blind state behind pending text levels := by
  cases state with
  | newline => exact blind_newline behind pending text levels hbase
  | outer =>
    cases (htakes : pending = [])
    exact blind_outer behind text levels
  | updateIndent =>
    obtain ⟨ts, levels', next, hindents⟩ := indents_total behind [] htakes hbase
    refine ⟨ts, .within (behind ++ pending) [] text levels' next, by simp [Front.known], ?_⟩
    intro rest
    exact .measured (hindents.before _)
  | doubleQuote => exact blind_quote behind pending text levels .double
  | singleQuote => exact blind_quote behind pending text levels .single
  | directive => exact blind_word behind pending text levels .directive
  | comment => exact blind_word behind pending text levels .comment
  | identifier => exact blind_word behind pending text levels .identifier
  | reference => exact blind_reference behind pending text levels

namespace Front

def isSettled : Front → Bool
  | within _ _ _ _ next => next.isNone
  | past .. => true

end Front

/-- From every front the scan comes, whatever stands behind the line feed, to one where it is over
or has read the line feed. -/
theorem exists_settled (x : Front) (hfits : ∀ rest, Fits (x.pause rest)) :
    ∃ (ts : List Token) (z : Front), z.isSettled = true ∧ z.known = x.known ∧
      ∀ rest, ∃ m, Leads graph (x.pause rest) ts m (z.pause rest) := by
  generalize heffort : effort (x.pause []) = k
  induction k using Nat.strongRecOn generalizing x with
  | ind k ih =>
    cases x with
    | past behind pending levels =>
      exact ⟨[], .past behind pending levels, rfl, rfl, fun rest => ⟨0, .refl _⟩⟩
    | within behind pending text levels next =>
      cases next with
      | none =>
        exact ⟨[], .within behind pending text levels none, rfl, rfl, fun rest => ⟨0, .refl _⟩⟩
      | some state =>
        obtain ⟨_, _, _, hcursor, htakes⟩ := (hfits []).2 state rfl
        obtain ⟨rfl, rfl, rfl⟩ := Cursor.upon_injective hcursor
        have hbase : 0 ∈ levels := (hfits []).1
        obtain ⟨ts, y, hknown, hturn⟩ := blind_of_takes behind text htakes hbase
        obtain ⟨m, -, hless⟩ := (hturn []).exec
        have hlt : effort (y.pause []) < k := by
          rw [← heffort]
          exact Nat.lt_of_lt_of_le (by omega) hless
        obtain ⟨later, z, hz, hzknown, hleads⟩ :=
          ih _ hlt y (fun rest => (hturn rest).fits hbase) rfl
        refine ⟨ts ++ later, z, hz, hzknown.trans hknown, fun rest => ?_⟩
        obtain ⟨n, hlater⟩ := hleads rest
        obtain ⟨j, hexec, -⟩ := (hturn rest).exec
        exact ⟨_, .call hexec hlater⟩

end Grammar

end DocModelLexer
