import DocModelLexer.Proofs.Command.Effect

namespace DocModelLexer

namespace Attempt

variable {α : Type}

theorem on_tryCatch (x : Attempt α) (handle : Failure → Attempt α) (w : World) :
    (tryCatch x handle).on w =
      match x.on w with
      | (.ok a, w') => (.ok a, w')
      | (.error f, w') => (handle f).on w' := by
  change ((x.run : Task _) >>= _ : Task (Except Failure α)).run w = _
  rw [Task.run_bind]
  unfold on
  cases x.run.run w with
  | mk result w' => cases result <;> rfl

end Attempt

namespace Poll

def silent : Poll := ⟨"", ""⟩

protected def append (p q : Poll) : Poll := ⟨p.output ++ q.output, p.errors ++ q.errors⟩

end Poll

def World.pending (w : World) : Poll := ⟨w.output, w.errors⟩

namespace Watch

open Attempt Command

variable {o : Options} {seen : Int} {w : World} {f : Failure}

/-- What is written of a text, if it has no lexical error. -/
def rendering? (o : Options) (text : String) : Option String :=
  (tokenize text o.input.toString o.room.value).toOption.map (o.format.render o.positions)

/-- What a look says of a text. The rendering is part of it unless it goes to a file. -/
def reportOn (o : Options) (text : String) : Poll :=
  match tokenize text o.input.toString o.room.value with
  | .ok tokens =>
    ⟨if o.output.isNone then o.format.render o.positions tokens else "",
      scanLog o text ++ (s!"Tokenized {o.input.toString}" ++ "\n")⟩
  | .error e => ⟨"", scanLog o text ++ (e.message ++ "\n")⟩

/-- The text that a look tokenizes: that of the input, if its time of change is a new one. -/
def news? (o : Options) (seen : Int) (t : FileTree) : Option String :=
  match t.status o.input with
  | .ok s => if s.modified = seen then none else (t.read o.input).toOption.bind Text.ofBytes?
  | .error _ => none

def told (o : Options) (seen : Int) (t : FileTree) : Poll :=
  (news? o seen t).elim .silent (reportOn o)

/-- The time of change that counts as seen after a look. -/
def seenAfter (o : Options) (seen : Int) (t : FileTree) : Int :=
  match t.status o.input with
  | .ok s => s.modified
  | .error _ => seen

def after (o : Options) (seen : Int) (w : World) : World :=
  let rendering := (news? o seen w.files).bind (rendering? o)
  let said := w.pending.append (told o seen w.files)
  { (rendering.elim w fun text => (written o w text).2) with
    output := said.output, errors := said.errors }

/-- The failures that end a watch: there cannot be such a path; what is new under it is a directory
or is no text; or the tokens cannot be written. -/
inductive Ends (o : Options) (seen : Int) (w : World) : Failure → Prop
  | path (h : w.files.status o.input = .error .nullCharacter) : Ends o seen w (.file .nullCharacter)
  | directory {s : Status} {e : FileError} (h : w.files.status o.input = .ok s)
      (hnew : s.modified ≠ seen) (hread : w.files.read o.input = .error e) :
      Ends o seen w (.file e)
  | text {s : Status} {bytes : ByteArray} (h : w.files.status o.input = .ok s)
      (hnew : s.modified ≠ seen) (hread : w.files.read o.input = .ok bytes)
      (htext : Text.ofBytes? bytes = none) : Ends o seen w .notText
  | output {text rendering : String} {path : Path} {e : FileError}
      (hnews : news? o seen w.files = some text) (hrendering : rendering? o text = some rendering)
      (hpath : o.output = some path)
      (hwrite : w.files.write path rendering.toUTF8 w.clock = .error e) : Ends o seen w (.file e)

theorem on_refresh (o : Options) (w : World) :
    (refresh o).on w =
      match renderingIn w.files o with
      | .ok text =>
        match (deliver o text).on { w with errors := w.errors ++ logIn w.files o } with
        | (.ok (), w') =>
          (.ok (), { w' with errors := w'.errors ++ (s!"Tokenized {o.input.toString}" ++ "\n") })
        | (.error f, w') => (.error f, w')
      | .error f =>
        match f with
        | .tokenize (.lexical e) =>
          (.ok (), { w with errors := w.errors ++ logIn w.files o ++ (e.text ++ "\n") })
        | f => (.error f, { w with errors := w.errors ++ logIn w.files o }) := by
  unfold refresh
  rw [on_tryCatch, on_bind, on_renderInput_eq]
  cases renderingIn w.files o with
  | error f =>
    cases f with
    | tokenize e => cases e <;> rfl
    | _ => rfl
  | ok text =>
    simp only [on_bind, on_deliver]
    -- what is wrong with the output is not a lexical error of the input
    cases o.output with
    | none => rfl
    | some path =>
      simp only
      cases w.files.write path text.toUTF8 w.clock <;> rfl

theorem on_look (o : Options) (seen : Int) (w : World) :
    (look o seen).on w =
      match w.files.status o.input with
      | .ok s =>
        if s.modified = seen then (.ok s.modified, w)
        else
          match (refresh o).on w with
          | (.ok (), w') => (.ok s.modified, w')
          | (.error f, w') => (.error f, w')
      | .error e => if e.isRefusal then (.ok seen, w) else (.error (.file e), w) := by
  unfold look
  rw [on_bind, on_status]
  cases w.files.status o.input with
  | error e =>
    simp only
    split <;> rfl
  | ok s =>
    by_cases hsame : s.modified = seen
    · simp only [hsame, ne_eq, not_true, if_false, if_true]
      rfl
    · simp only [ne_eq, hsame, not_false_iff, if_true, if_false, on_bind]
      rcases (refresh o).on w with ⟨⟨⟩ | ⟨⟩, w'⟩ <;> rfl

theorem news?_eq_some_iff {text : String} {t : FileTree} :
    news? o seen t = some text ↔ ∃ s bytes, t.status o.input = .ok s ∧ s.modified ≠ seen ∧
      t.read o.input = .ok bytes ∧ Text.ofBytes? bytes = some text := by
  unfold news?
  cases t.status o.input with
  | error e => simp
  | ok s =>
    cases t.read o.input with
    | error e => simp [Except.toOption]
    | ok bytes => by_cases hsame : s.modified = seen <;> simp [Except.toOption, hsame]

theorem renderingIn_of_reads {t : FileTree} {bytes : ByteArray} {text : String}
    (hread : t.read o.input = .ok bytes) (htext : Text.ofBytes? bytes = some text) :
    renderingIn t o = match tokenize text o.input.toString o.room.value with
      | .ok tokens => .ok (o.format.render o.positions tokens)
      | .error e => .error (.tokenize e) := by
  cases htokens : tokenize text o.input.toString o.room.value <;>
    simp only [renderingIn, hread, htext, htokens]

theorem rendering?_eq_some_iff {text rendering : String} :
    rendering? o text = some rendering ↔
      ∃ tokens, tokenize text o.input.toString o.room.value = .ok tokens ∧
        o.format.render o.positions tokens = rendering := by
  unfold rendering?
  cases tokenize text o.input.toString o.room.value <;> simp [Except.toOption]

theorem look_of_ends (h : Ends o seen w f) : ((look o seen).on w).1 = .error f := by
  rw [on_look]
  cases h with
  | path h =>
    rw [h]
    rfl
  | directory h hnew hread =>
    have hrendering := renderingIn_eq_error_iff.mpr (.inl ⟨_, hread, rfl⟩)
    simp only [h, if_neg hnew, on_refresh, hrendering]
  | text h hnew hread htext =>
    have hrendering := renderingIn_eq_error_iff.mpr (.inr ⟨_, hread, .inl ⟨htext, rfl⟩⟩)
    simp only [h, if_neg hnew, on_refresh, hrendering]
  | output hnews hrendering hpath hwrite =>
    obtain ⟨s, bytes, hstatus, hnew, hread, htext⟩ := news?_eq_some_iff.mp hnews
    obtain ⟨tokens, htokens, rfl⟩ := rendering?_eq_some_iff.mp hrendering
    have hrendering := renderingIn_of_reads hread htext
    rw [htokens] at hrendering
    simp only [hstatus, if_neg hnew, on_refresh, hrendering, on_deliver, hpath, hwrite]

theorem after_of_no_news (h : news? o seen w.files = none) : after o seen w = w := by
  simp [after, told, h, Poll.append, Poll.silent, World.pending]

theorem refresh_of_news {text : String} (hroom : 1 ≤ o.room.value)
    (hnews : news? o seen w.files = some text) (h : ∀ f, ¬Ends o seen w f) :
    (refresh o).on w = (.ok (), after o seen w) := by
  obtain ⟨s, bytes, hstatus, hnew, hread, htext⟩ := news?_eq_some_iff.mp hnews
  have hlog : logIn w.files o = scanLog o text := by
    simp only [logIn, hread, htext, Option.elim_some]
  have hrendering := renderingIn_of_reads hread htext
  simp only [on_refresh, after, told, hnews, hlog, Option.elim_some, Option.bind_some]
  cases htokens : tokenize text o.input.toString o.room.value with
  | error e =>
    obtain ⟨l, rfl⟩ := exists_lexical hroom htokens
    rw [htokens] at hrendering
    have hrendered : rendering? o text = none := by
      rw [rendering?, htokens]
      rfl
    have hreport : reportOn o text = ⟨"", scanLog o text ++ (l.text ++ "\n")⟩ := by
      rw [reportOn, htokens]
      rfl
    simp only [hrendering, hrendered, hreport, Option.elim_none, Poll.append, World.pending,
      String.append_assoc, String.append_empty]
  | ok tokens =>
    rw [htokens] at hrendering
    have hrendered := rendering?_eq_some_iff.mpr ⟨tokens, htokens, rfl⟩
    have hreport : reportOn o text =
        ⟨if o.output.isNone then o.format.render o.positions tokens else "",
          scanLog o text ++ (s!"Tokenized {o.input.toString}" ++ "\n")⟩ := by
      rw [reportOn, htokens]
    simp only [hrendering, hrendered, hreport, on_deliver, written, Option.elim_some, Poll.append,
      World.pending]
    cases hpath : o.output with
    | none => simp only [Option.isNone_none, if_true, String.append_assoc]
    | some path =>
      simp only
      cases hwrite : w.files.write path (o.format.render o.positions tokens).toUTF8 w.clock with
      | error e => exact absurd (.output hnews hrendered hpath hwrite) (h _)
      | ok files =>
        simp only [Option.isNone_some, Bool.false_eq_true, if_false, String.append_assoc,
          String.append_empty]

theorem look_of_lasts (hroom : 1 ≤ o.room.value) (h : ∀ f, ¬Ends o seen w f) :
    (look o seen).on w = (.ok (seenAfter o seen w.files), after o seen w) := by
  rw [on_look]
  cases hstatus : w.files.status o.input with
  | error e =>
    cases e with
    | nullCharacter => exact absurd (.path hstatus) (h _)
    | refused cause path =>
      have hnews : news? o seen w.files = none := by simp only [news?, hstatus]
      rw [after_of_no_news hnews]
      simp only [seenAfter, hstatus]
      rfl
  | ok s =>
    by_cases hsame : s.modified = seen
    · have hnews : news? o seen w.files = none := by simp only [news?, hstatus, if_pos hsame]
      rw [after_of_no_news hnews]
      simp only [seenAfter, hstatus, if_pos hsame]
    · obtain ⟨text, hnews⟩ : ∃ text, news? o seen w.files = some text := by
        cases hread : w.files.read o.input with
        | error e => exact absurd (.directory hstatus hsame hread) (h _)
        | ok bytes =>
          cases htext : Text.ofBytes? bytes with
          | none => exact absurd (.text hstatus hsame hread htext) (h _)
          | some text => exact ⟨text, news?_eq_some_iff.mpr ⟨s, bytes, hstatus, hsame, hread, htext⟩⟩
      simp only [if_neg hsame, refresh_of_news hroom hnews h, seenAfter, hstatus]

/-- Nothing ends a look at an input that is missing or holds a text. -/
theorem lasts_of_writable
    (hinput : (∃ cause path, w.files.status o.input = .error (.refused cause path)) ∨
      ∃ bytes text, w.files.read o.input = .ok bytes ∧ Text.ofBytes? bytes = some text)
    (hwritable : ∀ path, o.output = some path → w.files.Writable path) : ¬Ends o seen w f := by
  intro hends
  cases hends with
  | path h =>
    rcases hinput with ⟨cause, path, hrefused⟩ | ⟨bytes, text, hread, -⟩
    · cases h.symm.trans hrefused
    · rcases w.files.status_cases o.input with ⟨e, -, hread'⟩ | ⟨s, e, -, -, hread'⟩ |
        ⟨s, bytes, hstatus, -⟩
      · cases hread.symm.trans hread'
      · cases hread.symm.trans hread'
      · cases h.symm.trans hstatus
  | directory h hnew hread =>
    rcases hinput with ⟨cause, path, hrefused⟩ | ⟨bytes, text, hread', -⟩
    · cases h.symm.trans hrefused
    · cases hread.symm.trans hread'
  | text h hnew hread htext =>
    rcases hinput with ⟨cause, path, hrefused⟩ | ⟨bytes, text, hread', htext'⟩
    · cases h.symm.trans hrefused
    · cases hread.symm.trans hread'
      cases htext.symm.trans htext'
  | output hnews hrendering hpath hwrite =>
    obtain ⟨place, hplace, hfree⟩ := hwritable _ hpath
    rw [FileTree.write_of_locate hplace hfree] at hwrite
    cases hwrite

theorem after_of_no_output (o : Options) (seen : Int) (w : World) (houtput : o.output = none) :
    ∃ said : Poll, after o seen w = { w with output := said.output, errors := said.errors } := by
  refine ⟨w.pending.append (told o seen w.files), ?_⟩
  unfold after
  cases (news? o seen w.files).bind (rendering? o) with
  | none => rfl
  | some text => simp only [Option.elim_some, written, houtput]

theorem runScript_of_watch {texts : List String} {a : Arguments} (edits : List Edit)
    (hparse : Arguments.parse texts = .ok a) (ho : optionsIn w.files a = .ok o)
    (hwatch : o.watch = true) :
    Command.runScript texts edits w =
      runScript o unseen edits
        { w with errors := w.errors ++ s!"Watching {o.input.toString} for changes...\n" } := by
  unfold Command.runScript
  rw [prepare_run hparse, ho]
  simp only [hwatch, if_true]
  rfl

end Watch

end DocModelLexer
