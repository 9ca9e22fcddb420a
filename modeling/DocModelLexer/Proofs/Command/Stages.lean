import DocModelLexer.Proofs.Tokenize.Verdict
import DocModelLexer.Watch

namespace DocModelLexer

namespace FileTree

theorem locate_relative (t : FileTree) {path : Path} {text : String} (htext : path.toString = text)
    (hnull : text.contains '\x00' = false) (hlen : text.utf8ByteSize ≤ maxPath)
    (hroot : path.root = "") :
    t.locate path = (t.walk t.home path.names).mapError (.refused · path) := by
  have hlen' : ¬maxPath < text.utf8ByteSize := Nat.not_lt.mpr hlen
  simp only [locate, htext, hnull, hlen', hroot, Bool.false_eq_true, if_false, if_true]
  cases t.walk t.home path.names <;> rfl

theorem locate_name {t : FileTree} {path : Path} {name : String} {modified : Int}
    (hpath : path = ⟨"", [name]⟩) (h : t.at? t.home = some (.directory modified))
    (hnull : name.contains '\x00' = false) (hlen : name.utf8ByteSize ≤ maxName)
    (hup : name ≠ "..") : t.locate path = .ok (name :: t.home) := by
  subst hpath
  have htext : (⟨"", [name]⟩ : Path).toString = name := by simp [Path.toString]
  have hfits : name.utf8ByteSize ≤ maxPath := Nat.le_trans hlen (by decide)
  rw [t.locate_relative htext hnull hfits rfl]
  simp only [walk, h, hup, if_false, Nat.not_lt.mpr hlen]
  rfl

/-- A path leads to a file that can be read, or to something else, or fails in the same way for
both questions. -/
theorem status_cases (t : FileTree) (path : Path) :
    (∃ e, t.status path = .error e ∧ t.read path = .error e) ∨
    (∃ s e, t.status path = .ok s ∧ s.isFile = false ∧ t.read path = .error e) ∨
    ∃ s bytes, t.status path = .ok s ∧ s.isFile = true ∧ t.read path = .ok bytes := by
  unfold status read
  cases t.locate path with
  | error e => exact .inl ⟨e, rfl, rfl⟩
  | ok place =>
    simp only [bind, Except.bind]
    cases t.at? place with
    | none => exact .inl ⟨_, rfl, rfl⟩
    | some node =>
      cases node with
      | directory modified => exact .inr (.inl ⟨_, _, rfl, rfl, rfl⟩)
      | file content modified => exact .inr (.inr ⟨_, content, rfl, rfl, rfl⟩)

end FileTree

namespace Attempt

variable {α β : Type}

def on (x : Attempt α) (w : World) : Except Failure α × World := x.run.run w

theorem on_pure (a : α) (w : World) : (pure a : Attempt α).on w = (.ok a, w) := rfl

theorem on_throw (f : Failure) (w : World) : (throw f : Attempt α).on w = (.error f, w) := rfl

theorem on_bind (x : Attempt α) (f : α → Attempt β) (w : World) :
    (x >>= f).on w =
      match x.on w with
      | (.ok a, w') => (f a).on w'
      | (.error e, w') => (.error e, w') := by
  simp only [on, ExceptT.run_bind, Task.run_bind]
  cases x.run.run w with
  | mk result w' => cases result <;> rfl

theorem on_ofExcept {ε : Type} (failure : ε → Failure) (x : Except ε α) (w : World) :
    (ofExcept failure x).on w = (x.mapError failure, w) := by
  cases x <;> rfl

theorem on_status (path : Path) (w : World) :
    (status path).on w = (.ok (w.files.status path), w) := rfl

theorem on_read (path : Path) (w : World) :
    (read path).on w = ((w.files.read path).mapError .file, w) := by
  unfold read
  rw [on_bind]
  exact on_ofExcept _ _ w

end Attempt

/-- Whether an error says that there is nothing under a path. -/
def FileError.isAbsence : FileError → Bool
  | .nullCharacter | .refused .missing _ | .refused .notDirectory _ => true
  | .refused _ _ => false

def Settings.ofBytes (bytes : ByteArray) : Except Failure Settings :=
  match String.fromUTF8? bytes with
  | none => .error .notText
  | some document =>
    match Toml.read document with
    | .ok config => .ok (.ofTable config)
    | .error .malformed => .error (.options .badConfig)
    | .error (.tooManyDigits count) => .error (.longNumber count)
    | .error .tooDeep => .error .deepValue

namespace FileTree

/-- The settings under a path: none are given where no file is. -/
def settings (t : FileTree) (path : Path) : Except Failure Settings :=
  match t.status path, t.read path with
  | .error e, _ => if e.isAbsence then .ok {} else .error (.file e)
  | .ok _, .ok bytes => Settings.ofBytes bytes
  | .ok _, .error _ => .ok {}

end FileTree

/-- What is asked for, before it is checked. -/
structure Wishes where
  room : Room
  format : String
  positions : Bool

def Given.value? {α : Type} : Given α → Option α
  | blank => none
  | value a => some a

namespace Options

variable {a : Arguments} {s : Settings}

def wishes (a : Arguments) (s : Settings) : Wishes where
  room := ((a.bufferSize.bind Given.value?).map Room.number <|> s.room).getD (.number 2)
  format := (a.format.map formatName <|> s.format).getD "text"
  positions := ((if a.positions then some true else none) <|> s.positions).getD false

/-- Where there is no blank for a room, only what is asked for is checked. -/
theorem resolve_eq (hroom : a.bufferSize ≠ some .blank) :
    resolve a s =
      let x := wishes a s
      if x.room.value < 1 then .error (.roomTooSmall x.room)
      else match Format.ofName? x.format with
        | none => .error (.unknownFormat x.format)
        | some format => .ok ⟨.ofString a.input, pathOf? a.output, format, x.positions, x.room,
            a.watch, a.debug⟩ := by
  have hpositions : (a.positions || s.positions.getD false) = (wishes a s).positions := by
    cases hgiven : a.positions <;> simp [wishes, hgiven]
  have hformat : (a.format.map formatName <|> s.format).getD Format.text.name =
      (wishes a s).format := rfl
  unfold resolve
  rw [hpositions, hformat]
  simp only [bind, Except.bind, pure, Except.pure, throw, throwThe, MonadExceptOf.throw]
  cases hsize : a.bufferSize with
  | none =>
    have hwish : (wishes a s).room = s.room.getD defaultRoom := by simp [wishes, hsize, defaultRoom]
    rewrite [hwish]
    rfl
  | some size =>
    cases size with
    | blank => exact absurd hsize hroom
    | value n =>
      have hwish : (wishes a s).room = .number n := by simp [wishes, hsize, Given.value?]
      rewrite [hwish]
      rfl

end Options

namespace Command

open Attempt

theorem on_isFile (path : Path) (w : World) :
    (isFile path).on w =
      (match w.files.status path with
      | .ok s => .ok s.isFile
      | .error e => if e.isAbsence then .ok false else .error (.file e), w) := by
  unfold isFile
  rw [on_bind, on_status]
  cases w.files.status path with
  | ok s => rfl
  | error e =>
    cases e with
    | nullCharacter => rfl
    | refused cause _ => cases cause <;> rfl

theorem on_readSettings (path : Path) (w : World) :
    (readSettings path).on w = (w.files.settings path, w) := by
  unfold readSettings FileTree.settings
  rw [on_bind, on_isFile]
  -- the file is asked about before it is read, and both answers agree
  rcases w.files.status_cases path with ⟨e, hstatus, hread⟩ | ⟨s, e, hstatus, hother, hread⟩ |
    ⟨s, bytes, hstatus, hfile, hread⟩
  · rw [hstatus, hread]
    by_cases he : e.isAbsence = true
    · simp only [he]
      rfl
    · simp only [he]
      rfl
  · simp only [hstatus, hread, hother]
    rfl
  · simp only [hstatus, hread, hfile]
    rw [if_pos trivial, on_bind, on_read, hread]
    simp only [Except.mapError, Settings.ofBytes]
    cases String.fromUTF8? bytes with
    | none => rfl
    | some document =>
      cases htoml : Toml.read document with
      | ok config => simp only [htoml]; rfl
      | error e => cases e <;> simp only [htoml] <;> rfl

def optionsIn (t : FileTree) (a : Arguments) : Except Failure Options :=
  match t.settings a.configPath with
  | .ok s => (Options.resolve a s).mapError .options
  | .error f => .error f

theorem on_readOptions (a : Arguments) (w : World) :
    (readOptions a).on w = (optionsIn w.files a, w) := by
  unfold readOptions optionsIn
  rw [on_bind, on_readSettings]
  cases w.files.settings a.configPath with
  | ok s => exact on_ofExcept _ _ w
  | error f => rfl

def renderingIn (t : FileTree) (o : Options) : Except Failure String :=
  match t.read o.input with
  | .error e => .error (.file e)
  | .ok bytes =>
    match Text.ofBytes? bytes with
    | none => .error .notText
    | some text =>
      match tokenize text o.input.toString o.room.value with
      | .ok tokens => .ok (o.format.render o.positions tokens)
      | .error e => .error (.tokenize e)

theorem on_report (line : String) (w : World) :
    (report line).on w = (.ok (), { w with errors := w.errors ++ (line ++ "\n") }) := rfl

theorem on_forM_report {α : Type} (line : α → String) (notices : List α) (w : World) :
    (notices.forM fun n => report (line n)).on w =
      (.ok (), { w with errors := w.errors ++ String.join (notices.map fun n => line n ++ "\n") }) := by
  induction notices generalizing w with
  | nil => simp [on_pure]
  | cons n notices ih =>
    change (report (line n) >>= fun _ => notices.forM fun n => report (line n)).on w = _
    rw [on_bind, on_report]
    simp only [ih, List.map_cons, String.join_cons, String.append_assoc]

def scanLog (o : Options) (text : String) : String :=
  if o.debug then
    String.join ((tokenizeNoting text o.input.toString o.room.value).2.map fun n =>
      logLine o n ++ "\n")
  else ""

def logIn (t : FileTree) (o : Options) : String :=
  match t.read o.input with
  | .error _ => ""
  | .ok bytes => (Text.ofBytes? bytes).elim "" (scanLog o)

theorem on_renderInput_eq (o : Options) (w : World) :
    (renderInput o).on w =
      (renderingIn w.files o, { w with errors := w.errors ++ logIn w.files o }) := by
  unfold renderInput renderingIn logIn
  rw [on_bind, on_read]
  cases w.files.read o.input with
  | error e => simp [Except.mapError]
  | ok bytes =>
    simp only [Except.mapError]
    cases Text.ofBytes? bytes with
    | none => simp [on_throw]
    | some text =>
      have hrest (w : World) :
          (do return o.format.render o.positions (← ofExcept .tokenize
            (tokenizeNoting text o.input.toString o.room.value).1) : Attempt String).on w =
            (match tokenize text o.input.toString o.room.value with
              | .ok tokens => .ok (o.format.render o.positions tokens)
              | .error e => .error (.tokenize e), w) := by
        rw [on_bind, on_ofExcept, tokenize]
        cases (tokenizeNoting text o.input.toString o.room.value).1 <;> rfl
      -- the log comes first, and the rest does not depend on it
      cases hdebug : o.debug with
      | false => simp only [Bool.false_eq_true, if_false, hrest, Option.elim_some, scanLog, hdebug,
          String.append_empty]
      | true =>
        rw [← hrest]
        simp only [if_true, on_bind, on_forM_report, Option.elim_some, scanLog, hdebug]

/-- Up to its output, a command changes nothing but the log. -/
theorem on_renderInput (o : Options) (w : World) :
    ∃ log, (renderInput o).on w =
      (renderingIn w.files o, { w with errors := w.errors ++ log }) :=
  ⟨_, on_renderInput_eq o w⟩

theorem on_write (path : Path) (text : String) (w : World) :
    (Attempt.write path text).on w =
      match w.files.write path text.toUTF8 w.clock with
      | .ok files => (.ok (), { w with files, clock := w.clock + 1 })
      | .error e => (.error (.file e), w) := by
  have hlift : on (ExceptT.lift (.write path text .done)) w =
      match w.files.write path text.toUTF8 w.clock with
      | .ok files => (.ok (.ok ()), { w with files, clock := w.clock + 1 })
      | .error e => (.ok (.error e), w) := by
    change Task.run (Task.write path text fun reply => Task.done (Except.ok reply)) w = _
    rw [Task.run]
    cases w.files.write path text.toUTF8 w.clock <;> rfl
  unfold Attempt.write
  rw [on_bind, hlift]
  cases w.files.write path text.toUTF8 w.clock <;> rfl

theorem on_deliver (o : Options) (text : String) (w : World) :
    (deliver o text).on w =
      match o.output with
      | none => (.ok (), { w with output := w.output ++ text })
      | some path =>
        match w.files.write path text.toUTF8 w.clock with
        | .ok files => (.ok (), { w with files, clock := w.clock + 1 })
        | .error e => (.error (.file e), w) := by
  unfold deliver
  cases o.output with
  | none => rfl
  | some path => exact on_write path text w

theorem once_run (o : Options) (w : World) :
    (once o).run w =
      match (renderInput o).on w with
      | (.error f, w') => (reportInput f).run w'
      | (.ok text, w') =>
        match (deliver o text).on w' with
        | (.error f, w') => (.crash f, w')
        | (.ok (), w') => (.exit 0, w') := by
  unfold once on
  rw [Task.run_bind]
  cases (renderInput o).run.run w with
  | mk result w' =>
    cases result with
    | error f => rfl
    | ok text =>
      simp only [Task.run_bind]
      cases (deliver o text).run.run w' with
      | mk result w' => cases result <;> rfl

def optionsReport? : Failure → Option (Nat × String)
  | .options e => if e.isReported then some (2, s!"error: {e.message}") else none
  | _ => none

def inputReport? : Failure → Option (Nat × String)
  | .file e => if e.isRefusal then some (2, s!"error: {e.message}") else none
  | .tokenize (.lexical e) => some (1, e.text)
  | _ => none

def failed (w : World) (f : Failure) : Option (Nat × String) → Outcome × World
  | some (code, line) => (.exit code, { w with errors := w.errors ++ (line ++ "\n") })
  | none => (.crash f, w)

theorem reportInput_run (f : Failure) (w : World) :
    (reportInput f).run w = failed w f (inputReport? f) := by
  have hself (s : String) : toString s = s := rfl
  cases f with
  | file e =>
    by_cases he : e.isRefusal = true <;>
      simp [reportInput, inputReport?, failed, Task.run, hself, he]
  | tokenize e =>
    cases e <;> simp [reportInput, inputReport?, failed, Task.run, hself]
  | _ => rfl

variable {texts : List String} {a : Arguments}

theorem prepare_run (hparse : Arguments.parse texts = .ok a) (w : World) :
    (prepare texts).run w =
      match optionsIn w.files a with
      | .ok o => (.ok o, w)
      | .error f =>
        let (outcome, w') := failed w f (optionsReport? f)
        (.error outcome, w') := by
  have hself (s : String) : toString s = s := rfl
  have hoptions : (readOptions a).run.run w = (optionsIn w.files a, w) := on_readOptions a w
  simp only [prepare, hparse]
  rw [Task.run_bind, hoptions]
  cases optionsIn w.files a with
  | ok o => rfl
  | error f =>
    cases f with
    | options e =>
      by_cases he : e.isReported = true <;>
        simp [optionsReport?, failed, Task.run, hself, he]
    | _ => rfl

def written (o : Options) (w : World) (text : String) : Outcome × World :=
  match o.output with
  | none => (.exit 0, { w with output := w.output ++ text })
  | some path =>
    match w.files.write path text.toUTF8 w.clock with
    | .ok files => (.exit 0, { w with files, clock := w.clock + 1 })
    | .error e => (.crash (.file e), w)

/-- A command up to its end, in three stages: options, rendering, output. -/
theorem run_eq (hparse : Arguments.parse texts = .ok a) (w : World) :
    ∃ log, (run texts).run w =
      match optionsIn w.files a with
      | .error f => failed w f (optionsReport? f)
      | .ok o =>
        match renderingIn w.files o with
        | .error f => failed { w with errors := w.errors ++ log } f (inputReport? f)
        | .ok text => written o { w with errors := w.errors ++ log } text := by
  unfold run
  rw [Task.run_bind, prepare_run hparse]
  cases ho : optionsIn w.files a with
  | error f => exact ⟨"", rfl⟩
  | ok o =>
    obtain ⟨log, hlog⟩ := on_renderInput o w
    refine ⟨log, ?_⟩
    simp only [once_run, hlog, on_deliver]
    cases renderingIn w.files o with
    | error f => exact reportInput_run f _
    | ok text =>
      unfold written
      cases o.output with
      | none => rfl
      | some path =>
        simp only
        cases w.files.write path text.toUTF8 w.clock <;> rfl

theorem settings_of_missing {t : FileTree} {path : Path} {place : Location}
    (h : t.locate path = .ok place) (hplace : t.at? place = none) :
    t.settings path = .ok {} := by
  simp only [FileTree.settings, FileTree.status, h, bind, Except.bind, hplace]
  rfl

theorem settings_of_no_document {t : FileTree} {modified : Int}
    (hpath : a.configPath = ⟨"", ["dtdx.toml"]⟩) (hhome : t.at? t.home = some (.directory modified))
    (hnone : t.at? ("dtdx.toml" :: t.home) = none) : t.settings a.configPath = .ok {} := by
  have hplace := FileTree.locate_name hpath hhome (by simp) (by decide) (by decide)
  exact settings_of_missing hplace hnone

theorem resolve_of_blank {s : Settings} (h : a.bufferSize = some .blank) :
    Options.resolve a s = .error .roomBlank := by
  rw [Options.resolve, h]
  rfl

theorem of_resolve_ok {s : Settings} {o : Options} (h : Options.resolve a s = .ok o) :
    1 ≤ o.room.value ∧ o.watch = a.watch := by
  by_cases hblank : a.bufferSize = some .blank
  · cases (resolve_of_blank hblank).symm.trans h
  · rw [Options.resolve_eq hblank] at h
    simp only at h
    split at h
    · cases h
    · rename_i hroom
      split at h
      · cases h
      · cases h
        exact ⟨Int.not_lt.mp hroom, rfl⟩

theorem of_resolve_error {s : Settings} {e : OptionsError} (h : Options.resolve a s = .error e) :
    e.isReported = true ∨ e = .roomBlank ∧ a.bufferSize = some .blank := by
  by_cases hblank : a.bufferSize = some .blank
  · cases (resolve_of_blank hblank).symm.trans h
    exact .inr ⟨rfl, hblank⟩
  · rw [Options.resolve_eq hblank] at h
    simp only at h
    split at h
    · cases h
      exact .inl rfl
    · split at h
      · cases h
        exact .inl rfl
      · cases h

theorem ofBytes_eq_error_iff {bytes : ByteArray} {f : Failure} :
    Settings.ofBytes bytes = .error f ↔
      (String.fromUTF8? bytes = none ∧ f = .notText) ∨
      ∃ document e, String.fromUTF8? bytes = some document ∧ Toml.read document = .error e ∧
        f = match e with
          | .malformed => .options .badConfig
          | .tooManyDigits digits => .longNumber digits
          | .tooDeep => .deepValue := by
  unfold Settings.ofBytes
  cases String.fromUTF8? bytes with
  | none => simp [@eq_comm _ f]
  | some document =>
    cases htoml : Toml.read document with
    | ok config => simp [htoml]
    | error e => cases e <;> simp [htoml, @eq_comm _ f]

theorem settings_eq_error_iff {t : FileTree} {path : Path} {f : Failure} :
    t.settings path = .error f ↔
      (∃ e, t.status path = .error e ∧ e.isAbsence = false ∧ f = .file e) ∨
      ∃ bytes, t.read path = .ok bytes ∧ Settings.ofBytes bytes = .error f := by
  unfold FileTree.settings
  rcases t.status_cases path with ⟨e, hstatus, hread⟩ | ⟨s, e, hstatus, -, hread⟩ |
    ⟨s, bytes, hstatus, -, hread⟩
  · cases he : e.isAbsence <;> simp [hstatus, hread, he, @eq_comm _ f]
  · simp [hstatus, hread]
  · simp [hstatus, hread]

theorem optionsIn_eq_ok_iff {t : FileTree} {o : Options} :
    optionsIn t a = .ok o ↔
      ∃ s, t.settings a.configPath = .ok s ∧ Options.resolve a s = .ok o := by
  unfold optionsIn
  cases t.settings a.configPath with
  | error f => simp
  | ok s => cases hresolve : Options.resolve a s <;> simp [hresolve, Except.mapError]

theorem optionsIn_eq_error_iff {t : FileTree} {f : Failure} :
    optionsIn t a = .error f ↔ t.settings a.configPath = .error f ∨
      ∃ s e, t.settings a.configPath = .ok s ∧ Options.resolve a s = .error e ∧
        f = .options e := by
  unfold optionsIn
  cases t.settings a.configPath with
  | error f => simp
  | ok s => cases hresolve : Options.resolve a s <;> simp [hresolve, Except.mapError, @eq_comm _ f]

theorem renderingIn_eq_error_iff {t : FileTree} {o : Options} {f : Failure} :
    renderingIn t o = .error f ↔
      (∃ e, t.read o.input = .error e ∧ f = .file e) ∨
      ∃ bytes, t.read o.input = .ok bytes ∧ ((Text.ofBytes? bytes = none ∧ f = .notText) ∨
        ∃ text e, Text.ofBytes? bytes = some text ∧
          tokenize text o.input.toString o.room.value = .error e ∧ f = .tokenize e) := by
  unfold renderingIn
  cases t.read o.input with
  | error e => simp [@eq_comm _ f]
  | ok bytes =>
    cases htext : Text.ofBytes? bytes with
    | none => simp [htext, @eq_comm _ f]
    | some text =>
      cases htokenize : tokenize text o.input.toString o.room.value <;>
        simp [htext, htokenize, @eq_comm _ f]

end Command

end DocModelLexer
