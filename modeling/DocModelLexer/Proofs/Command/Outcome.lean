import DocModelLexer.Proofs.Command.Stages

namespace DocModelLexer

namespace Command

variable {texts : List String} {a : Arguments}

/-- The failures that come up as a command runs, each with its report if there is one. -/
inductive Fails (w : World) (a : Arguments) : Option (Nat × String) → Failure → Prop
  | options {f : Failure} (h : optionsIn w.files a = .error f) : Fails w a (optionsReport? f) f
  | input {o : Options} {f : Failure} (ho : optionsIn w.files a = .ok o)
      (h : renderingIn w.files o = .error f) : Fails w a (inputReport? f) f
  | output {o : Options} {text : String} {path : Path} {e : FileError}
      (ho : optionsIn w.files a = .ok o) (htext : renderingIn w.files o = .ok text)
      (hpath : o.output = some path)
      (h : w.files.write path text.toUTF8 w.clock = .error e) : Fails w a none (.file e)

theorem run_of_fails (hparse : Arguments.parse texts = .ok a) {w : World} {f : Failure}
    {report : Option (Nat × String)} (h : Fails w a report f) :
    ∃ log, (run texts).run w = failed { w with errors := w.errors ++ log } f report := by
  obtain ⟨log, hrun⟩ := run_eq hparse w
  cases h with
  | options h =>
    refine ⟨"", ?_⟩
    simpa only [h, String.append_empty] using hrun
  | @input o f ho h => exact ⟨log, by simpa only [ho, h] using hrun⟩
  | @output o text path e ho htext hpath h =>
    simp only [ho, htext, written, hpath, h] at hrun
    exact ⟨log, hrun⟩

theorem run_of_not_fails (hparse : Arguments.parse texts = .ok a) {w : World}
    (h : ∀ report f, ¬Fails w a report f) : ((run texts).run w).1 = .exit 0 := by
  obtain ⟨log, hrun⟩ := run_eq hparse w
  rw [hrun]
  cases ho : optionsIn w.files a with
  | error f => exact absurd (.options ho) (h _ f)
  | ok o =>
    cases htext : renderingIn w.files o with
    | error f => exact absurd (.input ho htext) (h _ f)
    | ok text =>
      cases hpath : o.output with
      | none => simp only [htext, written, hpath]
      | some path =>
        cases hwrite : w.files.write path text.toUTF8 w.clock with
        | error e => exact absurd (.output ho htext hpath hwrite) (h _ _)
        | ok files => simp only [htext, written, hpath, hwrite]

/-- The failures that a command has no report for: a settings document, an input or an output that
the files do not give or take, and a flag whose value is missing from its own word. -/
inductive Escapes (w : World) (a : Arguments) : Failure → Prop
  | settingsPath {e : FileError} (h : w.files.status a.configPath = .error e)
      (he : e.isAbsence = false) : Escapes w a (.file e)
  | settingsText {bytes : ByteArray} (h : w.files.read a.configPath = .ok bytes)
      (htext : String.fromUTF8? bytes = none) : Escapes w a .notText
  | settingsNumber {bytes : ByteArray} {document : String} {digits : Nat}
      (h : w.files.read a.configPath = .ok bytes) (htext : String.fromUTF8? bytes = some document)
      (htoml : Toml.read document = .error (.tooManyDigits digits)) :
      Escapes w a (.longNumber digits)
  | settingsDepth {bytes : ByteArray} {document : String}
      (h : w.files.read a.configPath = .ok bytes) (htext : String.fromUTF8? bytes = some document)
      (htoml : Toml.read document = .error .tooDeep) : Escapes w a .deepValue
  | room {s : Settings} (h : w.files.settings a.configPath = .ok s)
      (hroom : a.bufferSize = some .blank) : Escapes w a (.options .roomBlank)
  | inputPath {o : Options} (ho : optionsIn w.files a = .ok o)
      (h : w.files.read o.input = .error .nullCharacter) : Escapes w a (.file .nullCharacter)
  | inputText {o : Options} {bytes : ByteArray} (ho : optionsIn w.files a = .ok o)
      (h : w.files.read o.input = .ok bytes) (htext : Text.ofBytes? bytes = none) :
      Escapes w a .notText
  | output {o : Options} {text : String} {path : Path} {e : FileError}
      (ho : optionsIn w.files a = .ok o) (htext : renderingIn w.files o = .ok text)
      (hpath : o.output = some path)
      (h : w.files.write path text.toUTF8 w.clock = .error e) : Escapes w a (.file e)

theorem fails_none_iff {w : World} {f : Failure} : Fails w a none f ↔ Escapes w a f := by
  constructor
  · intro h
    -- of the failures of each stage, those remain that the report of the stage leaves out
    generalize hreport : (none : Option (Nat × String)) = report at h
    cases h with
    | options h =>
      rcases optionsIn_eq_error_iff.mp h with hsettings | ⟨s, e, hsettings, hresolve, rfl⟩
      · rcases settings_eq_error_iff.mp hsettings with ⟨e, hstatus, he, rfl⟩ | ⟨bytes, hread, h⟩
        · exact .settingsPath hstatus he
        · rcases ofBytes_eq_error_iff.mp h with ⟨htext, rfl⟩ | ⟨document, e, htext, htoml, rfl⟩
          · exact .settingsText hread htext
          · cases e with
            | malformed => cases hreport
            | tooManyDigits digits => exact .settingsNumber hread htext htoml
            | tooDeep => exact .settingsDepth hread htext htoml
      · rcases of_resolve_error hresolve with he | ⟨rfl, hblank⟩
        · simp [optionsReport?, he] at hreport
        · exact .room hsettings hblank
    | @input o f ho h =>
      rcases renderingIn_eq_error_iff.mp h with ⟨e, hread, rfl⟩ |
        ⟨bytes, hread, ⟨htext, rfl⟩ | ⟨text, e, htext, htokenize, rfl⟩⟩
      · cases e with
        | refused cause path => cases hreport
        | nullCharacter => exact .inputPath ho hread
      · exact .inputText ho hread htext
      · obtain ⟨s, -, hresolve⟩ := optionsIn_eq_ok_iff.mp ho
        obtain ⟨l, rfl⟩ := exists_lexical (of_resolve_ok hresolve).1 htokenize
        cases hreport
    | output ho htext hpath h => exact .output ho htext hpath h
  · intro h
    have settings {f : Failure} (h : w.files.settings a.configPath = .error f) :
        optionsIn w.files a = .error f := optionsIn_eq_error_iff.mpr (.inl h)
    have document {f : Failure} {bytes : ByteArray} (hread : w.files.read a.configPath = .ok bytes)
        (h : Settings.ofBytes bytes = .error f) : optionsIn w.files a = .error f :=
      settings (settings_eq_error_iff.mpr (.inr ⟨bytes, hread, h⟩))
    cases h with
    | @settingsPath e h he =>
      exact .options (settings (settings_eq_error_iff.mpr (.inl ⟨e, h, he, rfl⟩)))
    | settingsText h htext =>
      exact .options (document h (ofBytes_eq_error_iff.mpr (.inl ⟨htext, rfl⟩)))
    | settingsNumber h htext htoml =>
      exact .options (document h (ofBytes_eq_error_iff.mpr (.inr ⟨_, _, htext, htoml, rfl⟩)))
    | settingsDepth h htext htoml =>
      exact .options (document h (ofBytes_eq_error_iff.mpr (.inr ⟨_, _, htext, htoml, rfl⟩)))
    | room h hroom =>
      exact .options (optionsIn_eq_error_iff.mpr (.inr ⟨_, _, h, resolve_of_blank hroom, rfl⟩))
    | inputPath ho h =>
      exact .input ho (renderingIn_eq_error_iff.mpr (.inl ⟨_, h, rfl⟩))
    | inputText ho h htext =>
      exact .input ho (renderingIn_eq_error_iff.mpr (.inr ⟨_, h, .inl ⟨htext, rfl⟩⟩))
    | output ho htext hpath h => exact .output ho htext hpath h

theorem code_of_fails {w : World} {f : Failure} {code : Nat} {line : String}
    (h : Fails w a (some (code, line)) f) : code = 1 ∨ code = 2 := by
  generalize hreport : some (code, line) = report at h
  cases h with
  | options h =>
    unfold optionsReport? at hreport
    grind
  | input ho h =>
    unfold inputReport? at hreport
    grind
  | output => cases hreport

theorem run_of_reported (hparse : Arguments.parse texts = .ok a) {w : World} {f : Failure}
    {code : Nat} {line : String} (h : Fails w a (some (code, line)) f) :
    ((run texts).run w).1 = .exit code ∧
      ∃ log, ((run texts).run w).2.errors = w.errors ++ log ++ (line ++ "\n") := by
  obtain ⟨log, hrun⟩ := run_of_fails hparse h
  rw [hrun]
  exact ⟨rfl, log, rfl⟩

theorem run_of_unreported (hparse : Arguments.parse texts = .ok a) {w : World} {f : Failure}
    (h : Fails w a none f) : ((run texts).run w).1 = .crash f := by
  obtain ⟨log, hrun⟩ := run_of_fails hparse h
  rw [hrun]
  rfl

theorem run_cases (hparse : Arguments.parse texts = .ok a) (w : World) :
    (∃ code, code ≤ 2 ∧ ((run texts).run w).1 = .exit code) ∨
      ∃ f, Fails w a none f ∧ ((run texts).run w).1 = .crash f := by
  by_cases hfails : ∃ report f, Fails w a report f
  · obtain ⟨report, f, h⟩ := hfails
    cases report with
    | none => exact .inr ⟨f, h, run_of_unreported hparse h⟩
    | some report =>
      obtain ⟨code, line⟩ := report
      have hcode := code_of_fails h
      exact .inl ⟨code, by omega, (run_of_reported hparse h).1⟩
  · have hnone : ∀ report f, ¬Fails w a report f := fun report f h => hfails ⟨report, f, h⟩
    exact .inl ⟨0, by decide, run_of_not_fails hparse hnone⟩

theorem runScript_of_not_watch (hparse : Arguments.parse texts = .ok a) (hwatch : a.watch = false)
    (edits : List Edit) (w : World) : runScript texts edits w = ([], (run texts).run w) := by
  unfold runScript run
  rw [Task.run_bind, prepare_run hparse]
  cases ho : optionsIn w.files a with
  | error f => rfl
  | ok o =>
    obtain ⟨s, -, hresolve⟩ := optionsIn_eq_ok_iff.mp ho
    have ho := (of_resolve_ok hresolve).2
    simp only [ho, hwatch]
    rfl

/-- A command that does not watch its input ends with an exit code of at most two just if no failure
without a report comes up. Every other failure is reported, with a code that is not zero. -/
theorem exit_code_iff (hparse : Arguments.parse texts = .ok a) (hwatch : a.watch = false)
    (edits : List Edit) (w : World) :
    let result := (runScript texts edits w).2
    ((∃ code, code ≤ 2 ∧ result.1 = .exit code) ↔ ∀ f, ¬Escapes w a f) ∧
    (∀ f, result.1 = .crash f ↔ Escapes w a f) ∧
    (∀ code line f, Fails w a (some (code, line)) f → (code = 1 ∨ code = 2) ∧
      result.1 = .exit code ∧
      ∃ log, result.2.errors = w.errors ++ log ++ (line ++ "\n")) ∧
    ((∀ report f, ¬Fails w a report f) → result.1 = .exit 0) := by
  simp only [runScript_of_not_watch hparse hwatch, ← fails_none_iff]
  refine ⟨⟨?_, ?_⟩, ?_, ?_, run_of_not_fails hparse⟩
  · rintro ⟨code, -, hexit⟩ f h
    cases hexit.symm.trans (run_of_unreported hparse h)
  · intro hnone
    rcases run_cases hparse w with hexit | ⟨f, h, -⟩
    · exact hexit
    · exact absurd h (hnone f)
  · intro f
    constructor
    · intro hcrash
      rcases run_cases hparse w with ⟨code, -, hexit⟩ | ⟨f', h, hcrash'⟩
      · cases hexit.symm.trans hcrash
      · cases hcrash.symm.trans hcrash'
        exact h
    · exact run_of_unreported hparse
  · intro code line f h
    exact ⟨code_of_fails h, run_of_reported hparse h⟩

theorem exit_code_iff_missing_input :
    (runScript ["doc.dtdx"] [] { files := ⟨[], []⟩ }).2.1 = .exit 2 := by
  let w : World := { files := ⟨[], []⟩ }
  let a : Arguments := { input := "doc.dtdx" }
  let o : Options := ⟨.ofString "doc.dtdx", none, .text, false, .number 2, false, false⟩
  have hparse : Arguments.parse ["doc.dtdx"] = .ok a := by rfl
  have hconfig : w.files.locate a.configPath = .ok ["dtdx.toml"] :=
    FileTree.locate_name (by decide +kernel : a.configPath = ⟨"", ["dtdx.toml"]⟩) rfl (by simp)
      (by decide) (by decide)
  have hinput : w.files.locate o.input = .ok ["doc.dtdx"] :=
    FileTree.locate_name (by decide +kernel : o.input = ⟨"", ["doc.dtdx"]⟩) rfl (by simp)
      (by decide) (by decide)
  have hsettings := settings_of_missing hconfig rfl
  have ho : optionsIn w.files a = .ok o := optionsIn_eq_ok_iff.mpr ⟨{}, hsettings, rfl⟩
  have hread : w.files.read o.input = .error (.refused .missing o.input) := by
    simp only [FileTree.read, hinput]
    rfl
  have hrendering := renderingIn_eq_error_iff.mpr (.inl ⟨_, hread, rfl⟩)
  obtain ⟨-, -, hreported, -⟩ := exit_code_iff hparse rfl [] w
  exact (hreported _ _ _ (.input ho hrendering)).2.1

/-- An output in a directory that is not there is not reported, but brings the command down. -/
theorem output_missing_directory :
    let w : World := { files := ⟨[(["doc.dtdx"], .file "a".toUTF8 0)], []⟩ }
    (runScript ["doc.dtdx", "-o", "missing/out.txt"] [] w).2.1 =
      .crash (.file (.refused .missing (.ofString "missing/out.txt"))) := by
  intro w
  let path : Path := .ofString "missing/out.txt"
  let a : Arguments := { input := "doc.dtdx", output := some "missing/out.txt" }
  let o : Options := ⟨.ofString "doc.dtdx", some path, .text, false, .number 2, false, false⟩
  have hparse : Arguments.parse ["doc.dtdx", "-o", "missing/out.txt"] = .ok a := by rfl
  have hconfig : w.files.locate a.configPath = .ok ["dtdx.toml"] :=
    FileTree.locate_name (by decide +kernel : a.configPath = ⟨"", ["dtdx.toml"]⟩) rfl (by simp)
      (by decide) (by decide)
  have hinput : w.files.locate o.input = .ok ["doc.dtdx"] :=
    FileTree.locate_name (by decide +kernel : o.input = ⟨"", ["doc.dtdx"]⟩) rfl (by simp)
      (by decide) (by decide)
  have houtput : w.files.locate path = .error (.refused .missing path) := by
    rw [w.files.locate_relative (by decide +kernel : _ = "missing/out.txt") (by simp)
      (by decide +kernel) (by decide +kernel)]
    decide +kernel
  have hsettings := settings_of_missing hconfig rfl
  have ho : optionsIn w.files a = .ok o := optionsIn_eq_ok_iff.mpr ⟨{}, hsettings, rfl⟩
  have hrendering :
      renderingIn w.files o = .ok (o.format.render o.positions (Grammar.tokens "a")) := by
    have hread : w.files.read o.input = .ok "a".toUTF8 := by
      simp only [FileTree.read, hinput]
      rfl
    have htext : Text.ofBytes? "a".toUTF8 = some "a" := by
      rw [Text.ofBytes?_toUTF8]
      rfl
    have htokens : tokenize "a" o.input.toString o.room.value = .ok (Grammar.tokens "a") :=
      tokenize_of_no_error _ (by decide) (by decide +kernel)
    simp only [renderingIn, hread, htext, htokens]
  have hwrite (text : String) :
      w.files.write path text.toUTF8 w.clock = .error (.refused .missing path) := by
    simp only [FileTree.write, houtput]
    rfl
  obtain ⟨log, hrun⟩ := run_of_fails hparse (.output ho hrendering rfl (hwrite _))
  rw [runScript_of_not_watch hparse rfl, hrun]
  rfl

end Command

end DocModelLexer
