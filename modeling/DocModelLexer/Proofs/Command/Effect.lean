import DocModelLexer.Proofs.Command.Outcome
import DocModelLexer.Proofs.FileTree.Frame
import DocModelLexer.Proofs.Text.Lines

namespace DocModelLexer

/-- Under a path there is a file that holds a text, which is read with its line ends unified. -/
def FileTree.ReadsAs (t : FileTree) (path : Path) (text : String) : Prop :=
  ∃ bytes, t.read path = .ok bytes ∧ Text.ofBytes? bytes = some text

theorem FileTree.ReadsAs.unique {t : FileTree} {path : Path} {text text' : String}
    (h : t.ReadsAs path text) (h' : t.ReadsAs path text') : text = text' := by
  obtain ⟨bytes, hread, htext⟩ := h
  obtain ⟨bytes', hread', htext'⟩ := h'
  cases hread.symm.trans hread'
  exact Option.some.inj (htext.symm.trans htext')

namespace Command

variable {texts : List String} {a : Arguments} {o : Options} {w : World}

theorem failed_frame (w : World) (f : Failure) (report : Option (Nat × String)) :
    (failed w f report).2.output = w.output ∧ (failed w f report).2.files = w.files := by
  cases report with
  | none => exact ⟨rfl, rfl⟩
  | some report => exact ⟨rfl, rfl⟩

theorem optionsReport?_code {f : Failure} {code : Nat} {line : String}
    (h : optionsReport? f = some (code, line)) : code = 2 := by
  cases f with
  | options e =>
    simp only [optionsReport?] at h
    split at h <;> cases h
    rfl
  | _ => cases h

theorem renderingIn_eq_ok_iff {t : FileTree} {rendering : String} :
    renderingIn t o = .ok rendering ↔
      ∃ text tokens, t.ReadsAs o.input text ∧
        tokenize text o.input.toString o.room.value = .ok tokens ∧
        rendering = o.format.render o.positions tokens := by
  unfold renderingIn FileTree.ReadsAs
  cases t.read o.input with
  | error e => simp
  | ok bytes =>
    cases htext : Text.ofBytes? bytes with
    | none => simp [htext]
    | some text =>
      cases htokenize : tokenize text o.input.toString o.room.value <;>
        simp [htext, htokenize, eq_comm]

theorem renderingIn_eq_file_iff {t : FileTree} {e : FileError} :
    renderingIn t o = .error (.file e) ↔ t.read o.input = .error e := by
  rw [renderingIn_eq_error_iff]
  simp

theorem renderingIn_eq_tokenize_iff {t : FileTree} {e : TokenizeError} :
    renderingIn t o = .error (.tokenize e) ↔
      ∃ text, t.ReadsAs o.input text ∧
        tokenize text o.input.toString o.room.value = .error e := by
  rw [renderingIn_eq_error_iff]
  simp only [FileTree.ReadsAs]
  grind

/-- A text is all that has been written, in the one place for it. -/
def Delivered (o : Options) (w w' : World) (text : String) : Prop :=
  match o.output with
  | none => w'.output = w.output ++ text ∧ w'.files = w.files
  | some path => w'.output = w.output ∧
      ∃ place, w.files.locate path = .ok place ∧
        w'.files = w.files.put place (.file text.toUTF8 w.clock)

theorem written_of_writable {text : String}
    (hwritable : ∀ path, o.output = some path → w.files.Writable path) :
    (written o w text).1 = .exit 0 ∧ Delivered o w (written o w text).2 text := by
  unfold written Delivered
  cases houtput : o.output with
  | none => exact ⟨rfl, rfl, rfl⟩
  | some path =>
    obtain ⟨place, hplace, hfree⟩ := hwritable path houtput
    simp only [FileTree.write_of_locate hplace hfree]
    exact ⟨trivial, trivial, place, hplace, rfl⟩

def outcomeOf : Except Failure String → Outcome
  | .ok _ => .exit 0
  | .error f =>
    match inputReport? f with
    | some (code, _) => .exit code
    | none => .crash f

theorem outcomeOf_cases (rendering : Except Failure String) :
    (outcomeOf rendering = .exit 0 ↔ ∃ text, rendering = .ok text) ∧
    (outcomeOf rendering = .exit 1 ↔ ∃ e, rendering = .error (.tokenize (.lexical e))) ∧
    (outcomeOf rendering = .exit 2 ↔
      ∃ cause path, rendering = .error (.file (.refused cause path))) ∧
    ∀ f, outcomeOf rendering = .crash f ↔ rendering = .error f ∧ inputReport? f = none := by
  cases rendering with
  | ok text => simp [outcomeOf]
  | error f =>
    cases f with
    | file e => cases e <;> simp [outcomeOf, inputReport?, FileError.isRefusal]
    | tokenize e => cases e <;> simp [outcomeOf, inputReport?]
    | _ => simp [outcomeOf, inputReport?]

theorem run_of_options (hparse : Arguments.parse texts = .ok a) (ho : optionsIn w.files a = .ok o)
    (hwritable : ∀ path, o.output = some path → w.files.Writable path) :
    ((run texts).run w).1 = outcomeOf (renderingIn w.files o) ∧
      ∀ text, renderingIn w.files o = .ok text → Delivered o w ((run texts).run w).2 text := by
  obtain ⟨log, hrun⟩ := run_eq hparse w
  have hwritten (text : String) :=
    @written_of_writable o { w with errors := w.errors ++ log } text hwritable
  rw [hrun, ho]
  simp only
  cases renderingIn w.files o with
  | error f =>
    refine ⟨?_, nofun⟩
    simp only [outcomeOf]
    cases inputReport? f <;> rfl
  | ok text =>
    refine ⟨(hwritten text).1, ?_⟩
    rintro _ ⟨⟩
    exact (hwritten text).2

theorem run_of_no_options {f : Failure} (hparse : Arguments.parse texts = .ok a)
    (h : optionsIn w.files a = .error f) :
    ((run texts).run w).1 = if (optionsReport? f).isSome then .exit 2 else .crash f := by
  obtain ⟨log, hrun⟩ := run_eq hparse w
  rw [hrun, h]
  simp only
  cases hreport : optionsReport? f with
  | none => rfl
  | some report =>
    obtain ⟨code, line⟩ := report
    cases optionsReport?_code hreport
    rfl

/-- A command that does not succeed has changed nothing but the log. -/
theorem run_frame (hparse : Arguments.parse texts = .ok a) (w : World)
    (h : ((run texts).run w).1 ≠ .exit 0) :
    ((run texts).run w).2.output = w.output ∧ ((run texts).run w).2.files = w.files := by
  obtain ⟨log, hrun⟩ := run_eq hparse w
  rw [hrun] at h ⊢
  split
  · exact failed_frame w _ _
  rename_i o ho
  rw [ho] at h
  simp only at h
  split
  · exact failed_frame _ _ _
  rename_i text htext
  rw [htext] at h
  simp only [written] at h ⊢
  split
  · rename_i hnone
    simp only [hnone] at h
    exact absurd rfl h
  rename_i path hpath
  simp only [hpath] at h
  split
  · rename_i files hwrite
    simp only [hwrite] at h
    exact absurd rfl h
  · exact ⟨rfl, rfl⟩

/-- There is a report of every failure over a text but one: that there cannot be such a path. -/
theorem unreported_iff {t : FileTree} (ho : optionsIn t a = .ok o)
    (hdecodable : ∀ bytes, t.read o.input = .ok bytes → ∃ text, Text.ofBytes? bytes = some text) :
    (∃ f, renderingIn t o = .error f ∧ inputReport? f = none) ↔
      t.read o.input = .error .nullCharacter := by
  constructor
  · rintro ⟨f, hrendering, hreport⟩
    rcases renderingIn_eq_error_iff.mp hrendering with ⟨e, hread, rfl⟩ |
      ⟨bytes, hread, ⟨hnone, rfl⟩ | ⟨text, e, htext, htokenize, rfl⟩⟩
    · cases e with
      | nullCharacter => exact hread
      | refused cause path => cases hreport
    · obtain ⟨text, htext⟩ := hdecodable bytes hread
      cases hnone.symm.trans htext
    · obtain ⟨s, -, hresolve⟩ := optionsIn_eq_ok_iff.mp ho
      obtain ⟨l, rfl⟩ := exists_lexical (of_resolve_ok hresolve).1 htokenize
      cases hreport
  · intro hread
    exact ⟨_, renderingIn_eq_file_iff.mpr hread, rfl⟩

/-- The exit code tells what became of a command. With zero the tokens of its input have been
written, once and in one place; with any other end nothing has been written, and every file is as it
was. -/
theorem writes_only_on_success (hparse : Arguments.parse texts = .ok a) (hwatch : a.watch = false)
    (edits : List Edit) (w : World) :
    let result := (runScript texts edits w).2
    (∀ o, optionsIn w.files a = .ok o →
      (∀ bytes, w.files.read o.input = .ok bytes → ∃ text, Text.ofBytes? bytes = some text) →
      (∀ path, o.output = some path → w.files.Writable path) →
      (result.1 = .exit 0 ↔ ∃ text tokens, w.files.ReadsAs o.input text ∧
        tokenize text o.input.toString o.room.value = .ok tokens) ∧
      (∀ text tokens, w.files.ReadsAs o.input text →
        tokenize text o.input.toString o.room.value = .ok tokens →
        Delivered o w result.2 (o.format.render o.positions tokens)) ∧
      (result.1 = .exit 1 ↔ ∃ text e, w.files.ReadsAs o.input text ∧
        tokenize text o.input.toString o.room.value = .error (.lexical e)) ∧
      (result.1 = .exit 2 ↔ ∃ cause, w.files.read o.input = .error (.refused cause o.input)) ∧
      ((∃ f, result.1 = .crash f) ↔ w.files.read o.input = .error .nullCharacter)) ∧
    (∀ f, optionsIn w.files a = .error f →
      result.1 = if (optionsReport? f).isSome then .exit 2 else .crash f) ∧
    (result.1 ≠ .exit 0 → result.2.output = w.output ∧ result.2.files = w.files) := by
  simp only [runScript_of_not_watch hparse hwatch]
  refine ⟨?_, fun f => run_of_no_options hparse, run_frame hparse w⟩
  intro o ho hdecodable hwritable
  obtain ⟨houtcome, hdelivered⟩ := run_of_options hparse ho hwritable
  obtain ⟨hzero, hone, htwo, hcrash⟩ := outcomeOf_cases (renderingIn w.files o)
  rw [houtcome]
  refine ⟨?_, ?_, ?_, ?_, ?_⟩
  · rw [hzero]
    constructor
    · rintro ⟨rendering, h⟩
      obtain ⟨text, tokens, hreads, htokens, -⟩ := renderingIn_eq_ok_iff.mp h
      exact ⟨text, tokens, hreads, htokens⟩
    · rintro ⟨text, tokens, hreads, htokens⟩
      exact ⟨_, renderingIn_eq_ok_iff.mpr ⟨text, tokens, hreads, htokens, rfl⟩⟩
  · intro text tokens hreads htokens
    exact hdelivered _ (renderingIn_eq_ok_iff.mpr ⟨text, tokens, hreads, htokens, rfl⟩)
  · rw [hone]
    constructor
    · rintro ⟨e, h⟩
      obtain ⟨text, hreads, htokenize⟩ := renderingIn_eq_tokenize_iff.mp h
      exact ⟨text, e, hreads, htokenize⟩
    · rintro ⟨text, e, hreads, htokenize⟩
      exact ⟨e, renderingIn_eq_tokenize_iff.mpr ⟨text, hreads, htokenize⟩⟩
  · rw [htwo]
    constructor
    · rintro ⟨cause, path, h⟩
      have hread := renderingIn_eq_file_iff.mp h
      cases FileTree.path_of_refused hread
      exact ⟨cause, hread⟩
    · rintro ⟨cause, hread⟩
      exact ⟨cause, o.input, renderingIn_eq_file_iff.mpr hread⟩
  · rw [← unreported_iff ho hdecodable]
    exact exists_congr hcrash

theorem writes_only_on_success_over_input :
    let w : World := { files := ⟨[(["doc.dtdx"], .file "a".toUTF8 0)], []⟩, clock := 7 }
    let text := (Format.text).render false (Grammar.tokens "a")
    ((runScript ["doc.dtdx", "-o", "doc.dtdx"] [] w).2.1 = .exit 0) ∧
      (runScript ["doc.dtdx", "-o", "doc.dtdx"] [] w).2.2.files =
        w.files.put ["doc.dtdx"] (.file text.toUTF8 7) := by
  intro w text
  let path : Path := .ofString "doc.dtdx"
  let a : Arguments := { input := "doc.dtdx", output := some "doc.dtdx" }
  let o : Options := ⟨path, some path, .text, false, .number 2, false, false⟩
  have hparse : Arguments.parse ["doc.dtdx", "-o", "doc.dtdx"] = .ok a := by rfl
  have hsettings : w.files.settings a.configPath = .ok {} :=
    settings_of_no_document (by decide +kernel) rfl rfl
  have hinput : w.files.locate path = .ok ["doc.dtdx"] :=
    FileTree.locate_name (by decide +kernel : path = ⟨"", ["doc.dtdx"]⟩) rfl (by simp)
      (by decide) (by decide)
  have ho : optionsIn w.files a = .ok o := optionsIn_eq_ok_iff.mpr ⟨{}, hsettings, rfl⟩
  have hread : w.files.read o.input = .ok "a".toUTF8 := FileTree.read_of_at? hinput
  have htext : Text.ofBytes? "a".toUTF8 = some "a" := by
    rw [Text.ofBytes?_toUTF8]
    rfl
  have htokens : tokenize "a" o.input.toString o.room.value = .ok (Grammar.tokens "a") :=
    tokenize_of_no_error _ (by decide) (by decide +kernel)
  have hdecodable : ∀ bytes, w.files.read o.input = .ok bytes →
      ∃ text, Text.ofBytes? bytes = some text := by
    intro bytes hbytes
    cases hread.symm.trans hbytes
    exact ⟨"a", htext⟩
  have hwritable : ∀ out, o.output = some out → w.files.Writable out := by
    rintro _ ⟨⟩
    refine ⟨["doc.dtdx"], hinput, ?_⟩
    rintro ⟨modified, h⟩
    cases h
  obtain ⟨hzero, hdelivered, -⟩ :=
    (writes_only_on_success hparse rfl [] w).1 o ho hdecodable hwritable
  have hreads : w.files.ReadsAs o.input "a" := ⟨_, hread, htext⟩
  obtain ⟨-, place, hplace, hfiles⟩ := hdelivered "a" _ hreads htokens
  cases hinput.symm.trans hplace
  exact ⟨hzero.mpr ⟨"a", _, hreads, htokens⟩, hfiles⟩

/-- A word without a dash is the input. -/
theorem parse_of_plain {text : String} (h : text.toList.head? ≠ some '-') :
    Arguments.parse [text] = .ok { input := text } := by
  have hmark : text ≠ "--" := by
    rintro rfl
    exact h rfl
  have hplain : Word.ofText text = .ok (.plain text) := by simp [Word.ofText, h]
  have hwords : Word.ofTexts [text] = .ok [.plain text] := by
    simp only [Word.ofTexts, if_neg hmark, hplain]
    rfl
  simp only [Arguments.parse, hwords]
  rfl

theorem path_of_slash {directory name : String} (hdirectory : '/' ∉ directory.toList)
    (hname : '/' ∉ name.toList) (hkept : directory ≠ "" ∧ directory ≠ ".")
    (hkept' : name ≠ "" ∧ name ≠ ".") :
    Path.ofString (directory ++ "/" ++ name) = ⟨"", [directory, name]⟩ := by
  have htext : (directory ++ "/" ++ name).toList = directory.toList ++ '/' :: name.toList := by
    simp
  have hroot : (directory.toList ++ '/' :: name.toList).takeWhile (· == '/') = [] := by
    cases hd : directory.toList with
    | nil => exact absurd (String.toList_eq_nil_iff.mp hd) hkept.1
    | cons c rest =>
      have hc : c ≠ '/' := by
        rintro rfl
        exact hdirectory (by simp [hd])
      simp [hc]
  unfold Path.ofString
  rw [htext, hroot, Text.splitOn_append, Text.splitOn_of_not_mem hdirectory,
    Text.splitOn_of_not_mem hname]
  simp [Path.rootOf, hkept, hkept']

def longName : String := String.ofList (List.replicate (FileTree.maxName + 1) 'x')

theorem eq_of_mem_longName {c : Char} (h : c ∈ longName.toList) : c = 'x' := by
  rw [longName, String.toList_ofList] at h
  exact List.eq_of_mem_replicate h

theorem longName_ne {name : String} (h : name.length ≤ FileTree.maxName) : longName ≠ name := by
  rintro rfl
  rw [longName, String.length_ofList, List.length_replicate] at h
  omega

/-- There are no settings beside an input that cannot be read because of its directory, and yet the
search for them brings the command down. -/
theorem search_for_settings_crash :
    let input := longName ++ "/" ++ "doc.dtdx"
    let w : World := { files := ⟨[], []⟩ }
    w.files.read (.ofString input) = .error (.refused .nameTooLong (.ofString input)) ∧
      (runScript [input] [] w).2.1 =
        .crash (.file (.refused .nameTooLong ⟨"", [longName, "dtdx.toml"]⟩)) := by
  intro input w
  let a : Arguments := { input := input }
  have hparse : Arguments.parse [input] = .ok a := by
    apply parse_of_plain
    intro hdash
    have hmem := List.mem_of_head? hdash
    simp only [input, String.toList_append, List.mem_append] at hmem
    rcases hmem with (hmem | hmem) | hmem
    · cases eq_of_mem_longName hmem
    · revert hmem
      decide
    · revert hmem
      decide
  have hinput : Path.ofString input = ⟨"", [longName, "doc.dtdx"]⟩ := by
    refine path_of_slash ?_ (by decide) ⟨longName_ne (by decide), longName_ne (by decide)⟩
      (by decide)
    intro hmem
    cases eq_of_mem_longName hmem
  have hconfig : a.configPath = ⟨"", [longName, "dtdx.toml"]⟩ := by
    change (Path.ofString input).parent.child configName = _
    rw [hinput]
    rfl
  have hrefused {path : Path} {name : String} (hpath : path = ⟨"", [longName, name]⟩)
      (hnull : '\x00' ∉ name.toList) :
      w.files.locate path = .error (.refused .nameTooLong path) := by
    refine FileTree.locate_of_long hpath ⟨0, rfl⟩ (longName_ne (by decide)) (by decide +kernel) ?_
    have hlong : '\x00' ∉ longName.toList := by
      intro hmem
      cases eq_of_mem_longName hmem
    simp [hpath, Path.toString, hnull, hlong]
  constructor
  · simp only [FileTree.read, hrefused hinput (by decide)]
    rfl
  · have hstatus : w.files.status a.configPath = .error (.refused .nameTooLong a.configPath) := by
      simp only [FileTree.status, hrefused hconfig (by decide)]
      rfl
    have hsettings := settings_eq_error_iff.mpr (.inl ⟨_, hstatus, rfl, rfl⟩)
    have hoptions : optionsIn w.files a = _ := optionsIn_eq_error_iff.mpr (.inl hsettings)
    rw [runScript_of_not_watch hparse rfl, run_of_no_options hparse hoptions, ← hconfig]
    exact if_neg Bool.false_ne_true

end Command

end DocModelLexer
