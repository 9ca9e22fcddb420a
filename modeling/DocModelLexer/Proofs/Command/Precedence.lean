import DocModelLexer.Proofs.Command.Stages

namespace DocModelLexer

/-- A document holds a value under a name in one of its tables. -/
def Toml.Table.Holds (config : Toml.Table) (group name : String) (value : Toml.Value) : Prop :=
  ∃ entries, config.get? group = some (.table entries) ∧ Toml.Table.get? entries name = some value

def Room.asked : Room → Toml.Value
  | number n => .integer n
  | truth b => .boolean b

/-- The document that is found under a path. It is empty where there is no file. -/
inductive FileTree.Documents (t : FileTree) (path : Path) : Toml.Table → Prop
  | missing {e : FileError} (h : t.status path = .error e) (he : e.isAbsence = true) :
      Documents t path []
  | other {s : Status} (h : t.status path = .ok s) (hs : s.isFile = false) : Documents t path []
  | file {bytes : ByteArray} {text : String} {config : Toml.Table} (h : t.read path = .ok bytes)
      (htext : String.fromUTF8? bytes = some text) (htoml : Toml.read text = .ok config) :
      Documents t path config

/-- What a setting comes to: what is given for it, else what is held for it, else what is usual. -/
inductive Layered {α : Type} (given : Option α) (held : α → Prop) (usual : α) : α → Prop
  | given {x : α} (h : given = some x) : Layered given held usual x
  | held {x : α} (hgiven : given = none) (h : held x) : Layered given held usual x
  | usual (hgiven : given = none) (h : ∀ x, ¬held x) : Layered given held usual usual

/-- The wishes of a command line and a settings document. -/
structure Wishes.Asked (a : Arguments) (config : Toml.Table) (x : Wishes) : Prop where
  room : Layered ((a.bufferSize.bind Given.value?).map Room.number)
    (fun room => config.Holds "lexer" "buffer_size" room.asked) (.number 2) x.room
  format : Layered (a.format.map Options.formatName)
    (fun name => config.Holds "output" "format" (.text name)) "text" x.format
  positions : Layered (if a.positions then some true else none)
    (fun b => config.Holds "output" "positions" (.boolean b)) false x.positions

/-- Two documents hold the same settings, whatever else they hold. -/
structure Toml.Table.SameSettings (config config' : Toml.Table) : Prop where
  room : ∀ room : Room, config.Holds "lexer" "buffer_size" room.asked ↔
    config'.Holds "lexer" "buffer_size" room.asked
  format : ∀ name, config.Holds "output" "format" (.text name) ↔
    config'.Holds "output" "format" (.text name)
  positions : ∀ b, config.Holds "output" "positions" (.boolean b) ↔
    config'.Holds "output" "positions" (.boolean b)

namespace Settings

variable {config config' : Toml.Table} {group name : String}

theorem lookup?_eq_some_iff {value : Toml.Value} :
    lookup? config group name = some value ↔ config.Holds group name value := by
  unfold lookup? Toml.Table.Holds
  constructor
  · intro h
    split at h
    · rename_i entries hgroup
      exact ⟨entries, hgroup, h⟩
    · cases h
  · rintro ⟨entries, hgroup, h⟩
    rw [hgroup]
    exact h

theorem bind_lookup?_eq_some_iff {α : Type} {kind? : Toml.Value → Option α} {form : α → Toml.Value}
    (hkind : ∀ value x, kind? value = some x ↔ value = form x) (x : α) :
    (lookup? config group name).bind kind? = some x ↔ config.Holds group name (form x) := by
  rw [Option.bind_eq_some_iff]
  constructor
  · rintro ⟨value, hvalue, hx⟩
    rw [← (hkind value x).mp hx]
    exact lookup?_eq_some_iff.mp hvalue
  · intro h
    exact ⟨form x, lookup?_eq_some_iff.mpr h, (hkind _ x).mpr rfl⟩

theorem room?_eq_some_iff (value : Toml.Value) (room : Room) :
    room? value = some room ↔ value = room.asked := by
  cases value <;> cases room <;> simp [room?, Room.asked]

theorem text?_eq_some_iff (value : Toml.Value) (text : String) :
    text? value = some text ↔ value = .text text := by
  cases value <;> simp [text?]

theorem truth?_eq_some_iff (value : Toml.Value) (b : Bool) :
    truth? value = some b ↔ value = .boolean b := by
  cases value <;> simp [truth?]

variable (config) in
theorem ofTable_eq_some_iff :
    (∀ room, (ofTable config).room = some room ↔
      config.Holds "lexer" "buffer_size" room.asked) ∧
    (∀ text, (ofTable config).format = some text ↔
      config.Holds "output" "format" (.text text)) ∧
    ∀ b, (ofTable config).positions = some b ↔ config.Holds "output" "positions" (.boolean b) :=
  ⟨bind_lookup?_eq_some_iff room?_eq_some_iff, bind_lookup?_eq_some_iff text?_eq_some_iff,
    bind_lookup?_eq_some_iff truth?_eq_some_iff⟩

theorem ofTable_congr (h : config.SameSettings config') : ofTable config = ofTable config' := by
  obtain ⟨hroom, hformat, hpositions⟩ := ofTable_eq_some_iff config
  obtain ⟨hroom', hformat', hpositions'⟩ := ofTable_eq_some_iff config'
  have h1 : (ofTable config).room = (ofTable config').room := Option.ext fun room => by
    rw [hroom, hroom', h.room]
  have h2 : (ofTable config).format = (ofTable config').format := Option.ext fun text => by
    rw [hformat, hformat', h.format]
  have h3 : (ofTable config).positions = (ofTable config').positions := Option.ext fun b => by
    rw [hpositions, hpositions', h.positions]
  rw [ofTable, ofTable, Settings.mk.injEq]
  exact ⟨h1, h2, h3⟩

end Settings

theorem FileTree.Documents.settings_eq {t : FileTree} {path : Path} {config : Toml.Table}
    (h : t.Documents path config) : t.settings path = .ok (.ofTable config) := by
  unfold FileTree.settings
  rcases t.status_cases path with ⟨e, hstatus, hread⟩ | ⟨s, e, hstatus, hother, hread⟩ |
    ⟨s, bytes, hstatus, hfile, hread⟩ <;> rw [hstatus, hread]
  · cases h with
    | missing h he =>
      cases h.symm.trans hstatus
      simp only [he]
      rfl
    | other h => cases h.symm.trans hstatus
    | file h => cases h.symm.trans hread
  · cases h with
    | missing h => cases h.symm.trans hstatus
    | other => rfl
    | file h => cases h.symm.trans hread
  · cases h with
    | missing h => cases h.symm.trans hstatus
    | other h hs =>
      cases h.symm.trans hstatus
      cases hs.symm.trans hfile
    | file h htext htoml =>
      cases h.symm.trans hread
      simp only [Settings.ofBytes, htext, htoml]

theorem FileTree.exists_document {t : FileTree} {path : Path} {text : String} {s : Settings}
    (hread : t.read path = .ok text.toUTF8) (hs : (Toml.read text).map Settings.ofTable = .ok s) :
    ∃ config, t.Documents path config ∧ Settings.ofTable config = s := by
  cases htoml : Toml.read text with
  | error e =>
    rw [htoml] at hs
    cases hs
  | ok config =>
    rw [htoml] at hs
    cases hs
    exact ⟨config, .file hread (Text.fromUTF8?_toUTF8 text) htoml, rfl⟩

theorem FileTree.exists_document_alone {path : Path} {text : String} {s : Settings}
    (hpath : path = ⟨"", ["dtdx.toml"]⟩)
    (hs : (Toml.read text).map Settings.ofTable = .ok s) :
    ∃ config, (⟨[(["dtdx.toml"], .file text.toUTF8 0)], []⟩ : FileTree).Documents path config ∧
      Settings.ofTable config = s := by
  have hplace := FileTree.locate_name (t := ⟨[(["dtdx.toml"], .file text.toUTF8 0)], []⟩) hpath rfl
    (by simp) (by decide) (by decide)
  refine exists_document ?_ hs
  simp only [read, hplace]
  rfl

theorem layered_iff {α : Type} {given found : Option α} {held : α → Prop} {usual x : α}
    (hfound : ∀ y, found = some y ↔ held y) :
    Layered given held usual x ↔ (given <|> found).getD usual = x := by
  constructor
  · intro h
    cases h with
    | given h => rw [h]; rfl
    | held hgiven h => rw [hgiven, (hfound x).mpr h]; rfl
    | usual hgiven h =>
      have hnone : found = none := Option.eq_none_iff_forall_ne_some.mpr fun y hy =>
        h y ((hfound y).mp hy)
      rw [hgiven, hnone]
      rfl
  · rintro rfl
    cases given with
    | some y => exact .given rfl
    | none =>
      cases found with
      | some y => exact .held rfl ((hfound y).mp rfl)
      | none =>
        refine .usual rfl fun y hheld => ?_
        cases (hfound y).mpr hheld

namespace Format

variable {name : String} {format : Format}

theorem ofName?_eq_some_iff : ofName? name = some format ↔ format.name = name := by
  constructor
  · intro h
    simpa using List.find?_some h
  · rintro rfl
    exact ofName?_name format

theorem ofName?_eq_none_iff : ofName? name = none ↔ name ≠ "text" ∧ name ≠ "json" := by
  constructor
  · intro h
    constructor <;> rintro rfl
    · cases h.symm.trans (ofName?_name text)
    · cases h.symm.trans (ofName?_name json)
  · rintro ⟨htext, hjson⟩
    refine Option.eq_none_iff_forall_ne_some.mpr fun format h => ?_
    have hname := ofName?_eq_some_iff.mp h
    cases format with
    | text => exact htext hname.symm
    | json => exact hjson hname.symm

end Format

namespace Options

variable {a : Arguments} {config : Toml.Table} {x : Wishes} {s : Settings}

theorem asked_iff : x.Asked a config ↔ wishes a (.ofTable config) = x := by
  obtain ⟨hroom, hformat, hpositions⟩ := Settings.ofTable_eq_some_iff config
  constructor
  · rintro ⟨h1, h2, h3⟩
    rw [layered_iff hroom] at h1
    rw [layered_iff hformat] at h2
    rw [layered_iff hpositions] at h3
    rw [wishes, h1, h2, h3]
  · rintro rfl
    exact ⟨(layered_iff hroom).mpr rfl, (layered_iff hformat).mpr rfl,
      (layered_iff hpositions).mpr rfl⟩

theorem resolve_of_small (hroom : a.bufferSize ≠ some .blank)
    (hsmall : (wishes a s).room.value < 1) :
    resolve a s = .error (.roomTooSmall (wishes a s).room) := by
  rw [resolve_eq hroom]
  exact if_pos hsmall

theorem resolve_of_unknown (hroom : a.bufferSize ≠ some .blank)
    (hlarge : 1 ≤ (wishes a s).room.value) (hformat : Format.ofName? (wishes a s).format = none) :
    resolve a s = .error (.unknownFormat (wishes a s).format) := by
  rw [resolve_eq hroom]
  simp only [if_neg (Int.not_lt.mpr hlarge), hformat]

theorem resolve_of_format (hroom : a.bufferSize ≠ some .blank)
    (hlarge : 1 ≤ (wishes a s).room.value) {format : Format}
    (hformat : Format.ofName? (wishes a s).format = some format) :
    resolve a s = .ok ⟨.ofString a.input, pathOf? a.output, format, (wishes a s).positions,
      (wishes a s).room, a.watch, a.debug⟩ := by
  rw [resolve_eq hroom]
  simp only [if_neg (Int.not_lt.mpr hlarge), hformat]

theorem resolve_reported_iff (hroom : a.bufferSize ≠ some .blank) :
    (∃ e : OptionsError, e.isReported = true ∧ resolve a s = .error e) ↔
      (wishes a s).room.value < 1 ∨
        ((wishes a s).format ≠ "text" ∧ (wishes a s).format ≠ "json") := by
  rw [← Format.ofName?_eq_none_iff]
  rcases Int.lt_or_le (wishes a s).room.value 1 with hsmall | hlarge
  · rw [resolve_of_small hroom hsmall]
    exact ⟨fun _ => .inl hsmall, fun _ => ⟨_, rfl, rfl⟩⟩
  · cases hformat : Format.ofName? (wishes a s).format with
    | none =>
      rw [resolve_of_unknown hroom hlarge hformat]
      exact ⟨fun _ => .inr rfl, fun _ => ⟨_, rfl, rfl⟩⟩
    | some format =>
      rw [resolve_of_format hroom hlarge hformat]
      constructor
      · rintro ⟨e, -, h⟩
        cases h
      · rintro (hsmall | h)
        · omega
        · cases h

end Options

namespace Command

/-- What a command line and a document ask for, setting by setting, is checked and makes the
options. No other part of the document counts, nor a value of another kind, but that a truth value
asks for a room of one or none. -/
theorem readOptions_layered {a : Arguments} {w : World} {config : Toml.Table}
    (hconfig : w.files.Documents a.configPath config) :
    let result := ((readOptions a).on w).1
    (a.bufferSize = some .blank → result = .error (.options .roomBlank)) ∧
    (a.bufferSize ≠ some .blank →
      (∃ x, Wishes.Asked a config x) ∧ ∀ x, Wishes.Asked a config x →
        (x.room.value < 1 → result = .error (.options (.roomTooSmall x.room))) ∧
        (1 ≤ x.room.value → x.format ≠ "text" → x.format ≠ "json" →
          result = .error (.options (.unknownFormat x.format))) ∧
        (∀ format : Format, 1 ≤ x.room.value → format.name = x.format →
          result = .ok ⟨.ofString a.input, pathOf? a.output, format, x.positions, x.room, a.watch,
            a.debug⟩) ∧
        ((∃ e : OptionsError, e.isReported = true ∧ result = .error (.options e)) ↔
          x.room.value < 1 ∨ (x.format ≠ "text" ∧ x.format ≠ "json"))) ∧
    ∀ (w' : World) (config' : Toml.Table), w'.files.Documents a.configPath config' →
      config.SameSettings config' → ((readOptions a).on w').1 = result := by
  intro result
  have hresult {w : World} {config : Toml.Table} (h : w.files.Documents a.configPath config) :
      ((readOptions a).on w).1 = (Options.resolve a (.ofTable config)).mapError .options := by
    rw [on_readOptions, optionsIn, h.settings_eq]
  refine ⟨fun hblank => ?_, fun hgiven => ⟨⟨_, Options.asked_iff.mpr rfl⟩, fun x hx => ?_⟩, ?_⟩
  · simp only [result, hresult hconfig, resolve_of_blank hblank]
    rfl
  · obtain rfl := Options.asked_iff.mp hx
    simp only [result, hresult hconfig]
    refine ⟨fun hsmall => ?_, fun hlarge htext hjson => ?_, fun format hlarge hname => ?_, ?_⟩
    · rw [Options.resolve_of_small hgiven hsmall]
      rfl
    · rw [Options.resolve_of_unknown hgiven hlarge (Format.ofName?_eq_none_iff.mpr ⟨htext, hjson⟩)]
      rfl
    · rw [Options.resolve_of_format hgiven hlarge (Format.ofName?_eq_some_iff.mpr hname)]
      rfl
    · rw [← Options.resolve_reported_iff hgiven]
      cases Options.resolve a (.ofTable config) <;> simp [Except.mapError]
  · intro w' config' hconfig' hsame
    rw [hresult hconfig', ← Settings.ofTable_congr hsame]
    exact (hresult hconfig).symm

theorem readOptions_layered_override :
    let document := "[lexer]\nbuffer_size = 0\n[output]\nformat = \"yaml\"\npositions = true\n"
    let w : World := { files := ⟨[(["dtdx.toml"], .file document.toUTF8 0)], []⟩ }
    let a : Arguments :=
      { input := "doc.dtdx", bufferSize := some (.value 3), format := some (.value .json) }
    ((readOptions a).on w).1 =
      .ok ⟨.ofString "doc.dtdx", none, .json, true, .number 3, false, false⟩ := by
  intro document w a
  have hpath : a.configPath = ⟨"", ["dtdx.toml"]⟩ := by decide +kernel
  have hsettings : (Toml.read document).map Settings.ofTable =
      .ok ⟨some (.number 0), some "yaml", some true⟩ := by decide +kernel
  obtain ⟨config, hconfig, hs⟩ := FileTree.exists_document_alone hpath hsettings
  obtain ⟨-, hgiven, -⟩ := readOptions_layered (w := w) hconfig
  have hasked : Wishes.Asked a config ⟨.number 3, "json", true⟩ :=
    Options.asked_iff.mpr (by rw [hs]; rfl)
  obtain ⟨-, -, hok, -⟩ := (hgiven (by simp [a])).2 _ hasked
  exact hok .json (by decide) rfl

/-- A document without a number for the room is refused for the truth value that it holds. -/
theorem truth_for_room :
    let document := "[lexer]\nbuffer_size = false\n"
    let w : World := { files := ⟨[(["dtdx.toml"], .file document.toUTF8 0)], []⟩ }
    let a : Arguments := { input := "doc.dtdx" }
    ∃ config, w.files.Documents a.configPath config ∧
      (∀ n, ¬config.Holds "lexer" "buffer_size" (.integer n)) ∧
      ((readOptions a).on w).1 = .error (.options (.roomTooSmall (.truth false))) := by
  intro document w a
  have hpath : a.configPath = ⟨"", ["dtdx.toml"]⟩ := by decide +kernel
  have hsettings : (Toml.read document).map Settings.ofTable =
      .ok { room := some (.truth false) } := by decide +kernel
  obtain ⟨config, hconfig, hs⟩ := FileTree.exists_document_alone hpath hsettings
  refine ⟨config, hconfig, ?_, ?_⟩
  · intro n hn
    have hroom := ((Settings.ofTable_eq_some_iff config).1 (.number n)).mpr hn
    rw [hs] at hroom
    cases hroom
  · rw [on_readOptions, optionsIn, hconfig.settings_eq, hs]
    rfl

end Command

end DocModelLexer
