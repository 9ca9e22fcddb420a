import DocModelLexer.Proofs.Command.Effect
import DocModelLexer.Proofs.Grammar.CarriageReturn
import DocModelLexer.Proofs.Tokenize.Diagnosis

namespace DocModelLexer

/-- A document has one diagnostic, with this message. -/
def Diagnosed (uri text message : String) : Prop :=
  ∃ d, diagnose uri text = .ok [d] ∧ d.message = message

theorem diagnosed_iff {uri text message : String} :
    Diagnosed uri text message ↔
      ∃ t ∈ Grammar.tokens text, t.isError = true ∧ t.value = message := by
  have hroom : (1 : Int) ≤ 2 := by decide
  constructor
  · rintro ⟨d, hd, rfl⟩
    rcases exists_isError_or text with ⟨t, ht, herror⟩ | hnone
    · obtain ⟨span, -, heq⟩ := tokenize_of_isError (documentName uri) hroom ht herror
      cases hd.symm.trans (diagnose_of_error heq)
      exact ⟨t, ht, herror, rfl⟩
    · unfold diagnose at hd
      rw [tokenize_of_no_error (documentName uri) hroom hnone] at hd
      cases hd
  · rintro ⟨t, ht, herror, rfl⟩
    obtain ⟨span, -, heq⟩ := tokenize_of_isError (documentName uri) hroom ht herror
    exact ⟨_, diagnose_of_error heq, rfl⟩

namespace Command

variable {texts : List String} {a : Arguments} {o : Options} {w : World}

/-- A command reports a lexical error of its input, with this message. -/
def Reports (o : Options) (w : World) (result : Outcome × World) (message : String) : Prop :=
  ∃ e log, renderingIn w.files o = .error (.tokenize (.lexical e)) ∧ e.message = message ∧
    result.1 = .exit 1 ∧ result.2.errors = w.errors ++ log ++ (e.text ++ "\n")

theorem reports_of_lexical {e : LexicalError} (hparse : Arguments.parse texts = .ok a)
    (ho : optionsIn w.files a = .ok o)
    (h : renderingIn w.files o = .error (.tokenize (.lexical e))) :
    Reports o w ((run texts).run w) e.message := by
  obtain ⟨log, hrun⟩ := run_eq hparse w
  simp only [ho, h] at hrun
  rw [hrun]
  exact ⟨e, log, h, rfl, rfl, rfl⟩

theorem lexical_of_exit_one (hparse : Arguments.parse texts = .ok a)
    (ho : optionsIn w.files a = .ok o) (h : ((run texts).run w).1 = .exit 1) :
    ∃ e, renderingIn w.files o = .error (.tokenize (.lexical e)) := by
  obtain ⟨log, hrun⟩ := run_eq hparse w
  simp only [ho] at hrun
  rw [hrun] at h
  cases hrendering : renderingIn w.files o with
  | error f =>
    rw [hrendering] at h
    cases f with
    | file e =>
      simp only [inputReport?] at h
      split at h <;> cases h
    | tokenize e =>
      cases e with
      | lexical e => exact ⟨e, rfl⟩
      | _ => cases h
    | _ => cases h
  | ok text =>
    simp only [hrendering, written] at h
    split at h
    · cases h
    · split at h <;> cases h

variable {text : String}

theorem reports_iff (hparse : Arguments.parse texts = .ok a) (ho : optionsIn w.files a = .ok o)
    (hreads : w.files.ReadsAs o.input text) (message : String) :
    Reports o w ((run texts).run w) message ↔
      ∃ t ∈ Grammar.tokens text, t.isError = true ∧ t.value = message := by
  constructor
  · rintro ⟨e, log, hrendering, rfl, -⟩
    obtain ⟨text', hreads', htokenize⟩ := renderingIn_eq_tokenize_iff.mp hrendering
    cases hreads.unique hreads'
    obtain ⟨t, ht, herror, span, -, rfl⟩ := exists_token htokenize
    exact ⟨t, ht, herror, rfl⟩
  · rintro ⟨t, ht, herror, rfl⟩
    obtain ⟨s, -, hresolve⟩ := optionsIn_eq_ok_iff.mp ho
    obtain ⟨span, -, htokenize⟩ :=
      tokenize_of_isError o.input.toString (of_resolve_ok hresolve).1 ht herror
    exact reports_of_lexical hparse ho (renderingIn_eq_tokenize_iff.mpr ⟨text, hreads, htokenize⟩)

/-- On every text the command and an editor that has it with its line ends unified say the same, so
they agree on texts without carriage returns. One that no comment holds is an error to an editor,
and never to the command. -/
theorem reports_iff_diagnosed {t : String} (hparse : Arguments.parse texts = .ok a)
    (hwatch : a.watch = false) (edits : List Edit) (ho : optionsIn w.files a = .ok o)
    (hread : w.files.read o.input = .ok t.toUTF8) (uri : String) :
    let result := (runScript texts edits w).2
    let source := String.ofList (Text.unifyLineEnds t.toList)
    (result.1 = .exit 1 ↔ ∃ message, Reports o w result message) ∧
    (∀ message, Reports o w result message ↔ Diagnosed uri source message) ∧
    ('\r' ∉ t.toList → ∀ message, Reports o w result message ↔ Diagnosed uri t message) ∧
    ∀ (known : String) (lines : List (List Char)) (last ahead : List Char),
      t.toList = known.toList ++ '\r' :: ahead → known.toList = Text.ended lines ++ last →
      (∀ line ∈ lines, '\n' ∉ line) → '\n' ∉ last →
      (∀ token ∈ Grammar.tokens known, token.isError = false) →
      (∀ l ∈ Grammar.lexemesOf last, l.isComment = false) →
      Diagnosed uri t Grammar.returnMessage ∧ ¬Reports o w result Grammar.returnMessage := by
  simp only [runScript_of_not_watch hparse hwatch]
  have hreads : w.files.ReadsAs o.input (String.ofList (Text.unifyLineEnds t.toList)) :=
    ⟨_, hread, Text.ofBytes?_toUTF8 t⟩
  have hreports := reports_iff hparse ho hreads
  refine ⟨?_, ?_, ?_, ?_⟩
  · constructor
    · intro hexit
      obtain ⟨e, he⟩ := lexical_of_exit_one hparse ho hexit
      exact ⟨_, reports_of_lexical hparse ho he⟩
    · rintro ⟨message, e, log, -, -, hexit, -⟩
      exact hexit
  · intro message
    rw [hreports, diagnosed_iff]
  · intro hreturn message
    rw [hreports, diagnosed_iff, Text.unifyLineEnds_of_not_mem hreturn, String.ofList_toList]
  · intro known lines last ahead htext hknown hlines hlast herror hcomment
    refine ⟨diagnosed_iff.mpr ?_, ?_⟩
    · exact Grammar.exists_return_error hknown hlines hlast herror hcomment htext
    · rw [hreports]
      rintro ⟨token, htoken, hisError, hvalue⟩
      refine Grammar.value_ne_returnMessage ?_ htoken hisError hvalue
      rw [String.toList_ofList]
      exact Text.not_mem_unifyLineEnds t.toList

def oneFile (content : ByteArray) : FileTree := ⟨[(["doc.dtdx"], .file content 0)], []⟩

def defaults : Options := ⟨⟨"", ["doc.dtdx"]⟩, none, .text, false, .number 2, false, false⟩

theorem optionsIn_oneFile (content : ByteArray) :
    optionsIn (oneFile content) { input := "doc.dtdx" } = .ok defaults := by
  have hsettings := settings_of_no_document (t := oneFile content)
    (by decide +kernel : ({ input := "doc.dtdx" } : Arguments).configPath = ⟨"", ["dtdx.toml"]⟩)
    rfl rfl
  exact optionsIn_eq_ok_iff.mpr ⟨{}, hsettings, by decide +kernel⟩

theorem read_oneFile (content : ByteArray) :
    (oneFile content).read defaults.input = .ok content :=
  FileTree.read_of_at? (FileTree.locate_name rfl rfl (by simp) (by decide) (by decide))

theorem reports_iff_diagnosed_unexpected :
    (runScript ["doc.dtdx"] [] { files := oneFile "$".toUTF8 }).2.1 = .exit 1 := by
  let w : World := { files := oneFile "$".toUTF8 }
  have hparse : Arguments.parse ["doc.dtdx"] = .ok { input := "doc.dtdx" } := by rfl
  obtain ⟨hexit, -, hagree, -⟩ := reports_iff_diagnosed (w := w) hparse rfl []
    (optionsIn_oneFile _) (read_oneFile _) "file:///a.dtdx"
  have htoken := tokenize_of_mem
    (by decide +kernel : ⟨errorType, "Unexpected unicode character (U+0024 '$') in outer context.",
      some ⟨⟨1, 1, 0⟩, ⟨1, 2, 1⟩⟩⟩ ∈ Grammar.tokens "$") (documentName "file:///a.dtdx")
  exact hexit.mpr ⟨_, (hagree (by decide) _).mpr ⟨_, diagnose_of_error htoken, rfl⟩⟩

/-- Of a line that ends as on other systems the command says nothing, but an editor does. -/
theorem diagnosed_line_end :
    (runScript ["doc.dtdx"] [] { files := oneFile "a\r\n".toUTF8 }).2.1 = .exit 0 ∧
      Diagnosed "file:///a.dtdx" "a\r\n"
        "Unexpected unicode character (U+000D '\r') in outer context." := by
  let w : World := { files := oneFile "a\r\n".toUTF8 }
  have hparse : Arguments.parse ["doc.dtdx"] = .ok { input := "doc.dtdx" } := by rfl
  constructor
  · have htokens : tokenize "a\n" defaults.input.toString defaults.room.value =
        .ok (Grammar.tokens "a\n") := tokenize_of_no_error _ (by decide) (by decide +kernel)
    have hreads : w.files.ReadsAs defaults.input "a\n" :=
      ⟨_, read_oneFile _, Text.ofBytes?_toUTF8 "a\r\n"⟩
    have hrendering := renderingIn_eq_ok_iff.mpr ⟨_, _, hreads, htokens, rfl⟩
    have hstdout : ∀ path, defaults.output = some path → w.files.Writable path := by
      intro path hpath
      cases hpath
    obtain ⟨hexit, -⟩ := run_of_options (w := w) hparse (optionsIn_oneFile _) hstdout
    rw [runScript_of_not_watch hparse rfl, hexit]
    exact congrArg outcomeOf hrendering
  · have htoken := tokenize_of_mem
      (by decide +kernel : ⟨errorType,
        "Unexpected unicode character (U+000D '\r') in outer context.",
        some ⟨⟨1, 2, 1⟩, ⟨1, 3, 2⟩⟩⟩ ∈ Grammar.tokens "a\r\n") (documentName "file:///a.dtdx")
    exact ⟨_, diagnose_of_error htoken, rfl⟩

end Command

end DocModelLexer
