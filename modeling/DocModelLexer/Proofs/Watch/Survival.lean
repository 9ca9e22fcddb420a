import DocModelLexer.Proofs.Watch.Look

namespace DocModelLexer

namespace Watch

variable {o : Options}

/-- What a look finds: the time of change seen last, and the world. -/
structure Sight where
  seen : Int
  world : World

namespace Sight

def Lasts (o : Options) (s : Sight) : Prop := ∀ f, ¬Ends o s.seen s.world f

def poll (o : Options) (s : Sight) : Poll := s.world.pending.append (told o s.seen s.world.files)

def next (o : Options) (s : Sight) (e : Edit) : Sight :=
  ⟨seenAfter o s.seen s.world.files, (takePoll (after o s.seen s.world)).2.edit e⟩

end Sight

/-- What the looks of a watch find that nothing ends. -/
def sights (o : Options) (s : Sight) (edits : List Edit) : List Sight :=
  edits.scanl (Sight.next o) s

theorem sights_cons (s : Sight) (e : Edit) (edits : List Edit) :
    sights o s (e :: edits) = s :: sights o (s.next o e) edits := by
  simp [sights]

theorem length_sights (s : Sight) (edits : List Edit) :
    (sights o s edits).length = edits.length + 1 := by
  simp [sights]

variable {s : Sight} {edits : List Edit}

theorem runScript_of_ends {f : Failure} (edits : List Edit) (h : Ends o s.seen s.world f) :
    (runScript o s.seen edits s.world).1 = [] ∧
      (runScript o s.seen edits s.world).2.1 = .crash f := by
  have hlook : ((look o s.seen).run.run s.world).1 = .error f := look_of_ends h
  unfold runScript
  rcases hresult : (look o s.seen).run.run s.world with ⟨result, w⟩
  rw [hresult] at hlook
  subst hlook
  exact ⟨rfl, rfl⟩

theorem runScript_of_lasts (edits : List Edit) (hroom : 1 ≤ o.room.value) (h : s.Lasts o) :
    runScript o s.seen edits s.world =
      match edits with
      | [] => ([s.poll o], .exit 0, (takePoll (after o s.seen s.world)).2)
      | e :: edits =>
        (s.poll o :: (runScript o (s.next o e).seen edits (s.next o e).world).1,
          (runScript o (s.next o e).seen edits (s.next o e).world).2) := by
  have hlook : (look o s.seen).run.run s.world =
      (.ok (seenAfter o s.seen s.world.files), after o s.seen s.world) := look_of_lasts hroom h
  rw [runScript.eq_def]
  simp only [hlook]
  cases edits <;> rfl

/-- A run comes through its first `n` looks: to its end, or to a look that is ended. -/
structure Trace (o : Options) (s : Sight) (edits : List Edit) (n : Nat) : Prop where
  lasts : ∀ x ∈ (sights o s edits).take n, x.Lasts o
  polls : (runScript o s.seen edits s.world).1 = ((sights o s edits).take n).map (Sight.poll o)
  ending : n = edits.length + 1 ∧ (runScript o s.seen edits s.world).2.1 = .exit 0 ∨
    ∃ x f, (sights o s edits)[n]? = some x ∧ Ends o x.seen x.world f ∧
      (runScript o s.seen edits s.world).2.1 = .crash f

theorem trace_of_not_lasts (h : ¬s.Lasts o) : Trace o s edits 0 := by
  obtain ⟨f, hends⟩ : ∃ f, Ends o s.seen s.world f := by simpa [Sight.Lasts] using h
  obtain ⟨hpolls, hcrash⟩ := runScript_of_ends edits hends
  have hfirst : (sights o s edits)[0]? = some s := by cases edits <;> simp [sights]
  exact ⟨by simp, hpolls, .inr ⟨s, f, hfirst, hends, hcrash⟩⟩

theorem Trace.cons {e : Edit} {n : Nat} (hroom : 1 ≤ o.room.value) (h : s.Lasts o)
    (ht : Trace o (s.next o e) edits n) : Trace o s (e :: edits) (n + 1) := by
  have hrun := runScript_of_lasts (e :: edits) hroom h
  refine ⟨?_, ?_, ?_⟩
  · rw [sights_cons, List.take_succ_cons]
    rintro x (_ | ⟨_, hx⟩)
    · exact h
    · exact ht.lasts x hx
  · rw [hrun, sights_cons, List.take_succ_cons, List.map_cons, ← ht.polls]
  · rw [hrun, sights_cons, List.getElem?_cons_succ]
    rcases ht.ending with ⟨rfl, hexit⟩ | hcrash
    · exact .inl ⟨rfl, hexit⟩
    · exact .inr hcrash

/-- A run goes from look to look until all are done or one is ended. -/
theorem exists_trace (hroom : 1 ≤ o.room.value) (s : Sight) (edits : List Edit) :
    ∃ n, Trace o s edits n := by
  induction edits generalizing s with
  | nil =>
    by_cases h : s.Lasts o
    · have hrun := runScript_of_lasts [] hroom h
      refine ⟨1, ?_, ?_, .inl ⟨rfl, ?_⟩⟩
      · simpa [sights] using h
      · rw [hrun]
        rfl
      · rw [hrun]
    · exact ⟨0, trace_of_not_lasts h⟩
  | cons e edits ih =>
    by_cases h : s.Lasts o
    · obtain ⟨n, ht⟩ := ih (s.next o e)
      exact ⟨n + 1, ht.cons hroom h⟩
    · exact ⟨0, trace_of_not_lasts h⟩

theorem runScript_of_all_last (hroom : 1 ≤ o.room.value) (h : ∀ x ∈ sights o s edits, x.Lasts o) :
    ∃ last, (sights o s edits).getLast? = some last ∧
      runScript o s.seen edits s.world =
        ((sights o s edits).map (Sight.poll o), .exit 0,
          (takePoll (after o last.seen last.world)).2) := by
  induction edits generalizing s with
  | nil =>
    have hfirst : s.Lasts o := h s (by simp [sights])
    exact ⟨s, rfl, runScript_of_lasts [] hroom hfirst⟩
  | cons e edits ih =>
    rw [sights_cons] at h ⊢
    obtain ⟨hfirst, hrest⟩ := List.forall_mem_cons.mp h
    obtain ⟨last, hlast, hrun⟩ := ih hrest
    refine ⟨last, ?_, ?_⟩
    · rw [List.getLast?_cons, hlast]
      rfl
    · rw [runScript_of_lasts _ hroom hfirst]
      simp only [hrun, List.map_cons]

theorem map_poll_of_silent (h : s.world.pending = .silent) :
    (sights o s edits).map (Sight.poll o) =
      (sights o s edits).map fun x => told o x.seen x.world.files := by
  have hsilent (p : Poll) : Poll.silent.append p = p := by simp [Poll.append, Poll.silent]
  have hfirst (s : Sight) (h : s.world.pending = .silent) :
      s.poll o = told o s.seen s.world.files := by
    rw [Sight.poll, h, hsilent]
  induction edits generalizing s with
  | nil => simp [sights, hfirst s h]
  | cons e edits ih =>
    rw [sights_cons, List.map_cons, List.map_cons, hfirst s h, ih rfl]

theorem map_poll (s : Sight) (edits : List Edit) :
    (sights o s edits).map (Sight.poll o) =
      ((sights o s edits).map fun x => told o x.seen x.world.files).modifyHead
        s.world.pending.append := by
  cases edits with
  | nil => rfl
  | cons e edits =>
    rw [sights_cons, List.map_cons, List.map_cons, List.modifyHead_cons, map_poll_of_silent rfl]
    rfl

theorem Ends.unique {f f' : Failure} (h : Ends o s.seen s.world f) (h' : Ends o s.seen s.world f') :
    f = f' :=
  Except.error.inj ((look_of_ends h).symm.trans (look_of_ends h'))

namespace Trace

variable {n m : Nat} {x : Sight} (h : Trace o s edits n)

include h

theorem lasts_of_lt (hm : m < n) (hx : (sights o s edits)[m]? = some x) : x.Lasts o := by
  apply h.lasts x
  apply List.mem_of_getElem?
  rw [List.getElem?_take_of_lt hm]
  exact hx

theorem getElem?_polls (hm : m < n) :
    (runScript o s.seen edits s.world).1[m]? = (sights o s edits)[m]?.map (Sight.poll o) := by
  rw [h.polls, List.getElem?_map, List.getElem?_take_of_lt hm]

theorem le_of_lasts (hm : m ≤ edits.length + 1)
    (hall : ∀ x ∈ (sights o s edits).take m, x.Lasts o) : m ≤ n := by
  rcases h.ending with ⟨rfl, -⟩ | ⟨x, f, hx, hends, -⟩
  · exact hm
  · by_contra hlt
    have hmem : x ∈ (sights o s edits).take m := by
      apply List.mem_of_getElem?
      rw [List.getElem?_take_of_lt (Nat.lt_of_not_le hlt)]
      exact hx
    exact hall x hmem f hends

theorem exit_iff :
    (runScript o s.seen edits s.world).2.1 = .exit 0 ↔ n = edits.length + 1 := by
  rcases h.ending with ⟨rfl, hexit⟩ | ⟨x, f, hx, -, hcrash⟩
  · exact iff_of_true hexit rfl
  · refine iff_of_false (fun hexit => nomatch hcrash.symm.trans hexit) ?_
    rintro rfl
    rw [← length_sights s edits, List.getElem?_length] at hx
    cases hx

theorem crash_iff {f : Failure} :
    (runScript o s.seen edits s.world).2.1 = .crash f ↔
      ∃ x, (sights o s edits)[n]? = some x ∧ Ends o x.seen x.world f := by
  rcases h.ending with ⟨rfl, hexit⟩ | ⟨x, f', hx, hends, hcrash⟩
  · refine iff_of_false (fun hcrash => nomatch hexit.symm.trans hcrash) ?_
    rintro ⟨x, hx, -⟩
    rw [← length_sights s edits, List.getElem?_length] at hx
    cases hx
  · constructor
    · intro hcrash'
      cases hcrash.symm.trans hcrash'
      exact ⟨x, hx, hends⟩
    · rintro ⟨y, hy, hends'⟩
      cases hx.symm.trans hy
      rwa [hends'.unique hends]

end Trace

/-- A watch goes on to the end of every script just if nothing ends a look, and is ended by the
first look that something ends. Every look before says all there is to say. -/
theorem survives_iff (hroom : 1 ≤ o.room.value) (seen : Int) (edits : List Edit) (w : World) :
    let found := sights o ⟨seen, w⟩ edits
    let result := runScript o seen edits w
    (result.2.1 = .exit 0 ∧ result.1.length = edits.length + 1 ↔ ∀ s ∈ found, s.Lasts o) ∧
    (∀ f, result.2.1 = .crash f ↔ ∃ n s, found[n]? = some s ∧ Ends o s.seen s.world f ∧
      ∀ x ∈ found.take n, x.Lasts o) ∧
    ∀ n, (∀ s ∈ found.take (n + 1), s.Lasts o) → result.1[n]? = found[n]?.map (Sight.poll o) := by
  intro found result
  obtain ⟨n, htrace⟩ := exists_trace hroom ⟨seen, w⟩ edits
  have hlength : found.length = edits.length + 1 := length_sights _ edits
  have hpolls : result.1 = (found.take n).map (Sight.poll o) := htrace.polls
  refine ⟨?_, ?_, ?_⟩
  · constructor
    · rintro ⟨hexit, -⟩
      have hall := htrace.lasts
      rwa [htrace.exit_iff.mp hexit, ← hlength, List.take_length] at hall
    · intro hall
      obtain ⟨last, -, hrun⟩ := runScript_of_all_last hroom hall
      exact ⟨congrArg (·.2.1) hrun, by simp [result, hrun, found, hlength]⟩
  · intro f
    constructor
    · intro hcrash
      obtain ⟨x, hx, hends⟩ := htrace.crash_iff.mp hcrash
      exact ⟨n, x, hx, hends, htrace.lasts⟩
    · rintro ⟨m, x, hx, hends, hbefore⟩
      have hm : m < edits.length + 1 := hlength ▸ (List.getElem?_eq_some_iff.mp hx).1
      -- the run comes up to this look, and not through it
      obtain rfl : m = n := by
        refine le_antisymm (htrace.le_of_lasts (by omega) hbefore) ?_
        by_contra hlt
        exact htrace.lasts_of_lt (by omega) hx f hends
      exact htrace.crash_iff.mpr ⟨x, hx, hends⟩
  · intro m hall
    by_cases hm : m < found.length
    · exact htrace.getElem?_polls (htrace.le_of_lasts (by omega) hall)
    · rw [hpolls, List.getElem?_eq_none (by simp; omega), List.getElem?_eq_none (by omega)]
      rfl

theorem survives_iff_lexical_error :
    let w : World := { files := ⟨[(["doc.dtdx"], .file "$".toUTF8 1000)], []⟩ }
    let o : Options := ⟨⟨"", ["doc.dtdx"]⟩, none, .text, false, .number 2, true, false⟩
    (runScript o unseen [] w).2.1 = .exit 0 := by
  intro w o
  have hinput : w.files.locate o.input = .ok ["doc.dtdx"] :=
    FileTree.locate_name rfl rfl (by simp) (by decide) (by decide)
  have hread : w.files.read o.input = .ok "$".toUTF8 := FileTree.read_of_at? hinput
  obtain ⟨hexit, -⟩ := survives_iff (o := o) (by decide) unseen [] w
  refine (hexit.mpr ?_).1
  intro s hs
  cases List.mem_singleton.mp hs
  exact fun f => lasts_of_writable (.inr ⟨_, _, hread, Text.ofBytes?_toUTF8 "$"⟩) nofun

/-- A directory in place of the input ends the watch, which knows nothing but lexical errors. -/
theorem directory_ends_watch :
    let w : World := { files := ⟨[(["doc.dtdx"], .file "a".toUTF8 1000)], []⟩, clock := 2000 }
    let edit : Edit := { deletions := [["doc.dtdx"]], writes := [(["doc.dtdx"], none)] }
    (Command.runScript ["doc.dtdx", "--watch"] [edit, {}] w).2.1 =
      .crash (.file (.refused .isDirectory ⟨"", ["doc.dtdx"]⟩)) := by
  intro w edit
  let o : Options := ⟨⟨"", ["doc.dtdx"]⟩, none, .text, false, .number 2, true, false⟩
  let a : Arguments := { input := "doc.dtdx", watch := true }
  have hparse : Arguments.parse ["doc.dtdx", "--watch"] = .ok a := by rfl
  have hsettings : w.files.settings a.configPath = .ok {} :=
    Command.settings_of_no_document (by decide +kernel) rfl rfl
  have ho : Command.optionsIn w.files a = .ok o :=
    Command.optionsIn_eq_ok_iff.mpr ⟨{}, hsettings, by decide +kernel⟩
  rw [runScript_of_watch _ hparse ho rfl]
  let s : Sight := ⟨unseen, { w with
    errors := w.errors ++ s!"Watching {o.input.toString} for changes...\n" }⟩
  change (runScript o s.seen [edit, {}] s.world).2.1 = _
  have hinput (t : FileTree) (h : t.at? t.home = some (.directory 0)) :
      t.locate o.input = .ok ("doc.dtdx" :: t.home) :=
    FileTree.locate_name rfl h (by simp) (by decide) (by decide)
  have hlasts : s.Lasts o := by
    have hread : w.files.read o.input = .ok "a".toUTF8 :=
      FileTree.read_of_at? (hinput w.files rfl)
    exact fun f => lasts_of_writable (.inr ⟨_, _, hread, Text.ofBytes?_toUTF8 "a"⟩) nofun
  have hends : Ends o (s.next o edit).seen (s.next o edit).world
      (.file (.refused .isDirectory o.input)) := by
    have hseen : (s.next o edit).seen = 1000 := by
      change seenAfter o s.seen w.files = _
      rw [seenAfter, FileTree.status_of_at? (hinput w.files rfl)]
      rfl
    have hfiles : (s.next o edit).world.files = ⟨[(["doc.dtdx"], .directory 2000)], []⟩ := by
      obtain ⟨said, hafter⟩ := after_of_no_output o s.seen s.world rfl
      simp only [Sight.next, hafter]
      rfl
    have hplace := hinput _ (congrArg (fun t => t.at? t.home) hfiles)
    refine .directory (s := ⟨false, 2000⟩) ?_ ?_ ?_
    · rw [FileTree.status_of_at? hplace, hfiles]
      rfl
    · rw [hseen]
      decide
    · rw [FileTree.read_of_at? hplace, hfiles]
      rfl
  rw [runScript_of_lasts _ (by decide) hlasts]
  exact (runScript_of_ends _ hends).2

end Watch

end DocModelLexer
