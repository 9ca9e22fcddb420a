import DocModelLexer.Proofs.Watch.Survival
import Mathlib.Data.List.ReduceOption

namespace DocModelLexer

/-- A file as it stands at one time. -/
structure Version where
  content : ByteArray
  modified : Int
  deriving DecidableEq

namespace Version

def node (v : Version) : Node := .file v.content v.modified

def text? (v : Version) : Option String := Text.ofBytes? v.content

def rendering? (o : Options) (v : Version) : Option String := v.text?.bind (Watch.rendering? o)

end Version

namespace Edit

/-- An edit deletes or writes the file at a place, and nothing else. -/
def Concerns (e : Edit) (place : Location) : Prop :=
  (∀ gone ∈ e.deletions, gone = place) ∧
    ∀ written ∈ e.writes, ∃ content, written = (place, some content)

/-- The version that is left by an edit of a file. -/
def leaves (e : Edit) (version : Option Version) : Option Version :=
  match e.writes.getLast? with
  | some (_, content) => content.map (⟨·, e.modified⟩)
  | none => if e.deletions = [] then version else none

end Edit

namespace Watch

variable {o : Options} {place : Location} {version : Option Version} {t u : FileTree}

/-- A place holds a version of a file, or none. -/
structure Holds (place : Location) (version : Option Version) (t : FileTree) : Prop where
  wellFormed : t.WellFormed
  room : t.HasRoom place
  here : t.at? place = version.map Version.node

theorem Holds.remove (h : Holds place version t) :
    Holds place none (t.remove place) ∧ FileTree.DifferAt place t (t.remove place) := by
  have hdiffer := h.wellFormed.differAt_remove h.room
  exact ⟨⟨hdiffer.wellFormed h.wellFormed h.room, hdiffer.hasRoom h.room, h.room.at?_remove⟩,
    hdiffer⟩

theorem Holds.add (h : Holds place version t) (content : ByteArray) (modified now : Int) :
    Holds place (some ⟨content, modified⟩) (t.add place (some content) modified now) ∧
      FileTree.DifferAt place t (t.add place (some content) modified now) := by
  rw [h.wellFormed.add_file h.room]
  have hdiffer := FileTree.differAt_put_file content modified h.room.free
  exact ⟨⟨hdiffer.wellFormed h.wellFormed h.room, hdiffer.hasRoom h.room, t.at?_put_self _ _⟩,
    hdiffer⟩

theorem Holds.foldl_remove {deletions : List Location} (h : Holds place version t)
    (hplaces : ∀ gone ∈ deletions, gone = place) :
    Holds place (if deletions = [] then version else none) (deletions.foldl .remove t) ∧
      FileTree.DifferAt place t (deletions.foldl .remove t) := by
  induction deletions generalizing t version with
  | nil => exact ⟨by simpa using h, .refl h.room.free⟩
  | cons gone deletions ih =>
    obtain ⟨rfl, hplaces⟩ := List.forall_mem_cons.mp hplaces
    obtain ⟨hgone, hdiffer⟩ := h.remove
    obtain ⟨hrest, hdiffer'⟩ := ih hgone hplaces
    exact ⟨by simpa using hrest, hdiffer.trans hdiffer'⟩

theorem Holds.foldl_add {writes : List (Location × Option ByteArray)} (modified now : Int)
    (h : Holds place version t)
    (hwrites : ∀ written ∈ writes, ∃ content, written = (place, some content)) :
    let u := writes.foldl (fun files (place, content) => files.add place content modified now) t
    Holds place (((writes.getLast?.bind (·.2)).map (⟨·, modified⟩)).or version) u ∧
      FileTree.DifferAt place t u := by
  induction writes generalizing t version with
  | nil => exact ⟨h, .refl h.room.free⟩
  | cons written writes ih =>
    obtain ⟨⟨content, rfl⟩, hrest⟩ := List.forall_mem_cons.mp hwrites
    obtain ⟨hnew, hdiffer⟩ := h.add content modified now
    obtain ⟨hlater, hdiffer'⟩ := ih hnew hrest
    refine ⟨?_, hdiffer.trans hdiffer'⟩
    -- the last write is the one that counts
    cases hlast : writes.getLast? with
    | none => simpa [List.getLast?_cons, hlast] using hlater
    | some last =>
      obtain ⟨content', rfl⟩ := hrest last (List.mem_of_getLast? hlast)
      simpa [List.getLast?_cons, hlast] using hlater

/-- An edit of the file at a place leaves a version there and touches nothing else. -/
theorem Holds.edit {w : World} {e : Edit} (h : Holds place version w.files)
    (he : e.Concerns place) :
    Holds place (e.leaves version) (w.edit e).files ∧
      FileTree.DifferAt place w.files (w.edit e).files := by
  obtain ⟨hdeletions, hwrites⟩ := he
  obtain ⟨hgone, hdiffer⟩ := h.foldl_remove hdeletions
  obtain ⟨hwritten, hdiffer'⟩ := hgone.foldl_add e.modified w.clock hwrites
  refine ⟨?_, hdiffer.trans hdiffer'⟩
  have hleaves : e.leaves version = ((e.writes.getLast?.bind (·.2)).map (⟨·, e.modified⟩)).or
      (if e.deletions = [] then version else none) := by
    unfold Edit.leaves
    cases hlast : e.writes.getLast? with
    | none => rfl
    | some last =>
      obtain ⟨content, rfl⟩ := hwrites last (List.mem_of_getLast? hlast)
      rfl
  rw [hleaves]
  exact hwritten

/-- The files of a watch: the input is at a place that holds a version of it, or none, and the
output, if it is a file, is another one that can be written. -/
structure Watched (o : Options) (place : Location) (version : Option Version) (t : FileTree) :
    Prop where
  wellFormed : t.WellFormed
  input : t.locate o.input = .ok place
  here : t.at? place = version.map Version.node
  output : ∀ path, o.output = some path →
    ∃ out, t.locate path = .ok out ∧ out ≠ place ∧ ¬t.HasDirectory out

namespace Watched

variable (h : Watched o place version t)

include h

theorem holds : Holds place version t := by
  refine ⟨h.wellFormed, h.wellFormed.hasRoom h.input ?_, h.here⟩
  rintro ⟨modified, hat⟩
  rw [h.here] at hat
  cases version <;> cases hat

theorem writable {path : Path} (hpath : o.output = some path) : t.Writable path := by
  obtain ⟨out, hout, -, hfree⟩ := h.output path hpath
  exact ⟨out, hout, hfree⟩

theorem of_differAt {target : Location} (hdiffer : FileTree.DifferAt target t u)
    (hu : u.WellFormed) {version' : Option Version} (hhere : u.at? place = version'.map Version.node) :
    Watched o place version' u where
  wellFormed := hu
  input := hdiffer.locate h.input
  here := hhere
  output path hpath := by
    obtain ⟨out, hout, hne, hfree⟩ := h.output path hpath
    exact ⟨out, hdiffer.locate hout, hne, mt hdiffer.hasDirectory.mp hfree⟩

end Watched

theorem Watched.edit {w : World} {e : Edit} (h : Watched o place version w.files)
    (he : e.Concerns place) :
    Watched o place (e.leaves version) (w.edit e).files ∧
      ∀ path, o.output = some path → (w.edit e).files.read path = w.files.read path := by
  obtain ⟨hholds, hdiffer⟩ := h.holds.edit he
  refine ⟨h.of_differAt hdiffer hholds.wellFormed hholds.here, ?_⟩
  intro path hpath
  obtain ⟨out, hout, hne, -⟩ := h.output path hpath
  exact hdiffer.read hout hne

section

variable {seen : Int} {w : World}

theorem Watched.status (h : Watched o place version t) :
    t.status o.input = match version with
      | some v => .ok ⟨true, v.modified⟩
      | none => .error (.refused .missing o.input) := by
  rw [FileTree.status_of_at? h.input, h.here]
  cases version <;> rfl

theorem Watched.read (h : Watched o place version t) :
    t.read o.input = match version with
      | some v => .ok v.content
      | none => .error (.refused .missing o.input) := by
  rw [FileTree.read_of_at? h.input, h.here]
  cases version <;> rfl

theorem Watched.seenAfter_eq (h : Watched o place version t) :
    seenAfter o seen t = version.elim seen Version.modified := by
  rw [seenAfter, h.status]
  cases version <;> rfl

theorem Watched.news?_eq (h : Watched o place version t) :
    news? o seen t = version.bind fun v => if v.modified = seen then none else v.text? := by
  rw [news?, h.status, h.read]
  cases version <;> rfl

/-- A look leaves the input as it is, and the output as it was or with what is written of news. -/
theorem Watched.after (h : Watched o place version w.files) :
    Watched o place version (after o seen w).files ∧
      ∀ path, o.output = some path → (after o seen w).files.read path =
        ((news? o seen w.files).bind (rendering? o)).elim (w.files.read path)
          fun text => .ok text.toUTF8 := by
  unfold Watch.after
  cases (news? o seen w.files).bind (rendering? o) with
  | none => exact ⟨h, fun _ _ => rfl⟩
  | some text =>
    simp only [Option.elim_some, Command.written]
    cases hpath : o.output with
    | none =>
      refine ⟨h, ?_⟩
      intro path hnone
      cases hnone
    | some path =>
      obtain ⟨out, hout, hne, hfree⟩ := h.output path hpath
      have hdiffer := FileTree.differAt_put_file text.toUTF8 w.clock hfree
      have hroom := h.wellFormed.hasRoom hout hfree
      simp only [FileTree.write_of_locate hout hfree]
      refine ⟨h.of_differAt hdiffer (hdiffer.wellFormed h.wellFormed hroom) ?_, ?_⟩
      · rw [FileTree.at?_put_of_ne _ _ hne.symm, h.here]
      · rintro _ ⟨⟩
        rw [FileTree.read_of_at? (hdiffer.locate hout), FileTree.at?_put_self]

theorem Watched.lasts (h : Watched o place version w.files)
    (htext : ∀ v, version = some v → ∃ text, v.text? = some text) (f : Failure) :
    ¬Ends o seen w f := by
  apply lasts_of_writable
  · cases version with
    | none => exact .inl ⟨_, _, h.status⟩
    | some v =>
      obtain ⟨text, htext⟩ := htext v rfl
      exact .inr ⟨_, text, h.read, htext⟩
  · exact fun path => h.writable

end

end Watch

end DocModelLexer
