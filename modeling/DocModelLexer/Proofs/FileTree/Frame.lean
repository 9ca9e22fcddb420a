import DocModelLexer.Watch
import Mathlib.Data.List.Infix

namespace DocModelLexer.FileTree

variable {t u : FileTree} {place other target stop : Location} {path : Path} {node : Node}

def HasDirectory (t : FileTree) (place : Location) : Prop :=
  ∃ modified, t.at? place = some (.directory modified)

def Writable (t : FileTree) (path : Path) : Prop :=
  ∃ place, t.locate path = .ok place ∧ ¬t.HasDirectory place

/-- Whatever there is stands in a directory, and the working directory is one. -/
structure WellFormed (t : FileTree) : Prop where
  home : t.HasDirectory t.home
  parent : ∀ name place, (t.at? (name :: place)).isSome → t.HasDirectory place

/-- A place for a file: it stands in a directory and is none itself. -/
structure HasRoom (t : FileTree) (place : Location) : Prop where
  inside : t.HasDirectory place.tail
  free : ¬t.HasDirectory place

theorem HasDirectory.isSome (h : t.HasDirectory place) : (t.at? place).isSome := by
  obtain ⟨modified, h⟩ := h
  rw [h]
  rfl

theorem HasRoom.ne_nil (h : t.HasRoom place) : place ≠ [] := by
  rintro rfl
  exact h.free h.inside

theorem status_of_at? (hl : t.locate path = .ok place) :
    t.status path = match t.at? place with
      | some node => .ok node.status
      | none => .error (.refused .missing path) := by
  simp only [status, hl, bind, Except.bind]
  cases t.at? place <;> rfl

theorem read_of_at? (hl : t.locate path = .ok place) :
    t.read path = match t.at? place with
      | some (.file content _) => .ok content
      | some (.directory _) => .error (.refused .isDirectory path)
      | none => .error (.refused .missing path) := by
  simp only [read, hl, bind, Except.bind]
  cases t.at? place with
  | none => rfl
  | some node => cases node <;> rfl

theorem write_of_locate {content : ByteArray} {now : Int} (hl : t.locate path = .ok place)
    (hplace : ¬t.HasDirectory place) :
    t.write path content now = .ok (t.put place (.file content now)) := by
  simp only [write, hl, bind, Except.bind]
  cases hat : t.at? place with
  | none => rfl
  | some node =>
    cases node with
    | file => rfl
    | directory modified => exact absurd ⟨modified, hat⟩ hplace

theorem locate_of_long {name : String} {names : List String} (hpath : path = ⟨"", name :: names⟩)
    (hhome : t.HasDirectory t.home) (hup : name ≠ "..") (hlong : maxName < name.utf8ByteSize)
    (hnull : path.toString.contains '\x00' = false) :
    t.locate path = .error (.refused .nameTooLong path) := by
  obtain ⟨modified, hat⟩ := hhome
  unfold locate
  rw [if_neg (by rw [hnull]; exact Bool.false_ne_true)]
  split
  · rfl
  · subst hpath
    simp only [if_true, walk, hat, if_neg hup, if_pos hlong]

theorem path_of_refused {cause : FileError.Cause} {named : Path}
    (h : t.read path = .error (.refused cause named)) : named = path := by
  cases hl : t.locate path with
  | ok place =>
    rw [read_of_at? hl] at h
    split at h <;> cases h <;> rfl
  | error e =>
    simp only [read, hl, bind, Except.bind, Except.error.injEq] at h
    subst h
    unfold locate at hl
    split at hl
    · cases hl
    split at hl
    · cases hl
      rfl
    split at hl <;> cases hl
    rfl

/-- A walk leads to the same place in every tree that has the directories. -/
theorem walk_of_directories (h : ∀ place, t.HasDirectory place → u.HasDirectory place)
    {names : List String} (hw : t.walk place names = .ok stop) :
    u.walk place names = .ok stop := by
  induction names generalizing place with
  | nil => exact hw
  | cons name names ih =>
    rw [walk] at hw
    split at hw
    · cases hw
    · cases hw
    · rename_i modified hplace
      obtain ⟨modified', hplace'⟩ := h place ⟨modified, hplace⟩
      rw [walk, hplace']
      split at hw
      · rename_i hup
        simpa only [if_pos hup] using ih hw
      · rename_i hup
        split at hw
        · cases hw
        · rename_i hfits
          simpa only [if_neg hup, if_neg hfits] using ih hw

theorem locate_of_directories (hhome : u.home = t.home)
    (h : ∀ place, t.HasDirectory place → u.HasDirectory place)
    (hl : t.locate path = .ok place) : u.locate path = .ok place := by
  unfold locate at hl ⊢
  split at hl
  · cases hl
  rename_i hnull
  split at hl
  · cases hl
  rename_i hfits
  split at hl
  · rename_i place' hw
    cases hl
    rw [if_neg hnull, if_neg hfits, hhome, walk_of_directories h hw]
  · cases hl

namespace WellFormed

variable (ht : t.WellFormed)

include ht

theorem tail (h : t.HasDirectory place) : t.HasDirectory place.tail := by
  cases place with
  | nil => exact h
  | cons name place => exact ht.parent name place h.isSome

theorem above (h : (t.at? other).isSome) (hsuffix : place <:+ other) (hne : place ≠ other) :
    t.HasDirectory place := by
  induction other with
  | nil => exact absurd (List.suffix_nil.mp hsuffix) hne
  | cons name other ih =>
    have hdirectory := ht.parent name other h
    rcases List.suffix_cons_iff.mp hsuffix with rfl | hsuffix
    · exact absurd rfl hne
    · by_cases hsame : place = other
      · exact hsame ▸ hdirectory
      · exact ih hdirectory.isSome hsuffix hsame

theorem walk_ends {names : List String} (hplace : t.HasDirectory place)
    (hw : t.walk place names = .ok stop) :
    t.HasDirectory stop ∨ t.HasDirectory stop.tail := by
  induction names generalizing place with
  | nil =>
    cases hw
    exact .inl hplace
  | cons name names ih =>
    obtain ⟨modified, hat⟩ := hplace
    rw [walk, hat] at hw
    simp only at hw
    split at hw
    · exact ih (ht.tail ⟨modified, hat⟩) hw
    split at hw
    · cases hw
    -- the last name may lead to anything, but every name before it leads to a directory
    cases names with
    | nil =>
      cases hw
      exact .inr ⟨modified, hat⟩
    | cons next names =>
      cases hnext : t.at? (name :: place) with
      | none =>
        rw [walk, hnext] at hw
        cases hw
      | some node =>
        cases node with
        | file content modified' =>
          rw [walk, hnext] at hw
          cases hw
        | directory modified' => exact ih ⟨modified', hnext⟩ hw

theorem root : t.HasDirectory [] := by
  by_cases hhome : t.home = []
  · exact hhome ▸ ht.home
  · exact ht.above ht.home.isSome List.nil_suffix (Ne.symm hhome)

theorem hasRoom (hl : t.locate path = .ok place) (hplace : ¬t.HasDirectory place) :
    t.HasRoom place := by
  have hstart : t.HasDirectory (if path.root = "" then t.home else []) := by
    split
    · exact ht.home
    · exact ht.root
  unfold locate at hl
  split at hl
  · cases hl
  split at hl
  · cases hl
  split at hl
  · rename_i place' hw
    cases hl
    exact ⟨(ht.walk_ends hstart hw).resolve_left hplace, hplace⟩
  · cases hl

end WellFormed

/-- Two trees are the same but for one place, and neither has a directory there. -/
structure DifferAt (place : Location) (t u : FileTree) : Prop where
  home : u.home = t.home
  same : ∀ other, other ≠ place → u.at? other = t.at? other
  before : ¬t.HasDirectory place
  behind : ¬u.HasDirectory place

namespace DifferAt

variable (h : DifferAt target t u)

include h

theorem hasDirectory : u.HasDirectory place ↔ t.HasDirectory place := by
  by_cases hsame : place = target
  · subst hsame
    exact iff_of_false h.behind h.before
  · unfold HasDirectory
    rw [h.same place hsame]

theorem locate (hl : t.locate path = .ok place) : u.locate path = .ok place :=
  locate_of_directories h.home (fun _ => h.hasDirectory.mpr) hl

theorem read (hl : t.locate path = .ok place) (hne : place ≠ target) :
    u.read path = t.read path := by
  rw [read_of_at? hl, read_of_at? (h.locate hl), h.same place hne]

theorem hasRoom (hroom : t.HasRoom target) : u.HasRoom target :=
  ⟨h.hasDirectory.mpr hroom.inside, h.behind⟩

theorem wellFormed (ht : t.WellFormed) (hroom : t.HasRoom target) : u.WellFormed where
  home := by
    rw [h.home]
    exact h.hasDirectory.mpr ht.home
  parent name place hat := by
    apply h.hasDirectory.mpr
    by_cases hsame : name :: place = target
    · have hinside := hroom.inside
      rwa [← hsame] at hinside
    · rw [h.same _ hsame] at hat
      exact ht.parent name place hat

theorem trans {v : FileTree} (h' : DifferAt target u v) : DifferAt target t v where
  home := h'.home.trans h.home
  same other hne := (h'.same other hne).trans (h.same other hne)
  before := h.before
  behind := h'.behind

end DifferAt

theorem DifferAt.refl (h : ¬t.HasDirectory place) : DifferAt place t t :=
  ⟨rfl, fun _ _ => rfl, h, h⟩

section

variable {content : ByteArray} {modified now : Int}

theorem differAt_put_file (content : ByteArray) (modified : Int) (h : ¬t.HasDirectory place) :
    DifferAt place t (t.put place (.file content modified)) where
  home := rfl
  same _ hne := at?_put_of_ne t _ hne
  before := h
  behind := by
    rintro ⟨_, hat⟩
    rw [at?_put_self] at hat
    cases hat

theorem lookup_filter (keep : Location → Bool) (entries : List (Location × Node)) :
    (entries.filter fun entry => keep entry.1).lookup place =
      if keep place then entries.lookup place else none := by
  induction entries with
  | nil => simp
  | cons entry entries ih =>
    obtain ⟨here, node⟩ := entry
    by_cases hhere : place = here
    · subst hhere
      cases hk : keep place <;> simp [hk, ih]
    · have hb : (place == here) = false := by simp [hhere]
      cases hk : keep here <;> simp [List.lookup_cons, hk, hb, ih]

theorem at?_remove_of_suffix (h : place <:+ other) (hne : other ≠ []) :
    (t.remove place).at? other = none := by
  have hgone : (t.remove place).nodes.lookup other = none := by
    refine (lookup_filter (fun other => !place.isSuffixOf other) t.nodes).trans ?_
    rw [List.isSuffixOf_iff_suffix.mpr h]
    rfl
  simp [at?, hgone, hne]

theorem at?_remove_of_not_suffix (h : ¬place <:+ other) :
    (t.remove place).at? other = t.at? other := by
  have hkept : (t.remove place).nodes.lookup other = t.nodes.lookup other := by
    refine (lookup_filter (fun other => !place.isSuffixOf other) t.nodes).trans ?_
    simp [h]
  simp [at?, hkept]

theorem HasRoom.at?_remove (h : t.HasRoom place) : (t.remove place).at? place = none :=
  at?_remove_of_suffix List.suffix_rfl h.ne_nil

theorem WellFormed.differAt_remove (ht : t.WellFormed) (hroom : t.HasRoom place) :
    DifferAt place t (t.remove place) where
  home := rfl
  same other hne := by
    by_cases hsuffix : place <:+ other
    · have hother : other ≠ [] := by
        rintro rfl
        exact hroom.ne_nil (List.suffix_nil.mp hsuffix)
      have hnothing : t.at? other = none := by
        by_contra h
        exact hroom.free (ht.above (Option.isSome_iff_ne_none.mpr h) hsuffix hne.symm)
      rw [hnothing, at?_remove_of_suffix hsuffix hother]
    · exact at?_remove_of_not_suffix hsuffix
  before := hroom.free
  behind := by
    rintro ⟨_, hat⟩
    rw [hroom.at?_remove] at hat
    cases hat

theorem WellFormed.addDirectory_eq (ht : t.WellFormed) (h : t.HasDirectory place) :
    t.addDirectory now place = t := by
  induction place with
  | nil => rfl
  | cons name place ih =>
    rw [addDirectory, ih (ht.tail h)]
    simp only [h.isSome, if_true]

theorem WellFormed.add_file (ht : t.WellFormed) (hroom : t.HasRoom place) :
    t.add place (some content) modified now = t.put place (.file content modified) := by
  rw [add, ht.addDirectory_eq hroom.inside]

end

end DocModelLexer.FileTree
