import DocModelLexer.Proofs.Watch.Version

namespace DocModelLexer

namespace Watch

variable {o : Options} {place : Location} {version : Option Version} {s : Sight} {t : FileTree}
  {edits : List Edit}

/-- What the looks of a watch find at the place of the input. -/
def versions (start : Option Version) (edits : List Edit) : List (Option Version) :=
  edits.scanl (fun version e => e.leaves version) start

/-- Versions that can be told from one another by their times, all of them texts. -/
structure Timely (found : List Version) : Prop where
  fresh : ∀ v ∈ found, v.modified ≠ unseen
  text : ∀ v ∈ found, ∃ text, v.text? = some text
  times : ∀ v ∈ found, ∀ v' ∈ found, v.modified = v'.modified → v.content = v'.content

theorem Timely.mono {found found' : List Version} (h : Timely found) (hsub : found' ⊆ found) :
    Timely found' :=
  ⟨fun v hv => h.fresh v (hsub hv), fun v hv => h.text v (hsub hv),
    fun v hv v' hv' => h.times v (hsub hv) v' (hsub hv')⟩

/-- What a look says of what it finds, after others have found what is listed. -/
def saidOf (o : Options) (found : List Version) : Option Version → Poll
  | none => .silent
  | some v =>
    if found.getLast?.map Version.modified = some v.modified then .silent
    else v.text?.elim .silent (reportOn o)

/-- The last of what has been written of some versions. -/
def lastRendering (o : Options) (found : List Version) : Option String :=
  (found.filterMap (Version.rendering? o)).getLast?

theorem lastRendering_concat (found : List Version) (v : Version) :
    lastRendering o (found ++ [v]) = (v.rendering? o).or (lastRendering o found) := by
  unfold lastRendering
  rw [List.filterMap_append, List.getLast?_append]
  cases hv : v.rendering? o <;> simp [hv]

/-- A watch knows what its looks have found: the time of the last version, and in the output the
rendering of the last one that has any. -/
structure Abreast (o : Options) (place : Location) (t : FileTree) (found : List Version)
    (version : Option Version) (s : Sight) : Prop where
  watched : Watched o place version s.world.files
  seen : s.seen = found.getLast?.elim unseen Version.modified
  output : ∀ path, o.output = some path → s.world.files.read path =
    (lastRendering o found).elim (t.read path) fun text => .ok text.toUTF8

namespace Abreast

variable {found : List Version} (h : Abreast o place t found version s)
  (htimely : Timely (found ++ version.toList))

include h htimely

theorem seen_eq_iff {v : Version} (hv : version = some v) :
    v.modified = s.seen ↔ found.getLast?.map Version.modified = some v.modified := by
  subst hv
  rw [h.seen]
  cases found.getLast? with
  | none => simpa using htimely.fresh v (by simp)
  | some last => simp [eq_comm]

theorem told_eq : told o s.seen s.world.files = saidOf o found version := by
  unfold told
  rw [h.watched.news?_eq]
  cases hv : version with
  | none => rfl
  | some v =>
    simp only [Option.bind_some, saidOf, h.seen_eq_iff htimely hv]
    split <;> rfl

theorem seenAfter_eq :
    seenAfter o s.seen s.world.files =
      (found ++ version.toList).getLast?.elim unseen Version.modified := by
  rw [h.watched.seenAfter_eq, h.seen]
  cases version <;> simp

theorem lastRendering_of_seen {v : Version} (hv : version = some v) (hseen : v.modified = s.seen) :
    lastRendering o (found ++ [v]) = lastRendering o found := by
  have hlast := (h.seen_eq_iff htimely hv).mp hseen
  subst hv
  obtain ⟨last, hlast, hmodified⟩ := Option.map_eq_some_iff.mp hlast
  obtain ⟨earlier, rfl⟩ := List.getLast?_eq_some_iff.mp hlast
  have hcontent : v.content = last.content :=
    htimely.times v (by simp) last (by simp) hmodified.symm
  have hrendering : v.rendering? o = last.rendering? o := by
    simp only [Version.rendering?, Version.text?, hcontent]
  rw [lastRendering_concat, lastRendering_concat, hrendering]
  cases last.rendering? o <;> rfl

theorem output_eq (path : Path) (hpath : o.output = some path) :
    (after o s.seen s.world).files.read path =
      (lastRendering o (found ++ version.toList)).elim (t.read path) fun text => .ok text.toUTF8 := by
  rw [h.watched.after.2 path hpath, h.output path hpath, h.watched.news?_eq]
  cases hv : version with
  | none => simp
  | some v =>
    by_cases hseen : v.modified = s.seen
    · simp only [Option.bind_some, if_pos hseen, Option.bind_none, Option.elim_none,
        Option.toList_some, h.lastRendering_of_seen htimely hv hseen]
    · have hrendering : v.text?.bind (rendering? o) = v.rendering? o := rfl
      simp only [Option.bind_some, if_neg hseen, Option.toList_some, lastRendering_concat,
        hrendering]
      cases v.rendering? o <;> rfl

theorem lasts : s.Lasts o :=
  fun f => h.watched.lasts (fun v hv => htimely.text v (by simp [hv])) f

/-- A look and an edit of the input leave the watch abreast of it. -/
theorem next {e : Edit} (he : e.Concerns place) :
    Abreast o place t (found ++ version.toList) (e.leaves version) (s.next o e) := by
  obtain ⟨hwatched, -⟩ := h.watched.after
  obtain ⟨hedited, hread⟩ :=
    Watched.edit (w := (takePoll (after o s.seen s.world)).2) hwatched he
  refine ⟨hedited, h.seenAfter_eq htimely, ?_⟩
  intro path hpath
  exact (hread path hpath).trans (h.output_eq htimely path hpath)

end Abreast

section

variable {start : Option Version} {found : List (Option Version)} {n : Nat}

theorem reduceOption_take_succ (h : found[n]? = some version) :
    (found.take (n + 1)).reduceOption = (found.take n).reduceOption ++ version.toList := by
  rw [List.take_add_one, h, List.reduceOption_append]
  cases version <;> rfl

theorem Timely.take (h : Timely found.reduceOption) (n : Nat) :
    Timely (found.take n).reduceOption := by
  apply h.mono
  intro v hv
  rw [List.reduceOption_mem_iff] at hv ⊢
  exact List.mem_of_mem_take hv

theorem Timely.upto (h : Timely found.reduceOption) (hn : found[n]? = some version) :
    Timely ((found.take n).reduceOption ++ version.toList) := by
  rw [← reduceOption_take_succ hn]
  exact h.take (n + 1)

theorem Abreast.run (hstart : Abreast o place t [] start s)
    (hconcerns : ∀ e ∈ edits, e.Concerns place)
    (htimely : Timely (versions start edits).reduceOption) (n : Nat) (x : Sight)
    (hx : (sights o s edits)[n]? = some x) :
    ∃ version, (versions start edits)[n]? = some version ∧
      Abreast o place t ((versions start edits).take n).reduceOption version x := by
  induction n generalizing x with
  | zero =>
    have hfirst : (sights o s edits)[0]? = some s := by cases edits <;> simp [sights]
    cases hfirst.symm.trans hx
    exact ⟨start, by cases edits <;> simp [versions], hstart⟩
  | succ n ih =>
    unfold sights at hx
    rw [List.getElem?_succ_scanl, Option.bind_eq_some_iff] at hx
    obtain ⟨y, hy, hx⟩ := hx
    obtain ⟨e, he, rfl⟩ := Option.map_eq_some_iff.mp hx
    obtain ⟨version, hversion, habreast⟩ := ih y hy
    have hnext : (versions start edits)[n + 1]? = some (e.leaves version) := by
      unfold versions at hversion ⊢
      rw [List.getElem?_succ_scanl, hversion, he]
      rfl
    refine ⟨e.leaves version, hnext, ?_⟩
    rw [reduceOption_take_succ hversion]
    exact habreast.next (htimely.upto hversion) (hconcerns e (List.mem_of_getElem? he))

theorem length_versions (start : Option Version) (edits : List Edit) :
    (versions start edits).length = edits.length + 1 := by
  simp [versions]

/-- What the looks say depends on the versions alone. -/
theorem Abreast.getElem?_told (hstart : Abreast o place t [] start s)
    (hconcerns : ∀ e ∈ edits, e.Concerns place)
    (htimely : Timely (versions start edits).reduceOption) (n : Nat) :
    ((sights o s edits).map fun x => told o x.seen x.world.files)[n]? =
      (versions start edits)[n]?.map (saidOf o ((versions start edits).take n).reduceOption) := by
  rw [List.getElem?_map]
  cases hx : (sights o s edits)[n]? with
  | none =>
    rw [List.getElem?_eq_none_iff, length_sights, ← length_versions start,
      ← List.getElem?_eq_none_iff] at hx
    rw [hx]
    rfl
  | some x =>
    obtain ⟨version, hversion, habreast⟩ := hstart.run hconcerns htimely n x hx
    rw [hversion, Option.map_some, Option.map_some, habreast.told_eq (htimely.upto hversion)]

theorem Abreast.all_last (hstart : Abreast o place t [] start s)
    (hconcerns : ∀ e ∈ edits, e.Concerns place)
    (htimely : Timely (versions start edits).reduceOption) :
    ∀ x ∈ sights o s edits, x.Lasts o := by
  intro x hx
  obtain ⟨n, hn⟩ := List.mem_iff_getElem?.mp hx
  obtain ⟨version, hversion, habreast⟩ := hstart.run hconcerns htimely n x hn
  exact habreast.lasts (htimely.upto hversion)

theorem Abreast.run_output (hroom : 1 ≤ o.room.value) (hstart : Abreast o place t [] start s)
    (hconcerns : ∀ e ∈ edits, e.Concerns place)
    (htimely : Timely (versions start edits).reduceOption) (path : Path)
    (hpath : o.output = some path) :
    (runScript o s.seen edits s.world).2.2.files.read path =
      (lastRendering o (versions start edits).reduceOption).elim (t.read path)
        fun text => .ok text.toUTF8 := by
  obtain ⟨last, hlast, hrun⟩ :=
    runScript_of_all_last hroom (hstart.all_last hconcerns htimely)
  have hindex : (sights o s edits)[edits.length]? = some last := by
    rw [← hlast, List.getLast?_eq_getElem?, length_sights]
    rfl
  obtain ⟨version, hversion, habreast⟩ := hstart.run hconcerns htimely _ last hindex
  have hall : (versions start edits).reduceOption =
      ((versions start edits).take edits.length).reduceOption ++ version.toList := by
    rw [← reduceOption_take_succ hversion, ← length_versions start, List.take_length]
  rw [hrun, hall]
  exact habreast.output_eq (htimely.upto hversion) path hpath

/-- The last report that says something. -/
def latest (reports : List Poll) : Option Poll := (reports.filter (· ≠ .silent)).getLast?

theorem latest_concat (reports : List Poll) (p : Poll) :
    latest (reports ++ [p]) = if p = .silent then latest reports else some p := by
  unfold latest
  rw [List.filter_append]
  by_cases hp : p = .silent
  · simp [hp]
  · simp [hp]

theorem reportOn_ne_silent (text : String) : reportOn o text ≠ .silent := by
  intro h
  have herrors := congrArg Poll.errors h
  unfold reportOn at herrors
  split at herrors <;> simp [Poll.silent] at herrors

/-- The latest report is on the last version that has been found, however long ago. -/
theorem latest_take {reports : List Poll} (htimely : Timely found.reduceOption)
    (hreports : ∀ n : Nat, reports[n]? = found[n]?.map (saidOf o (found.take n).reduceOption))
    (n : Nat) :
    latest (reports.take n) =
      (found.take n).reduceOption.getLast?.map fun v => v.text?.elim .silent (reportOn o) := by
  induction n with
  | zero => rfl
  | succ n ih =>
    rw [List.take_add_one (l := reports), hreports n]
    cases hn : found[n]? with
    | none =>
      rw [List.take_add_one (l := found), hn]
      simpa using ih
    | some version =>
      have htimely := htimely.upto hn
      rw [reduceOption_take_succ hn, Option.map_some, Option.toList_some, latest_concat, ih]
      cases version with
      | none => simp [saidOf]
      | some v =>
        simp only [saidOf, Option.toList_some, List.getLast?_concat, Option.map_some]
        split
        · rename_i hseen
          -- the same time stands for the same content
          obtain ⟨last, hlast, hmodified⟩ := Option.map_eq_some_iff.mp hseen
          have hmem := List.mem_of_getLast? hlast
          have hcontent : last.content = v.content :=
            htimely.times last (by simp [hmem]) v (by simp) hmodified
          rw [if_pos rfl, hlast, Option.map_some, Version.text?, hcontent]
          rfl
        · obtain ⟨text, htext⟩ := htimely.text v (by simp)
          rw [htext, Option.elim_some, if_neg (reportOn_ne_silent text)]

end

/-- A watch is never stale while nothing but the input is edited, its versions are texts that their
times tell apart, and the output is another file that can be written: whenever a look finds an
input, the latest report is on the text that is there. -/
theorem never_stale {start : Option Version} (hroom : 1 ≤ o.room.value) (w : World)
    (hwatched : Watched o place start w.files) (hconcerns : ∀ e ∈ edits, e.Concerns place)
    (htimely : Timely (versions start edits).reduceOption) :
    let found := versions start edits
    let result := runScript o unseen edits w
    ∃ reports : List Poll, result.1 = reports.modifyHead w.pending.append ∧
      reports.length = edits.length + 1 ∧ result.2.1 = .exit 0 ∧
      (∀ (n : Nat) (version : Version) (text : String), found[n]? = some (some version) →
        version.text? = some text → latest (reports.take (n + 1)) = some (reportOn o text)) ∧
      (∀ n : Nat, found[n]? = some none → reports[n]? = some .silent) ∧
      (∀ (n : Nat) (version last : Version), found[n]? = some (some version) →
        (found.take n).reduceOption.getLast? = some last → version.modified = last.modified →
        reports[n]? = some .silent) ∧
      ∀ (n : Nat) (path : Path), o.output = some path →
        (runScript o unseen (edits.take n) w).2.2.files.read path =
          (lastRendering o (found.take (n + 1)).reduceOption).elim (w.files.read path)
            fun text => .ok text.toUTF8 := by
  intro found result
  let s : Sight := ⟨unseen, w⟩
  have hstart : Abreast o place w.files [] start s := ⟨hwatched, rfl, fun _ _ => rfl⟩
  obtain ⟨last, -, hrun⟩ := runScript_of_all_last hroom (hstart.all_last hconcerns htimely)
  let reports := (sights o s edits).map fun x => told o x.seen x.world.files
  have hreports (n : Nat) :
      reports[n]? = found[n]?.map (saidOf o (found.take n).reduceOption) :=
    hstart.getElem?_told hconcerns htimely n
  refine ⟨reports, ?_, ?_, ?_, ?_, ?_, ?_, ?_⟩
  · exact (congrArg (·.1) hrun).trans (map_poll s edits)
  · simp [reports, length_sights]
  · exact congrArg (·.2.1) hrun
  · intro n version text hn htext
    rw [latest_take htimely hreports, reduceOption_take_succ hn]
    simp [htext]
  · intro n hn
    rw [hreports, hn]
    rfl
  · intro n version last hn hlast hsame
    rw [hreports, hn, Option.map_some, saidOf, hlast, Option.map_some, hsame, if_pos rfl]
  · intro n path hpath
    have hversions : versions start (edits.take n) = found.take (n + 1) :=
      (List.take_scanl _ _ _).symm
    have htimely := htimely.take (n + 1)
    rw [← hversions] at htimely ⊢
    exact hstart.run_output hroom (fun e he => hconcerns e (List.mem_of_mem_take he)) htimely
      path hpath

theorem never_stale_good_bad_gone :
    let w : World := { files := ⟨[(["doc.dtdx"], .file "a".toUTF8 1000)], []⟩ }
    let o : Options :=
      ⟨⟨"", ["doc.dtdx"]⟩, some ⟨"", ["out.txt"]⟩, .text, false, .number 2, true, false⟩
    let edits : List Edit :=
      [{ writes := [(["doc.dtdx"], some "$".toUTF8)], modified := 2000 },
        { deletions := [["doc.dtdx"]] }]
    ∃ reports : List Poll, (runScript o unseen edits w).1 = reports.modifyHead w.pending.append ∧
      latest (reports.take 1) = some (reportOn o "a") ∧
      latest (reports.take 2) = some (reportOn o "$") ∧ reports[2]? = some .silent := by
  intro w o edits
  let good : Version := ⟨"a".toUTF8, 1000⟩
  let bad : Version := ⟨"$".toUTF8, 2000⟩
  have hwellFormed : w.files.WellFormed := by
    refine ⟨⟨0, rfl⟩, ?_⟩
    intro name place h
    by_cases hplace : name :: place = ["doc.dtdx"]
    · cases hplace
      exact ⟨0, rfl⟩
    · have hb : (name :: place == ["doc.dtdx"]) = false := by simpa using hplace
      simp [w, FileTree.at?, List.lookup_cons, hb] at h
  have hwatched : Watched o ["doc.dtdx"] (some good) w.files := by
    refine ⟨hwellFormed, ?_, rfl, ?_⟩
    · exact FileTree.locate_name rfl rfl (by simp) (by decide) (by decide)
    · rintro _ ⟨⟩
      refine ⟨["out.txt"], ?_, by decide, ?_⟩
      · exact FileTree.locate_name rfl rfl (by simp) (by decide) (by decide)
      · rintro ⟨modified, hat⟩
        cases hat
  have hconcerns : ∀ e ∈ edits, e.Concerns ["doc.dtdx"] := by
    simp [edits, Edit.Concerns]
  have hversions : versions (some good) edits = [some good, some bad, none] := rfl
  have htext (text : String) (h : Text.unifyLineEnds text.toList = text.toList) :
      Text.ofBytes? text.toUTF8 = some text := by
    rw [Text.ofBytes?_toUTF8, h, String.ofList_toList]
  have hgood : good.text? = some "a" := htext "a" rfl
  have hbad : bad.text? = some "$" := htext "$" rfl
  have htimely : Timely (versions (some good) edits).reduceOption := by
    have hseen : (versions (some good) edits).reduceOption = [good, bad] := rfl
    rw [hseen]
    refine ⟨?_, ?_, ?_⟩
    · simp [good, bad, unseen]
    · simp [hgood, hbad]
    · simp [good, bad]
  obtain ⟨reports, hpolls, -, -, hlatest, hsilent, -⟩ :=
    never_stale (by decide) w hwatched hconcerns htimely
  exact ⟨reports, hpolls, hlatest 0 good "a" rfl hgood, hlatest 1 bad "$" rfl hbad, hsilent 2 rfl⟩

end Watch

end DocModelLexer
