import DocModelLexer.Proofs.Cursor.Soundness
import DocModelLexer.Proofs.Cursor.Window

namespace DocModelLexer.Cursor

variable {behind pending ahead : List Char} {c c' : Cursor} {op : Op} {fault : Fault}

/-- A sound cursor holds a window of its text. Where the end is noted, nothing is ahead. -/
theorem Sound.exists_upon (h : c.Sound) :
    ∃ behind pending ahead, c = upon behind pending ahead c.atEnd ∧
      (c.atEnd = true → ahead = []) := by
  obtain ⟨source, start, position, atEnd⟩ := c
  obtain ⟨behind, pending, ahead, hsource, hstart, hposition⟩ :=
    Source.exists_cut h.start_le h.position_le
  simp only at hsource hstart hposition
  subst hsource hstart hposition
  refine ⟨behind, pending, ahead, rfl, ?_⟩
  intro hend
  have hlast : behind.length + pending.length =
      (Source.ofList (behind ++ pending ++ ahead)).size := h.position_eq hend
  rw [Source.size_ofList, List.length_append, List.length_append] at hlast
  apply List.eq_nil_of_length_eq_zero
  omega

theorem next_upon_end :
    next (upon behind pending [] true) = .error .pastEnd (upon behind pending [] true) := by
  simp [next, upon, Source.ofList]

theorem bind_upon_end {α : Type} (f : Option Char → Action α) :
    (next >>= f) (upon behind pending [] true) =
      .error .pastEnd (upon behind pending [] true) := by
  change EStateM.bind next f _ = _
  rw [EStateM.bind, next_upon_end]

theorem acceptWhile_upon_end (p : Char → Bool) :
    acceptWhile p (upon behind pending [] true) =
      .error .pastEnd (upon behind pending [] true) := by
  rw [acceptWhile, next_upon_end]

theorem accept_upon (chars : List Char) :
    ∃ reply c', accept chars (upon behind pending ahead) = .ok reply c' := by
  cases ahead with
  | nil =>
    refine ⟨false, upon behind pending [], ?_⟩
    simp only [accept, bind, EStateM.bind, next_upon_nil, backup_upon_end, pure, EStateM.pure]
  | cons c ahead =>
    simp only [accept, bind, EStateM.bind, next_upon_cons]
    by_cases hc : c ∈ chars
    · exact ⟨true, upon behind (pending ++ [c]) ahead, by simp [hc, pure, EStateM.pure]⟩
    · refine ⟨false, upon behind pending (c :: ahead), ?_⟩
      simp [hc, EStateM.bind, backup_upon_append, pure, EStateM.pure]

theorem exists_ok_upon (behind pending ahead : List Char) (hop : op ≠ .backup) :
    ∃ reply c', perform op (upon behind pending ahead) = .ok reply c' := by
  cases op with
  | next =>
    cases ahead with
    | nil => exact ⟨none, _, next_upon_nil⟩
    | cons c ahead => exact ⟨some c, _, next_upon_cons c⟩
  | backup => contradiction
  | peek => exact ⟨_, _, peek_upon⟩
  | accept chars => exact accept_upon chars
  | acceptWhile p => exact ⟨(), _, acceptWhile_upon p⟩
  | acceptRun chars => exact ⟨(), _, acceptWhile_upon _⟩
  | acceptTo chars => exact ⟨(), _, acceptWhile_upon _⟩
  | lookingAt text => exact ⟨_, _, rfl⟩
  | current => exact ⟨_, _, rfl⟩
  | ignore => exact ⟨(), _, rfl⟩
  | positionAt offset => exact ⟨_, _, rfl⟩

theorem eq_upon_end_of_error (herror : perform op (upon behind pending [] true) = .error fault c') :
    c' = upon behind pending [] true := by
  cases op with
  | next =>
    cases next_upon_end.symm.trans herror
    rfl
  | backup =>
    have hok : backup (upon behind pending [] true) = .ok () (upon behind pending []) :=
      backup_upon_end
    cases hok.symm.trans herror
  | peek =>
    cases (bind_upon_end _).symm.trans herror
    rfl
  | accept chars =>
    cases (bind_upon_end _).symm.trans herror
    rfl
  | acceptWhile p =>
    cases (acceptWhile_upon_end p).symm.trans herror
    rfl
  | acceptRun chars =>
    cases (acceptWhile_upon_end _).symm.trans herror
    rfl
  | acceptTo chars =>
    cases (acceptWhile_upon_end _).symm.trans herror
    rfl
  | lookingAt text => cases herror
  | current => cases herror
  | ignore => cases herror
  | positionAt offset => cases herror

theorem eq_of_backup_eq_error (herror : backup c = .error fault c') : c' = c := by
  unfold backup at herror
  split at herror
  · cases herror
  · split at herror
    · cases herror
      rfl
    · cases herror

namespace Sound

theorem eq_of_error (h : c.Sound) (herror : perform op c = .error fault c') : c' = c := by
  obtain ⟨behind, pending, ahead, hc, hahead⟩ := h.exists_upon
  -- a read fails only where the end is noted; elsewhere nothing but taking back does
  cases hend : c.atEnd with
  | true =>
    rw [hahead hend, hend] at hc
    rw [hc] at herror ⊢
    exact eq_upon_end_of_error herror
  | false =>
    rw [hend] at hc
    by_cases hop : op = .backup
    · subst hop
      exact eq_of_backup_eq_error herror
    · obtain ⟨reply, c'', hok⟩ := exists_ok_upon behind pending ahead hop
      rw [hc, hok] at herror
      cases herror

theorem backup_of_next {ch : Option Char} (h : c.Sound) (hnext : next c = .ok ch c') :
    backup c' = .ok () c := by
  obtain ⟨behind, pending, ahead, hc, hahead⟩ := h.exists_upon
  cases hend : c.atEnd with
  | true =>
    rw [hc, hahead hend, hend, next_upon_end] at hnext
    cases hnext
  | false =>
    rw [hend] at hc
    rw [hc] at hnext ⊢
    cases ahead with
    | nil =>
      cases next_upon_nil.symm.trans hnext
      exact backup_upon_end
    | cons d ahead =>
      cases (next_upon_cons d).symm.trans hnext
      exact backup_upon_append d

theorem left_peek (h : c.Sound) : left (peek c) = c := by
  obtain ⟨behind, pending, ahead, hc, hahead⟩ := h.exists_upon
  cases hend : c.atEnd with
  | true =>
    rw [hahead hend, hend] at hc
    rw [hc]
    exact congrArg left (bind_upon_end _)
  | false =>
    rw [hend] at hc
    rw [hc, peek_upon]
    rfl

end Sound

/-- Performs operations one after the other, and goes on behind those that fault. -/
def drive (ops : List Op) (c : Cursor) : Cursor :=
  ops.foldl (fun c op => left (perform op c)) c

theorem Sound.follows_drive (h : c.Sound) (ops : List Op) : c.Follows (drive ops c) := by
  induction ops generalizing c with
  | nil => exact .refl h
  | cons op ops ih =>
    have hfirst := steady_perform op c h
    exact hfirst.trans (ih hfirst.sound)

/-- After whatever operations, those that faulted included, the window lies within the source and
the end is noted only there. A fault leaves everything as it was, so does looking, and a read can be
taken back. -/
theorem sound_after_every_call (source : Source) (ops : List Op) :
    let c := drive ops { source }
    (c.source = source ∧ c.tokenStart ≤ c.position ∧ c.position ≤ source.size ∧
      (c.atEnd = true → c.position = source.size)) ∧
    (∀ op fault c', perform op c = .error fault c' → c' = c) ∧
    (left (peek c) = c ∧ (∀ text, left (lookingAt text c) = c) ∧ left (current c) = c ∧
      ∀ offset, left (positionAt offset c) = c) ∧
    ∀ ch c', next c = .ok ch c' → backup c' = .ok () c := by
  intro c
  have hfollows : Follows { source } c := (sound_new source).follows_drive ops
  have hsource : c.source = source := hfollows.source_eq
  have hsound := hfollows.sound
  have hposition := hsound.position_le
  have hend := hsound.position_eq
  rw [hsource] at hposition hend
  refine ⟨⟨hsource, hsound.start_le, hposition, hend⟩, ?_, ?_, ?_⟩
  · intro op fault c' herror
    exact hsound.eq_of_error herror
  · exact ⟨hsound.left_peek, fun _ => rfl, rfl, fun _ => rfl⟩
  · intro ch c' hnext
    exact hsound.backup_of_next hnext

theorem sound_after_every_call_noted_end :
    let source := Source.ofList ['a']
    let c := drive [.next, .next, .ignore, .next] { source }
    c.atEnd = true ∧ c.position = source.size ∧ left (next c) = c ∧
      backup (drive [.next, .next] { source }) = .ok () (drive [.next] { source }) := by
  intro source c
  obtain ⟨⟨-, -, -, hend⟩, hfaults, -, -⟩ :=
    sound_after_every_call source [.next, .next, .ignore, .next]
  obtain ⟨-, -, -, hback⟩ := sound_after_every_call source [.next]
  exact ⟨rfl, hend rfl, hfaults .next .pastEnd _ rfl, hback none _ rfl⟩

end DocModelLexer.Cursor
