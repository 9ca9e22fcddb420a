import DocModelLexer.Cursor

namespace DocModelLexer.Cursor

structure Sound (c : Cursor) : Prop where
  start_le : c.tokenStart ≤ c.position
  position_le : c.position ≤ c.source.size
  position_eq : c.atEnd = true → c.position = c.source.size

theorem sound_new (source : Source) : Sound { source } where
  start_le := Nat.le_refl 0
  position_le := Nat.zero_le _
  position_eq := Bool.noConfusion

/-- Where a cursor may go on from a sound one. -/
structure Follows (c c' : Cursor) : Prop where
  sound : c'.Sound
  source_eq : c'.source = c.source
  start_le : c.tokenStart ≤ c'.tokenStart

theorem Follows.refl {c : Cursor} (h : c.Sound) : c.Follows c := ⟨h, rfl, Nat.le_refl _⟩

theorem Follows.trans {c c' c'' : Cursor} (h : c.Follows c') (hlater : c'.Follows c'') :
    c.Follows c'' :=
  ⟨hlater.sound, hlater.source_eq.trans h.source_eq, Nat.le_trans h.start_le hlater.start_le⟩

variable {α β : Type}

def left : EStateM.Result Fault Cursor α → Cursor
  | .ok _ c => c
  | .error _ c => c

def Steady (a : Action α) : Prop := ∀ c : Cursor, c.Sound → c.Follows (left (a c))

theorem Steady.bind {a : Action α} {f : α → Action β} (ha : Steady a) (hf : ∀ x, Steady (f x)) :
    Steady (a >>= f) := by
  intro c hc
  have hfirst := ha c hc
  change c.Follows (left (EStateM.bind a f c))
  unfold EStateM.bind
  cases h : a c with
  | ok x c' =>
    rw [h] at hfirst
    exact hfirst.trans (hf x c' hfirst.sound)
  | error fault c' =>
    rw [h] at hfirst
    exact hfirst

theorem Steady.pure (x : α) : Steady (pure x) := fun _ hc => .refl hc

theorem steady_next : Steady next := by
  intro c hc
  have hsize : c.source.size = c.source.chars.size := rfl
  unfold next
  split
  · refine ⟨⟨?_, ?_, ?_⟩, rfl, Nat.le_refl _⟩
    · exact Nat.le_succ_of_le hc.start_le
    · simp only [left]
      omega
    · intro hend
      have hpos := hc.position_eq hend
      omega
  · split
    · exact .refl hc
    · refine ⟨⟨hc.start_le, hc.position_le, ?_⟩, rfl, Nat.le_refl _⟩
      intro _
      have hle := hc.position_le
      simp only [left]
      omega

theorem steady_backup : Steady backup := by
  intro c hc
  unfold backup
  split
  · exact ⟨⟨hc.start_le, hc.position_le, fun hend => by cases hend⟩, rfl, Nat.le_refl _⟩
  · rename_i hopen
    split
    · exact .refl hc
    · refine ⟨⟨?_, ?_, fun hend => absurd hend hopen⟩, rfl, Nat.le_refl _⟩
      · simp only [left]
        omega
      · exact Nat.le_trans (Nat.sub_le _ _) hc.position_le

theorem steady_peek : Steady peek :=
  steady_next.bind fun ch => steady_backup.bind fun _ => .pure ch

theorem steady_accept (chars : List Char) : Steady (accept chars) := by
  refine steady_next.bind fun ch => ?_
  cases ch with
  | none => exact steady_backup.bind fun _ => .pure false
  | some ch =>
    change Steady (if ch ∈ chars then _ else _)
    split
    · exact .pure true
    · exact steady_backup.bind fun _ => .pure false

theorem steady_acceptWhile (p : Char → Bool) : Steady (acceptWhile p) := by
  intro c
  induction c using acceptWhile.induct p with
  | case1 c ch c' hnext hp ih =>
    intro hc
    have hfirst := steady_next c hc
    rw [hnext] at hfirst
    rw [acceptWhile, hnext]
    simp only [hp, if_true]
    exact hfirst.trans (ih hfirst.sound)
  | case2 c ch c' hnext hp =>
    intro hc
    have hfirst := steady_next c hc
    rw [hnext] at hfirst
    rw [acceptWhile, hnext]
    simp only [hp]
    exact hfirst.trans (steady_backup c' hfirst.sound)
  | case3 c c' hnext =>
    intro hc
    have hfirst := steady_next c hc
    rw [hnext] at hfirst
    rw [acceptWhile, hnext]
    exact hfirst.trans (steady_backup c' hfirst.sound)
  | case4 c fault c' hnext =>
    intro hc
    have hfirst := steady_next c hc
    rw [hnext] at hfirst
    rw [acceptWhile, hnext]
    exact hfirst

theorem Sound.ignored {c : Cursor} (h : c.Sound) :
    c.Follows { c with tokenStart := c.position } :=
  ⟨⟨Nat.le_refl _, h.position_le, h.position_eq⟩, rfl, h.start_le⟩

/-- No operation loses its source, or moves the window back or beyond the source. -/
theorem steady_perform (op : Op) : Steady (perform op) := by
  cases op with
  | next => exact steady_next
  | backup => exact steady_backup
  | peek => exact steady_peek
  | accept chars => exact steady_accept chars
  | acceptWhile p => exact steady_acceptWhile p
  | acceptRun chars => exact steady_acceptWhile _
  | acceptTo chars => exact steady_acceptWhile _
  | lookingAt text => exact fun _ hc => .refl hc
  | current => exact fun _ hc => .refl hc
  | ignore => exact fun _ hc => hc.ignored
  | positionAt offset => exact fun _ hc => .refl hc

end DocModelLexer.Cursor
