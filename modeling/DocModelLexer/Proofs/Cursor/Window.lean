import DocModelLexer.Cursor

namespace DocModelLexer

theorem Source.offset_positionAt (s : Source) (i : Int) : (s.positionAt i).offset = i := by
  unfold Source.positionAt
  split <;> rfl

theorem Source.eq_ofList_toList (s : Source) : s = ofList s.toList := by
  ext1
  simp [ofList, toList]

theorem Source.exists_cut {s : Source} {i j : Nat} (hij : i ≤ j) (hj : j ≤ s.size) :
    ∃ behind pending ahead, s = ofList (behind ++ pending ++ ahead) ∧ behind.length = i ∧
      behind.length + pending.length = j := by
  have hsize := s.length_toList
  have hmore : i + (j - i) = j := by omega
  refine ⟨s.toList.take i, (s.toList.drop i).take (j - i), s.toList.drop j, ?_, ?_, ?_⟩
  · rw [← List.take_add, hmore, List.take_append_drop]
    exact s.eq_ofList_toList
  · rw [List.length_take]
    omega
  · rw [List.length_take, List.length_take, List.length_drop]
    omega

namespace Cursor

/-- The cursor over `behind`, `pending` and `ahead`, one after the other, whose window holds
`pending`. -/
def upon (behind pending ahead : List Char) (atEnd : Bool := false) : Cursor where
  source := .ofList (behind ++ pending ++ ahead)
  tokenStart := behind.length
  position := behind.length + pending.length
  atEnd := atEnd

variable {behind pending ahead : List Char} {e : Bool}

theorem upon_injective {behind' pending' ahead' : List Char} {e' : Bool}
    (h : upon behind pending ahead e = upon behind' pending' ahead' e') :
    behind = behind' ∧ pending = pending' ∧ ahead = ahead' := by
  obtain ⟨hsource, hstart, hposition, -⟩ := Cursor.mk.inj h
  have htext : behind ++ (pending ++ ahead) = behind' ++ (pending' ++ ahead') := by
    simpa using congrArg Source.toList hsource
  obtain ⟨hbehind, hrest⟩ := List.append_inj htext hstart
  obtain ⟨hpending, hahead⟩ := List.append_inj hrest (by omega)
  exact ⟨hbehind, hpending, hahead⟩

theorem upon_position (taken : List Char) :
    { upon behind pending (taken ++ ahead) e with
      position := behind.length + pending.length + taken.length } =
      upon behind (pending ++ taken) ahead e := by
  simp [upon, Nat.add_assoc]

theorem next_upon_cons (c : Char) :
    next (upon behind pending (c :: ahead)) =
      .ok (some c) (upon behind (pending ++ [c]) ahead) := by
  have hlt : (upon behind pending (c :: ahead)).position <
      (upon behind pending (c :: ahead)).source.chars.size := by
    simp [upon, Source.ofList]
  have hget : (upon behind pending (c :: ahead)).source.chars[
      (upon behind pending (c :: ahead)).position] = c := by
    simp [upon, Source.ofList]
  unfold next
  rw [dif_pos hlt, hget]
  congr 1
  exact upon_position [c]

theorem next_upon_nil : next (upon behind pending []) = .ok none (upon behind pending [] true) := by
  simp [next, upon, Source.ofList]

theorem backup_upon_append (c : Char) :
    backup (upon behind (pending ++ [c]) ahead) = .ok () (upon behind pending (c :: ahead)) := by
  have hpast : ¬(upon behind (pending ++ [c]) ahead).position ≤
      (upon behind (pending ++ [c]) ahead).tokenStart := by
    simp only [upon, List.length_append, List.length_singleton]
    omega
  have hopen : ¬(upon behind (pending ++ [c]) ahead).atEnd = true := Bool.false_ne_true
  unfold backup
  rw [if_neg hopen, if_neg hpast]
  simp [upon, ← Nat.add_assoc]

theorem backup_upon_end :
    backup (upon behind pending ahead true) = .ok () (upon behind pending ahead) := by
  simp [backup, upon]

theorem peek_upon :
    peek (upon behind pending ahead) = .ok ahead.head? (upon behind pending ahead) := by
  cases ahead with
  | nil =>
    simp only [peek, bind, EStateM.bind, next_upon_nil, backup_upon_end, pure, EStateM.pure,
      List.head?_nil]
  | cons c ahead =>
    simp only [peek, bind, EStateM.bind, next_upon_cons, backup_upon_append, pure, EStateM.pure,
      List.head?_cons]

theorem acceptWhile_upon (p : Char → Bool) :
    acceptWhile p (upon behind pending ahead) =
      .ok () (upon behind (pending ++ ahead.takeWhile p) (ahead.dropWhile p)) := by
  induction ahead generalizing pending with
  | nil =>
    rw [acceptWhile, next_upon_nil]
    simpa using backup_upon_end
  | cons c ahead ih =>
    rw [acceptWhile, next_upon_cons]
    by_cases hc : p c = true
    · simp [hc, ih, List.append_assoc]
    · simpa [hc] using backup_upon_append c

/-- The rounds of a run, with what they come to. Each round reads on; the last one takes its read
back. -/
inductive Rounds (p : Char → Bool) : Nat → Cursor → EStateM.Result Fault Cursor Unit → Prop where
  | goesOn {n c ch c' result} : next c = .ok (some ch) c' → p ch = true → Rounds p n c' result →
      Rounds p (n + 1) c result
  | turnsBack {c ch c'} : next c = .ok (some ch) c' → p ch = false → Rounds p 1 c (backup c')
  | meetsEnd {c c'} : next c = .ok none c' → Rounds p 1 c (backup c')
  | faults {c fault c'} : next c = .error fault c' → Rounds p 1 c (.error fault c')

theorem exists_rounds (p : Char → Bool) (c : Cursor) :
    ∃ n, Rounds p n c (acceptWhile p c) ∧ n ≤ c.source.size - c.position + 1 := by
  induction c using acceptWhile.induct p with
  | case1 c ch c' hnext hp ih =>
    obtain ⟨hlt, -, rfl⟩ := next_eq_some hnext
    obtain ⟨n, hrounds, hn⟩ := ih
    refine ⟨n + 1, ?_, ?_⟩
    · rw [acceptWhile, hnext]
      simpa only [hp, if_true] using .goesOn hnext hp hrounds
    · simp only [Source.size] at hn ⊢
      omega
  | case2 c ch c' hnext hp =>
    refine ⟨1, ?_, Nat.le_add_left 1 _⟩
    rw [acceptWhile, hnext]
    simpa only [hp] using .turnsBack hnext (by simpa using hp)
  | case3 c c' hnext =>
    refine ⟨1, ?_, Nat.le_add_left 1 _⟩
    rw [acceptWhile, hnext]
    exact .meetsEnd hnext
  | case4 c fault c' hnext =>
    refine ⟨1, ?_, Nat.le_add_left 1 _⟩
    rw [acceptWhile, hnext]
    exact .faults hnext

theorem lookingAt_upon (text : List Char) :
    lookingAt text (upon behind pending ahead) =
      .ok (ahead.take text.length == text) (upon behind pending ahead) := by
  simp [lookingAt, upon, Source.slice_eq, ← List.drop_drop]

theorem current_upon :
    current (upon behind pending ahead e) = .ok pending (upon behind pending ahead e) := by
  simp [current, upon, Source.slice_eq]

theorem ignore_upon :
    ignore (upon behind pending ahead e) = .ok () (upon (behind ++ pending) [] ahead e) := by
  simp [ignore, upon]

end Cursor

end DocModelLexer
