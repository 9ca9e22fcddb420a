namespace DocModelLexer.Text

/-- The pieces of a text between the `sep`s, one more than there are `sep`s. -/
def splitOn (sep : Char) : List Char → List (List Char)
  | [] => [[]]
  | c :: cs =>
    if c = sep then [] :: splitOn sep cs
    else
      match splitOn sep cs with
      | [] => [[c]]
      | piece :: pieces => (c :: piece) :: pieces

theorem splitOn_ne_nil (sep : Char) (text : List Char) : splitOn sep text ≠ [] := by
  fun_cases splitOn sep text <;> simp

theorem intercalate_splitOn (sep : Char) (text : List Char) :
    [sep].intercalate (splitOn sep text) = text := by
  induction text with
  | nil => simp [splitOn]
  | cons c cs ih =>
    by_cases h : c = sep
    · cases hs : splitOn sep cs with
      | nil => exact absurd hs (splitOn_ne_nil sep cs)
      | cons piece pieces =>
        rw [hs] at ih
        simpa [splitOn, h, hs, List.intercalate] using ih
    · cases hs : splitOn sep cs with
      | nil => exact absurd hs (splitOn_ne_nil sep cs)
      | cons piece pieces =>
        cases pieces <;> simp_all [splitOn, List.intercalate]

theorem not_mem_of_mem_splitOn {sep : Char} {text piece : List Char}
    (h : piece ∈ splitOn sep text) : sep ∉ piece := by
  induction text generalizing piece with
  | nil => simp_all [splitOn]
  | cons c cs ih =>
    by_cases hc : c = sep
    · simp only [splitOn, hc, if_true, List.mem_cons] at h
      rcases h with rfl | h
      · simp
      · exact ih h
    · cases hs : splitOn sep cs with
      | nil => exact absurd hs (splitOn_ne_nil sep cs)
      | cons head tail =>
        simp only [splitOn, hc, if_false, hs, List.mem_cons] at h
        rcases h with rfl | h
        · simpa [Ne.symm hc] using @ih head (by simp [hs])
        · exact ih (by simp [hs, h])

end DocModelLexer.Text
