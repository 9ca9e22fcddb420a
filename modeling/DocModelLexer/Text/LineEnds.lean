namespace DocModelLexer.Text

/-- The text with every carriage return, and every carriage return with the line feed behind it,
replaced by a line feed. -/
def unifyLineEnds : List Char → List Char
  | [] => []
  | '\r' :: '\n' :: text => '\n' :: unifyLineEnds text
  | c :: text => (if c = '\r' then '\n' else c) :: unifyLineEnds text

theorem not_mem_unifyLineEnds (text : List Char) : '\r' ∉ unifyLineEnds text := by
  fun_induction unifyLineEnds text with
  | case1 => simp
  | case2 text ih => simpa using ih
  | case3 c text _ ih =>
    by_cases h : c = '\r'
    · simpa [h] using ih
    · simp [h, ih, Ne.symm h]

def ofBytes? (bytes : ByteArray) : Option String :=
  (String.fromUTF8? bytes).map fun text => String.ofList (unifyLineEnds text.toList)

theorem fromUTF8?_toUTF8 (text : String) : String.fromUTF8? text.toUTF8 = some text := by
  have h : text.toUTF8.IsValidUTF8 := text.isValidUTF8
  rw [String.fromUTF8?, dif_pos h]
  rfl

theorem ofBytes?_toUTF8 (text : String) :
    ofBytes? text.toUTF8 = some (String.ofList (unifyLineEnds text.toList)) := by
  rw [ofBytes?, fromUTF8?_toUTF8]
  rfl

end DocModelLexer.Text
