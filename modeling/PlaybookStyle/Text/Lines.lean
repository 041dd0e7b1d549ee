/-
Lines: a text cut at its line feeds.

`splitLines` gives one list per line, without the line feed; a line feed at the
very end opens no further line, so the empty text has none. A carriage return
stays with its line here and is dropped by whoever reads the line.
-/

namespace PlaybookStyle.Text

/-- The lines of a text, without their line feeds. -/
def splitLines : List Char → List (List Char)
  | [] => []
  | c :: rest =>
    if c = '\n' then [] :: splitLines rest
    else
      match splitLines rest with
      | [] => [[c]]
      | line :: lines => (c :: line) :: lines

@[simp] theorem splitLines_nil : splitLines [] = [] := rfl

theorem splitLines_newline (rest : List Char) :
    splitLines ('\n' :: rest) = [] :: splitLines rest := by
  simp [splitLines]

/-- No line holds a line feed. -/
theorem newline_not_mem_of_mem_splitLines {text line : List Char}
    (h : line ∈ splitLines text) : '\n' ∉ line := by
  induction text generalizing line with
  | nil => simp at h
  | cons c rest ih =>
    unfold splitLines at h
    split at h
    · rcases List.mem_cons.1 h with rfl | h
      · simp
      · exact ih h
    · rename_i hc
      split at h
      · rw [List.mem_singleton] at h
        subst h
        simpa using fun h => hc h.symm
      · rename_i first others hrest
        rcases List.mem_cons.1 h with rfl | h
        · have := @ih first (by rw [hrest]; exact List.mem_cons_self)
          simp only [List.mem_cons, not_or]
          exact ⟨fun h => hc h.symm, this⟩
        · exact ih (by rw [hrest]; exact List.mem_cons_of_mem _ h)

end PlaybookStyle.Text
