/-
Trimming: what is cut off at the ends of lines.
-/

import PlaybookStyle.Text.Blank

namespace PlaybookStyle.Text

/-! ### What is cut off in front -/

theorem isBlank_of_mem_takeWhile (text : List Char) : (text.takeWhile isBlank).all isBlank :=
  List.all_takeWhile

theorem isBlank_head_trimStart {text rest : List Char} {c : Char} (h : trimStart text = c :: rest) :
    isBlank c = false := by
  induction text with
  | nil => cases h
  | cons first more ih =>
    rw [trimStart] at h
    split at h
    · exact ih h
    · rename_i hblank
      obtain ⟨rfl, -⟩ := List.cons.inj h
      exact Bool.eq_false_iff.mpr hblank

theorem trimStart_of_not_isBlank {c : Char} {rest : List Char} (h : isBlank c = false) :
    trimStart (c :: rest) = c :: rest := by
  rw [trimStart, h]
  rfl

theorem trimStart_trimStart (text : List Char) : trimStart (trimStart text) = trimStart text := by
  cases h : trimStart text with
  | nil => rfl
  | cons c rest => exact trimStart_of_not_isBlank (isBlank_head_trimStart h)

theorem trimStart_dropWhile_spaces (text : List Char) :
    trimStart (text.dropWhile (· == ' ')) = trimStart text := by
  induction text with
  | nil => rfl
  | cons c rest ih =>
    cases hc : c == ' ' with
    | false => rw [List.dropWhile_cons, hc]; rfl
    | true =>
      have hblank : isBlank c = true := by rw [beq_iff_eq.mp hc]; decide
      rw [List.dropWhile_cons, hc, if_pos rfl, ih, trimStart, hblank, if_pos rfl]

theorem trimStart_append_of_all_isBlank {blanks : List Char} (h : blanks.all isBlank)
    (text : List Char) : trimStart (blanks ++ text) = trimStart text := by
  induction blanks with
  | nil => rfl
  | cons c rest ih =>
    rw [List.all_cons, Bool.and_eq_true] at h
    rw [List.cons_append, trimStart, if_pos h.1, ih h.2]

theorem exists_append_cons_of_not_all {p : Char → Bool} {text : List Char} (h : ¬text.all p) :
    ∃ leading c rest, text = leading ++ c :: rest ∧ leading.all p ∧ p c = false := by
  induction text with
  | nil => exact absurd rfl h
  | cons c rest ih =>
    cases hc : p c with
    | false => exact ⟨[], c, rest, rfl, rfl, hc⟩
    | true =>
      rw [List.all_cons, hc, Bool.true_and] at h
      obtain ⟨leading, d, after, rfl, hleading, hd⟩ := ih h
      exact ⟨c :: leading, d, after, rfl, by rw [List.all_cons, hc, hleading]; rfl, hd⟩

/-! ### What is cut off behind -/

theorem trimEndOf_append_singleton {p : Char → Bool} {c : Char} (h : p c = true)
    (text : List Char) : trimEndOf p (text ++ [c]) = trimEndOf p text := by
  induction text with
  | nil => simp [trimEndOf, h]
  | cons first rest ih => rw [List.cons_append, trimEndOf, trimEndOf, ih]

theorem trimEndOf_append_of_not {p : Char → Bool} {c : Char} (h : p c = false)
    (text : List Char) : trimEndOf p (text ++ [c]) = text ++ [c] := by
  induction text with
  | nil => simp [trimEndOf, h]
  | cons first rest ih =>
    rw [List.cons_append, trimEndOf, ih]
    cases rest <;> rfl

theorem trimEndOf_append_of_all {p : Char → Bool} {cut : List Char} (h : cut.all p)
    (text : List Char) : trimEndOf p (text ++ cut) = trimEndOf p text := by
  induction cut generalizing text with
  | nil => rw [List.append_nil]
  | cons c rest ih =>
    rw [List.all_cons, Bool.and_eq_true] at h
    rw [← List.singleton_append, ← List.append_assoc, ih h.2, trimEndOf_append_singleton h.1]

theorem trimEndOf_append_of_ne_nil {p : Char → Bool} {text : List Char}
    (h : trimEndOf p text ≠ []) (before : List Char) :
    trimEndOf p (before ++ text) = before ++ trimEndOf p text := by
  induction before with
  | nil => rfl
  | cons c rest ih =>
    rw [List.cons_append, trimEndOf, ih]
    cases hrest : rest ++ trimEndOf p text with
    | nil => exact absurd (List.append_eq_nil_iff.mp hrest).2 h
    | cons d more => rw [List.cons_append, hrest]

theorem trimEndOf_of_forall {p : Char → Bool} {text : List Char} (h : ∀ c ∈ text, p c = false) :
    trimEndOf p text = text := by
  cases text.eq_nil_or_concat with
  | inl hnil => rw [hnil, trimEndOf]
  | inr hlast =>
    obtain ⟨before, c, rfl⟩ := hlast
    rw [List.concat_eq_append] at h ⊢
    exact trimEndOf_append_of_not (h c (by simp)) before

/-! ### Blanks behind -/

theorem trimEnd_cons_of_not_isBlank {c : Char} (h : isBlank c = false) (rest : List Char) :
    trimEnd (c :: rest) = c :: trimEnd rest := by
  rw [trimEnd, trimEndOf, h]
  cases hrest : trimEndOf isBlank rest <;> simp [trimEnd, hrest]

theorem trimEnd_cons_of_ne_nil {c : Char} {rest : List Char} (h : trimEnd rest ≠ []) :
    trimEnd (c :: rest) = c :: trimEnd rest := by
  rw [trimEnd] at h
  rw [trimEnd, trimEndOf, trimEnd]
  cases hrest : trimEndOf isBlank rest with
  | nil => exact absurd hrest h
  | cons _ _ => rfl

theorem trimEnd_append_cons {c : Char} (h : isBlank c = false) (before after : List Char) :
    trimEnd (before ++ c :: after) = before ++ c :: trimEnd after := by
  induction before with
  | nil => exact trimEnd_cons_of_not_isBlank h after
  | cons first rest ih =>
    have hne : trimEnd (rest ++ c :: after) ≠ [] := by
      rw [ih]
      exact List.append_ne_nil_of_right_ne_nil _ (List.cons_ne_nil _ _)
    rw [List.cons_append, trimEnd_cons_of_ne_nil hne, ih, List.cons_append]

theorem trimEnd_of_all_isBlank {blanks : List Char} (h : blanks.all isBlank) :
    trimEnd blanks = [] := by
  induction blanks with
  | nil => rfl
  | cons c rest ih =>
    rw [List.all_cons, Bool.and_eq_true] at h
    have hrest : trimEndOf isBlank rest = [] := ih h.2
    rw [trimEnd, trimEndOf, hrest]
    exact if_pos h.1

theorem trimEnd_isPrefix (text : List Char) : trimEnd text <+: text := by
  obtain ⟨cut, hcut, -⟩ := exists_append_trimEndOf isBlank text
  exact ⟨cut, hcut⟩

@[simp] theorem trimEnd_trimEnd (text : List Char) : trimEnd (trimEnd text) = trimEnd text := by
  obtain ⟨cut, hcut, hall⟩ := exists_append_trimEndOf isBlank text
  have hsame := trimEndOf_append_of_all hall (trimEndOf isBlank text)
  rw [hcut] at hsame
  exact hsame.symm

theorem isBlank_getLast_trimEnd {text before : List Char} {c : Char}
    (h : trimEnd text = before ++ [c]) : isBlank c = false := by
  have hsame := trimEnd_trimEnd text
  rw [h] at hsame
  cases hc : isBlank c with
  | false => rfl
  | true =>
    have hcut : trimEnd (before ++ [c]) = trimEnd before := trimEndOf_append_singleton hc before
    rw [hcut] at hsame
    have hle := length_trimEndOf_le isBlank before
    rw [← trimEnd, hsame, List.length_append, List.length_singleton] at hle
    exact absurd hle (Nat.not_succ_le_self _)

/-! ### Both ends -/

theorem trim_append_of_all_isBlank {cut : List Char} (h : cut.all isBlank) (text : List Char) :
    trim (text ++ cut) = trim text := by
  induction text with
  | nil =>
    have hcut := trimStart_append_of_all_isBlank h []
    rw [List.append_nil] at hcut
    rw [List.nil_append, trim, trim, hcut]
  | cons c rest ih =>
    unfold trim at ih ⊢
    rw [List.cons_append, trimStart, trimStart]
    split
    · exact ih
    · rw [← List.cons_append]
      exact trimEndOf_append_of_all h _

/-- Either end may be trimmed first. -/
theorem trim_eq_trimStart_trimEnd (text : List Char) : trim text = trimStart (trimEnd text) := by
  induction text with
  | nil => rfl
  | cons c rest ih =>
    cases hc : isBlank c with
    | false =>
      rw [trim, trimStart_of_not_isBlank hc, trimEnd_cons_of_not_isBlank hc,
        trimStart_of_not_isBlank hc]
    | true =>
      have hstart : trim (c :: rest) = trim rest := by rw [trim, trimStart, if_pos hc, trim]
      rw [hstart, ih]
      by_cases hrest : trimEnd rest = []
      · have hnone : trimEnd (c :: rest) = [] := by
          rw [trimEnd] at hrest
          rw [trimEnd, trimEndOf, hrest, hc]
          rfl
        rw [hrest, hnone]
      · rw [trimEnd_cons_of_ne_nil hrest]
        exact (if_pos hc).symm

theorem all_isBlank_of_returns {text : List Char} (h : text.all (· == '\r')) :
    text.all isBlank := by
  rw [List.all_eq_true] at h ⊢
  intro c hc
  obtain rfl := beq_iff_eq.mp (h c hc)
  rfl

/-- Carriage returns at the end of a line are blanks like any other. -/
theorem trim_trimEndOf_returns (line : List Char) :
    trim (trimEndOf (· == '\r') line) = trim line := by
  obtain ⟨cut, hcut, hall⟩ := exists_append_trimEndOf (· == '\r') line
  have htrim := trim_append_of_all_isBlank (all_isBlank_of_returns hall) (trimEndOf (· == '\r') line)
  rw [hcut] at htrim
  exact htrim.symm

theorem trim_isInfix (text : List Char) : trim text <:+: text := by
  have hstart : trimStart text <:+ text := ⟨_, takeWhile_append_trimStart text⟩
  exact (trimEnd_isPrefix _).isInfix.trans hstart.isInfix

end PlaybookStyle.Text
