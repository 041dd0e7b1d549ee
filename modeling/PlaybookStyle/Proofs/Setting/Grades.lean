/-
Grades set over grades, and lists joined without repeats.

A grade that is set keeps the place of an older one for its rule, so the rules of
two layers stand in the order in which they were first named (`rules_overlay`),
and each has the grade that was set last (`get?_overlay`). Three layers give the
same grades from the left and from the right (`overlay_assoc`), as long as the
layer in the middle names no rule twice; no layer made from pairs does
(`nodup_rules_ofList`).
-/

import PlaybookStyle.Configuration.Basic

namespace PlaybookStyle

/-! ### Lists without repeats -/

section Joined

variable {α : Type} [BEq α]

@[simp] theorem joined_nil (earlier : List α) : joined earlier [] = earlier := rfl

theorem joined_append (earlier middle later : List α) :
    joined earlier (middle ++ later) = joined (joined earlier middle) later :=
  List.foldl_append

theorem joined_cons (earlier rest : List α) (x : α) :
    joined earlier (x :: rest) = joined (joined earlier [x]) rest := rfl

/-- Lists joined one after another are joined as one. -/
theorem foldl_joined {γ : Type} (list : γ → List α) (layers : List γ) (earlier : List α) :
    layers.foldl (fun joint layer => joined joint (list layer)) earlier =
      joined earlier (layers.flatMap list) := by
  induction layers generalizing earlier with
  | nil => rfl
  | cons layer rest ih => rw [List.foldl_cons, ih, List.flatMap_cons, joined_append]

variable [LawfulBEq α] {x : α} {earlier : List α}

theorem joined_of_mem (h : x ∈ earlier) : joined earlier [x] = earlier := by
  simp [joined, h]

theorem joined_of_not_mem (h : x ∉ earlier) : joined earlier [x] = earlier ++ [x] := by
  simp [joined, h]

/-- What a later list adds are the elements that are new, each once. -/
theorem joined_eq (earlier later : List α) :
    joined earlier later = earlier ++ (later.removeAll earlier).eraseDups := by
  induction later generalizing earlier with
  | nil => simp [List.removeAll]
  | cons x rest ih =>
    rw [joined_cons, ih]
    by_cases h : x ∈ earlier
    · rw [joined_of_mem h]
      simp [List.removeAll, h]
    · have hnew : rest.removeAll (earlier ++ [x]) =
          (rest.removeAll earlier).filter fun y => !y == x := by
        rw [List.removeAll, List.removeAll, List.filter_filter]
        refine List.filter_congr fun y _ => ?_
        by_cases hy : y = x <;> simp [hy]
      rw [joined_of_not_mem h, hnew]
      simp [List.removeAll, h, List.eraseDups_cons]

/-- Joined to nothing, a list has every element where it came first. -/
theorem joined_nil_left (list : List α) : joined [] list = list.eraseDups := by
  rw [joined_eq, List.nil_append]
  exact congrArg _ (List.filter_eq_self.mpr fun x _ => rfl)

theorem mem_joined {later : List α} : x ∈ joined earlier later ↔ x ∈ earlier ∨ x ∈ later := by
  rw [joined_eq, List.mem_append, List.mem_eraseDups]
  by_cases h : x ∈ earlier <;> simp [List.removeAll, h]

theorem joined_assoc (a b c : List α) : joined (joined a b) c = joined a (joined b c) := by
  induction c generalizing b with
  | nil => rfl
  | cons x rest ih =>
    have hstep : joined (joined a b) [x] = joined a (joined b [x]) := by
      by_cases h : x ∈ b
      · rw [joined_of_mem h, joined_of_mem (mem_joined.mpr (.inr h))]
      · rw [joined_of_not_mem h, joined_append]
    rw [joined_cons, hstep, ih, ← joined_cons]

theorem nodup_joined (h : earlier.Nodup) (later : List α) : (joined earlier later).Nodup := by
  induction later generalizing earlier with
  | nil => exact h
  | cons x rest ih =>
    rw [joined_cons]
    by_cases hx : x ∈ earlier
    · rw [joined_of_mem hx]
      exact ih h
    · rw [joined_of_not_mem hx]
      exact ih (List.nodup_append.mpr ⟨h, List.pairwise_singleton _ x, by grind⟩)

end Joined

namespace Grades

variable {grades : Grades} {rule other : String} {severity : Severity}

/-! ### One grade -/

@[simp] theorem rules_cons (pair : String × Severity) (rest : Grades) :
    rules (pair :: rest) = pair.1 :: rules rest := rfl

@[simp] theorem rules_append (a b : Grades) : rules (a ++ b) = rules a ++ rules b :=
  List.map_append

theorem get?_eq_none (h : rule ∉ grades.rules) : grades.get? rule = none :=
  List.lookup_eq_none_iff.mpr fun _ hpair => bne_iff_ne.mpr fun heq =>
    h (heq ▸ List.mem_map_of_mem hpair)

theorem insert_cons_self (old : Severity) (rest : Grades) :
    insert ((rule, old) :: rest) rule severity = (rule, severity) :: rest := by
  simp [insert]

theorem insert_cons_of_ne {name : String} (old : Severity) (rest : Grades) (h : name ≠ rule) :
    insert ((name, old) :: rest) rule severity = (name, old) :: insert rest rule severity := by
  simp [insert, h]

/-- A rule without a grade gets one at the end. -/
theorem insert_of_not_mem (h : rule ∉ grades.rules) :
    grades.insert rule severity = grades ++ [(rule, severity)] := by
  induction grades with
  | nil => rfl
  | cons pair rest ih =>
    obtain ⟨name, old⟩ := pair
    rw [rules_cons, List.mem_cons, not_or] at h
    rw [insert_cons_of_ne old rest (Ne.symm h.1), ih h.2, List.cons_append]

/-- A rule with a grade keeps its place. -/
theorem rules_insert_of_mem (h : rule ∈ grades.rules) :
    (grades.insert rule severity).rules = grades.rules := by
  induction grades with
  | nil => cases h
  | cons pair rest ih =>
    obtain ⟨name, old⟩ := pair
    by_cases hname : name = rule
    · subst hname
      rw [insert_cons_self, rules_cons, rules_cons]
    · rw [rules_cons, List.mem_cons] at h
      rw [insert_cons_of_ne old rest hname, rules_cons, rules_cons,
        ih (h.resolve_left (Ne.symm hname))]

theorem rules_insert (grades : Grades) (rule : String) (severity : Severity) :
    (grades.insert rule severity).rules = joined grades.rules [rule] := by
  by_cases h : rule ∈ grades.rules
  · rw [rules_insert_of_mem h, joined_of_mem h]
  · rw [insert_of_not_mem h, joined_of_not_mem h, rules_append]
    rfl

/-- The grade set last is the one that counts. -/
theorem insert_insert_self (grades : Grades) (rule : String) (old severity : Severity) :
    (grades.insert rule old).insert rule severity = grades.insert rule severity := by
  induction grades with
  | nil => simp [insert]
  | cons pair rest ih =>
    obtain ⟨name, first⟩ := pair
    by_cases hname : name = rule
    · subst hname
      rw [insert_cons_self, insert_cons_self, insert_cons_self]
    · rw [insert_cons_of_ne first rest hname, insert_cons_of_ne _ _ hname, ih,
        insert_cons_of_ne _ _ hname]

/-- A grade that changes in its place changes so whether other grades are set before
or after. -/
theorem insert_insert_comm {otherSeverity : Severity} (h : rule ∈ grades.rules)
    (hne : other ≠ rule) :
    (grades.insert rule severity).insert other otherSeverity =
      (grades.insert other otherSeverity).insert rule severity := by
  induction grades with
  | nil => cases h
  | cons pair rest ih =>
    obtain ⟨name, old⟩ := pair
    by_cases hname : name = rule
    · subst hname
      rw [insert_cons_self, insert_cons_of_ne _ _ hne.symm, insert_cons_of_ne _ _ hne.symm,
        insert_cons_self]
    · rw [rules_cons, List.mem_cons] at h
      have hrest := ih (h.resolve_left (Ne.symm hname))
      rw [insert_cons_of_ne _ _ hname]
      by_cases hother : name = other
      · subst hother
        rw [insert_cons_self, insert_cons_self, insert_cons_of_ne _ _ hname]
      · rw [insert_cons_of_ne _ _ hother, insert_cons_of_ne _ _ hother, hrest,
          insert_cons_of_ne _ _ hname]

/-! ### Layers of grades -/

@[simp] theorem overlay_nil (grades : Grades) : grades.overlay [] = grades := rfl

theorem overlay_cons (grades rest : Grades) (pair : String × Severity) :
    grades.overlay (pair :: rest) = (grades.insert pair.1 pair.2).overlay rest := rfl

/-- The rules of layers stand in the order in which they were first named. -/
theorem rules_overlay (grades later : Grades) :
    (grades.overlay later).rules = joined grades.rules later.rules := by
  induction later generalizing grades with
  | nil => rfl
  | cons pair rest ih => rw [overlay_cons, ih, rules_insert, rules_cons, ← joined_cons]

/-- The grade of a rule is that of the later layer, if it has one there. -/
theorem get?_overlay {later : Grades} (distinct : later.rules.Nodup) (grades : Grades)
    (rule : String) : (grades.overlay later).get? rule = (later.get? rule).or (grades.get? rule) := by
  induction later generalizing grades with
  | nil => rfl
  | cons pair rest ih =>
    obtain ⟨name, severity⟩ := pair
    obtain ⟨hname, hrest⟩ := List.nodup_cons.mp distinct
    rw [overlay_cons, ih hrest, get?_insert]
    by_cases h : rule = name
    · subst h
      rw [get?_eq_none hname]
      simp [get?]
    · simp [get?, List.lookup_cons, beq_eq_false_iff_ne.mpr h]

/-- A grade set in front of a layer that has none for its rule may as well be set
behind it, if it changes an older one in its place. -/
theorem overlay_insert_of_not_mem {later : Grades} (h : rule ∈ grades.rules)
    (hlater : rule ∉ later.rules) :
    (grades.insert rule severity).overlay later = (grades.overlay later).insert rule severity := by
  induction later generalizing grades with
  | nil => rfl
  | cons pair rest ih =>
    rw [rules_cons, List.mem_cons, not_or] at hlater
    have hmem : rule ∈ (grades.insert pair.1 pair.2).rules := by
      rw [rules_insert]
      exact mem_joined.mpr (.inl h)
    rw [overlay_cons, insert_insert_comm h (Ne.symm hlater.1), ih hmem hlater.2, overlay_cons]

/-- A grade may be set in a layer before or after the layer is set over others. -/
theorem overlay_insert {later : Grades} (distinct : later.rules.Nodup) (grades : Grades)
    (rule : String) (severity : Severity) :
    grades.overlay (later.insert rule severity) = (grades.overlay later).insert rule severity := by
  induction later generalizing grades with
  | nil => rfl
  | cons pair rest ih =>
    obtain ⟨name, old⟩ := pair
    obtain ⟨hname, hrest⟩ := List.nodup_cons.mp distinct
    by_cases h : name = rule
    · subst h
      have hmem : name ∈ (grades.insert name old).rules := by
        rw [rules_insert]
        exact mem_joined.mpr (.inr List.mem_cons_self)
      rw [insert_cons_self, overlay_cons, overlay_cons, ← overlay_insert_of_not_mem hmem hname,
        insert_insert_self]
    · rw [insert_cons_of_ne _ _ h, overlay_cons, overlay_cons, ih hrest]

/-- Layers may be set over one another from the left or from the right. -/
theorem overlay_assoc {middle : Grades} (distinct : middle.rules.Nodup) (grades later : Grades) :
    (grades.overlay middle).overlay later = grades.overlay (middle.overlay later) := by
  induction later generalizing middle with
  | nil => rfl
  | cons pair rest ih =>
    have hdistinct : (middle.insert pair.1 pair.2).rules.Nodup := by
      rw [rules_insert]
      exact nodup_joined distinct _
    rw [overlay_cons, overlay_cons, ← overlay_insert distinct, ih hdistinct]

theorem nodup_rules_overlay (distinct : grades.rules.Nodup) (later : Grades) :
    (grades.overlay later).rules.Nodup := by
  rw [rules_overlay]
  exact nodup_joined distinct _

/-- A list of grades names no rule twice, whatever the pairs it was made from. -/
theorem nodup_rules_ofList (pairs : List (String × Severity)) : (ofList pairs).rules.Nodup :=
  @nodup_rules_overlay [] List.nodup_nil pairs

end Grades

end PlaybookStyle
