/-
Sorting findings that are related one by one.

Two lists of findings that correspond one by one are sorted alike, and the same
of them are dropped, if the correspondence keeps their order and their sameness
(`sortedDiagnostics_forall₂`). Findings whose lines move correspond so
(`Diagnostic.Moved.compare_eq`, `Diagnostic.Moved.same_eq`); for the rule on
blocks this takes that its message tells which line it names.
-/

import PlaybookStyle.Proofs.Report.Sorting
import PlaybookStyle.Proofs.Rule.Moving

namespace PlaybookStyle

/-! ### Corresponding findings -/

/-- Findings that correspond one by one do so behind the sorting. -/
theorem Report.sortedDiagnostics_forall₂ {R : Diagnostic → Diagnostic → Prop}
    {ds ds' : List Diagnostic} (h : List.Forall₂ R ds ds')
    (order : ∀ a ∈ ds, ∀ b ∈ ds, ∀ a' b', R a a' → R b b' →
      Diagnostic.compare a' b' = Diagnostic.compare a b)
    (same : ∀ a ∈ ds, ∀ b ∈ ds, ∀ a' b', R a a' → R b b' →
      Diagnostic.same a' b' = Diagnostic.same a b) :
    List.Forall₂ R (sortedDiagnostics ds) (sortedDiagnostics ds') := by
  -- The pairs are sorted once, by their first parts; either list is one side of them.
  obtain ⟨hlength, hrelated⟩ := List.forall₂_iff_zip.mp h
  have hfst : (ds.zip ds').map Prod.fst = ds := List.map_fst_zip hlength.le
  have hsnd : (ds.zip ds').map Prod.snd = ds' := List.map_snd_zip hlength.ge
  have hmem : ∀ p ∈ ds.zip ds', p.1 ∈ ds := fun p hp => (List.of_mem_zip hp).1
  have hpair : ∀ p ∈ ds.zip ds', R p.1 p.2 := fun p hp => hrelated hp
  let sorted := dropRepeats (fun p q => Diagnostic.same p.1 q.1)
    ((ds.zip ds').mergeSort fun p q => Diagnostic.notAfter p.1 q.1)
  have hmemSorted : ∀ p ∈ sorted, p ∈ ds.zip ds' := fun p hp =>
    List.mem_mergeSort.mp (mem_of_mem_dropRepeats hp)
  have hfirst : sorted.map Prod.fst = sortedDiagnostics ds := by
    have hsort : ((ds.zip ds').mergeSort fun p q => Diagnostic.notAfter p.1 q.1).map Prod.fst =
        ((ds.zip ds').map Prod.fst).mergeSort Diagnostic.notAfter :=
      List.map_mergeSort fun _ _ _ _ => rfl
    rw [hfst] at hsort
    rw [sortedDiagnostics, ← hsort]
    exact map_dropRepeats fun _ _ _ _ => rfl
  have hsecond : sorted.map Prod.snd = sortedDiagnostics ds' := by
    have hsort : ((ds.zip ds').mergeSort fun p q => Diagnostic.notAfter p.1 q.1).map Prod.snd =
        ((ds.zip ds').map Prod.snd).mergeSort Diagnostic.notAfter := by
      refine List.map_mergeSort fun p hp q hq => ?_
      unfold Diagnostic.notAfter
      rw [order p.1 (hmem p hp) q.1 (hmem q hq) p.2 q.2 (hpair p hp) (hpair q hq)]
    rw [hsnd] at hsort
    rw [sortedDiagnostics, ← hsort]
    refine map_dropRepeats fun p hp q hq => ?_
    have hp := List.mem_mergeSort.mp hp
    have hq := List.mem_mergeSort.mp hq
    exact same p.1 (hmem p hp) q.1 (hmem q hq) p.2 q.2 (hpair p hp) (hpair q hq)
  rw [← hfirst, ← hsecond, List.forall₂_map_left_iff, List.forall₂_map_right_iff, List.forall₂_same]
  exact fun p hp => hpair p (hmemSorted p hp)

/-! ### The line in a message -/

namespace Rule

/-- A text of digits behind a blank is told from what stands before it. -/
theorem digits_inj {before before' digits digits' : List Char} (h : digits.all Char.isDigit)
    (h' : digits'.all Char.isDigit)
    (heq : before ++ ' ' :: digits = before' ++ ' ' :: digits') :
    before = before' ∧ digits = digits' := by
  have hsplit : ∀ {before digits : List Char}, digits.all Char.isDigit →
      (before ++ ' ' :: digits).reverse.takeWhile Char.isDigit = digits.reverse := by
    intro before digits hdigits
    rw [List.reverse_append, List.reverse_cons, List.append_assoc, List.takeWhile_append_of_pos]
    · simp
    · simpa using hdigits
  have hdigits : digits = digits' := by
    rw [← List.reverse_inj, ← hsplit h, ← hsplit h', heq]
  subst hdigits
  exact ⟨List.append_cancel_right heq, rfl⟩

/-- The message of the rule on blocks tells what it is about and the line. -/
theorem spacingMessage_inj {what what' : String} {line line' : Nat} :
    spacingMessage what line = spacingMessage what' line' ↔ what = what' ∧ line = line' := by
  have hdigits : ∀ n : Nat, (toString n).toList.all Char.isDigit := by
    intro n
    rw [Nat.toString_eq_repr, Nat.toList_repr, List.all_eq_true]
    exact fun c hc => Nat.isDigit_of_mem_toDigits (by decide) (by decide) hc
  have hblank : " (previous item ends on line ".toList =
      " (previous item ends on line".toList ++ [' '] := by decide
  have hlist : ∀ what line, (spacingMessage what line).toList =
      "Missing blank line before ".toList ++ what.toList ++
        " (previous item ends on line".toList ++ ' ' :: (toString line).toList ++ ")".toList := by
    intro what line
    change (toString "Missing blank line before " ++ toString what ++
      toString " (previous item ends on line " ++ toString line ++ toString ")").toList = _
    rw [String.toList_append, String.toList_append, String.toList_append, String.toList_append]
    change "Missing blank line before ".toList ++ what.toList ++
      " (previous item ends on line ".toList ++ (toString line).toList ++ ")".toList = _
    rw [hblank]
    simp only [List.append_assoc, List.cons_append, List.nil_append]
  constructor
  · intro h
    have h := congrArg String.toList h
    rw [hlist, hlist] at h
    obtain ⟨hbefore, hline⟩ :=
      digits_inj (hdigits line) (hdigits line') (List.append_cancel_right h)
    rw [Nat.toString_eq_repr, Nat.toString_eq_repr, Nat.toList_repr, Nat.toList_repr] at hline
    have hwhat := List.append_cancel_left (List.append_cancel_right hbefore)
    have hvalue := congrArg (fun digits => Nat.ofDigitChars 10 digits 0) hline
    exact ⟨String.toList_inj.mp hwhat, by simpa using hvalue⟩
  · rintro ⟨rfl, rfl⟩
    rfl

end Rule

/-! ### Findings whose lines move -/

/-- Findings are the same exactly if all their parts agree. -/
theorem Diagnostic.same_iff_parts {a b : Diagnostic} :
    Diagnostic.same a b = true ↔ Path.same a.file b.file = true ∧ a.rule = b.rule ∧
      a.message = b.message ∧ a.position = b.position ∧ a.severity = b.severity ∧
        a.category = b.category ∧ a.suggestion? = b.suggestion? := by
  rw [same_iff]
  refine and_congr_right fun _ => ?_
  obtain ⟨file, position, rule, severity, category, message, suggestion?⟩ := a
  obtain ⟨file', position', rule', severity', category', message', suggestion?'⟩ := b
  simp only [mk.injEq, true_and]
  tauto

namespace Diagnostic.Moved

variable {f : Nat → Nat} {a a' b b' : Diagnostic}

theorem file_eq (h : a.Moved f a') : a'.file = a.file := by cases h <;> rfl

theorem position_eq (h : a.Moved f a') : a'.position = a.position.moved f := by cases h <;> rfl

theorem rule_eq (h : a.Moved f a') : a'.rule = a.rule := by cases h <;> rfl

/-- Findings keep their order if no line passes another. -/
theorem compare_eq (hf : StrictMono f) (ha : a.Moved f a') (hb : b.Moved f b') :
    Diagnostic.compare a' b' = Diagnostic.compare a b := by
  have hline : ∀ m n, Ord.compare (f m) (f n) = Ord.compare m n := by
    intro m n
    rcases Nat.lt_trichotomy m n with h | rfl | h
    · rw [Nat.compare_eq_lt.mpr h, Nat.compare_eq_lt.mpr (hf h)]
    · rw [Nat.compare_eq_eq.mpr rfl, Nat.compare_eq_eq.mpr rfl]
    · rw [Nat.compare_eq_gt.mpr h, Nat.compare_eq_gt.mpr (hf h)]
  simp only [Diagnostic.compare, ha.file_eq, hb.file_eq, ha.position_eq, hb.position_eq,
    ha.rule_eq, hb.rule_eq, Position.moved, hline]

/-- The messages of two findings of one rule agree exactly if they did before. -/
theorem message_eq_iff (hf : Function.Injective f) (ha : a.Moved f a') (hb : b.Moved f b')
    (hrule : a.rule = b.rule) : a'.message = b'.message ↔ a.message = b.message := by
  cases ha with
  | place other =>
    cases hb with
    | place _ => exact Iff.rfl
    | spacing block _ => exact absurd (hrule.trans block) other
  | spacing block message =>
    cases hb with
    | place other => exact absurd (hrule.symm.trans block) other
    | spacing _ message' =>
      rw [message, message', Rule.spacingMessage_inj, Rule.spacingMessage_inj, hf.eq_iff]

/-- Findings are the same exactly if they were the same before. -/
theorem same_eq (hf : Function.Injective f) (ha : a.Moved f a') (hb : b.Moved f b') :
    Diagnostic.same a' b' = Diagnostic.same a b := by
  have hgrade : ∀ {d d' : Diagnostic}, d.Moved f d' →
      d'.severity = d.severity ∧ d'.category = d.category ∧ d'.suggestion? = d.suggestion? := by
    rintro d _ ⟨⟩ <;> exact ⟨rfl, rfl, rfl⟩
  obtain ⟨hseverity, hcategory, hsuggestion⟩ := hgrade ha
  obtain ⟨hseverity', hcategory', hsuggestion'⟩ := hgrade hb
  rw [Bool.eq_iff_iff, same_iff_parts, same_iff_parts, ha.file_eq, hb.file_eq, ha.rule_eq,
    hb.rule_eq, ha.position_eq, hb.position_eq, Position.moved_inj hf, hseverity, hseverity',
    hcategory, hcategory', hsuggestion, hsuggestion']
  exact and_congr_right fun _ => and_congr_right fun hrule =>
    and_congr_left fun _ => message_eq_iff hf ha hb hrule

end Diagnostic.Moved

end PlaybookStyle
