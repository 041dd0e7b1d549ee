/-
Lists sorted by a comparison, without repeats among neighbours.

A stable sort keeps the order of what a choice leaves (`filter_mergeSort`), and a sorted list is
known by the order of what is level in it (`eq_of_filter_level_eq`). Dropping repeats looks at
neighbours only, so a choice may bring together two elements that are the same; it does not as
long as it treats alike what lies between them (`filter_dropRepeats`). All repeats are dropped
exactly if what is the same stands together (`pairwise_dropRepeats_iff`).

* `sortedBy_append_sortedBy` — sorting two lists before they are put behind one another and
  sorted again changes nothing.
-/

import Mathlib.Data.List.Chain
import PlaybookStyle.Path.Sorted

namespace PlaybookStyle

/-! ### Stable sorting -/

section Stable

variable {α : Type} {le : α → α → Bool}

/-- A list falls into a first part with a property and a rest without it in one
way only. -/
theorem append_inj_of_forall {q : α → Bool} {l₁ l₂ m₁ m₂ : List α}
    (h : l₁ ++ l₂ = m₁ ++ m₂) (hl₁ : ∀ a ∈ l₁, q a = true) (hl₂ : ∀ a ∈ l₂, q a = false)
    (hm₁ : ∀ a ∈ m₁, q a = true) (hm₂ : ∀ a ∈ m₂, q a = false) : l₁ = m₁ ∧ l₂ = m₂ := by
  have hfirst : l₁ = m₁ := by
    have := congrArg (List.filter q) h
    rwa [List.filter_append, List.filter_append, List.filter_eq_self.mpr hl₁,
      List.filter_eq_self.mpr hm₁, List.filter_eq_nil_iff.mpr (by simpa using hl₂),
      List.filter_eq_nil_iff.mpr (by simpa using hm₂), List.append_nil, List.append_nil] at this
  subst hfirst
  exact ⟨rfl, List.append_cancel_left h⟩

/-- Where a property is never taken up again, a list is its elements with it and
then those without. -/
theorem eq_filter_append_filter {p : α → Bool} {l : List α}
    (h : l.Pairwise fun a b => p b = true → p a = true) :
    l = l.filter p ++ l.filter (!p ·) := by
  induction l with
  | nil => rfl
  | cons a rest ih =>
    obtain ⟨hfirst, hrest⟩ := List.pairwise_cons.mp h
    have ih := ih hrest
    cases hpa : p a with
    | true =>
      rw [List.filter_cons_of_pos hpa, List.filter_cons_of_neg (by simp [hpa]), List.cons_append,
        ← ih]
    | false =>
      have hnone : rest.filter p = [] := by
        rw [List.filter_eq_nil_iff]
        intro b hb hpb
        rw [hfirst b hb hpb] at hpa
        cases hpa
      rw [hnone, List.nil_append] at ih
      rw [List.filter_cons_of_neg (by simp [hpa]), List.filter_cons_of_pos (by simp [hpa]), hnone,
        ← ih, List.nil_append]

/-- Sorting what a choice leaves is choosing from what is sorted. -/
theorem filter_mergeSort (trans : ∀ a b c, le a b = true → le b c = true → le a c = true)
    (total : ∀ a b, (le a b || le b a) = true) (p : α → Bool) (l : List α) :
    (l.mergeSort le).filter p = (l.filter p).mergeSort le := by
  induction l with
  | nil => simp
  | cons a l ih =>
    -- `a` goes behind everything that it is not before, and before all else.
    obtain ⟨l₁, l₂, hcons, hl, hl₁⟩ := List.mergeSort_cons trans total a l
    have hsorted := List.pairwise_mergeSort trans total (a :: l)
    rw [hcons] at hsorted
    have hl₂ : ∀ b ∈ l₂, le a b = true :=
      (List.pairwise_cons.mp (List.pairwise_append.mp hsorted).2.1).1
    rw [hl, List.filter_append] at ih
    rw [hcons, List.filter_append]
    cases hp : p a with
    | false => rw [List.filter_cons_of_neg (by simp [hp]), List.filter_cons_of_neg (by simp [hp]), ih]
    | true =>
      rw [List.filter_cons_of_pos hp, List.filter_cons_of_pos hp]
      obtain ⟨m₁, m₂, hmcons, hm, hm₁⟩ := List.mergeSort_cons trans total a (l.filter p)
      have hmsorted := List.pairwise_mergeSort trans total (a :: l.filter p)
      rw [hmcons] at hmsorted
      have hm₂ : ∀ b ∈ m₂, le a b = true :=
        (List.pairwise_cons.mp (List.pairwise_append.mp hmsorted).2.1).1
      obtain ⟨h₁, h₂⟩ := append_inj_of_forall (q := fun b => !le a b) (ih.trans hm)
        (fun b hb => hl₁ b (List.mem_filter.mp hb).1)
        (fun b hb => by simpa using hl₂ b (List.mem_filter.mp hb).1)
        hm₁ (fun b hb => by simpa using hm₂ b hb)
      rw [hmcons, h₁, h₂]

end Stable

/-! ### Sorting by a comparison -/

section Comparison

variable {α : Type} {cmp : α → α → Ordering} [Std.TransCmp cmp]

theorem bne_gt_eq_isLE (o : Ordering) : (o != .gt) = o.isLE := by
  cases o <;> rfl

theorem ne_gt_trans (a b c : α) (hab : (cmp a b != .gt) = true) (hbc : (cmp b c != .gt) = true) :
    (cmp a c != .gt) = true := by
  rw [bne_gt_eq_isLE] at *
  exact Std.TransCmp.isLE_trans hab hbc

theorem ne_gt_total (a b : α) : (cmp a b != .gt || cmp b a != .gt) = true := by
  have hswap : cmp b a = (cmp a b).swap := Std.OrientedCmp.eq_swap
  rw [hswap]
  cases cmp a b <;> rfl

/-- What is level with an element stays in its order. -/
theorem filter_level_mergeSort (d : α) (l : List α) :
    (l.mergeSort fun a b => cmp a b != .gt).filter (cmp d · == .eq) =
      l.filter (cmp d · == .eq) := by
  rw [filter_mergeSort ne_gt_trans ne_gt_total]
  refine List.mergeSort_of_pairwise (List.pairwise_of_forall_mem_list fun a ha b hb => ?_)
  have hda : cmp d a = .eq := beq_iff_eq.mp (List.mem_filter.mp ha).2
  have hdb : cmp d b = .eq := beq_iff_eq.mp (List.mem_filter.mp hb).2
  rw [Std.TransCmp.congr_left (Std.OrientedCmp.eq_symm hda), hdb]
  rfl

theorem mem_of_filter_level_eq {l m : List α}
    (h : ∀ d, l.filter (cmp d · == .eq) = m.filter (cmp d · == .eq)) {d : α} (hd : d ∈ l) :
    d ∈ m := by
  have hself : (cmp d d == .eq) = true := beq_iff_eq.mpr Std.ReflCmp.compare_self
  have hfilter : d ∈ l.filter (cmp d · == .eq) := List.mem_filter.mpr ⟨hd, hself⟩
  rw [h d] at hfilter
  exact (List.mem_filter.mp hfilter).1

/-- The first element of a sorted list is not after any of them. -/
theorem isLE_of_mem_sorted {a b : α} {l : List α}
    (h : (a :: l).Pairwise fun a b => (cmp a b != .gt) = true) (hb : b ∈ a :: l) :
    (cmp a b).isLE = true := by
  rcases List.mem_cons.mp hb with rfl | hb
  · exact Std.ReflCmp.isLE_rfl
  · rw [← bne_gt_eq_isLE]
    exact (List.pairwise_cons.mp h).1 b hb

/-- A sorted list is known by the order of what is level in it. -/
theorem eq_of_filter_level_eq {l m : List α} (hl : l.Pairwise fun a b => (cmp a b != .gt) = true)
    (hm : m.Pairwise fun a b => (cmp a b != .gt) = true)
    (h : ∀ d, l.filter (cmp d · == .eq) = m.filter (cmp d · == .eq)) : l = m := by
  induction l generalizing m with
  | nil =>
    refine (List.eq_nil_iff_forall_not_mem.mpr fun d hd => ?_).symm
    exact List.not_mem_nil (mem_of_filter_level_eq (fun d => (h d).symm) hd)
  | cons a l ih =>
    cases m with
    | nil => exact absurd (mem_of_filter_level_eq h List.mem_cons_self) List.not_mem_nil
    | cons b m =>
      -- The two first elements are not after one another, so they are level.
      have hba : b ∈ a :: l := mem_of_filter_level_eq (fun d => (h d).symm) List.mem_cons_self
      have hab : cmp a b = .eq := Std.OrientedCmp.isLE_antisymm (isLE_of_mem_sorted hl hba)
        (isLE_of_mem_sorted hm (mem_of_filter_level_eq h List.mem_cons_self))
      have haa : cmp a a = .eq := Std.ReflCmp.compare_self
      have hfirst := h a
      simp only [List.filter_cons, haa, hab, beq_self_eq_true, if_true] at hfirst
      obtain ⟨rfl, -⟩ := List.cons.inj hfirst
      refine congrArg _ (ih (List.pairwise_cons.mp hl).2 (List.pairwise_cons.mp hm).2 fun d => ?_)
      have hd := h d
      rw [List.filter_cons, List.filter_cons] at hd
      split at hd
      · exact List.tail_eq_of_cons_eq hd
      · exact hd

end Comparison

/-! ### Dropping repeats -/

section Repeats

variable {α β : Type} {same : α → α → Bool}

theorem dropRepeats_cons_of_not_same {a : α} {l : List α}
    (h : ∀ b ∈ l.head?, same a b = false) : dropRepeats same (a :: l) = a :: dropRepeats same l := by
  cases l with
  | nil => simp [dropRepeats]
  | cons b rest =>
    have hab : same a b = false := h b rfl
    rw [dropRepeats]
    simp [hab]

theorem dropRepeats_sublist (l : List α) : (dropRepeats same l).Sublist l := by
  fun_induction dropRepeats same l with
  | case1 first second rest _ ih => exact ih.trans ((List.sublist_cons_self second rest).cons_cons first)
  | case2 first second rest _ ih => exact ih.cons_cons first
  | case3 => exact List.Sublist.refl _

theorem mem_of_mem_dropRepeats {a : α} {l : List α} (h : a ∈ dropRepeats same l) : a ∈ l :=
  (dropRepeats_sublist l).subset h

/-- A chosen element that differs from the next one differs from the next chosen one. -/
theorem same_eq_false_of_mem_head?_filter {p : α → Bool} {first second : α} {rest : List α}
    (between : ∀ {a b c : α}, List.Sublist [a, b, c] (first :: second :: rest) →
      same a c = true → p a = p b)
    (hfirst : p first = true) (hdiffer : same first second = false) :
    ∀ next ∈ ((second :: rest).filter p).head?, same first next = false := by
  intro next hnext
  cases hsecond : p second with
  | true =>
    rw [List.filter_cons_of_pos hsecond] at hnext
    cases hnext
    exact hdiffer
  | false =>
    rw [List.filter_cons_of_neg (by simp [hsecond])] at hnext
    have hmem : next ∈ rest := (List.mem_filter.mp (List.mem_of_mem_head? hnext)).1
    have hthree : List.Sublist [first, second, next] (first :: second :: rest) :=
      ((List.singleton_sublist.mpr hmem).cons_cons second).cons_cons first
    refine Bool.eq_false_iff.mpr fun hsame => ?_
    have hp := between hthree hsame
    rw [hfirst, hsecond] at hp
    cases hp

/-- A choice that does not tell apart what lies between two equals commutes with
dropping repeats. -/
theorem filter_dropRepeats {p : α → Bool} {l : List α}
    (alike : l.Pairwise fun a c => same a c = true → p a = p c)
    (between : ∀ {a b c : α}, List.Sublist [a, b, c] l → same a c = true → p a = p b) :
    (dropRepeats same l).filter p = dropRepeats same (l.filter p) := by
  fun_induction dropRepeats same l with
  | case1 first second rest hsame ih =>
    have hp : p first = p second := List.rel_of_pairwise_cons alike List.mem_cons_self hsame
    have hsub : (first :: rest).Sublist (first :: second :: rest) :=
      (List.sublist_cons_self second rest).cons_cons first
    rw [ih (alike.sublist hsub) fun h => between (h.trans hsub)]
    cases hfirst : p first with
    | false =>
      have hsecond : p second = false := hp ▸ hfirst
      rw [List.filter_cons_of_neg (by simp [hfirst]), List.filter_cons_of_neg (by simp [hfirst]),
        List.filter_cons_of_neg (by simp [hsecond])]
    | true =>
      have hsecond : p second = true := hp ▸ hfirst
      rw [List.filter_cons_of_pos hfirst, List.filter_cons_of_pos hfirst,
        List.filter_cons_of_pos hsecond, dropRepeats.eq_1, if_pos hsame]
  | case2 first second rest hsame ih =>
    have hsub : (second :: rest).Sublist (first :: second :: rest) := List.sublist_cons_self _ _
    have ih := ih (alike.sublist hsub) fun h => between (h.trans hsub)
    cases hfirst : p first with
    | false =>
      rw [List.filter_cons_of_neg (by simp [hfirst]), List.filter_cons_of_neg (by simp [hfirst]), ih]
    | true =>
      have hnext := same_eq_false_of_mem_head?_filter between hfirst (Bool.eq_false_iff.mpr hsame)
      rw [List.filter_cons_of_pos hfirst, List.filter_cons_of_pos hfirst, ih,
        dropRepeats_cons_of_not_same hnext]
  | case3 l hshort =>
    match l, hshort with
    | [], _ => simp [dropRepeats]
    | [a], _ =>
      cases hp : p a <;> simp [hp, dropRepeats]
    | a :: b :: rest, hshort => exact absurd rfl (hshort a b rest)

/-- A change that keeps sameness commutes with dropping repeats. -/
theorem map_dropRepeats {same' : β → β → Bool} {f : α → β} {l : List α}
    (h : ∀ a ∈ l, ∀ b ∈ l, same' (f a) (f b) = same a b) :
    (dropRepeats same l).map f = dropRepeats same' (l.map f) := by
  fun_induction dropRepeats same l with
  | case1 first second rest hsame ih =>
    have hnow := h first List.mem_cons_self second (List.mem_cons_of_mem _ List.mem_cons_self)
    rw [List.map_cons, List.map_cons, dropRepeats.eq_1, if_pos (hnow.trans hsame), ← List.map_cons]
    refine ih fun a ha b hb => h a ?_ b ?_
    · exact List.mem_cons.mpr ((List.mem_cons.mp ha).imp_right (List.mem_cons_of_mem _))
    · exact List.mem_cons.mpr ((List.mem_cons.mp hb).imp_right (List.mem_cons_of_mem _))
  | case2 first second rest hsame ih =>
    have hnow := h first List.mem_cons_self second (List.mem_cons_of_mem _ List.mem_cons_self)
    have hhead : ∀ next ∈ ((second :: rest).map f).head?, same' (f first) next = false := by
      rintro next ⟨⟩
      simpa [hnow] using hsame
    have htail := ih fun a ha b hb =>
      h a (List.mem_cons_of_mem _ ha) b (List.mem_cons_of_mem _ hb)
    calc (first :: dropRepeats same (second :: rest)).map f
      _ = f first :: dropRepeats same' ((second :: rest).map f) := by rw [List.map_cons, htail]
      _ = dropRepeats same' ((first :: second :: rest).map f) :=
        (dropRepeats_cons_of_not_same hhead).symm
  | case3 l hshort =>
    match l, hshort with
    | [], _ => simp [dropRepeats]
    | [a], _ => simp [dropRepeats]
    | a :: b :: rest, hshort => exact absurd rfl (hshort a b rest)

end Repeats

/-! ### Repeats among neighbours -/

section Repeats

variable {α : Type} (same : α → α → Bool)

/-- What is the same stands together: nothing else stands between. -/
def Grouped (l : List α) : Prop :=
  ∀ a b c, List.Sublist [a, b, c] l → same a c = true → same a b = true

variable {same}

theorem head?_dropRepeats (l : List α) : (dropRepeats same l).head? = l.head? := by
  fun_induction dropRepeats same l with
  | case1 first second rest _ ih => exact ih
  | case2 => rfl
  | case3 => rfl

/-- No two neighbours are the same. -/
theorem isChain_dropRepeats (l : List α) :
    (dropRepeats same l).IsChain fun a b => same a b = false := by
  fun_induction dropRepeats same l with
  | case1 first second rest _ ih => exact ih
  | case2 first second rest hsame ih =>
    refine List.isChain_cons.mpr ⟨?_, ih⟩
    rw [head?_dropRepeats]
    rintro _ ⟨⟩
    exact Bool.eq_false_iff.mpr hsame
  | case3 l hshort =>
    cases l with
    | nil => exact List.isChain_nil
    | cons a rest =>
      cases rest with
      | nil => exact List.isChain_singleton a
      | cons b rest => exact absurd rfl (hshort a b rest)

/-- Nothing is dropped where no two neighbours are the same. -/
theorem dropRepeats_of_isChain {l : List α} (h : l.IsChain fun a b => same a b = false) :
    dropRepeats same l = l := by
  induction l with
  | nil => simp [dropRepeats]
  | cons a rest ih =>
    obtain ⟨hhead, hrest⟩ := List.isChain_cons.mp h
    rw [dropRepeats_cons_of_not_same hhead, ih hrest]

section Equal

variable (equal : Equivalence fun a b : α => same a b = true)
include equal

/-- Of all elements that are the same, one is left. -/
theorem exists_same_of_mem {a : α} {l : List α} (h : a ∈ l) :
    ∃ b ∈ dropRepeats same l, same a b = true := by
  fun_induction dropRepeats same l generalizing a with
  | case1 first second rest hsame ih =>
    rcases List.mem_cons.mp h with rfl | h
    · exact ih List.mem_cons_self
    · rcases List.mem_cons.mp h with rfl | h
      · obtain ⟨b, hb, hfirst⟩ := ih List.mem_cons_self
        exact ⟨b, hb, equal.trans (equal.symm hsame) hfirst⟩
      · exact ih (List.mem_cons_of_mem _ h)
  | case2 first second rest _ ih =>
    rcases List.mem_cons.mp h with rfl | h
    · exact ⟨a, List.mem_cons_self, equal.refl a⟩
    · obtain ⟨b, hb, hsame⟩ := ih h
      exact ⟨b, List.mem_cons_of_mem _ hb, hsame⟩
  | case3 => exact ⟨a, h, equal.refl a⟩

/-- An element that equals the one before it changes nothing. -/
theorem grouped_cons_same {first second : α} {rest : List α} (hsame : same first second = true) :
    Grouped same (first :: second :: rest) ↔ Grouped same (first :: rest) := by
  constructor
  · exact fun h a b c hsub => h a b c (hsub.trans ((List.sublist_cons_self second rest).cons_cons first))
  · intro h a b c hsub hac
    -- `second` may be left out of the three, or `first` be taken in its place.
    have hrest : ∀ {x y}, List.Sublist [x, y] rest → same first y = true → same first x = true :=
      fun hxy => h _ _ _ (hxy.cons_cons first)
    cases hsub with
    | cons _ hsub =>
      cases hsub with
      | cons _ hsub => exact h a b c (hsub.trans (List.sublist_cons_self first rest)) hac
      | cons_cons _ hsub => exact equal.trans (equal.symm hsame) (hrest hsub (equal.trans hsame hac))
    | cons_cons _ hsub =>
      cases hsub with
      | cons _ hsub => exact hrest hsub hac
      | cons_cons _ _ => exact hsame

omit equal in
/-- An element that differs from the one after it must not come again. -/
theorem grouped_cons_differ {first second : α} {rest : List α} (hdiffer : same first second = false) :
    Grouped same (first :: second :: rest) ↔
      (∀ c ∈ second :: rest, same first c = false) ∧ Grouped same (second :: rest) := by
  constructor
  · refine fun h => ⟨fun c hc => ?_, fun a b c hsub => h a b c (hsub.trans (List.sublist_cons_self _ _))⟩
    refine Bool.eq_false_iff.mpr fun hsame => ?_
    rcases List.mem_cons.mp hc with rfl | hc
    · rw [hsame] at hdiffer
      cases hdiffer
    · have hthree : List.Sublist [first, second, c] (first :: second :: rest) :=
        ((List.singleton_sublist.mpr hc).cons_cons second).cons_cons first
      rw [h _ _ _ hthree hsame] at hdiffer
      cases hdiffer
  · rintro ⟨hfirst, hrest⟩ a b c hsub hac
    cases hsub with
    | cons _ hsub => exact hrest a b c hsub hac
    | cons_cons _ hsub =>
      rw [hfirst c (hsub.subset (by simp))] at hac
      cases hac

/-- Dropping the repeats among neighbours drops all repeats exactly if what is the
same stands together. -/
theorem pairwise_dropRepeats_iff (l : List α) :
    (dropRepeats same l).Pairwise (fun a b => same a b = false) ↔ Grouped same l := by
  fun_induction dropRepeats same l with
  | case1 first second rest hsame ih => rw [ih, grouped_cons_same equal hsame]
  | case2 first second rest hsame ih =>
    rw [grouped_cons_differ (Bool.eq_false_iff.mpr hsame), List.pairwise_cons, ih]
    refine and_congr_left fun _ => ?_
    constructor
    · intro h c hc
      obtain ⟨b, hb, hcb⟩ := exists_same_of_mem equal hc
      refine Bool.eq_false_iff.mpr fun hfirst => ?_
      have hfirst : same first b = true := equal.trans hfirst hcb
      rw [h b hb] at hfirst
      cases hfirst
    · exact fun h c hc => h c (mem_of_mem_dropRepeats hc)
  | case3 l hshort =>
    cases l with
    | nil => simp [Grouped]
    | cons a rest =>
      cases rest with
      | nil => simp [Grouped]
      | cons b rest => exact absurd rfl (hshort a b rest)

end Equal

end Repeats

/-! ### Dropping repeats more than once -/

section Repeats

variable {α : Type} {same : α → α → Bool}

theorem dropRepeats_cons_of_same {a b : α} {l : List α} (h : same a b = true) :
    dropRepeats same (a :: b :: l) = dropRepeats same (a :: l) := by
  rw [dropRepeats.eq_1, if_pos h]

theorem dropRepeats_cons_cons_of_not_same {a b : α} {l : List α} (h : same a b = false) :
    dropRepeats same (a :: b :: l) = a :: dropRepeats same (b :: l) := by
  rw [dropRepeats.eq_1, if_neg (Bool.eq_false_iff.mp h)]

/-- Repeats in front may be dropped before a list is continued. -/
theorem dropRepeats_dropRepeats_append (l m : List α) :
    dropRepeats same (dropRepeats same l ++ m) = dropRepeats same (l ++ m) := by
  fun_induction dropRepeats same l with
  | case1 first second rest hsame ih =>
    rw [ih]
    exact (dropRepeats_cons_of_same hsame).symm
  | case2 first second rest hsame ih =>
    have hdiffer : same first second = false := Bool.eq_false_iff.mpr hsame
    have hhead : ∀ next ∈ (dropRepeats same (second :: rest) ++ m).head?, same first next = false := by
      intro next hnext
      rw [List.head?_append, head?_dropRepeats] at hnext
      cases hnext
      exact hdiffer
    calc dropRepeats same (first :: (dropRepeats same (second :: rest) ++ m))
      _ = first :: dropRepeats same (dropRepeats same (second :: rest) ++ m) :=
        dropRepeats_cons_of_not_same hhead
      _ = first :: dropRepeats same (second :: rest ++ m) := by rw [ih]
      _ = dropRepeats same (first :: second :: rest ++ m) :=
        (dropRepeats_cons_cons_of_not_same hdiffer).symm
  | case3 => rfl

section Equal

variable (equal : Equivalence fun a b : α => same a b = true)
include equal

/-- What stands in front of a list does not show whether its repeats are dropped. -/
theorem dropRepeats_cons_dropRepeats (a : α) (l : List α) :
    dropRepeats same (a :: dropRepeats same l) = dropRepeats same (a :: l) := by
  fun_induction dropRepeats same l generalizing a with
  | case1 first second rest hsame ih =>
    rw [ih]
    cases hfirst : same a first with
    | true =>
      have hsecond : same a second = true := equal.trans hfirst hsame
      rw [dropRepeats_cons_of_same hfirst, dropRepeats_cons_of_same hfirst,
        dropRepeats_cons_of_same hsecond]
    | false =>
      rw [dropRepeats_cons_cons_of_not_same hfirst, dropRepeats_cons_cons_of_not_same hfirst,
        dropRepeats_cons_of_same hsame]
  | case2 first second rest _ ih =>
    cases hfirst : same a first with
    | true => rw [dropRepeats_cons_of_same hfirst, dropRepeats_cons_of_same hfirst, ih]
    | false =>
      rw [dropRepeats_cons_cons_of_not_same hfirst, dropRepeats_cons_cons_of_not_same hfirst, ih]
  | case3 => rfl

/-- Repeats behind may be dropped before a list is put in front. -/
theorem dropRepeats_append_dropRepeats (l m : List α) :
    dropRepeats same (l ++ dropRepeats same m) = dropRepeats same (l ++ m) := by
  induction l with
  | nil => exact dropRepeats_of_isChain (isChain_dropRepeats m)
  | cons a l ih =>
    calc dropRepeats same (a :: (l ++ dropRepeats same m))
      _ = dropRepeats same (a :: dropRepeats same (l ++ dropRepeats same m)) :=
        (dropRepeats_cons_dropRepeats equal a _).symm
      _ = dropRepeats same (a :: dropRepeats same (l ++ m)) := by rw [ih]
      _ = dropRepeats same (a :: (l ++ m)) := dropRepeats_cons_dropRepeats equal a _

end Equal

end Repeats

/-! ### Sorting without repeats more than once -/

section Sorted

variable {α : Type} {same : α → α → Bool}

/-- The list in the order of a comparison, without repeats among neighbours. -/
def sortedBy (cmp : α → α → Ordering) (same : α → α → Bool) (l : List α) : List α :=
  dropRepeats same (l.mergeSort fun a b => cmp a b != .gt)

variable {cmp : α → α → Ordering}

theorem mem_of_mem_sortedBy {a : α} {l : List α} (h : a ∈ sortedBy cmp same l) : a ∈ l :=
  List.mem_mergeSort.mp (mem_of_mem_dropRepeats h)

theorem exists_same_mem_sortedBy (equal : Equivalence fun a b : α => same a b = true) {a : α}
    {l : List α} (h : a ∈ l) : ∃ b ∈ sortedBy cmp same l, same a b = true :=
  exists_same_of_mem equal (List.mem_mergeSort.mpr h)

theorem sortedBy_eq_nil_iff {l : List α} : sortedBy cmp same l = [] ↔ l = [] := by
  rw [sortedBy, ← List.head?_eq_none_iff, head?_dropRepeats, List.head?_eq_none_iff,
    ← List.length_eq_zero_iff, List.length_mergeSort, List.length_eq_zero_iff]

/-- Whether an element has a property shows behind the sorting, if those that are
the same share it. -/
theorem any_sortedBy (equal : Equivalence fun a b : α => same a b = true) {p : α → Bool}
    (alike : ∀ a b, same a b = true → p a = p b) (l : List α) :
    (sortedBy cmp same l).any p = l.any p := by
  rw [Bool.eq_iff_iff, List.any_eq_true, List.any_eq_true]
  constructor
  · rintro ⟨a, ha, hp⟩
    exact ⟨a, mem_of_mem_sortedBy ha, hp⟩
  · rintro ⟨a, ha, hp⟩
    obtain ⟨b, hb, hsame⟩ : ∃ b ∈ sortedBy cmp same l, same a b = true :=
      exists_same_mem_sortedBy equal ha
    exact ⟨b, hb, alike a b hsame ▸ hp⟩

variable [Std.TransCmp cmp]

theorem pairwise_sortedBy (l : List α) :
    (sortedBy cmp same l).Pairwise fun a b => (cmp a b != .gt) = true :=
  (List.pairwise_mergeSort ne_gt_trans ne_gt_total l).sublist (dropRepeats_sublist _)

/-- A list that is sorted and free of repeats stays as it is. -/
theorem sortedBy_sortedBy (l : List α) :
    sortedBy cmp same (sortedBy cmp same l) = sortedBy cmp same l := by
  have hsorted : (sortedBy cmp same l).Pairwise fun a b => (cmp a b != .gt) = true :=
    pairwise_sortedBy l
  have hfree : (sortedBy cmp same l).IsChain fun a b => same a b = false :=
    isChain_dropRepeats _
  rw [sortedBy, List.mergeSort_of_pairwise hsorted]
  exact dropRepeats_of_isChain hfree

variable (level : ∀ a b, same a b = true → cmp a b = .eq)
include level

/-- What is level with an element loses its repeats and keeps its order. -/
theorem filter_level_sortedBy (d : α) (l : List α) :
    (sortedBy cmp same l).filter (cmp d · == .eq) =
      dropRepeats same (l.filter (cmp d · == .eq)) := by
  have hsorted : (l.mergeSort fun a b => cmp a b != .gt).Pairwise fun a b => (cmp a b != .gt) = true :=
    List.pairwise_mergeSort ne_gt_trans ne_gt_total l
  have halike : ∀ {a b}, cmp a b = .eq → (cmp d a == .eq) = (cmp d b == .eq) := by
    intro a b hab
    rw [Std.TransCmp.congr_right hab]
  rw [sortedBy, filter_dropRepeats (List.pairwise_of_forall fun _ _ hsame => halike (level _ _ hsame)),
    filter_level_mergeSort]
  -- Between two elements that are the same, a sorted list has only level ones.
  intro a b c hsub hsame
  have horder := hsorted.sublist hsub
  simp only [List.pairwise_cons, List.mem_cons, List.not_mem_nil, or_false, forall_eq_or_imp,
    forall_eq, bne_gt_eq_isLE] at horder
  obtain ⟨⟨hab, -⟩, hbc, -⟩ := horder
  have hba : (cmp b a).isLE = true := by
    rw [Std.TransCmp.congr_right (level _ _ hsame)]
    exact hbc
  exact halike (Std.OrientedCmp.isLE_antisymm hab hba)

/-- Lists may be sorted before they are put behind one another and sorted again. -/
theorem sortedBy_append_sortedBy (equal : Equivalence fun a b : α => same a b = true)
    (l m : List α) :
    sortedBy cmp same (sortedBy cmp same l ++ sortedBy cmp same m) = sortedBy cmp same (l ++ m) := by
  refine eq_of_filter_level_eq (pairwise_sortedBy _) (pairwise_sortedBy _) fun d => ?_
  rw [filter_level_sortedBy level, filter_level_sortedBy level, List.filter_append,
    List.filter_append, filter_level_sortedBy level, filter_level_sortedBy level,
    dropRepeats_dropRepeats_append, dropRepeats_append_dropRepeats equal]

end Sorted

end PlaybookStyle
