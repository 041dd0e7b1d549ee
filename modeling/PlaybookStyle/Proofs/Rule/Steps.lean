/-
Steps back in a list of fields.

The fields of a play or a task have kinds with a rank each. Going along the fields,
the first of the furthest kind reached is known at every place (`Furthest`): one step
keeps it or goes on to the next field (`Furthest.keep`, `Furthest.advance`). What is
found misplaced on the whole way are the fields of a kind behind that
(`mem_misplaced_iff`), and nothing exactly if no kind steps back. Keys are unsorted
where one is smaller, byte by byte, than the last before it (`mem_unsorted_iff`).

`FieldOrder` is what the rules on plays and on tasks share: the ranks, and what they
say about a field (`FieldOrder.mem_remarks_iff`).
-/

import Mathlib.Data.String.Basic
import PlaybookStyle.Proofs.Rule.Silence
import PlaybookStyle.Proofs.Text.Order
import PlaybookStyle.Rule.Order

namespace PlaybookStyle.Rule

open Playbook

/-! ### Places in a list -/

/-- A place in a list is its first, or one behind that. -/
theorem exists_split_cons {α : Type} {first a : α} {rest : List α} {P : List α → Prop} :
    (∃ before after, first :: rest = before ++ a :: after ∧ P before) ↔
      (first = a ∧ P []) ∨ ∃ before after, rest = before ++ a :: after ∧ P (first :: before) := by
  constructor
  · rintro ⟨before, after, hsplit, hP⟩
    cases before with
    | nil => exact .inl ⟨(List.cons.inj hsplit).1, hP⟩
    | cons b before =>
      obtain ⟨rfl, hrest⟩ := List.cons.inj hsplit
      exact .inr ⟨before, after, hrest, hP⟩
  · rintro (⟨rfl, hP⟩ | ⟨before, after, rfl, hP⟩)
    · exact ⟨[], rest, rfl, hP⟩
    · exact ⟨first :: before, after, rfl, hP⟩

theorem exists_split_map {α β : Type} {f : α → β} {xs : List α} {b : β} {P : List β → Prop} :
    (∃ before after, xs.map f = before ++ b :: after ∧ P before) ↔
      ∃ before a after, xs = before ++ a :: after ∧ f a = b ∧ P (before.map f) := by
  constructor
  · rintro ⟨_, _, hsplit, hP⟩
    obtain ⟨before, rest, rfl, rfl, hrest⟩ := List.map_eq_append_iff.mp hsplit
    obtain ⟨a, after, rfl, ha, rfl⟩ := List.map_eq_cons_iff.mp hrest
    exact ⟨before, a, after, rfl, ha, hP⟩
  · rintro ⟨before, a, after, rfl, rfl, hP⟩
    exact ⟨before.map f, after.map f, by rw [List.map_append, List.map_cons], hP⟩

theorem exists_split_filter {α : Type} {keep : α → Bool} {xs : List α} {a : α}
    {P : List α → Prop} :
    (∃ before after, xs.filter keep = before ++ a :: after ∧ P before) ↔
      ∃ before after, xs = before ++ a :: after ∧ keep a = true ∧ P (before.filter keep) := by
  constructor
  · rintro ⟨_, _, hsplit, hP⟩
    obtain ⟨front, rest, rfl, rfl, hrest⟩ := List.filter_eq_append_iff.mp hsplit
    obtain ⟨between, after, rfl, hbetween, ha, rfl⟩ := List.filter_eq_cons_iff.mp hrest
    refine ⟨front ++ between, after, by rw [List.append_assoc], ha, ?_⟩
    rwa [List.filter_append, List.filter_eq_nil_iff.mpr hbetween, List.append_nil]
  · rintro ⟨before, after, rfl, ha, hP⟩
    refine ⟨before.filter keep, after.filter keep, ?_, hP⟩
    rw [List.filter_append, List.filter_cons_of_pos ha]

/-- Two places in a list without repetitions are one if the same stands there. -/
theorem split_unique {α β : Type} {f : α → β} {before before' after after' : List α} {a a' : α}
    (nodup : ((before ++ a :: after).map f).Nodup)
    (hsplit : before ++ a :: after = before' ++ a' :: after') (same : f a = f a') :
    before = before' ∧ a = a' := by
  have hlength : before.length = before'.length := by
    have hget : ∀ {front back : List α} {x : α}, before ++ a :: after = front ++ x :: back →
        ((before ++ a :: after).map f)[front.length]? = some (f x) := by
      intro front back x h
      rw [h, List.getElem?_map, List.getElem?_append_right (Nat.le_refl _), Nat.sub_self]
      rfl
    have hfirst := hget rfl
    have hbound : before.length < ((before ++ a :: after).map f).length :=
      (List.getElem?_eq_some_iff.mp hfirst).1
    exact (List.getElem?_inj hbound nodup).mp (by rw [hfirst, hget hsplit, same])
  obtain ⟨hbefore, hrest⟩ := List.append_inj hsplit hlength
  exact ⟨hbefore, (List.cons.inj hrest).1⟩

/-! ### Kinds -/

section Kinds

variable {κ : Type} {rank : κ → Nat}

/-- Of some fields, `first` is the first of the furthest kind. -/
inductive Furthest (rank : κ → Nat) : List (Playbook.Field κ) → Playbook.Field κ → Prop
  | intro {front rest : List (Playbook.Field κ)} {first : Playbook.Field κ}
      (earlier : ∀ field ∈ front, rank field.kind < rank first.kind)
      (later : ∀ field ∈ rest, rank field.kind ≤ rank first.kind) :
      Furthest rank (front ++ first :: rest) first

namespace Furthest

variable {done : List (Playbook.Field κ)} {first field : Playbook.Field κ}

theorem singleton (field : Playbook.Field κ) : Furthest rank [field] field :=
  @intro κ rank [] [] field (by simp) (by simp)

/-- A field of no later kind changes nothing. -/
theorem keep (h : Furthest rank done first) (le : rank field.kind ≤ rank first.kind) :
    Furthest rank (done ++ [field]) first := by
  cases h with
  | intro earlier later =>
    rw [List.append_assoc, List.cons_append]
    refine .intro earlier fun other hother => ?_
    rcases List.mem_append.mp hother with hother | hother
    · exact later other hother
    · rwa [List.mem_singleton.mp hother]

/-- A field of a later kind goes further. -/
theorem advance (h : Furthest rank done first) (lt : rank first.kind < rank field.kind) :
    Furthest rank (done ++ [field]) field := by
  cases h with
  | intro earlier later =>
    refine .intro (fun other hother => ?_) (by simp)
    rcases List.mem_append.mp hother with hother | hother
    · exact Nat.lt_trans (earlier other hother) lt
    · rcases List.mem_cons.mp hother with rfl | hother
      · exact lt
      · exact Nat.lt_of_le_of_lt (later other hother) lt

theorem mem (h : Furthest rank done first) : first ∈ done := by
  cases h with
  | intro => exact List.mem_append_right _ List.mem_cons_self

theorem rank_le (h : Furthest rank done first) : ∀ other ∈ done, rank other.kind ≤ rank first.kind := by
  cases h with
  | intro earlier later =>
    intro other hother
    rcases List.mem_append.mp hother with hother | hother
    · exact Nat.le_of_lt (earlier other hother)
    · rcases List.mem_cons.mp hother with rfl | hother
      · exact Nat.le_refl _
      · exact later other hother

theorem find?_eq (h : Furthest rank done first) :
    done.find? (fun other => rank first.kind ≤ rank other.kind) = some first := by
  cases h with
  | @intro front rest _ earlier later =>
    have hfront : front.find? (fun other => rank first.kind ≤ rank other.kind) = none := by
      rw [List.find?_eq_none]
      intro other hother
      simpa using earlier other hother
    rw [List.find?_append, hfront, Option.none_or, List.find?_cons_of_pos (by simp)]

/-- There is only one first field of the furthest kind. -/
theorem unique {other : Playbook.Field κ} (h : Furthest rank done first)
    (hother : Furthest rank done other) : first = other := by
  have hrank : rank first.kind = rank other.kind :=
    Nat.le_antisymm (hother.rank_le first h.mem) (h.rank_le other hother.mem)
  have hfind := hother.find?_eq
  rw [← hrank, h.find?_eq] at hfind
  exact Option.some.inj hfind

theorem not_nil (h : Furthest rank [] first) : False := List.not_mem_nil h.mem

end Furthest

/-- A field stands behind one of a later kind; `key` is that of the first field of the
furthest kind before it. -/
def IsMisplaced (rank : κ → Nat) (before : List (Playbook.Field κ)) (field : Playbook.Field κ)
    (key : String) : Prop :=
  ∃ first, Furthest rank before first ∧ rank field.kind < rank first.kind ∧ key = first.key

/-- Where the first field of the furthest kind is known, it decides. -/
theorem isMisplaced_iff {done : List (Playbook.Field κ)} {first field : Playbook.Field κ}
    {key : String} (h : Furthest rank done first) :
    IsMisplaced rank done field key ↔ rank field.kind < rank first.kind ∧ key = first.key := by
  constructor
  · rintro ⟨other, hother, hback⟩
    obtain rfl := h.unique hother
    exact hback
  · exact fun hback => ⟨first, h, hback⟩

/-- Going on from some fields, what is found are the misplaced fields among the rest. -/
theorem mem_misplaced_some {done rest : List (Playbook.Field κ)} {first field : Playbook.Field κ}
    {key : String} (h : Furthest rank done first) :
    (field, key) ∈ misplaced rank (some (rank first.kind, first.key)) rest ↔
      ∃ before after, rest = before ++ field :: after ∧
        IsMisplaced rank (done ++ before) field key := by
  induction rest generalizing done first with
  | nil => simp [misplaced]
  | cons next rest ih =>
    have hbehind : ∀ before, IsMisplaced rank (done ++ next :: before) field key ↔
        IsMisplaced rank (done ++ [next] ++ before) field key := fun before => by
      rw [List.append_assoc, List.singleton_append]
    rw [exists_split_cons, List.append_nil, isMisplaced_iff h, misplaced,
      exists₂_congr fun before _ => and_congr_right fun _ => hbehind before]
    split_ifs with hback hsame
    · rw [List.mem_cons, ih (h.keep (Nat.le_of_lt hback)), Prod.mk.injEq, eq_comm (a := field)]
      refine or_congr_left (and_congr_right ?_)
      rintro rfl
      exact (and_iff_right hback).symm
    · rw [ih (h.keep (Nat.le_of_eq hsame)), or_iff_right]
      rintro ⟨rfl, hback', -⟩
      exact hback hback'
    · have hfurther : rank first.kind < rank next.kind := by omega
      rw [ih (h.advance hfurther), or_iff_right]
      rintro ⟨rfl, hback', -⟩
      exact hback hback'

/-- **The misplaced fields** are those of a kind before the furthest that was reached. -/
theorem mem_misplaced_iff {fields : List (Playbook.Field κ)} {field : Playbook.Field κ}
    {key : String} :
    (field, key) ∈ misplaced rank none fields ↔
      ∃ before after, fields = before ++ field :: after ∧ IsMisplaced rank before field key := by
  cases fields with
  | nil => simp [misplaced]
  | cons first rest =>
    rw [misplaced, mem_misplaced_some (.singleton first), exists_split_cons, or_iff_right]
    · rfl
    · rintro ⟨-, other, hother, -⟩
      exact hother.not_nil

theorem misplaced_some_eq_nil_iff {reached : Nat} {key : String} {rest : List (Playbook.Field κ)} :
    misplaced rank (some (reached, key)) rest = [] ↔
      (reached :: rest.map (rank ·.kind)).Pairwise (· ≤ ·) := by
  induction rest generalizing reached key with
  | nil => simp [misplaced]
  | cons next rest ih =>
    rw [misplaced, List.map_cons]
    split_ifs with hback hsame
    · refine iff_of_false not_false fun hsorted => ?_
      have hle := (List.pairwise_cons.mp hsorted).1 _ List.mem_cons_self
      omega
    · rw [ih, hsame, List.pairwise_cons (l := reached :: _), List.forall_mem_cons]
      constructor
      · exact fun hsorted => ⟨⟨Nat.le_refl _, (List.pairwise_cons.mp hsorted).1⟩, hsorted⟩
      · exact fun hsorted => hsorted.2
    · rw [ih, List.pairwise_cons (l := rank next.kind :: _), List.forall_mem_cons]
      constructor
      · intro hsorted
        refine ⟨⟨by omega, fun other hother => ?_⟩, hsorted⟩
        have hle := (List.pairwise_cons.mp hsorted).1 other hother
        omega
      · exact fun hsorted => hsorted.2

/-- No field is misplaced exactly if no kind steps back. -/
theorem misplaced_eq_nil_iff {fields : List (Playbook.Field κ)} :
    misplaced rank none fields = [] ↔ (fields.map (rank ·.kind)).Pairwise (· ≤ ·) := by
  cases fields with
  | nil => simp [misplaced]
  | cons first rest => rw [misplaced, misplaced_some_eq_nil_iff, List.map_cons]

end Kinds

/-! ### Keys -/

section Keys

/-- A key is smaller than another, byte by byte. -/
def KeyBelow (a b : String) : Prop := Text.bytes a.toList < Text.bytes b.toList

theorem keyBelow_iff {a b : String} : KeyBelow a b ↔ a < b := by
  rw [KeyBelow, ← Text.lt_iff_bytes_lt, String.lt_iff]

/-- A key behind some others is smaller than the last of them, `previous`. -/
def IsUnsorted (before : List String) (key previous : String) : Prop :=
  before.getLast? = some previous ∧ KeyBelow key previous

/-- No key is smaller than one before it. -/
def KeysSorted (keys : List String) : Prop := keys.Pairwise fun a b => ¬KeyBelow b a

theorem mem_unsorted_cons {first : String × Position} {rest : List (String × Position)}
    {key previous : String} {position : Position} :
    (key, previous, position) ∈ unsorted (first :: rest) ↔
      ∃ before after, rest = before ++ (key, position) :: after ∧
        IsUnsorted ((first :: before).map Prod.fst) key previous := by
  induction rest generalizing first with
  | nil => simp [unsorted]
  | cons second rest ih =>
    have hbehind : ∀ before, IsUnsorted ((first :: second :: before).map Prod.fst) key previous ↔
        IsUnsorted ((second :: before).map Prod.fst) key previous := fun before => by
      rw [IsUnsorted, IsUnsorted, List.map_cons, List.map_cons, List.getLast?_cons_cons]
    rw [exists_split_cons, exists₂_congr fun before _ => and_congr_right fun _ => hbehind before,
      ← ih, unsorted, IsUnsorted, List.map_singleton, List.getLast?_singleton, Option.some_inj]
    split_ifs with hbelow
    · rw [List.mem_cons, Prod.mk.injEq, Prod.mk.injEq]
      refine or_congr_left ⟨?_, ?_⟩
      · rintro ⟨rfl, rfl, rfl⟩
        exact ⟨rfl, rfl, keyBelow_iff.mpr hbelow⟩
      · rintro ⟨rfl, rfl, -⟩
        exact ⟨rfl, rfl, rfl⟩
    · rw [or_iff_right]
      rintro ⟨rfl, rfl, hbelow'⟩
      exact hbelow (keyBelow_iff.mp hbelow')

/-- **The unsorted keys** are those smaller than the last before them. -/
theorem mem_unsorted_iff {keys : List (String × Position)} {key previous : String}
    {position : Position} :
    (key, previous, position) ∈ unsorted keys ↔
      ∃ before after, keys = before ++ (key, position) :: after ∧
        IsUnsorted (before.map Prod.fst) key previous := by
  cases keys with
  | nil => simp [unsorted]
  | cons first rest =>
    rw [mem_unsorted_cons, exists_split_cons, or_iff_right]
    rintro ⟨-, hlast, -⟩
    cases hlast

/-- The same for keys with their places in some list. -/
theorem mem_unsorted_map_iff {α : Type} {keyOf : α → String} {positionOf : α → Position}
    {xs : List α} {key previous : String} {position : Position} :
    (key, previous, position) ∈ unsorted (xs.map fun x => (keyOf x, positionOf x)) ↔
      ∃ before x after, xs = before ++ x :: after ∧ (keyOf x = key ∧ positionOf x = position) ∧
        IsUnsorted (before.map keyOf) key previous := by
  rw [mem_unsorted_iff, exists_split_map]
  simp only [Prod.mk.injEq, List.map_map, Function.comp_def]

/-- The same for the keys of one kind among some fields. -/
theorem mem_unsorted_keysOfKind_iff {κ : Type} [DecidableEq κ] {kind : κ}
    {fields : List (Playbook.Field κ)} {key previous : String} {position : Position} :
    (key, previous, position) ∈ unsorted (keysOfKind kind fields) ↔
      ∃ before field after, fields = before ++ field :: after ∧ field.kind = kind ∧
        (field.key = key ∧ field.position = position) ∧
          IsUnsorted ((before.filter (·.kind = kind)).map Playbook.Field.key) key previous := by
  have hfront := fun field => @exists_split_filter _ (·.kind = kind) fields field
    fun front => IsUnsorted (front.map Playbook.Field.key) key previous
  rw [keysOfKind, mem_unsorted_map_iff]
  constructor
  · rintro ⟨_, field, _, hsplit, found, below⟩
    obtain ⟨before, after, hfields, hkind, below⟩ := (hfront field).mp ⟨_, _, hsplit, below⟩
    exact ⟨before, field, after, hfields, of_decide_eq_true hkind, found, below⟩
  · rintro ⟨before, field, after, hfields, hkind, found, below⟩
    obtain ⟨front, rest, hsplit, below⟩ :=
      (hfront field).mpr ⟨before, after, hfields, decide_eq_true hkind, below⟩
    exact ⟨front, field, rest, hsplit, found, below⟩

/-- No key is unsorted exactly if none is smaller than one before it. -/
theorem unsorted_eq_nil_iff_sorted {keys : List (String × Position)} :
    unsorted keys = [] ↔ KeysSorted (keys.map Prod.fst) := by
  have hle : (fun a b : String => ¬b < a) = (· ≤ ·) := by
    funext a b
    exact propext not_lt
  have hbelow : (fun a b : String => ¬KeyBelow b a) = fun a b => ¬b < a := by
    funext a b
    rw [keyBelow_iff]
  rw [unsorted_eq_nil_iff, KeysSorted, hbelow, hle, ← List.isChain_iff_pairwise, ← hle,
    List.isChain_map]

end Keys

/-! ### What is said about fields -/

/-- What the rules on plays and on tasks share: the ranks of the kinds, the kind whose
keys are sorted, and what is said about a field before whose key it belongs. -/
structure FieldOrder (κ : Type) where
  rank : κ → Nat
  option : κ
  back : (field : Playbook.Field κ) → String → { remark : Remark // remark.position = field.position }
  below : String → String → (place : Position) → { remark : Remark // remark.position = place }

namespace FieldOrder

variable {κ : Type} [DecidableEq κ] (order : FieldOrder κ)

/-- The keys of the options among some fields. -/
def optionKeys (fields : List (Playbook.Field κ)) : List String :=
  (fields.filter (·.kind = order.option)).map Playbook.Field.key

/-- What is said about some fields. -/
def remarks (fields : List (Playbook.Field κ)) : List Remark :=
  (misplaced order.rank none fields).map (fun (field, key) => order.back field key) ++
    (unsorted (keysOfKind order.option fields)).map
      fun (key, previous, place) => order.below key previous place

/-- What is said about a field behind some others. -/
inductive Says (before : List (Playbook.Field κ)) (field : Playbook.Field κ) : Remark → Prop
  | misplaced {key : String} (back : IsMisplaced order.rank before field key) :
      Says before field (order.back field key)
  | unsorted {previous : String} (option : field.kind = order.option)
      (below : IsUnsorted (order.optionKeys before) field.key previous) :
      Says before field (order.below field.key previous field.position)

/-- The kinds never step back, and the options are sorted. -/
structure Kept (fields : List (Playbook.Field κ)) : Prop where
  kinds : (fields.map (order.rank ·.kind)).Pairwise (· ≤ ·)
  options : KeysSorted (order.optionKeys fields)

variable {order} {fields before : List (Playbook.Field κ)} {field : Playbook.Field κ}
  {remark : Remark}

theorem Says.position (h : order.Says before field remark) : remark.position = field.position := by
  cases h with
  | misplaced => exact (order.back field _).2
  | unsorted => exact (order.below field.key _ field.position).2

/-- What is said about all fields. -/
theorem mem_remarks_iff : remark ∈ order.remarks fields ↔
    ∃ before field after, fields = before ++ field :: after ∧ order.Says before field remark := by
  rw [remarks, List.mem_append, List.mem_map, List.mem_map]
  constructor
  · rintro (⟨⟨field, key⟩, hfound, rfl⟩ | ⟨⟨key, previous, place⟩, hfound, rfl⟩)
    · obtain ⟨before, after, hsplit, back⟩ := mem_misplaced_iff.mp hfound
      exact ⟨before, field, after, hsplit, .misplaced back⟩
    · obtain ⟨before, field, after, hsplit, option, ⟨rfl, rfl⟩, below⟩ :=
        mem_unsorted_keysOfKind_iff.mp hfound
      exact ⟨before, field, after, hsplit, .unsorted option below⟩
  · rintro ⟨before, field, after, hsplit, said⟩
    cases said with
    | misplaced back => exact .inl ⟨_, mem_misplaced_iff.mpr ⟨before, after, hsplit, back⟩, rfl⟩
    | unsorted option below =>
      exact .inr ⟨_, mem_unsorted_keysOfKind_iff.mpr
        ⟨before, field, after, hsplit, option, ⟨rfl, rfl⟩, below⟩, rfl⟩

/-- Nothing is said exactly if the order is kept. -/
theorem remarks_eq_nil_iff : order.remarks fields = [] ↔ order.Kept fields := by
  rw [remarks, List.append_eq_nil_iff, List.map_eq_nil_iff, List.map_eq_nil_iff, misplaced_eq_nil_iff,
    unsorted_eq_nil_iff_sorted, keysOfKind, List.map_map]
  exact ⟨fun ⟨kinds, options⟩ => ⟨kinds, options⟩, fun ⟨kinds, options⟩ => ⟨kinds, options⟩⟩

end FieldOrder

/-- The order of a play's fields. -/
def playOrder : FieldOrder PlayFieldKind where
  rank := PlayFieldKind.rank
  option := .option
  back field key :=
    ⟨⟨field.position, s!"Section '{field.key}' should appear before '{key}'",
      some "Order host blocks as: hosts, host options, pre_tasks, roles, tasks, post_tasks, handlers"⟩,
      rfl⟩
  below key previous place :=
    ⟨⟨place, s!"Host option '{key}' should be sorted alphabetically before '{previous}'", none⟩, rfl⟩

/-- The order of a task's fields. -/
def taskOrder : FieldOrder TaskFieldKind where
  rank := TaskFieldKind.rank
  option := .option
  back field key :=
    ⟨⟨field.position, s!"Field '{field.key}' should appear before '{key}'",
      some "Order task fields as: name, vars, module, loop, options"⟩, rfl⟩
  below key previous place :=
    ⟨⟨place, s!"Task option '{key}' should be sorted alphabetically before '{previous}'", none⟩, rfl⟩

/-- What is said about a parameter of a module behind some others. -/
inductive SaysOfParameter (m : ModuleCall) (before : List Entry) (e : Entry) : Remark → Prop
  | unsorted {previous : String} (below : IsUnsorted (before.map EntryOf.key) e.key previous) :
      SaysOfParameter m before e ⟨e.position,
        s!"Parameter '{e.key}' of module '{m.name}' should be sorted alphabetically before '{previous}'",
        none⟩

theorem SaysOfParameter.position {m : ModuleCall} {before : List Entry} {e : Entry} {remark : Remark}
    (h : SaysOfParameter m before e remark) : remark.position = e.position := by
  cases h
  rfl

theorem mem_parameterRemarks_iff {m : ModuleCall} {remark : Remark} :
    remark ∈ parameterRemarks m ↔ ∃ before e after,
      m.params?.getD [] = before ++ e :: after ∧ SaysOfParameter m before e remark := by
  rw [parameterRemarks, List.mem_map]
  constructor
  · rintro ⟨⟨key, previous, place⟩, hfound, rfl⟩
    obtain ⟨before, e, after, hsplit, ⟨rfl, rfl⟩, below⟩ := mem_unsorted_map_iff.mp hfound
    exact ⟨before, e, after, hsplit, .unsorted below⟩
  · rintro ⟨before, e, after, hsplit, ⟨below⟩⟩
    exact ⟨_, mem_unsorted_map_iff.mpr ⟨before, e, after, hsplit, ⟨rfl, rfl⟩, below⟩, rfl⟩

theorem parameterRemarks_eq_nil_iff {m : ModuleCall} :
    parameterRemarks m = [] ↔ KeysSorted ((m.params?.getD []).map EntryOf.key) := by
  rw [parameterRemarks, List.map_eq_nil_iff, unsorted_eq_nil_iff_sorted, List.map_map]
  rfl

end PlaybookStyle.Rule
