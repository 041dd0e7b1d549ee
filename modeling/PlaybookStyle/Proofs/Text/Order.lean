/-
Texts are ordered as their bytes are.

The order of texts goes by the first character that differs. The UTF-8 form of a
smaller character is smaller at some byte and no beginning of the other
(`below_utf8EncodeChar`), so that byte decides between the bytes of the two texts
as well (`lt_iff_bytes_lt`).
-/

import Mathlib.Data.Char
import Mathlib.Tactic.SplitIfs
import PlaybookStyle.Proofs.Text.Bytes

namespace PlaybookStyle.Text

/-- Of two lists of bytes the one is smaller at some byte, with all before it equal. -/
inductive Below : List UInt8 → List UInt8 → Prop
  | here {x y : UInt8} {a b : List UInt8} (smaller : x < y) : Below (x :: a) (y :: b)
  | behind {x : UInt8} {a b : List UInt8} (below : Below a b) : Below (x :: a) (x :: b)

/-- What is behind the byte that decides does not count. -/
theorem Below.append_lt {a b : List UInt8} (h : Below a b) (c d : List UInt8) :
    a ++ c < b ++ d := by
  induction h with
  | here smaller => exact List.cons_lt_cons_iff.mpr (.inl smaller)
  | behind _ ih => exact List.cons_lt_cons_iff.mpr (.inr ⟨rfl, ih⟩)

/-- Two bytes decide, or those behind them do. -/
theorem Below.cons {m n : Nat} {a b : List UInt8} (hn : n < 256)
    (h : m < n ∨ m = n ∧ Below a b) : Below (UInt8.ofNat m :: a) (UInt8.ofNat n :: b) := by
  rcases h with h | ⟨rfl, h⟩
  · apply Below.here
    rw [UInt8.lt_iff_toNat_lt, UInt8.toNat_ofNat', UInt8.toNat_ofNat', Nat.mod_eq_of_lt (by omega),
      Nat.mod_eq_of_lt hn]
    exact h
  · exact .behind h

/-- A smaller character has smaller bytes. -/
theorem below_utf8EncodeChar {c d : Char} (h : c < d) :
    Below (String.utf8EncodeChar c) (String.utf8EncodeChar d) := by
  have hlt : c.val.toNat < d.val.toNat := UInt32.lt_iff_toNat_lt.mp h
  have hd : d.val.toNat < 0x110000 := by
    rcases d.valid with hd | hd
    · exact Nat.lt_trans hd (by decide)
    · exact hd.2
  simp only [String.utf8EncodeChar]
  generalize c.val.toNat = v at hlt
  generalize d.val.toNat = w at hlt hd
  -- The first byte tells how many bytes there are; among as many, the first that differs decides.
  split_ifs
  all_goals
    try omega
  all_goals
    apply Below.cons (by omega)
  · exact .inl hlt
  · exact .inl (by omega)
  · exact .inl (by omega)
  · exact .inl (by omega)
  · refine (Nat.lt_or_ge (v / 64) (w / 64)).imp (fun h => by omega) fun h => ⟨by omega, ?_⟩
    exact .cons (by omega) (.inl (by omega))
  · exact .inl (by omega)
  · exact .inl (by omega)
  · refine (Nat.lt_or_ge (v / 4096) (w / 4096)).imp (fun h => by omega) fun h => ⟨by omega, ?_⟩
    refine .cons (by omega) ?_
    refine (Nat.lt_or_ge (v / 64) (w / 64)).imp (fun h => by omega) fun h => ⟨by omega, ?_⟩
    exact .cons (by omega) (.inl (by omega))
  · exact .inl (by omega)
  · refine (Nat.lt_or_ge (v / 262144) (w / 262144)).imp (fun h => by omega) fun h => ⟨by omega, ?_⟩
    refine .cons (by omega) ?_
    refine (Nat.lt_or_ge (v / 4096) (w / 4096)).imp (fun h => by omega) fun h => ⟨by omega, ?_⟩
    refine .cons (by omega) ?_
    refine (Nat.lt_or_ge (v / 64) (w / 64)).imp (fun h => by omega) fun h => ⟨by omega, ?_⟩
    exact .cons (by omega) (.inl (by omega))

theorem append_lt_append_iff {α : Type} [LT α] [Std.Irrefl (α := α) (· < ·)] (front a b : List α) :
    front ++ a < front ++ b ↔ a < b := by
  induction front with
  | nil => exact Iff.rfl
  | cons x front ih =>
    rw [List.cons_append, List.cons_append, List.cons_lt_cons_iff, ih]
    simp [Std.Irrefl.irrefl x]

/-- **Texts are ordered byte by byte.** -/
theorem lt_iff_bytes_lt (a b : List Char) : a < b ↔ bytes a < bytes b := by
  induction a generalizing b with
  | nil =>
    cases b with
    | nil => exact iff_of_false (List.not_lt_nil _) (List.not_lt_nil _)
    | cons d b =>
      obtain ⟨x, more, hbytes⟩ := List.exists_cons_of_length_pos
        (show 0 < (bytes (d :: b)).length by
          rw [length_bytes, byteLength_cons]
          exact Nat.add_pos_left d.utf8Size_pos _)
      rw [hbytes]
      exact iff_of_true (List.nil_lt_cons d b) (List.nil_lt_cons x more)
  | cons c a ih =>
    cases b with
    | nil => exact iff_of_false (List.not_lt_nil _) (List.not_lt_nil _)
    | cons d b =>
      rw [List.cons_lt_cons_iff, bytes_cons, bytes_cons]
      rcases lt_trichotomy c d with hlt | rfl | hlt
      · exact iff_of_true (.inl hlt) ((below_utf8EncodeChar hlt).append_lt _ _)
      · rw [append_lt_append_iff, ← ih]
        simp
      · refine iff_of_false ?_ (List.lt_asymm ((below_utf8EncodeChar hlt).append_lt _ _))
        rintro (hcd | ⟨rfl, -⟩)
        · exact lt_irrefl _ (lt_trans hlt hcd)
        · exact lt_irrefl _ hlt

end PlaybookStyle.Text
