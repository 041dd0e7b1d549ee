/-
Texts by their bytes.

A text is stored as the bytes of its UTF-8 form. Parts of it are cut out by byte
offsets, and such a cut is refused (`none`) where the offset lies behind the end
or inside a character. So is a difference of offsets that would be negative
(`minus?`). The lemmas say at which offsets a cut succeeds, what it gives, and
that a search for an ASCII byte finds the character and nothing else.
-/

import PlaybookStyle.Source.Position
import PlaybookStyle.Text.Search

namespace PlaybookStyle.Text

/-! ### Cuts -/

/-- The bytes of a text in UTF-8. -/
def bytes (text : List Char) : List UInt8 := text.flatMap String.utf8EncodeChar

/-- The text from a byte offset on. -/
def from? : Nat → List Char → Option (List Char)
  | 0, text => some text
  | _ + 1, [] => none
  | n + 1, c :: rest => if c.utf8Size ≤ n + 1 then from? (n + 1 - c.utf8Size) rest else none

/-- The text up to a byte offset. -/
def upTo? : Nat → List Char → Option (List Char)
  | 0, _ => some []
  | _ + 1, [] => none
  | n + 1, c :: rest =>
    if c.utf8Size ≤ n + 1 then (upTo? (n + 1 - c.utf8Size) rest).map (c :: ·) else none

/-- The text between two byte offsets. -/
def between? (first last : Nat) (text : List Char) : Option (List Char) :=
  (upTo? last text).bind (from? first)

/-- The difference of two offsets. -/
def minus? (a b : Nat) : Option Nat := if b ≤ a then some (a - b) else none

/-- The byte offset of the first character of a class. -/
def offsetOf? (p : Char → Bool) (text : List Char) : Option Nat :=
  if text.any p then some (byteLength (text.takeWhile (!p ·))) else none

/-- The byte offset of the first occurrence of a part. -/
def offsetOfPart? (part text : List Char) : Option Nat :=
  (splitAround part text).map fun found => byteLength found.1

@[simp] theorem length_bytes (text : List Char) : (bytes text).length = byteLength text := by
  induction text with
  | nil => rfl
  | cons c rest ih =>
    rw [bytes, List.flatMap_cons, List.length_append, String.length_utf8EncodeChar, byteLength_cons,
      ← ih, bytes]

@[simp] theorem bytes_append (a b : List Char) : bytes (a ++ b) = bytes a ++ bytes b :=
  List.flatMap_append

@[simp] theorem bytes_nil : bytes [] = [] := rfl

theorem bytes_cons (c : Char) (rest : List Char) :
    bytes (c :: rest) = String.utf8EncodeChar c ++ bytes rest := rfl

/-- A cut succeeds exactly between two characters, and gives the text behind. -/
theorem from?_eq_some_iff {n : Nat} {text rest : List Char} :
    from? n text = some rest ↔ ∃ before, text = before ++ rest ∧ byteLength before = n := by
  fun_induction from? n text with
  | case1 text =>
    constructor
    · rintro ⟨⟩
      exact ⟨[], rfl, rfl⟩
    · rintro ⟨before, rfl, hbytes⟩
      cases before with
      | nil => rfl
      | cons c more =>
        have := c.utf8Size_pos
        rw [byteLength_cons] at hbytes
        omega
  | case2 n =>
    constructor
    · rintro ⟨⟩
    · rintro ⟨before, htext, hbytes⟩
      obtain ⟨rfl, -⟩ := List.append_eq_nil_iff.mp htext.symm
      cases hbytes
  | case3 n c more hsize ih =>
    rw [ih]
    constructor
    · rintro ⟨before, rfl, hbytes⟩
      refine ⟨c :: before, rfl, ?_⟩
      rw [byteLength_cons, hbytes, Nat.add_sub_cancel' hsize]
    · rintro ⟨before, htext, hbytes⟩
      cases before with
      | nil => cases hbytes
      | cons first before =>
        obtain ⟨rfl, rfl⟩ := List.cons.inj htext
        rw [byteLength_cons] at hbytes
        exact ⟨before, rfl, Nat.eq_sub_of_add_eq' hbytes⟩
  | case4 n c more hsize =>
    constructor
    · rintro ⟨⟩
    · rintro ⟨before, htext, hbytes⟩
      cases before with
      | nil => cases hbytes
      | cons first before =>
        obtain ⟨rfl, rfl⟩ := List.cons.inj htext
        rw [byteLength_cons] at hbytes
        omega

theorem from?_append (before rest : List Char) :
    from? (byteLength before) (before ++ rest) = some rest :=
  from?_eq_some_iff.mpr ⟨before, rfl, rfl⟩

/-- A cut behind the first byte leaves less. -/
theorem length_lt_of_from? {n : Nat} {text rest : List Char} (hn : 0 < n)
    (h : from? n text = some rest) : rest.length < text.length := by
  obtain ⟨before, rfl, rfl⟩ := from?_eq_some_iff.mp h
  have hne : before ≠ [] := by
    rintro rfl
    exact Nat.lt_irrefl _ hn
  rw [List.length_append]
  exact Nat.lt_add_of_pos_left (List.length_pos_iff.mpr hne)

/-- A cut that is known to succeed. -/
theorem attach_bind_of_eq {α β : Type} {cut : Option α} {found : α} (h : cut = some found)
    (next : { a // cut = some a } → Option β) : cut.attach.bind next = next ⟨found, h⟩ := by
  subst h
  rfl

theorem upTo?_append (before rest : List Char) :
    upTo? (byteLength before) (before ++ rest) = some before := by
  induction before with
  | nil => rw [byteLength_nil, upTo?]
  | cons c more ih =>
    have hpos := c.utf8Size_pos
    obtain ⟨n, hn⟩ : ∃ n, c.utf8Size + byteLength more = n + 1 :=
      ⟨c.utf8Size + byteLength more - 1, by omega⟩
    rw [byteLength_cons, hn, List.cons_append, upTo?, if_pos (by omega),
      show n + 1 - c.utf8Size = byteLength more by omega, ih]
    rfl

theorem between?_append (a b c : List Char) :
    between? (byteLength a) (byteLength a + byteLength b) (a ++ b ++ c) = some b := by
  rw [between?, ← byteLength_append, upTo?_append]
  exact from?_append a b

theorem minus?_of_le {a b : Nat} (h : b ≤ a) : minus? a b = some (a - b) := if_pos h

theorem minus?_add (a b : Nat) : minus? (a + b) b = some a := by
  rw [minus?, if_pos (Nat.le_add_left _ _), Nat.add_sub_cancel]

theorem minus?_byteLength_append (a b : List Char) :
    minus? (byteLength (a ++ b)) (byteLength b) = some (byteLength a) := by
  rw [byteLength_append, minus?_add]

/-! ### ASCII characters -/

theorem utf8EncodeChar_of_ascii {c : Char} (h : c.toNat < 128) :
    String.utf8EncodeChar c = [c.toUInt8] := by
  refine String.utf8EncodeChar_eq_singleton (Char.utf8Size_eq_one_iff.mpr ?_)
  exact UInt32.le_iff_toNat_le.mpr (Nat.le_of_lt_succ h)

theorem toNat_toUInt8_of_ascii {a : Char} (ha : a.toNat < 128) : a.toUInt8.toNat = a.toNat := by
  have h : a.toUInt8.toNat = a.toNat % 2 ^ 8 := UInt32.toNat_toUInt8 a.val
  rw [h]
  omega

/-- The bytes of a character beyond ASCII are no ASCII bytes. -/
theorem le_of_mem_utf8EncodeChar {c : Char} {b : UInt8} (h : 128 ≤ c.toNat)
    (hb : b ∈ String.utf8EncodeChar c) : 128 ≤ b.toNat := by
  have hval : ¬c.val.toNat ≤ 127 := Nat.not_le_of_lt h
  have hrange : c.val.toNat < 1114112 := by
    rcases c.valid with h | h
    · exact Nat.lt_trans h (by decide)
    · exact h.2
  rw [String.utf8EncodeChar, if_neg hval] at hb
  split at hb
  · simp only [List.mem_cons, List.not_mem_nil, or_false] at hb
    rcases hb with rfl | rfl <;> rw [UInt8.toNat_ofNat'] <;> omega
  · split at hb
    · simp only [List.mem_cons, List.not_mem_nil, or_false] at hb
      rcases hb with rfl | rfl | rfl <;> rw [UInt8.toNat_ofNat'] <;> omega
    · simp only [List.mem_cons, List.not_mem_nil, or_false] at hb
      rcases hb with rfl | rfl | rfl | rfl <;> rw [UInt8.toNat_ofNat'] <;> omega

/-- A character gives one byte that tells it from every ASCII character, and
further bytes that are no ASCII bytes. -/
theorem exists_utf8EncodeChar_eq (c : Char) :
    ∃ first more, String.utf8EncodeChar c = first :: more ∧ (∀ b ∈ more, 128 ≤ b.toNat) ∧
      ∀ a : Char, a.toNat < 128 → (first = a.toUInt8 ↔ c = a) := by
  rcases Nat.lt_or_ge c.toNat 128 with hascii | hascii
  · refine ⟨c.toUInt8, [], utf8EncodeChar_of_ascii hascii, by simp, fun a ha => ?_⟩
    constructor
    · intro hbyte
      have hnat := congrArg UInt8.toNat hbyte
      rw [toNat_toUInt8_of_ascii ha, toNat_toUInt8_of_ascii hascii] at hnat
      exact Char.toNat_inj.mp hnat
    · rintro rfl
      rfl
  · obtain ⟨first, more, heq⟩ := List.exists_cons_of_ne_nil (String.utf8EncodeChar_ne_nil (c := c))
    have hle : ∀ b ∈ first :: more, 128 ≤ b.toNat := fun b hb =>
      le_of_mem_utf8EncodeChar hascii (by rw [heq]; exact hb)
    refine ⟨first, more, heq, fun b hb => hle b (List.mem_cons_of_mem _ hb), fun a ha => ?_⟩
    constructor
    · rintro rfl
      have := hle _ List.mem_cons_self
      rw [toNat_toUInt8_of_ascii ha] at this
      omega
    · rintro rfl
      omega

/-- An ASCII byte comes from its character only. -/
theorem ne_of_mem_utf8EncodeChar {a c : Char} {b : UInt8} (ha : a.toNat < 128) (hc : c ≠ a)
    (hb : b ∈ String.utf8EncodeChar c) : b ≠ a.toUInt8 := by
  obtain ⟨first, more, heq, hmore, hfirst⟩ := exists_utf8EncodeChar_eq c
  rw [heq] at hb
  rintro rfl
  rcases List.mem_cons.mp hb with hb | hb
  · exact hc ((hfirst a ha).mp hb.symm)
  · have := hmore _ hb
    rw [toNat_toUInt8_of_ascii ha] at this
    omega

/-- A text begins with an ASCII byte exactly if it begins with the character. -/
theorem head?_bytes_eq_iff {a : Char} (ha : a.toNat < 128) {text : List Char} :
    (bytes text).head? = some a.toUInt8 ↔ text.head? = some a := by
  cases text with
  | nil => simp [bytes]
  | cons c rest =>
    obtain ⟨first, more, heq, -, hfirst⟩ := exists_utf8EncodeChar_eq c
    rw [bytes_cons, heq, List.cons_append, List.head?_cons, List.head?_cons, Option.some.injEq,
      Option.some.injEq, hfirst a ha]

end PlaybookStyle.Text
