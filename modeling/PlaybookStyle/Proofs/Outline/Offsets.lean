/-
A line taken apart by byte offsets.

The functions that take a line apart walk along its bytes and cut it at the
offsets they reach. Here they are with every step that can go wrong left open: a
byte behind the end, a cut inside a character or a difference below zero gives
`none`; the loops end because every step goes on in the text. Each one is proved to
give what the function on characters gives, so nothing goes wrong on any text. A walk that passes two
bytes behind a guard may come to rest inside a character; the bytes found there
are no ASCII bytes, and it goes on to the next character.
-/

import PlaybookStyle.Proofs.Outline.Tokens
import PlaybookStyle.Proofs.Source.Places
import PlaybookStyle.Proofs.Text.Bytes

namespace PlaybookStyle.Outline

open Text

/-! ### Closing quotes -/

/-- The offset of the quote that closes a scalar, looked for from an offset on. -/
def closingFrom (quote : Char) (text : List UInt8) (i : Nat) : Option (Option Nat) := do
  if i < text.length then
    let b ← text[i]?
    if quote = '"' ∧ b = '\\'.toUInt8 then closingFrom quote text (i + 2)
    else if b = quote.toUInt8 then
      if quote = '\'' ∧ text[i + 1]? = some '\''.toUInt8 then closingFrom quote text (i + 2)
      else some (some i)
    else closingFrom quote text (i + 1)
  else some none
termination_by text.length - i

/-- A byte that neither closes nor guards. -/
def IsPassed (quote : Char) (b : UInt8) : Prop :=
  b ≠ quote.toUInt8 ∧ ¬(quote = '"' ∧ b = '\\'.toUInt8)

theorem closingFrom_end {quote : Char} {text : List UInt8} {i : Nat} (h : text.length ≤ i) :
    closingFrom quote text i = some none := by
  rw [closingFrom, if_neg (Nat.not_lt_of_le h)]

/-- Such bytes are passed one after the other. -/
theorem closingFrom_pass {quote : Char} {passed : List UInt8}
    (h : ∀ b ∈ passed, IsPassed quote b) (before after : List UInt8) :
    closingFrom quote (before ++ (passed ++ after)) before.length =
      closingFrom quote (before ++ (passed ++ after)) (before.length + passed.length) := by
  induction passed generalizing before with
  | nil => rfl
  | cons b more ih =>
    obtain ⟨hquote, hguard⟩ := h b List.mem_cons_self
    have hstep := ih (fun b hb => h b (List.mem_cons_of_mem _ hb)) (before ++ [b])
    simp only [List.append_assoc, List.singleton_append, List.length_append, List.length_singleton]
      at hstep
    rw [closingFrom, if_pos (by simp)]
    simp only [List.cons_append, List.getElem?_append_right (Nat.le_refl _), Nat.sub_self,
      List.getElem?_cons_zero, Option.bind_eq_bind, Option.bind_some, if_neg hguard, if_neg hquote]
    rw [hstep, List.length_cons, Nat.add_assoc, Nat.add_comm 1]

/-- What one step does at the byte that stands at an offset. -/
theorem closingFrom_cons (quote : Char) (before : List UInt8) (b : UInt8) (after : List UInt8) :
    closingFrom quote (before ++ b :: after) before.length =
      if quote = '"' ∧ b = '\\'.toUInt8 then
        closingFrom quote (before ++ b :: after) (before.length + 2)
      else if b = quote.toUInt8 then
        if quote = '\'' ∧ after.head? = some '\''.toUInt8 then
          closingFrom quote (before ++ b :: after) (before.length + 2)
        else some (some before.length)
      else closingFrom quote (before ++ b :: after) (before.length + 1) := by
  have hnext : (before ++ b :: after)[before.length + 1]? = after.head? := by
    rw [List.getElem?_append_right (Nat.le_add_right _ 1), Nat.add_sub_cancel_left,
      List.getElem?_cons_succ, List.head?_eq_getElem?]
  rw [closingFrom, if_pos (by simp), hnext]
  simp only [List.getElem?_append_right (Nat.le_refl _), Nat.sub_self, List.getElem?_cons_zero,
    Option.bind_eq_bind, Option.bind_some]

/-- An ordinary character is passed with all its bytes. -/
theorem closingFrom_char {quote c : Char} (hascii : quote.toNat < 128) (hquote : c ≠ quote)
    (hguard : ¬(quote = '"' ∧ c = '\\')) (before after : List UInt8) :
    closingFrom quote (before ++ (String.utf8EncodeChar c ++ after)) before.length =
      closingFrom quote ((before ++ String.utf8EncodeChar c) ++ after)
        (before ++ String.utf8EncodeChar c).length := by
  have hpassed : ∀ b ∈ String.utf8EncodeChar c, IsPassed quote b := by
    intro b hb
    refine ⟨ne_of_mem_utf8EncodeChar hascii hquote hb, ?_⟩
    rintro ⟨rfl, hb'⟩
    exact ne_of_mem_utf8EncodeChar (by decide) (fun hc => hguard ⟨rfl, hc⟩) hb hb'
  rw [closingFrom_pass hpassed, List.append_assoc, List.length_append]

/-- A guarded character is passed with all its bytes, although the walk goes on
behind the first of them. -/
theorem closingFrom_guarded (c : Char) (before after : List UInt8) :
    closingFrom '"' (before ++ '\\'.toUInt8 :: (String.utf8EncodeChar c ++ after)) before.length =
      closingFrom '"' ((before ++ '\\'.toUInt8 :: String.utf8EncodeChar c) ++ after)
        (before ++ '\\'.toUInt8 :: String.utf8EncodeChar c).length := by
  obtain ⟨first, more, heq, hmore, -⟩ := exists_utf8EncodeChar_eq c
  have hpassed : ∀ b ∈ more, IsPassed '"' b := by
    intro b hb
    have hle := hmore b hb
    refine ⟨?_, ?_⟩
    · rintro rfl
      exact absurd hle (by decide)
    · rintro ⟨-, rfl⟩
      exact absurd hle (by decide)
  have hstep := closingFrom_pass hpassed (before ++ ['\\'.toUInt8, first]) after
  rw [closingFrom_cons, if_pos ⟨rfl, rfl⟩, heq]
  simp only [List.append_assoc, List.cons_append, List.nil_append, List.length_append,
    List.length_cons, List.length_nil] at hstep ⊢
  rw [hstep]
  congr 1
  omega

theorem closingFrom_double (before : List UInt8) (rest : List Char) :
    closingFrom '"' (before ++ bytes rest) before.length =
      some ((splitDouble rest).map fun found => before.length + byteLength found.1) := by
  fun_induction splitDouble rest generalizing before with
  | case1 => exact closingFrom_end (by simp [bytes])
  | case2 rest =>
    rw [bytes_cons, utf8EncodeChar_of_ascii (by decide), List.singleton_append, closingFrom_cons,
      if_neg (by decide), if_pos rfl, if_neg (fun h => absurd h.1 (by decide))]
    rfl
  | case3 c rest ih =>
    have hguard : String.utf8EncodeChar '\\' = ['\\'.toUInt8] := utf8EncodeChar_of_ascii (by decide)
    have hsize : ('\\' : Char).utf8Size = 1 := by decide
    rw [bytes_cons, bytes_cons, hguard, List.singleton_append, closingFrom_guarded, ih]
    simp only [Option.map_map, Function.comp_def, List.length_append, List.length_cons,
      String.length_utf8EncodeChar, byteLength_cons, hsize]
    congr 2
    funext found
    omega
  | case4 c rest hquote hguard ih =>
    by_cases hc : c = '\\'
    · cases rest with
      | cons next more => exact absurd rfl (hguard next more hc)
      | nil =>
        subst hc
        rw [bytes_cons, utf8EncodeChar_of_ascii (by decide), List.singleton_append, closingFrom_cons,
          if_pos ⟨rfl, rfl⟩, closingFrom_end (by simp [bytes])]
        rfl
    · rw [bytes_cons, closingFrom_char (by decide) hquote (fun h => hc h.2), ih]
      simp only [Option.map_map, Function.comp_def, List.length_append,
        String.length_utf8EncodeChar, byteLength_cons, Nat.add_assoc]

theorem closingFrom_single (before : List UInt8) (rest : List Char) :
    closingFrom '\'' (before ++ bytes rest) before.length =
      some ((splitSingle rest).map fun found => before.length + byteLength found.1) := by
  have hquote : String.utf8EncodeChar '\'' = ['\''.toUInt8] := utf8EncodeChar_of_ascii (by decide)
  fun_induction splitSingle rest generalizing before with
  | case1 => exact closingFrom_end (by simp [bytes])
  | case2 rest ih =>
    have hstep := ih (before ++ ['\''.toUInt8, '\''.toUInt8])
    have hsize : ('\'' : Char).utf8Size = 1 := by decide
    simp only [List.append_assoc, List.cons_append, List.nil_append, List.length_append,
      List.length_cons, List.length_nil] at hstep
    rw [bytes_cons, bytes_cons, hquote, List.singleton_append, List.singleton_append,
      closingFrom_cons, if_neg (by decide), if_pos rfl, if_pos ⟨rfl, rfl⟩, hstep]
    simp only [Option.map_map, Function.comp_def, byteLength_cons, hsize]
    congr 2
    funext found
    omega
  | case3 rest hrest =>
    have hnext : ¬('\'' = '\'' ∧ (bytes rest).head? = some '\''.toUInt8) := by
      rintro ⟨-, hhead⟩
      rw [head?_bytes_eq_iff (by decide)] at hhead
      obtain ⟨more, rfl⟩ := List.head?_eq_some_iff.mp hhead
      exact hrest more rfl
    rw [bytes_cons, hquote, List.singleton_append, closingFrom_cons, if_neg (by decide), if_pos rfl,
      if_neg hnext]
    rfl
  | case4 c rest hdoubled hclosing ih =>
    rw [bytes_cons, closingFrom_char (by decide) hclosing (fun h => by cases h.1), ih]
    simp only [Option.map_map, Function.comp_def, List.length_append,
      String.length_utf8EncodeChar, byteLength_cons, Nat.add_assoc]

/-- The offset of the quote that closes the text it opens. -/
theorem closingFrom_one {quote : Char} (hquote : quote = '"' ∨ quote = '\'') (rest : List Char) :
    closingFrom quote (bytes (quote :: rest)) 1 =
      some ((splitQuoted quote rest).map fun found => 1 + byteLength found.1) := by
  rcases hquote with rfl | rfl
  · exact closingFrom_double ['"'.toUInt8] rest
  · exact closingFrom_single ['\''.toUInt8] rest

/-! ### Keys -/

/-- A key with the offset of its colon and the bytes of blanks before it. -/
structure KeyOffsets where
  key : List Char
  colon : Nat
  beforeColon : Nat
deriving DecidableEq, Repr

/-- The same of a line that is cut at its key. -/
def KeySplit.offsets (split : KeySplit) : KeyOffsets :=
  ⟨split.key, split.colon, split.beforeColon⟩

/-- A blank or the end stands behind a colon. -/
def colonEnds (text : List UInt8) (colon : Nat) : Bool :=
  match text[colon + 1]? with
  | none => true
  | some b => b == ' '.toUInt8 || b == '\t'.toUInt8

/-- The byte at an offset starts a comment: a mark with a space before it. -/
def startsComment? (text : List UInt8) (i : Nat) (b : UInt8) : Option Bool :=
  if b = '#'.toUInt8 ∧ 0 < i then do
    let previous ← minus? i 1
    let b ← text[previous]?
    some (b == ' '.toUInt8)
  else some false

/-- The key that a colon at an offset ends. -/
def keyBefore? (text : List Char) (colon : Nat) : Option (Option KeyOffsets) := do
  let before ← upTo? colon text
  let key := trimEnd before
  if key.isEmpty then some none
  else
    let blanks ← minus? colon (byteLength key)
    some (some ⟨key, colon, blanks⟩)

/-- The plain key of a text, looked for from an offset on. -/
def plainKeyFrom (text : List Char) (i : Nat) : Option (Option KeyOffsets) := do
  if i < (bytes text).length then
    let b ← (bytes text)[i]?
    let comment ← startsComment? (bytes text) i b
    if comment then some none
    else if b = ':'.toUInt8 ∧ colonEnds (bytes text) i = true then keyBefore? text i
    else plainKeyFrom text (i + 1)
  else some none
termination_by (bytes text).length - i
decreasing_by exact Nat.sub_succ_lt_self _ _ ‹_›

/-- The quoted key of a text. -/
def quotedKey (quote : Char) (text : List Char) : Option (Option KeyOffsets) := do
  match ← closingFrom quote (bytes text) 1 with
  | none => some none
  | some close =>
    let after ← from? (close + 1) text
    let trimmed := after.dropWhile (· == ' ')
    if trimmed.head? = some ':' then
      let gap ← minus? (byteLength after) (byteLength trimmed)
      let colon := close + 1 + gap
      if colonEnds (bytes text) colon then
        let key ← between? 1 close text
        let behind ← minus? colon close
        let blanks ← minus? behind 1
        some (some ⟨key, colon, blanks⟩)
      else some none
    else some none

/-- The bytes that no plain key starts with. -/
def opensNoKeyByte (b : UInt8) : Bool :=
  b ∈ ['\x7b', '[', '#', '|', '>', '!', '&', '*', '?', '%', '@', '\x60'].map Char.toUInt8

/-- The key of a text, quoted or plain. -/
def keyOffsets (text : List Char) : Option (Option KeyOffsets) :=
  match (bytes text).head? with
  | none => some none
  | some first =>
    if first = '"'.toUInt8 then quotedKey '"' text
    else if first = '\''.toUInt8 then quotedKey '\'' text
    else if opensNoKeyByte first then some none
    else plainKeyFrom text 0

theorem colonEnds_append (before : List UInt8) (rest : List Char) :
    colonEnds (before ++ bytes (':' :: rest)) before.length = endsKey rest := by
  rw [bytes_cons, utf8EncodeChar_of_ascii (by decide), List.singleton_append, colonEnds,
    List.getElem?_append_right (Nat.le_add_right _ 1), Nat.add_sub_cancel_left,
    List.getElem?_cons_succ, ← List.head?_eq_getElem?]
  cases rest with
  | nil => rfl
  | cons c more =>
    obtain ⟨first, others, heq, -, hfirst⟩ := exists_utf8EncodeChar_eq c
    rw [bytes_cons, heq, List.cons_append, List.head?_cons, endsKey]
    dsimp only
    rw [Bool.eq_iff_iff]
    simp only [Bool.or_eq_true, beq_iff_eq, hfirst ' ' (by decide), hfirst '\t' (by decide)]

/-- The byte before an offset is a space exactly if the character before it is. -/
theorem getElem?_bytes_pred (init : List Char) (c : Char) (after : List UInt8) :
    ∃ last, (bytes (init ++ [c]) ++ after)[byteLength (init ++ [c]) - 1]? = some last ∧
      (last = ' '.toUInt8 ↔ c = ' ') := by
  obtain ⟨first, more, heq, hmore, hfirst⟩ := exists_utf8EncodeChar_eq c
  have hsize : c.utf8Size = more.length + 1 := by
    rw [← String.length_utf8EncodeChar, heq, List.length_cons]
  have hbytes : bytes (init ++ [c]) = bytes init ++ (first :: more) := by
    rw [bytes_append, bytes_cons, heq, bytes_nil, List.append_nil]
  have hindex : byteLength (init ++ [c]) - 1 = (bytes init).length + more.length := by
    simp only [byteLength_append, byteLength_cons, byteLength_nil, hsize, length_bytes]
    omega
  have hlast : (first :: more)[more.length]? = (first :: more).getLast? := by
    rw [List.getLast?_eq_getElem?, List.length_cons, Nat.add_sub_cancel]
  have hget : (bytes (init ++ [c]) ++ after)[byteLength (init ++ [c]) - 1]? =
      (first :: more).getLast? := by
    rw [hbytes, hindex, List.append_assoc, List.getElem?_append_right (Nat.le_add_right _ _),
      Nat.add_sub_cancel_left, List.getElem?_append_left (by simp), hlast]
  cases more with
  | nil => exact ⟨first, hget, hfirst ' ' (by decide)⟩
  | cons second others =>
    refine ⟨(second :: others).getLast (List.cons_ne_nil _ _), ?_, ?_⟩
    · rw [hget, List.getLast?_cons_cons, List.getLast?_eq_some_getLast]
    · have hle := hmore _ (List.getLast_mem (List.cons_ne_nil second others))
      constructor
      · intro hspace
        rw [hspace] at hle
        exact absurd hle (by decide)
      · rintro rfl
        rw [utf8EncodeChar_of_ascii (by decide)] at heq
        cases heq

theorem byteLength_trimEnd_le (text : List Char) : byteLength (trimEnd text) ≤ byteLength text := by
  obtain ⟨cut, hcut⟩ := trimEnd_isPrefix text
  rw [← congrArg byteLength hcut, byteLength_append]
  exact Nat.le_add_right _ _

/-- The key that is everything before a colon. -/
def plainKey? (before : List Char) : Option KeyOffsets :=
  let key := trimEnd before
  if key.isEmpty then none
  else some ⟨key, byteLength before, byteLength before - byteLength key⟩

theorem keyBefore?_append (before rest : List Char) :
    keyBefore? (before ++ rest) (byteLength before) = some (plainKey? before) := by
  rw [keyBefore?, upTo?_append, plainKey?]
  simp only [Option.bind_eq_bind, Option.bind_some, minus?_of_le (byteLength_trimEnd_le before)]
  split <;> rfl

/-- A comment starts at a mark that stands behind a space. -/
theorem startsComment?_append (before : List Char) {c : Char} {first : UInt8}
    (hfirst : first = '#'.toUInt8 ↔ c = '#') (after : List UInt8) :
    startsComment? (bytes before ++ after) (byteLength before) first =
      some (decide (c = '#' ∧ before.getLast? = some ' ')) := by
  rw [startsComment?]
  rcases List.eq_nil_or_concat before with rfl | ⟨init, previous, rfl⟩
  · rw [if_neg (by simp)]
    simp
  · have hpos : 0 < byteLength (init ++ [previous]) := by
      have := previous.utf8Size_pos
      rw [byteLength_append, byteLength_cons]
      omega
    obtain ⟨last, hlast, hspace⟩ := getElem?_bytes_pred init previous after
    simp only [List.concat_eq_append]
    by_cases hc : c = '#'
    · rw [if_pos ⟨hfirst.mpr hc, hpos⟩, minus?_of_le hpos]
      simp only [Option.bind_eq_bind, Option.bind_some, hlast, hc, List.getLast?_concat,
        Option.some.injEq, true_and, ← hspace]
      rfl
    · rw [if_neg (fun h => hc (hfirst.mp h.1))]
      simp [hc]

/-- Bytes inside a character are passed one after the other. -/
theorem plainKeyFrom_pass {text : List Char} {passed after : List UInt8} (before : List UInt8)
    (htext : bytes text = before ++ (passed ++ after)) (h : ∀ b ∈ passed, 128 ≤ b.toNat) :
    plainKeyFrom text before.length = plainKeyFrom text (before.length + passed.length) := by
  induction passed generalizing before with
  | nil => rfl
  | cons b more ih =>
    have hle := h b List.mem_cons_self
    have hhash : b ≠ '#'.toUInt8 := by
      rintro rfl
      exact absurd hle (by decide)
    have hcolon : b ≠ ':'.toUInt8 := by
      rintro rfl
      exact absurd hle (by decide)
    have hstep := ih (before ++ [b])
      (by rw [htext, List.append_assoc, List.singleton_append, List.cons_append])
      (fun b hb => h b (List.mem_cons_of_mem _ hb))
    rw [List.length_append, List.length_singleton] at hstep
    rw [plainKeyFrom, if_pos (by simp [htext]), htext]
    simp only [List.cons_append, List.getElem?_append_right (Nat.le_refl _), Nat.sub_self,
      List.getElem?_cons_zero, Option.bind_eq_bind, Option.bind_some, startsComment?, hhash, hcolon,
      false_and, if_false, Bool.false_eq_true]
    rw [hstep, List.length_cons, Nat.add_assoc, Nat.add_comm 1]

/-- What one step does at the character that stands at an offset. -/
theorem plainKeyFrom_cons (before : List Char) (c : Char) (rest : List Char) :
    plainKeyFrom (before ++ c :: rest) (byteLength before) =
      if c = '#' ∧ before.getLast? = some ' ' then some none
      else if c = ':' ∧ endsKey rest = true then some (plainKey? before)
      else plainKeyFrom (before ++ c :: rest) (byteLength (before ++ [c])) := by
  obtain ⟨first, more, heq, hmore, hfirst⟩ := exists_utf8EncodeChar_eq c
  have hbytes : bytes (before ++ c :: rest) = bytes before ++ first :: (more ++ bytes rest) := by
    rw [bytes_append, bytes_cons, heq, List.cons_append]
  have hget : (bytes (before ++ c :: rest))[byteLength before]? = some first := by
    rw [hbytes, ← length_bytes, List.getElem?_append_right (Nat.le_refl _), Nat.sub_self,
      List.getElem?_cons_zero]
  have hinside : byteLength before < (bytes (before ++ c :: rest)).length := by
    rw [hbytes, List.length_append, length_bytes, List.length_cons]
    omega
  have hnext : plainKeyFrom (before ++ c :: rest) (byteLength before + 1) =
      plainKeyFrom (before ++ c :: rest) (byteLength (before ++ [c])) := by
    have hinside : bytes (before ++ c :: rest) = (bytes before ++ [first]) ++ (more ++ bytes rest) := by
      rw [hbytes, List.append_assoc, List.singleton_append]
    have hpass := plainKeyFrom_pass (bytes before ++ [first]) hinside hmore
    have hsize : c.utf8Size = more.length + 1 := by
      rw [← String.length_utf8EncodeChar, heq, List.length_cons]
    rw [List.length_append, length_bytes, List.length_singleton] at hpass
    rw [hpass, byteLength_append, byteLength_cons, byteLength_nil, hsize]
    congr 1
    omega
  have hends : first = ':'.toUInt8 ∧ colonEnds (bytes (before ++ c :: rest)) (byteLength before) = true ↔
      c = ':' ∧ endsKey rest = true := by
    rw [hfirst ':' (by decide)]
    refine and_congr_right fun hc => ?_
    subst hc
    rw [bytes_append, ← length_bytes, colonEnds_append]
  have hcomment := startsComment?_append before (hfirst '#' (by decide)) (first :: (more ++ bytes rest))
  rw [← hbytes] at hcomment
  rw [plainKeyFrom, if_pos hinside, hget]
  simp only [Option.bind_eq_bind, Option.bind_some, hcomment, decide_eq_true_eq, hends,
    keyBefore?_append, hnext]

theorem plainKeyFrom_append (before rest : List Char) :
    plainKeyFrom (before ++ rest) (byteLength before) =
      some ((splitColon (before.getLast? == some ' ') rest).bind fun found =>
        plainKey? (before ++ found.1)) := by
  induction rest generalizing before with
  | nil =>
    rw [plainKeyFrom, if_neg (by simp), splitColon]
    rfl
  | cons c rest ih =>
    have hstep := ih (before ++ [c])
    rw [List.append_assoc, List.singleton_append] at hstep
    rw [plainKeyFrom_cons, hstep, splitColon]
    simp only [beq_iff_eq]
    split
    · rfl
    · split
      · simp
      · have hspace : ((before ++ [c]).getLast? == some ' ') = (c == ' ') := by
          rw [List.getLast?_concat]
          rfl
        rw [hspace, Option.bind_map]
        simp only [Function.comp_def, List.append_assoc, List.singleton_append]

/-- The quoted key of a text is the one that the characters give. -/
theorem quotedKey_eq {quote : Char} (hquote : quote = '"' ∨ quote = '\'') (rest : List Char) :
    quotedKey quote (quote :: rest) = some ((splitKey (quote :: rest)).map KeySplit.offsets) := by
  have hsize : quote.utf8Size = 1 := by rcases hquote with rfl | rfl <;> decide
  rw [quotedKey, closingFrom_one hquote, splitKey, if_pos hquote]
  cases hfound : splitQuoted quote rest with
  | none => rfl
  | some found =>
    obtain ⟨inner, after⟩ := found
    have hrest := splitQuoted_append hquote hfound
    have hclose : 1 + byteLength inner = byteLength (quote :: inner) := by
      rw [byteLength_cons, hsize]
    have hbehind : from? (1 + byteLength inner + 1) (quote :: rest) = some after := by
      refine from?_eq_some_iff.mpr ⟨quote :: (inner ++ [quote]), by simp [← hrest], ?_⟩
      simp only [byteLength_cons, byteLength_append, byteLength_nil, hsize]
      omega
    have hspaces := byteLength_eq_length_of_spaces
      (List.all_takeWhile (p := (· == ' ')) (l := after))
    have hafter := List.takeWhile_append_dropWhile (p := (· == ' ')) (l := after)
    have hgap : minus? (byteLength after) (byteLength (after.dropWhile (· == ' '))) =
        some (after.takeWhile (· == ' ')).length := by
      rw [← hspaces, ← minus?_byteLength_append, hafter]
    have hkey : between? 1 (1 + byteLength inner) (quote :: rest) = some inner := by
      have h := between?_append [quote] inner (quote :: after)
      rw [byteLength_cons, byteLength_nil, hsize, List.append_assoc, hrest] at h
      exact h
    simp only [Option.map_some, Option.bind_eq_bind, Option.bind_some, hbehind, hgap, hkey]
    cases hvalue : after.dropWhile (· == ' ') with
    | nil => rfl
    | cons c value =>
      by_cases hc : c = ':'
      · subst hc
        let front := quote :: inner ++ quote :: after.takeWhile (· == ' ')
        have hfront : front ++ ':' :: value = quote :: rest := by
          simp [front, ← hrest, ← hvalue, hafter]
        have hcolon : 1 + byteLength inner + 1 + (after.takeWhile (· == ' ')).length =
            (bytes front).length := by
          simp only [front, length_bytes, byteLength_append, byteLength_cons, hsize, hspaces]
          omega
        have hends : colonEnds (bytes (quote :: rest))
            (1 + byteLength inner + 1 + (after.takeWhile (· == ' ')).length) = endsKey value := by
          rw [← hfront, bytes_append, hcolon, colonEnds_append]
        have hblanks : (minus? (1 + byteLength inner + 1 + (after.takeWhile (· == ' ')).length)
            (1 + byteLength inner)).bind (fun behind => minus? behind 1) =
              some (after.takeWhile (· == ' ')).length := by
          rw [minus?_of_le (by omega), Option.bind_some, minus?_of_le (by omega)]
          congr 1
          omega
        simp only [List.head?_cons, if_true, hends]
        split
        · rw [← Option.bind_assoc, hblanks]
          simp only [Option.bind_some, Option.map_some, KeySplit.offsets, Option.some.injEq,
            KeyOffsets.mk.injEq, true_and, and_true]
          omega
        · rfl
      · rw [List.head?_cons, if_neg (fun h => hc (Option.some.inj h))]
        split
        · rename_i heq
          exact absurd (List.cons.inj heq).1 hc
        · rfl

/-- The key of a text is found at the same offsets by bytes and by characters. -/
theorem keyOffsets_eq (text : List Char) :
    keyOffsets text = some ((splitKey text).map KeySplit.offsets) := by
  cases text with
  | nil => rfl
  | cons c rest =>
    obtain ⟨first, more, heq, -, hfirst⟩ := exists_utf8EncodeChar_eq c
    have hno : opensNoKeyByte first = opensNoKey c := by
      have hall : ['\x7b', '[', '#', '|', '>', '!', '&', '*', '?', '%', '@', '\x60'].all
          (fun a => decide (a.toNat < 128)) = true := rfl
      have hascii := fun a ha => of_decide_eq_true (List.all_eq_true.mp hall a ha)
      rw [Bool.eq_iff_iff, opensNoKeyByte, opensNoKey, decide_eq_true_iff, decide_eq_true_iff,
        List.mem_map]
      constructor
      · rintro ⟨a, ha, hbyte⟩
        rwa [(hfirst a (hascii a ha)).mp hbyte.symm]
      · exact fun hc => ⟨c, hc, ((hfirst c (hascii c hc)).mpr rfl).symm⟩
    have hplain := plainKeyFrom_append [] (c :: rest)
    rw [List.nil_append, byteLength_nil] at hplain
    rw [keyOffsets, bytes_cons, heq, List.cons_append, List.head?_cons]
    simp only [hfirst '"' (by decide), hfirst '\'' (by decide), hno]
    by_cases hdouble : c = '"'
    · rw [if_pos hdouble, hdouble, quotedKey_eq (.inl rfl)]
    · by_cases hsingle : c = '\''
      · rw [if_neg hdouble, if_pos hsingle, hsingle, quotedKey_eq (.inr rfl)]
      · rw [if_neg hdouble, if_neg hsingle, splitKey, if_neg (not_or.mpr ⟨hdouble, hsingle⟩)]
        split
        · rfl
        · rw [hplain]
          cases hcolon : splitColon false (c :: rest) with
          | none =>
            have h : splitColon (([] : List Char).getLast? == some ' ') (c :: rest) = none := hcolon
            rw [h]
            rfl
          | some found =>
            have h : splitColon (([] : List Char).getLast? == some ' ') (c :: rest) = some found :=
              hcolon
            rw [h]
            dsimp only [Option.bind_some, plainKey?, List.nil_append]
            split <;> rfl

/-! ### Comments -/

/-- Plain text without a trailing comment. -/
def stripCommentAt (text : List Char) : Option (List Char) :=
  if text.head? = some '#' then some []
  else
    match offsetOfPart? " #".toList text with
    | some i => (upTo? i text).map trimEnd
    | none => some (trimEnd text)

theorem splitAround_comment (text : List Char) :
    (splitAround " #".toList text).elim text Prod.fst = beforeComment text := by
  induction text with
  | nil => rfl
  | cons c rest ih =>
    have hmark : (" #".toList.isPrefixOf (c :: rest) = true) ↔
        c = ' ' ∧ rest.head? = some '#' := by
      rw [show " #".toList = [' ', '#'] by decide, List.isPrefixOf_iff_prefix, List.cons_prefix_cons]
      cases rest <;> simp [eq_comm]
    rw [splitAround, beforeComment]
    by_cases h : c = ' ' ∧ rest.head? = some '#'
    · rw [if_pos (hmark.mpr h), if_pos h]
      rfl
    · rw [if_neg (fun hp => h (hmark.mp hp)), if_neg h, ← ih]
      cases splitAround " #".toList rest <;> rfl

theorem stripCommentAt_eq (text : List Char) : stripCommentAt text = some (stripComment text) := by
  have hcut := splitAround_comment text
  rw [stripCommentAt, stripComment, offsetOfPart?]
  split
  · rfl
  · cases hfound : splitAround " #".toList text with
    | none =>
      rw [hfound] at hcut
      exact congrArg (some ∘ trimEnd) hcut
    | some found =>
      rw [hfound] at hcut
      have htext := splitAround_eq_append hfound
      rw [List.append_assoc] at htext
      dsimp only [Option.map_some, Option.elim_some] at hcut ⊢
      rw [← hcut, htext, upTo?_append]
      rfl

/-! ### Tags and anchors -/

/-- The tag that ends at an offset, or the one before it. -/
def tagAt (tag? : Option (List Char)) (stop : Nat) (text : List Char) :
    Option (Option (List Char)) :=
  if text.head? = some '!' then (upTo? stop text).map some else some tag?

/-- The offset of the first character of a class, or of the end. -/
theorem offsetOf?_getD (p : Char → Bool) (text : List Char) :
    (offsetOf? p text).getD (byteLength text) = byteLength (text.takeWhile (!p ·)) := by
  rw [offsetOf?]
  split
  · rfl
  · rename_i hany
    have hall : ∀ c ∈ text, (!p c) = true := by simpa using hany
    have htake : (text ++ []).takeWhile (!p ·) = text ++ [].takeWhile (!p ·) :=
      List.takeWhile_append_of_pos hall
    rw [List.append_nil, List.takeWhile_nil, List.append_nil] at htake
    rw [Option.getD_none, htake]

/-- Behind a tag or an anchor less is left. -/
theorem length_behind_property {text behind : List Char}
    (hmark : text.head? = some '!' ∨ text.head? = some '&')
    (h : from? ((offsetOf? isBlank text).getD (byteLength text)) text = some behind) :
    (trimStart behind).length < text.length := by
  refine Nat.lt_of_le_of_lt (length_trimStart_le behind) (length_lt_of_from? ?_ h)
  obtain ⟨c, rest, rfl, hblank⟩ : ∃ c rest, text = c :: rest ∧ isBlank c = false := by
    cases text with
    | nil => simp at hmark
    | cons c rest =>
      simp only [List.head?_cons, Option.some.injEq] at hmark
      exact ⟨c, rest, rfl, by rcases hmark with rfl | rfl <;> rfl⟩
  rw [offsetOf?_getD, List.takeWhile_cons_of_pos (by simpa using hblank), byteLength_cons]
  exact Nat.add_pos_left c.utf8Size_pos _

/-- A value's text without the tags and anchors before it. -/
def skipPropertiesAt (tag? : Option (List Char)) (column : Nat) (text : List Char) :
    Option (Option (List Char) × Nat × List Char) := do
  if text.head? = some '!' ∨ text.head? = some '&' then
    let stop := (offsetOf? isBlank text).getD (byteLength text)
    let tag? ← tagAt tag? stop text
    let ⟨behind, _⟩ ← (from? stop text).attach
    let rest := trimStart behind
    let passed ← minus? (byteLength text) (byteLength rest)
    skipPropertiesAt tag? (column + passed) rest
  else some (tag?, column, text)
termination_by text.length
decreasing_by exact length_behind_property ‹_› ‹_›

theorem skipPropertiesAt_eq (tag? : Option (List Char)) (column : Nat) (text : List Char) :
    skipPropertiesAt tag? column text = some (skipProperties tag? column text) := by
  fun_induction skipProperties tag? column text with
  | case1 tag? column =>
    rw [skipPropertiesAt, if_neg (by simp)]
  | case2 tag? column c rest hmark after ih =>
    have hword := List.takeWhile_append_dropWhile (p := (!isBlank ·)) (l := c :: rest)
    have hupTo := upTo?_append ((c :: rest).takeWhile (!isBlank ·))
      ((c :: rest).dropWhile (!isBlank ·))
    have hfrom := from?_append ((c :: rest).takeWhile (!isBlank ·))
      ((c :: rest).dropWhile (!isBlank ·))
    rw [hword] at hupTo hfrom
    have hle : byteLength after ≤ byteLength (c :: rest) := by
      have hbehind := congrArg byteLength
        (takeWhile_append_trimStart ((c :: rest).dropWhile (!isBlank ·)))
      have htext := congrArg byteLength hword
      rw [byteLength_append] at hbehind htext
      dsimp only [after]
      omega
    have htag : tagAt tag? (byteLength ((c :: rest).takeWhile (!isBlank ·))) (c :: rest) =
        some (if c = '!' then some ((c :: rest).takeWhile (!isBlank ·)) else tag?) := by
      rw [tagAt, hupTo, List.head?_cons]
      simp only [Option.some.injEq]
      split <;> rfl
    rw [skipPropertiesAt, if_pos (by simpa using hmark), offsetOf?_getD]
    simp only [htag, Option.bind_eq_bind, Option.bind_some]
    rw [attach_bind_of_eq hfrom, minus?_of_le hle, Option.bind_some]
    simpa only [dite_eq_ite] using ih
  | case3 tag? column c rest hmark =>
    rw [skipPropertiesAt, if_neg (by simpa using hmark)]

/-! ### Lines, dashes and colons -/

/-- The logical line of a source line. -/
def logicalLineAt (number : Nat) (line : List Char) : Option (Option LogicalLine) := do
  let line := trimEnd line
  let content := trimStart line
  if isAbsent content then some none
  else
    let indent ← minus? (byteLength line) (byteLength (line.dropWhile (· == ' ')))
    if indent = 0 && isDocumentMarker content then some none
    else
      let text ← from? indent line
      some (some ⟨number, indent, text⟩)

/-- The logical lines among source lines numbered from a number on. -/
def logicalLinesAt (number : Nat) : List (List Char) → Option (List LogicalLine)
  | [] => some []
  | line :: rest => do
    let found ← logicalLineAt number line
    let more ← logicalLinesAt (number + 1) rest
    some (found.toList ++ more)

/-- What stands behind a dash, as a line of its own. -/
def behindDashAt (line : LogicalLine) : Option LogicalLine := do
  let rest ← from? 1 line.text
  let content := trimStart rest
  let spaces ← minus? (byteLength rest) (byteLength content)
  some ⟨line.number, line.indent + 1 + spaces, content⟩

/-- The blanks and the value behind a colon. -/
def behindColonAt (text : List Char) (colon : Nat) : Option (List Char × List Char) := do
  let rest ← from? (colon + 1) text
  let value := trimStart rest
  let width ← minus? (byteLength rest) (byteLength value)
  let gap ← upTo? width rest
  some (gap, value)

theorem logicalLineAt_eq (number : Nat) (line : List Char) :
    logicalLineAt number line = some (LogicalLine.ofLine? number line) := by
  have hspaces := byteLength_eq_length_of_spaces
    (List.all_takeWhile (p := (· == ' ')) (l := trimEnd line))
  have hline := List.takeWhile_append_dropWhile (p := (· == ' ')) (l := trimEnd line)
  have hindent : minus? (byteLength (trimEnd line))
      (byteLength ((trimEnd line).dropWhile (· == ' '))) =
        some ((trimEnd line).takeWhile (· == ' ')).length := by
    rw [← hspaces, ← minus?_byteLength_append, hline]
  have htext : from? ((trimEnd line).takeWhile (· == ' ')).length (trimEnd line) =
      some ((trimEnd line).dropWhile (· == ' ')) := by
    rw [← hspaces]
    exact from?_eq_some_iff.mpr ⟨_, hline.symm, rfl⟩
  rw [logicalLineAt, LogicalLine.ofLine?_eq]
  simp only [hindent, htext, Option.bind_eq_bind, Option.bind_some]
  split
  · rfl
  · split <;> rfl

theorem logicalLinesAt_eq {number : Nat} {cuts lines : List (List Char)}
    (h : List.Forall₂ (fun cut line => cut = line ∨ cut = line ++ ['\r']) cuts lines) :
    logicalLinesAt number lines = some (LogicalLine.ofLines number cuts) := by
  induction h generalizing number with
  | nil => rfl
  | @cons cut line cuts lines hcut _ ih =>
    have htrim : trimEnd cut = trimEnd line := by
      rcases hcut with rfl | rfl
      · rfl
      · exact trimEndOf_append_singleton (by decide) line
    have hline : LogicalLine.ofLine? number line = LogicalLine.ofLine? number cut := by
      rw [LogicalLine.ofLine?, LogicalLine.ofLine?, htrim]
    rw [logicalLinesAt, logicalLineAt_eq, ih, LogicalLine.ofLines, hline]
    rfl

theorem behindDashAt_eq {line : LogicalLine} (h : isItem line.text = true) :
    behindDashAt line = some line.behindDash := by
  obtain ⟨rest, hrest⟩ := exists_eq_cons_of_isItem h
  have hbehind : from? 1 line.text = some rest :=
    from?_eq_some_iff.mpr ⟨['-'], hrest, by decide⟩
  have hdrop : line.text.drop 1 = rest := by rw [hrest, List.drop_succ_cons, List.drop_zero]
  have hle : byteLength (trimStart rest) ≤ byteLength rest := by
    rw [← congrArg byteLength (takeWhile_append_trimStart rest), byteLength_append]
    omega
  rw [behindDashAt, hbehind]
  simp only [Option.bind_eq_bind, Option.bind_some, minus?_of_le hle]
  rw [LogicalLine.behindDash, LogicalLine.item, hdrop]

theorem behindColonAt_eq {text : List Char} {split : KeySplit} (h : splitKey text = some split) :
    behindColonAt text split.colon = some (split.gap, split.value) := by
  obtain ⟨written, blanks, -, -, htext, -, hcolon⟩ := splitKey_append h
  have hrest : from? (split.colon + 1) text = some split.rest := by
    refine from?_eq_some_iff.mpr ⟨written ++ blanks ++ [':'], by simp [htext], ?_⟩
    rw [byteLength_append, ← hcolon]
    rfl
  have hgap := split.rest_eq
  have hwidth : minus? (byteLength split.rest) (byteLength split.value) =
      some (byteLength split.gap) := by
    rw [hgap, minus?_byteLength_append]
  have hupTo : upTo? (byteLength split.gap) split.rest = some split.gap := by
    rw [hgap, upTo?_append]
  rw [behindColonAt, hrest]
  simp only [Option.bind_eq_bind, Option.bind_some]
  rw [show trimStart split.rest = split.value from rfl, hwidth, Option.bind_some, hupTo]
  rfl

/-! ### Quoted scalars -/

/-- A text without a quote at its end. -/
def dropQuote (quote : Char) (text : List Char) : List Char :=
  if text.getLast? = some quote then text.dropLast else text

/-- A text up to the closing quote at an offset, or all of it. -/
def throughQuote (text : List Char) : Option Nat → Option (List Char)
  | some close => upTo? (close + 1) text
  | none => some text

/-- The scalar whose closing quote stands at an offset of a text, if there is one. -/
def quotedTextAt (quote : Char) (text : List Char) (close? : Option Nat) : Option ScalarText := do
  let raw ← throughQuote text close?
  let inner := ((from? 1 raw).map (dropQuote quote)).getD []
  if quote = '"' then some ⟨raw, unescape inner, .double⟩
  else some ⟨raw, undouble inner, .single⟩

theorem quotedTextAt_eq {quote : Char} (hquote : quote = '"' ∨ quote = '\'') (rest : List Char) :
    quotedTextAt quote (quote :: rest)
        ((splitQuoted quote rest).map fun found => 1 + byteLength found.1) =
      some (quotedScalarText (quote :: rest)) := by
  have hsize : quote.utf8Size = 1 := by rcases hquote with rfl | rfl <;> decide
  have hone : ∀ text, from? 1 (quote :: text) = some text := fun text =>
    from?_eq_some_iff.mpr ⟨[quote], rfl, by rw [byteLength_cons, byteLength_nil, hsize]⟩
  rw [quotedTextAt, quotedScalarText]
  cases hfound : splitQuoted quote rest with
  | none =>
    simp only [throughQuote, Option.map_none, Option.bind_eq_bind, Option.bind_some, hone,
      Option.map_some, Option.getD_some, dropQuote]
    split <;> rfl
  | some found =>
    obtain ⟨inner, after⟩ := found
    have hraw : upTo? (1 + byteLength inner + 1) (quote :: rest) =
        some (quote :: inner ++ [quote]) := by
      have h := upTo?_append (quote :: inner ++ [quote]) after
      rw [show quote :: inner ++ [quote] ++ after = quote :: rest by
        simp [← splitQuoted_append hquote hfound]] at h
      simp only [byteLength_append, byteLength_cons, byteLength_nil, hsize, Nat.add_zero] at h
      exact h
    have hdrop : dropQuote quote (inner ++ [quote]) = inner := by
      rw [dropQuote, List.getLast?_concat, if_pos rfl, List.dropLast_concat]
    simp only [throughQuote, Option.map_some, Option.bind_eq_bind, hraw, Option.bind_some,
      List.cons_append, hone, Option.getD_some, hdrop]
    split <;> rfl

end PlaybookStyle.Outline
