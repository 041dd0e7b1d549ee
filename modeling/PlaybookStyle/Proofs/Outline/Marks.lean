/-
Anchors and tags behind a colon.

A mark is passed over together with the blanks behind it, and so a value on the line of
its key is read as it is without the mark, but for its column and its tag
(`skipProperties_eq`). Where the line has nothing else, the value stands on deeper lines,
as it does without a mark. Items at the indentation of the key are the exception: they
belong to a key with nothing behind its colon only. `Outline.scan_marked` says what a mark
changes in either case.
-/

import PlaybookStyle.Proofs.Outline.Rewritten
import PlaybookStyle.Proofs.Outline.Scalars

namespace PlaybookStyle.Outline

open Text

/-! ### The text behind a colon -/

/-- What stands behind the colon does not matter to the cut at the colon. -/
theorem splitColon_rest {spaced : Bool} {text before after : List Char}
    (h : splitColon spaced text = some (before, after)) {rest : List Char}
    (hrest : endsKey rest = true) : splitColon spaced (before ++ ':' :: rest) = some (before, rest) := by
  fun_induction splitColon spaced text generalizing before after with
  | case1 => cases h
  | case2 => cases h
  | case3 spaced c more _ hcolon =>
    obtain ⟨rfl, rfl⟩ := Prod.mk.inj (Option.some.inj h)
    rw [List.nil_append, splitColon, if_neg (by simp), if_pos ⟨rfl, hrest⟩]
  | case4 spaced c more hcomment hcolon ih =>
    simp only [Option.map_eq_some_iff, Prod.mk.injEq, Prod.exists] at h
    obtain ⟨b, a, hcut, rfl, rfl⟩ := h
    have hends : ¬(c = ':' ∧ endsKey (b ++ ':' :: rest) = true) := by
      rintro ⟨rfl, hends⟩
      refine hcolon ⟨rfl, ?_⟩
      rw [← splitColon_append hcut]
      cases b with
      | nil => cases hends
      | cons d others => exact hends
    rw [List.cons_append, splitColon, if_neg hcomment, if_neg hends, ih hcut]
    rfl

theorem endsKey_of_splitColon {spaced : Bool} {text before after : List Char}
    (h : splitColon spaced text = some (before, after)) : endsKey after = true := by
  fun_induction splitColon spaced text generalizing before after with
  | case1 => cases h
  | case2 => cases h
  | case3 spaced c more _ hcolon =>
    obtain ⟨-, rfl⟩ := Prod.mk.inj (Option.some.inj h)
    exact hcolon.2
  | case4 spaced c more _ _ ih =>
    simp only [Option.map_eq_some_iff, Prod.mk.injEq, Prod.exists] at h
    obtain ⟨b, a, hcut, -, rfl⟩ := h
    exact ih hcut

theorem isSome_splitColon_rest (spaced : Bool) (head : List Char) {rest rest' : List Char}
    (hrest : endsKey rest = true) (hrest' : endsKey rest' = true) :
    (splitColon spaced (head ++ ':' :: rest')).isSome =
      (splitColon spaced (head ++ ':' :: rest)).isSome := by
  induction head generalizing spaced with
  | nil => simp [splitColon, hrest, hrest']
  | cons c head ih =>
    have hends : endsKey (head ++ ':' :: rest') = endsKey (head ++ ':' :: rest) := by
      cases head <;> rfl
    rw [List.cons_append, List.cons_append, splitColon, splitColon, hends]
    split
    · rfl
    · split
      · rfl
      · rw [Option.isSome_map, Option.isSome_map, ih]

theorem splitDouble_rest {text inner after : List Char} (h : splitDouble text = some (inner, after))
    (rest : List Char) : splitDouble (inner ++ '"' :: rest) = some (inner, rest) := by
  fun_induction splitDouble text generalizing inner after with
  | case1 => cases h
  | case2 more =>
    obtain ⟨rfl, rfl⟩ := Prod.mk.inj (Option.some.inj h)
    rfl
  | case3 c more ih =>
    simp only [Option.map_eq_some_iff, Prod.mk.injEq, Prod.exists] at h
    obtain ⟨i, a, hcut, rfl, rfl⟩ := h
    rw [List.cons_append, List.cons_append, splitDouble, ih hcut]
    rfl
  | case4 c more hquote hguard ih =>
    simp only [Option.map_eq_some_iff, Prod.mk.injEq, Prod.exists] at h
    obtain ⟨i, a, hcut, rfl, rfl⟩ := h
    have hbackslash : c ≠ '\\' := by
      rintro rfl
      cases more with
      | nil => cases hcut
      | cons d others => exact hguard d others rfl rfl
    rw [List.cons_append, splitDouble, ih hcut]
    · rfl
    · exact hquote
    · exact fun d others h _ => hbackslash h

theorem splitSingle_rest {text inner after : List Char} (h : splitSingle text = some (inner, after))
    {rest : List Char} (hrest : rest.head? ≠ some '\'') :
    splitSingle (inner ++ '\'' :: rest) = some (inner, rest) := by
  fun_induction splitSingle text generalizing inner after with
  | case1 => cases h
  | case2 more ih =>
    simp only [Option.map_eq_some_iff, Prod.mk.injEq, Prod.exists] at h
    obtain ⟨i, a, hcut, rfl, rfl⟩ := h
    rw [List.cons_append, List.cons_append, splitSingle, ih hcut]
    rfl
  | case3 more hdoubled =>
    obtain ⟨rfl, rfl⟩ := Prod.mk.inj (Option.some.inj h)
    rw [List.nil_append, splitSingle]
    rintro others rfl
    exact hrest rfl
  | case4 c more hquote hguard ih =>
    simp only [Option.map_eq_some_iff, Prod.mk.injEq, Prod.exists] at h
    obtain ⟨i, a, hcut, rfl, rfl⟩ := h
    rw [List.cons_append, splitSingle, ih hcut]
    · rfl
    · exact fun others h _ => hguard h
    · exact hguard

theorem isBlank_quote {c : Char} (h : c = '"' ∨ c = '\'') : isBlank c = false := by
  rcases h with rfl | rfl <;> decide

theorem splitQuoted_rest {quote : Char} {text inner after rest : List Char}
    (h : splitQuoted quote text = some (inner, after)) (hquote : quote = '"' ∨ quote = '\'')
    (hrest : rest.head? ≠ some '\'') :
    splitQuoted quote (inner ++ quote :: rest) = some (inner, rest) := by
  rcases hquote with rfl | rfl
  · exact splitDouble_rest h rest
  · exact splitSingle_rest h hrest

/-- The text up to the colon of a key: it has the same key before any other text. -/
structure KeySplit.Heads (split : KeySplit) (head : List Char) : Prop where
  colon : byteLength head = split.colon
  ends : endsKey split.rest = true
  other : ∀ rest, endsKey rest = true →
    splitKey (head ++ ':' :: rest) = some { split with rest := rest }

/-- Behind a quoted key come spaces and the colon. -/
theorem heads_quoted {quote : Char} {text inner after value : List Char}
    (hquote : quote = '"' ∨ quote = '\'') (hcut : splitQuoted quote text = some (inner, after))
    (hvalue : after.dropWhile (· == ' ') = ':' :: value) (hends : endsKey value = true) :
    let head := quote :: inner ++ quote :: after.takeWhile (· == ' ')
    let spaces := (after.takeWhile (· == ' ')).length
    quote :: text = head ++ ':' :: value ∧
      KeySplit.Heads ⟨inner, byteLength inner + 2 + spaces, spaces, value⟩ head := by
  have hspaces : (after.takeWhile (· == ' ')).all (· == ' ') = true := List.all_takeWhile
  have hafter := List.takeWhile_append_dropWhile (p := (· == ' ')) (l := after)
  rw [hvalue] at hafter
  have hsize : quote.utf8Size = 1 := by rcases hquote with rfl | rfl <;> decide
  refine ⟨?_, ?_, hends, fun rest hrest => ?_⟩
  · simp [← splitQuoted_append hquote hcut, hafter]
  · dsimp only
    simp only [byteLength_append, byteLength_cons, byteLength_eq_length_of_spaces hspaces, hsize]
    omega
  · generalize after.takeWhile (· == ' ') = spaces at hspaces
    have hmem : ∀ c ∈ spaces, (c == ' ') = true := List.all_eq_true.mp hspaces
    have hhead : (spaces ++ ':' :: rest).head? ≠ some '\'' := by
      cases spaces with
      | nil => simp
      | cons c more =>
        rw [beq_iff_eq.mp (hmem c List.mem_cons_self)]
        simp
    have hshape : quote :: inner ++ quote :: spaces ++ ':' :: rest =
        quote :: (inner ++ quote :: (spaces ++ ':' :: rest)) := by simp
    have htake : (spaces ++ ':' :: rest).takeWhile (· == ' ') = spaces := by
      rw [List.takeWhile_append_of_pos hmem, List.takeWhile_cons_of_neg (by decide), List.append_nil]
    have hdrop : (spaces ++ ':' :: rest).dropWhile (· == ' ') = ':' :: rest := by
      rw [List.dropWhile_append_of_pos hmem, List.dropWhile_cons_of_neg (by decide)]
    have hother := CutAtKey.quoted hquote (splitQuoted_rest hcut hquote hhead) hdrop hrest
    rw [htake] at hother
    rw [hshape]
    exact splitKey_eq_some_iff.mpr hother

theorem heads_plain {c : Char} {more before value : List Char} (hquote : ¬(c = '"' ∨ c = '\''))
    (hopens : opensNoKey c = false) (hcut : splitColon false (c :: more) = some (before, value))
    (hkey : (trimEnd before).isEmpty = false) :
    c :: more = before ++ ':' :: value ∧
      KeySplit.Heads ⟨trimEnd before, byteLength before,
        byteLength before - byteLength (trimEnd before), value⟩ before := by
  have htext := splitColon_append hcut
  cases before with
  | nil => cases hkey
  | cons d before =>
    obtain rfl := (List.cons.inj htext).1
    refine ⟨htext.symm, rfl, ?_, fun rest hrest => ?_⟩
    · exact endsKey_of_splitColon hcut
    · have hother := splitColon_rest hcut hrest
      rw [List.cons_append] at hother ⊢
      exact splitKey_eq_some_iff.mpr (.plain hquote hopens hother hkey)

/-- The key of a line is the same whatever stands behind its colon. -/
theorem exists_heads {text : List Char} {split : KeySplit} (h : splitKey text = some split) :
    ∃ head, text = head ++ ':' :: split.rest ∧ split.Heads head := by
  cases splitKey_eq_some_iff.mp h with
  | quoted isQuote cut colon ends => exact ⟨_, heads_quoted isQuote cut colon ends⟩
  | plain noQuote opens cut key => exact ⟨_, heads_plain noQuote opens cut key⟩

/-! ### Lines that differ behind a colon -/

section Rest

variable {head : List Char}

theorem isItem_rest (head rest rest' : List Char) :
    isItem (head ++ ':' :: rest') = isItem (head ++ ':' :: rest) := by
  cases head with
  | nil => rfl
  | cons c head =>
    cases head with
    | nil =>
      by_cases hc : c = '-'
      · subst hc
        rfl
      · rw [List.singleton_append, List.singleton_append, isItem_of_ne_dash hc, isItem_of_ne_dash hc]
    | cons d more =>
      by_cases hc : c = '-'
      · subst hc
        by_cases hd : d = ' '
        · subst hd
          rfl
        · have hfalse : ∀ text, isItem ('-' :: d :: text) = false := by
            intro text
            unfold isItem
            split
            · rename_i h
              cases (List.cons.inj h).2
            · rename_i h
              exact absurd (List.cons.inj (List.cons.inj h).2).1 hd
            · rfl
          simp only [List.cons_append, hfalse]
      · simp only [List.cons_append, isItem_of_ne_dash hc]

theorem trimStart_rest (head : List Char) :
    ∃ kept, ∀ rest, trimStart (head ++ ':' :: rest) = kept ++ ':' :: rest := by
  induction head with
  | nil => exact ⟨[], fun rest => trimStart_of_not_isBlank (by decide)⟩
  | cons c head ih =>
    obtain ⟨kept, hkept⟩ := ih
    cases hc : isBlank c with
    | false => exact ⟨c :: head, fun rest => trimStart_of_not_isBlank hc⟩
    | true => exact ⟨kept, fun rest => by rw [List.cons_append, trimStart, if_pos hc, hkept]⟩

theorem HasContent.of_rest {rest : List Char} (h : HasContent (head ++ ':' :: rest))
    (rest' : List Char) : HasContent (head ++ ':' :: rest') := by
  obtain ⟨kept, hkept⟩ := trimStart_rest head
  rw [HasContent, hkept] at h ⊢
  cases kept <;> exact h

theorem isPrefixOf_rest {start : List Char} (h : ':' ∉ start) (text rest : List Char) :
    start.isPrefixOf (text ++ ':' :: rest) = start.isPrefixOf text := by
  induction start generalizing text with
  | nil => simp
  | cons c start ih =>
    rw [List.mem_cons, not_or] at h
    cases text with
    | nil => simp [List.isPrefixOf, Ne.symm h.1]
    | cons d more => rw [List.cons_append, List.isPrefixOf, List.isPrefixOf, ih h.2]

/-- The texts of document markers have no colon. -/
theorem isDocumentMarker_rest (text rest rest' : List Char) :
    isDocumentMarker (text ++ ':' :: rest') = isDocumentMarker (text ++ ':' :: rest) := by
  have hne : ∀ {marker rest : List Char}, ':' ∉ marker → (text ++ ':' :: rest == marker) = false := by
    intro marker rest hmarker
    refine beq_eq_false_iff_ne.mpr ?_
    rintro rfl
    exact hmarker (by simp)
  unfold isDocumentMarker
  rw [hne (by decide), hne (by decide), hne (by decide), hne (by decide),
    isPrefixOf_rest (by decide), isPrefixOf_rest (by decide), isPrefixOf_rest (by decide),
    isPrefixOf_rest (by decide), isPrefixOf_rest (by decide), isPrefixOf_rest (by decide)]

end Rest

namespace KeySplit.Heads

variable {split : KeySplit} {head rest : List Char}

theorem key (h : split.Heads head) : splitKey (head ++ ':' :: split.rest) = some split :=
  h.other split.rest h.ends

/-- The line of a key with another text behind the colon. -/
def rewriting (h : split.Heads head) (hrest : endsKey rest = true) (number indent : Nat) :
    Rewriting where
  number := number
  indent := indent
  old := head ++ ':' :: split.rest
  new := head ++ ':' :: rest
  oldSplit := split
  newSplit := { split with rest := rest }
  oldKey := h.key
  newKey := h.other rest hrest
  item := isItem_rest head split.rest rest
  colon := (isSome_splitColon_rest false head h.ends hrest).symm.trans

theorem rewriting_fits (h : split.Heads head) (hrest : endsKey rest = true) (number indent : Nat) :
    (h.rewriting hrest number indent).Fits := by
  refine ⟨.inr ?_, fun hcontent => hcontent.of_rest rest, ?_⟩
  · rw [rewriting]
    cases head <;> rfl
  · obtain ⟨kept, hkept⟩ := trimStart_rest head
    rw [rewriting, hkept, hkept, isDocumentMarker_rest kept split.rest]
    exact id

end KeySplit.Heads

/-! ### Marks -/

/-- A mark set behind a colon: the text there without it and with it. -/
structure Marking where
  /-- The blanks behind the colon without the mark. -/
  blanks : List Char
  /-- The blanks before the mark. -/
  gap : List Char
  sign : Char
  name : List Char
  /-- The blanks behind the mark. -/
  space : List Char
  /-- What the line has behind that: a value, a comment, or nothing. -/
  value : List Char
  isMark : sign = '!' ∨ sign = '&' := by decide
  nameClosed : name.all (!isBlank ·) = true := by decide
  gapNonempty : gap ≠ [] := by decide
  gapEnds : endsKey gap = true := by decide
  allBlank : (blanks ++ gap ++ space).all isBlank = true := by decide
  starts : trimStart value = value := by decide
  closes : trimEnd value = value := by decide
  apart : value ≠ [] → space ≠ [] := by decide
  alone : value = [] → blanks = [] ∧ space = [] := by decide

namespace Marking

variable (m : Marking)

def unmarked : List Char := m.blanks ++ m.value

def marked : List Char := m.gap ++ (m.sign :: m.name ++ (m.space ++ m.value))

/-- The tag, if the mark is one. -/
def tag? : Option (List Char) := if m.sign = '!' then some (m.sign :: m.name) else none

/-- Where the value begins with the mark before it. -/
def shift (column : Nat) : Nat :=
  column + byteLength (m.gap ++ (m.sign :: m.name ++ m.space)) - byteLength m.blanks

/-- A scalar behind the mark, if it begins on the line: the column is another, and the tag
is the mark if there is no other. -/
def scalar (line : Nat) (s : Scalar) : Scalar :=
  if s.position.line = line then
    { s with
      position := ⟨line, m.shift s.position.column⟩
      tag? := s.tag?.or (m.tag?.map String.ofList) }
  else s

def node (line : Nat) : Node → Node
  | .scalar s => .scalar (m.scalar line s)
  | n => n

/-- An entry with the mark behind its colon. -/
def entry (e : Entry Node) : Entry Node :=
  { e with
    spacing := ⟨e.spacing.beforeColon, some (byteLength m.gap), m.gap.any (· != ' ')⟩
    value := m.node e.position.line e.value }

/-- Two sources that differ in the mark behind the colon of the key at a place. -/
inductive Sets (place : Position) (source source' : List Char) : Prop
  | intro {above below : List (List Char)} {before head behind behind' : List Char}
      {split : KeySplit}
      (unmarked : splitLines source = above ++ (before ++ (head ++ ':' :: (m.unmarked ++ behind))) :: below)
      (marked : splitLines source' = above ++ (before ++ (head ++ ':' :: (m.marked ++ behind'))) :: below)
      (line : above.length + 1 = place.line) (column : byteLength before + 1 = place.column)
      (blank : (behind ++ behind').all isBlank = true)
      (key : splitKey (head ++ ':' :: m.unmarked) = some split) (colon : split.colon = byteLength head)

variable {m}

theorem blanks_blank : m.blanks.all isBlank = true ∧ m.gap.all isBlank = true ∧
    m.space.all isBlank = true := by
  have h := m.allBlank
  rw [List.all_append, List.all_append, Bool.and_eq_true, Bool.and_eq_true] at h
  exact ⟨h.1.1, h.1.2, h.2⟩

theorem not_isBlank_name : ∀ c ∈ m.name, isBlank c = false := fun c hc => by
  simpa using List.all_eq_true.mp m.nameClosed c hc

theorem trimEnd_unmarked : trimEnd m.unmarked = m.unmarked := by
  by_cases h : m.value = []
  · rw [unmarked, (m.alone h).1, h]
    rfl
  · rw [unmarked, trimEnd, trimEndOf_append_of_ne_nil (by rw [← trimEnd, m.closes]; exact h),
      ← trimEnd, m.closes]

theorem trimEnd_marked : trimEnd m.marked = m.marked := by
  have hword : trimEnd (m.sign :: m.name) = m.sign :: m.name := by
    refine trimEndOf_of_forall fun c hc => ?_
    rcases List.mem_cons.mp hc with rfl | hc
    · exact isBlank_of_property m.isMark
    · exact m.not_isBlank_name c hc
  have hrest : trimEnd (m.sign :: m.name ++ (m.space ++ m.value)) =
      m.sign :: m.name ++ (m.space ++ m.value) := by
    by_cases h : m.value = []
    · rw [(m.alone h).2, h, List.nil_append, List.append_nil, hword]
    · have hvalue : trimEnd (m.sign :: m.name ++ m.space ++ m.value) =
          m.sign :: m.name ++ m.space ++ trimEnd m.value :=
        trimEndOf_append_of_ne_nil (by rw [← trimEnd, m.closes]; exact h) _
      rwa [m.closes, List.append_assoc] at hvalue
  rw [marked, trimEnd, trimEndOf_append_of_ne_nil (by rw [← trimEnd, hrest]; simp), ← trimEnd, hrest]

theorem endsKey_marked : endsKey m.marked = true := by
  have hgap := m.gapEnds
  rw [marked]
  cases hcons : m.gap with
  | nil => exact absurd hcons m.gapNonempty
  | cons c rest =>
    rw [hcons] at hgap
    exact hgap

end Marking

/-- A value behind properties may begin elsewhere, with a tag before them. -/
theorem skipProperties_eq (tag? other? : Option (List Char)) (column column' : Nat) (text : List Char) :
    skipProperties (tag?.or other?) column' text =
      ((skipProperties tag? column text).1.or other?,
        (skipProperties tag? column text).2.1 - column + column',
        (skipProperties tag? column text).2.2) := by
  fun_induction skipProperties tag? column text generalizing column' with
  | case1 => rw [skipProperties, Nat.sub_self, Nat.zero_add]
  | case2 tag? column c rest hmark after ih =>
    obtain ⟨skipped, -, hstart, -⟩ := skipProperties_append
      (if c = '!' then some ((c :: rest).takeWhile (!isBlank ·)) else tag?)
      (column + (byteLength (c :: rest) - byteLength after)) after
    have htag : (if c = '!' then some ((c :: rest).takeWhile (!isBlank ·)) else tag?.or other?) =
        (if c = '!' then some ((c :: rest).takeWhile (!isBlank ·)) else tag?).or other? := by
      split <;> rfl
    simp only [dite_eq_ite] at ih
    rw [skipProperties, dif_pos hmark, htag]
    change skipProperties _ (column' + (byteLength (c :: rest) - byteLength after)) after = _
    rw [ih, hstart]
    simp only [Prod.mk.injEq, and_true, true_and]
    omega
  | case3 tag? column c rest hmark =>
    rw [skipProperties, dif_neg hmark, Nat.sub_self, Nat.zero_add]

theorem isAbsent_skipProperties {text : List Char} (h : isAbsent text = true)
    (tag? : Option (List Char)) (column : Nat) :
    isAbsent (skipProperties tag? column text).2.2 = true := by
  cases text with
  | nil => rw [skipProperties]; rfl
  | cons c rest =>
    obtain rfl : c = '#' := beq_iff_eq.mp h
    rw [skipProperties_of_ne (by decide)]
    rfl

/-- Blanks before a text that begins without one. -/
theorem cut_blanks {blanks text : List Char} (hblanks : blanks.all isBlank = true)
    (starts : trimStart text = text) :
    (blanks ++ text).takeWhile isBlank = blanks ∧ trimStart (blanks ++ text) = text := by
  have hstart := trimStart_append_of_all_isBlank hblanks text
  rw [starts] at hstart
  have hcut := takeWhile_append_trimStart (blanks ++ text)
  rw [hstart] at hcut
  exact ⟨List.append_cancel_right hcut, hstart⟩

/-! ### Items at the indentation of their key -/

/-- Items that stand in the column of their key. -/
def Node.IsBeside (column : Nat) (n : Node) : Prop :=
  ∃ line items, n = .sequence ⟨line, column⟩ items

instance (column : Nat) (n : Node) : Decidable (n.IsBeside column) :=
  match n with
  | .sequence place items =>
    if h : place.column = column then isTrue ⟨place.line, items, by rw [← h]⟩
    else isFalse (by rintro ⟨line, list, heq⟩; cases heq; exact h rfl)
  | .mapping _ _ => isFalse (by rintro ⟨line, list, heq⟩; cases heq)
  | .scalar _ => isFalse (by rintro ⟨line, list, heq⟩; cases heq)
  | .empty => isFalse (by rintro ⟨line, list, heq⟩; cases heq)

mutual

/-- A sequence that is read as a node of its own stands in or behind the first line's
column. -/
theorem NodeAt.indent_lt_column {c after : Cursor} {n : Node} :
    NodeAt c n after → ∀ {position items}, n = .sequence position items →
      ∀ line ∈ c.lines.head?, line.indent < position.column
  | .nothing _ => by simp
  | .sequence h _ _ => by
    rintro ⟨⟩ line hline
    rw [h] at hline
    obtain rfl := Option.some.inj hline
    exact Nat.lt_succ_self _
  | .mapping _ _ _ _ => by simp
  | .value h _ _ found => by
    intro hn line hline
    rw [h] at hline
    obtain rfl := Option.some.inj hline
    have hcolumn := found.parent_lt_column hn
    omega

theorem ValueAt.parent_lt_column {text : List Char} {line column parent : Nat} {c after : Cursor}
    {n : Node} :
    ValueAt text line column parent c n after → ∀ {position items}, n = .sequence position items →
      parent + 1 < position.column
  | .deeper _ hnext hdeeper found => by
    intro hn
    exact Nat.lt_of_le_of_lt hdeeper (found.indent_lt_column hn _ hnext)
  | .empty _ _ => by simp
  | .scalar _ _ => by simp [scalarAt]

end

/-! ### What is read behind a mark -/

namespace Marking

section Reading

variable {m : Marking} {split : KeySplit} {head : List Char}

/-- The key with a mark behind its colon. -/
def rewriting (m : Marking) (h : split.Heads head) (number indent : Nat) : Rewriting :=
  h.rewriting m.endsKey_marked number indent

theorem cut_unmarked : m.unmarked.takeWhile isBlank = m.blanks ∧ trimStart m.unmarked = m.value :=
  cut_blanks m.blanks_blank.1 m.starts

theorem cut_marked : m.marked.takeWhile isBlank = m.gap ∧
    trimStart m.marked = m.sign :: (m.name ++ (m.space ++ m.value)) :=
  cut_blanks m.blanks_blank.2.1 (trimStart_of_not_isBlank (isBlank_of_property m.isMark))

/-- Behind the mark stands the value, with the mark for a tag. -/
theorem skipProperties_marked (column column' : Nat) :
    skipProperties none column' (m.sign :: (m.name ++ (m.space ++ m.value))) =
      ((skipProperties none column m.value).1.or m.tag?,
        (skipProperties none column m.value).2.1 - column +
          (column' + byteLength (m.sign :: m.name ++ m.space)),
        (skipProperties none column m.value).2.2) := by
  obtain ⟨hspace, hvalue⟩ := cut_blanks m.blanks_blank.2.2 m.starts
  have hhead : ∀ c ∈ (m.space ++ m.value).head?, isBlank c = true := by
    intro c hc
    cases hcons : m.space with
    | nil =>
      by_cases h : m.value = []
      · rw [hcons, h] at hc
        cases hc
      · exact absurd hcons (m.apart h)
    | cons d more =>
      have hblank := m.blanks_blank.2.2
      rw [hcons] at hc hblank
      obtain rfl := Option.some.inj hc
      exact List.all_eq_true.mp hblank _ List.mem_cons_self
  rw [skipProperties_word m.isMark m.not_isBlank_name hhead, hspace, hvalue, ← byteLength_append]
  exact skipProperties_eq none m.tag? column _ m.value

theorem node_of_behind {line : Nat} {n : Node} (h : n.Everywhere fun place => line < place.line) :
    m.node line n = n := by
  cases h with
  | scalar behind => rw [node, scalar, if_neg (Nat.ne_of_gt behind)]
  | _ => rfl

/-- A scalar behind the mark. -/
theorem scalarAt_marked (tag? : Option (List Char)) (text : List Char) {line start start' : Nat}
    (hstart : m.shift start = start') (parent : Nat) (c : Cursor) :
    m.node line (scalarAt tag? text ⟨line, start⟩ parent c).1.1 =
        (scalarAt (tag?.or m.tag?) text ⟨line, start'⟩ parent c).1.1 ∧
      (scalarAt tag? text ⟨line, start⟩ parent c).1.2 =
        (scalarAt (tag?.or m.tag?) text ⟨line, start'⟩ parent c).1.2 := by
  refine ⟨?_, rfl⟩
  simp only [scalarAt, node, scalar, if_true, hstart]
  cases tag? <;> rfl

variable {source : List Char}

/-- Nothing on the line with the mark keeps the next lines from being the value. -/
theorem present_marked : isAbsent (trimStart m.marked) = false := by
  rw [cut_marked.2]
  refine beq_eq_false_iff_ne.mpr ?_
  intro hmark
  exact absurd m.isMark (by rw [hmark]; decide)

theorem absent_marked (h : isAbsent m.value = true) (column : Nat) :
    isAbsent (skipProperties none column (m.sign :: (m.name ++ (m.space ++ m.value)))).2.2 = true := by
  rw [skipProperties_marked column]
  exact isAbsent_skipProperties h none column

/-- A value on the line is read behind the mark as without it. -/
theorem valueAt_marked {number column column' indent : Nat} {c after : Cursor} {n : Node}
    (found : ValueAt m.value number column indent c n after)
    (behind : ∀ {n}, NodeAt c n after → m.node number n = n)
    (hcolumn : column' + byteLength m.blanks = column + byteLength m.gap) :
    ValueAt (m.sign :: (m.name ++ (m.space ++ m.value))) number column' indent c (m.node number n)
      after := by
  have hskip := skipProperties_marked (m := m) column column'
  cases found with
  | deeper habsent hnext hdeeper found =>
    rw [behind found]
    exact .deeper (by rwa [hskip]) hnext hdeeper found
  | empty habsent hnext => exact .empty (by rwa [hskip]) hnext
  | @scalar _ text _ _ _ start _ tag? hcut hpresent =>
    obtain ⟨skipped, -, hstart, -⟩ := skipProperties_append none column m.value
    rw [hcut] at hskip hstart
    dsimp only at hskip hstart
    have hshift : m.shift start =
        start - column + (column' + byteLength (m.sign :: m.name ++ m.space)) := by
      rw [shift, byteLength_append]
      omega
    have hmarked := @scalarAt_marked m tag? text number _ _ hshift indent c
    rw [hmarked.1, hmarked.2]
    exact .scalar hskip hpresent

/-- Below a mark stands what does without it, except for items in the column of the key. -/
theorem reads_unless_beside (h : split.Heads head) (hrest : split.rest = m.unmarked)
    (number indent : Nat) :
    (m.rewriting h number indent).Reads source (fun n => ¬n.IsBeside (indent + 1)) (m.node number)
      True := by
  intro c c' mid rest n hc hlines hlines' hverbatim found hok
  have hvalue : split.value = m.value := by rw [KeySplit.value, hrest, cut_unmarked.2]
  have hgap : split.gap = m.blanks := by rw [KeySplit.gap, hrest, cut_unmarked.1]
  have hnewGap : (m.rewriting h number indent).newSplit.gap = m.gap := cut_marked.1
  have hcolumn : indent + split.colon + byteLength m.gap + 2 + byteLength m.blanks =
      indent + split.colon + byteLength split.gap + 2 + byteLength m.gap := by
    rw [hgap]
    omega
  have hpass : c'.pass (m.rewriting h number indent).newLine rest =
      c.pass (m.rewriting h number indent).oldLine rest := by
    rw [Cursor.pass, Cursor.pass, hverbatim]
    rfl
  have hbehind : ∀ {n mid},
      NodeAt (c.pass (m.rewriting h number indent).oldLine rest) n mid → m.node number n = n := by
    intro n mid found
    have hplaced := hc.pass hlines
    have hnested := (found.nests hplaced _ (Nat.lt_succ_self _) hplaced.lastLine_lt_head).1.nested
    exact node_of_behind (hnested.everywhere.imp fun place hplace => hplace.1)
  refine ⟨mid, .value present_marked ?_, fun _ => rfl⟩
  rw [hpass, hnewGap, show (m.rewriting h number indent).newSplit.value = _ from cut_marked.2]
  cases found with
  | deeper habsent hnext hdeeper found =>
    rw [hbehind found]
    exact .deeper (absent_marked (hvalue ▸ habsent) _) hnext hdeeper found
  | items => exact absurd ⟨_, _, rfl⟩ hok
  | empty habsent hnext =>
    exact .empty (absent_marked (hvalue ▸ habsent) _) fun next hhead => (hnext next hhead).1
  | value _ found => exact valueAt_marked (hvalue ▸ found) hbehind hcolumn

theorem spacing_marked (m : Marking) (split : KeySplit) :
    KeySplit.spacing { split with rest := m.marked } =
      ⟨split.beforeColon, some (byteLength m.gap), m.gap.any (· != ' ')⟩ := by
  have hpresent : isAbsent (KeySplit.value { split with rest := m.marked }) = false := present_marked
  have hgap : KeySplit.gap { split with rest := m.marked } = m.gap := cut_marked.1
  rw [KeySplit.spacing, hpresent, hgap]
  rfl

/-- Behind a mark nothing stands under a key whose items are in its own column. -/
theorem reads_beside (h : split.Heads head) (hrest : split.rest = m.unmarked) (number indent : Nat) :
    (m.rewriting h number indent).Reads source (Node.IsBeside (indent + 1)) (fun _ => .empty)
      False := by
  intro c c' mid rest n hc hlines hlines' hverbatim found hok
  have hvalue : split.value = m.value := by rw [KeySplit.value, hrest, cut_unmarked.2]
  obtain ⟨line, items, rfl⟩ := hok
  generalize hnode : Node.sequence ⟨line, indent + 1⟩ items = n at found
  cases found with
  | deeper _ hnext hdeeper found =>
    have hcolumn := found.indent_lt_column hnode.symm _ hnext
    exact absurd hcolumn (Nat.not_lt.mpr hdeeper)
  | items habsent hnext hindent =>
    refine ⟨_, .value present_marked (.empty ?_ ?_), False.elim⟩
    · rw [show (m.rewriting h number indent).newSplit.value = _ from cut_marked.2]
      exact absent_marked (hvalue ▸ habsent) _
    · intro next hhead
      obtain rfl := Option.some.inj (hnext.symm.trans hhead)
      exact Nat.le_of_eq hindent
  | empty => cases hnode
  | value _ found => exact absurd (found.parent_lt_column hnode.symm) (Nat.lt_irrefl _)

end Reading

end Marking

end Outline

/-! ### Outlines with a mark -/

open Outline Text

/-- **A mark behind a colon changes no more than its line tells.** With an anchor or a tag
behind the colon of any key the outline is the same, but for the blanks before the mark
and, if the value begins on that line, its column and its tag. Only items in the column of
the key are lost: with a mark, nothing stands under the key. -/
theorem Outline.scan_marked {m : Marking} {source source' : List Char} {e : Outline.Entry Node}
    (he : e ∈ (Outline.scan source).root.allEntries) (h : m.Sets e.position source source') :
    (¬e.value.IsBeside e.position.column → Outline.scan source' =
        ⟨(Outline.scan source).root.edit e.position m.entry, (Outline.scan source).verbatim⟩) ∧
      (e.value.IsBeside e.position.column → ∃ e' ∈ (Outline.scan source').root.allEntries,
        e'.position = e.position ∧ e'.value = .empty) := by
  obtain @⟨above, below, before, head, behind, behind', split, unmarked, marked, line, column, blank,
    key, colon⟩ := h
  obtain ⟨head', htext, heads⟩ := exists_heads key
  obtain ⟨rfl, hrest⟩ := append_inj_of_byteLength htext (colon.symm.trans heads.colon.symm)
  have hrest : split.rest = m.unmarked := (List.cons.inj hrest).2.symm
  have hblank : behind.all isBlank = true ∧ behind'.all isBlank = true := by
    rwa [List.all_append, Bool.and_eq_true] at blank
  let r := m.rewriting heads e.position.line (byteLength before)
  have hplace : e.position = r.place := by
    rw [← show (⟨e.position.line, e.position.column⟩ : Position) = e.position from rfl, ← column]
    rfl
  have htrim : ∀ {text blanks : List Char}, blanks.all isBlank = true → trimEnd text = text →
      trimEnd (head ++ ':' :: (text ++ blanks)) = head ++ ':' :: text := by
    intro text blanks hblanks htext
    rw [trimEnd_append_cons (by decide), trimEnd, trimEndOf_append_of_all hblanks, ← trimEnd, htext]
  have rewrites : r.Rewrites source source' := by
    refine .intro unmarked marked line rfl ?_ (htrim hblank.2 m.trimEnd_marked)
    rw [htrim hblank.1 m.trimEnd_unmarked, ← hrest]
    rfl
  have fits : r.Fits := heads.rewriting_fits m.endsKey_marked _ _
  constructor
  · intro hbeside
    rw [← column] at hbeside
    have hscan := (rewrites.scan_rewritten fits (m.reads_unless_beside heads hrest _ _) he hplace
      hbeside).2 trivial
    rw [hscan, Node.edit_congr (g := m.entry)]
    intro other hother same
    obtain ⟨-, hkey, hspacing⟩ := rewrites.ahead fits hother (same.trans hplace)
    rw [Rewriting.entry, Marking.entry, hkey, hspacing, same,
      show r.newSplit.spacing = _ from m.spacing_marked split]
    rfl
  · intro hbeside
    rw [← column] at hbeside
    exact (rewrites.scan_rewritten fits (m.reads_beside heads hrest _ _) he hplace hbeside).1

/-- A tag before the hosts of a play, and an anchor before tasks in the column of their key. -/
theorem Outline.scan_marked_play :
    let source := "- hosts: all\n  tasks:\n  - ping:\n".toList
    let tag : Marking :=
      { blanks := [' '], gap := [' '], sign := '!', name := ['t'], space := [' ']
        value := "all".toList }
    let anchor : Marking :=
      { blanks := [], gap := [' '], sign := '&', name := ['a'], space := [], value := [] }
    Outline.scan "- hosts: !t all\n  tasks:\n  - ping:\n".toList =
        ⟨(Outline.scan source).root.edit ⟨1, 3⟩ tag.entry, (Outline.scan source).verbatim⟩ ∧
      (∃ e ∈ (Outline.scan source).root.allEntries,
        anchor.Sets e.position source "- hosts: all\n  tasks: &a\n  - ping:\n".toList ∧
          e.value.IsBeside e.position.column) ∧
      ∃ e ∈ (Outline.scan "- hosts: all\n  tasks: &a\n  - ping:\n".toList).root.allEntries,
        e.position = ⟨2, 3⟩ ∧ e.value = .empty := by
  intro source tag anchor
  let keys := (Outline.scan source).root.items.flatMap fun item => item.value.entries?.getD []
  have hkeys : ∀ found ∈ [((⟨1, 3⟩ : Position), false), (⟨2, 3⟩, true)],
      found ∈ keys.map fun e => (e.position, decide (e.value.IsBeside e.position.column)) := by
    decide +kernel
  obtain ⟨hosts, hhosts, hfound⟩ := List.mem_map.mp (hkeys _ List.mem_cons_self)
  obtain ⟨tasks, htasks, hfound'⟩ :=
    List.mem_map.mp (hkeys _ (List.mem_cons_of_mem _ List.mem_cons_self))
  obtain ⟨hplace, hvalue⟩ := Prod.mk.inj hfound
  obtain ⟨hplace', hvalue'⟩ := Prod.mk.inj hfound'
  have hmem := Node.mem_allEntries_of_items hhosts
  have hmem' := Node.mem_allEntries_of_items htasks
  have hapart : ¬hosts.value.IsBeside hosts.position.column := of_decide_eq_false hvalue
  have hbeside : tasks.value.IsBeside tasks.position.column := of_decide_eq_true hvalue'
  have htag : tag.Sets hosts.position source "- hosts: !t all\n  tasks:\n  - ping:\n".toList := by
    rw [hplace]
    exact @Marking.Sets.intro _ _ _ _ [] ["  tasks:".toList, "  - ping:".toList] "- ".toList
      "hosts".toList [] [] ⟨"hosts".toList, 5, 0, " all".toList⟩ (by decide) (by decide) rfl rfl rfl
      (by decide) rfl
  have hanchor : anchor.Sets tasks.position source "- hosts: all\n  tasks: &a\n  - ping:\n".toList := by
    rw [hplace']
    exact @Marking.Sets.intro _ _ _ _ ["- hosts: all".toList] ["  - ping:".toList] "  ".toList
      "tasks".toList [] [] ⟨"tasks".toList, 5, 0, []⟩ (by decide) (by decide) rfl rfl rfl
      (by decide) rfl
  refine ⟨?_, ⟨tasks, hmem', hanchor, hbeside⟩, ?_⟩
  · rw [← hplace]
    exact (scan_marked hmem htag).1 hapart
  · rw [← hplace']
    exact (scan_marked hmem' hanchor).2 hbeside

end PlaybookStyle
