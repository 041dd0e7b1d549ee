/-
Sources with the text of one scalar written anew.

Where the text of a line is another from the place of a scalar on (`Rewords`), and a scalar
may begin with it, one begins there that the same key or dash holds. If no key is on the
line, the new text must bring none (`StaysAlone`).

* `Rewords.exists_holds` — the scalar at the place in the new source.
-/

import PlaybookStyle.Proofs.Outline.Beginnings
import PlaybookStyle.Proofs.Outline.Between
import PlaybookStyle.Proofs.Outline.Marks

namespace PlaybookStyle.Outline

open Text

/-! ### Texts behind tags and anchors -/

/-- A scalar may begin with the text: what stands first is no blank and opens no comment,
tag or anchor. -/
def StartsScalar (text : List Char) : Prop :=
  ∃ c rest, text = c :: rest ∧ isBlank c = false ∧ c ≠ '#' ∧ ¬(c = '!' ∨ c = '&')

theorem StartsScalar.trimStart_eq {text : List Char} (h : StartsScalar text) :
    trimStart text = text := by
  obtain ⟨c, rest, rfl, hblank, -⟩ := h
  exact trimStart_of_not_isBlank hblank

theorem StartsScalar.isAbsent_eq {text : List Char} (h : StartsScalar text) :
    isAbsent text = false := by
  obtain ⟨c, rest, rfl, -, hash, -⟩ := h
  exact beq_eq_false_iff_ne.mpr hash

/-- Tags and anchors, or nothing. -/
inductive Properties? : List Char → Prop
  | none : Properties? []
  | some {c : Char} (mark : c = '!' ∨ c = '&') (more : List Char) : Properties? (c :: more)

theorem Properties?.trimStart_eq {skipped text : List Char} (h : Properties? skipped)
    (starts : trimStart text = text) : trimStart (skipped ++ text) = skipped ++ text := by
  cases h with
  | none => exact starts
  | some mark more => exact trimStart_of_not_isBlank (isBlank_of_property mark)

/-- Behind the first character of a tag or an anchor come the rest of it and blanks. -/
theorem exists_word (rest : List Char) :
    ∃ word blanks after, rest = word ++ (blanks ++ after) ∧ (∀ d ∈ word, isBlank d = false) ∧
      blanks.all isBlank = true ∧ trimStart after = after ∧ (after ≠ [] → blanks ≠ []) := by
  have hsplit := List.takeWhile_append_dropWhile (p := (!isBlank ·)) (l := rest)
  have hends := List.head?_dropWhile_not (!isBlank ·) rest
  generalize rest.dropWhile (!isBlank ·) = tail at hsplit hends
  refine ⟨rest.takeWhile (!isBlank ·), tail.takeWhile isBlank, trimStart tail, ?_, fun d hd => ?_,
    isBlank_of_mem_takeWhile tail, trimStart_trimStart tail, fun hafter => ?_⟩
  · rw [takeWhile_append_trimStart, hsplit]
  · simpa using List.all_eq_true.mp List.all_takeWhile d hd
  · cases tail with
    | nil => exact absurd rfl hafter
    | cons d more =>
      have hblank : isBlank d = true := by simpa using hends
      rw [List.takeWhile_cons_of_pos hblank]
      exact List.cons_ne_nil _ _

/-- Before a scalar stand tags and anchors, and they may stand before another. -/
theorem exists_skipped {tag? tag'? : Option (List Char)} {column start : Nat}
    {text old : List Char} (h : skipProperties tag? column text = (tag'?, start, old))
    (present : isAbsent old = false) :
    ∃ skipped, text = skipped ++ old ∧ start = column + byteLength skipped ∧ Properties? skipped ∧
      ∀ new, StartsScalar new →
        skipProperties tag? column (skipped ++ new) = (tag'?, start, new) := by
  match text with
  | [] =>
    rw [skipProperties] at h
    cases h
    cases present
  | c :: rest =>
    by_cases mark : c = '!' ∨ c = '&'
    · obtain ⟨word, blanks, after, hrest, hword, hblanks, hafter, hapart⟩ := exists_word rest
      have hstep : ∀ {text : List Char}, trimStart text = text → (text ≠ [] → blanks ≠ []) →
          skipProperties tag? column (c :: (word ++ (blanks ++ text))) =
            skipProperties (if c = '!' then some (c :: word) else tag?)
              (column + (byteLength (c :: word) + byteLength blanks)) text := by
        intro text htrim hapart
        have hhead : ∀ d ∈ (blanks ++ text).head?, isBlank d = true := by
          cases blanks with
          | nil => cases text with
            | nil => simp
            | cons => exact absurd rfl (hapart (List.cons_ne_nil _ _))
          | cons d more =>
            rintro _ ⟨⟩
            exact (Bool.and_eq_true_iff.mp hblanks).1
        obtain ⟨htake, hdrop⟩ := cut_blanks hblanks htrim
        rw [skipProperties_word mark hword hhead, htake, hdrop]
      rw [hrest, hstep hafter hapart] at h
      obtain ⟨skipped, rfl, hstart, hskipped, hnew⟩ := exists_skipped h present
      have hne : skipped ++ old ≠ [] := by
        intro hnil
        rw [(List.append_eq_nil_iff.mp hnil).2] at present
        cases present
      refine ⟨c :: (word ++ (blanks ++ skipped)), by simp [hrest], ?_, .some mark _,
        fun new starts => ?_⟩
      · rw [hstart]
        simp only [byteLength_cons, byteLength_append]
        omega
      · rw [← hnew new starts, ← hstep (hskipped.trimStart_eq starts.trimStart_eq)
          fun _ => hapart hne]
        simp
    · rw [skipProperties_of_ne mark] at h
      cases h
      refine ⟨[], rfl, rfl, .none, fun new starts => ?_⟩
      obtain ⟨d, more, rfl, -, -, hproperty⟩ := starts
      exact skipProperties_of_ne hproperty _ _ _
termination_by text.length
decreasing_by
  simp only [hrest, List.length_append, List.length_cons]
  omega

/-! ### Texts without a key -/

/-- With another text in its place on a line without keys, the line still has none: the new
text is no item, and brings a colon only where the old one did. -/
structure StaysAlone (old new : List Char) : Prop where
  item : isItem new = false
  key : splitKey old = none → splitKey new = none
  colon : (splitColon false new).isSome = true → (splitColon false old).isSome = true

section Alone

variable {old new skipped : List Char}

theorem isSome_splitColon_of_append (hash : old.head? ≠ some '#') (hashNew : new.head? ≠ some '#')
    (ends : endsKey new = false)
    (colon : (splitColon false new).isSome = true → (splitColon false old).isSome = true)
    (front : List Char) (spaced : Bool)
    (h : (splitColon spaced (front ++ new)).isSome = true) :
    (splitColon spaced (front ++ old)).isSome = true := by
  induction front generalizing spaced with
  | nil =>
    rw [List.nil_append, splitColon_spaced hashNew] at h
    rw [List.nil_append, splitColon_spaced hash]
    exact colon h
  | cons c front ih =>
    rw [List.cons_append, splitColon] at h ⊢
    split at h
    · cases h
    · rename_i hcomment
      rw [if_neg hcomment]
      split at h
      · rename_i hcolon
        have hsame : endsKey (front ++ old) = true := by
          cases front with
          | nil => exact absurd (ends.symm.trans hcolon.2) (by decide)
          | cons d more => exact hcolon.2
        rw [if_pos ⟨hcolon.1, hsame⟩]
        rfl
      · rw [Option.isSome_map] at h
        split
        · rfl
        · rw [Option.isSome_map]
          exact ih _ h

/-- Nor has it one if tags and anchors are before the text. -/
theorem StaysAlone.behind (h : StaysAlone old new) (present : isAbsent old = false)
    (starts : StartsScalar new) (hskipped : Properties? skipped)
    (alone : (isItem (skipped ++ old) || (splitKey (skipped ++ old)).isSome) = false) :
    StaysAlone (skipped ++ old) (skipped ++ new) ∧
      (isItem (skipped ++ new) || (splitKey (skipped ++ new)).isSome) = false := by
  have hash : old.head? ≠ some '#' := by
    intro hhead
    obtain ⟨rest, rfl⟩ := List.head?_eq_some_iff.mp hhead
    cases present
  have hnew : new.head? ≠ some '#' ∧ endsKey new = false := by
    obtain ⟨c, rest, rfl, hblank, hc, -⟩ := starts
    refine ⟨fun hhead => hc (Option.some.inj hhead), ?_⟩
    simp only [endsKey, Bool.or_eq_false_iff, beq_eq_false_iff_ne]
    constructor <;> (rintro rfl; exact absurd hblank (by decide))
  have hcolon := isSome_splitColon_of_append hash hnew.1 hnew.2 h.colon skipped false
  cases hskipped with
  | none =>
    have hkey := h.key (Option.not_isSome_iff_eq_none.mp
      (Bool.eq_false_iff.mp (Bool.or_eq_false_iff.mp alone).2))
    refine ⟨h, ?_⟩
    rw [List.nil_append, h.item, hkey]
    rfl
  | @some c mark more =>
    have hopens : opensNoKey c = true ∧ c ≠ '#' := by rcases mark with rfl | rfl <;> decide
    have hcollection := opens_of_opensNoKey hopens.1 hopens.2 (more ++ new)
    exact ⟨⟨hcollection.item, fun _ => hcollection.key, hcolon⟩, hcollection.not_collection⟩

end Alone

/-! ### The line of a scalar -/

section Line

variable {source old new : List Char} {place holding : Position} {line : LogicalLine}

theorem LogicalLine.Leads.restAt {top : LogicalLine} (leads : top.Leads line)
    (htop : top ∈ LogicalLine.ofText source) :
    RestAt source ⟨line.number, line.indent + 1⟩ line.text := by
  obtain ⟨dashes, -, htext, hindent, -⟩ := leads.exists_dashes
  have hrest := (of_mem_linesAfter (n := 0) htop).restAt
  rw [htext] at hrest
  have hright := hrest.right
  rwa [show top.indent + 1 + byteLength dashes = line.indent + 1 by omega, ← leads.number_eq] at hright

/-- The line of a scalar stands in a source, and with another text at the place of the scalar
it can stand there too. -/
structure Swap.Stands (r : Swap) (source old new : List Char) : Prop where
  line : ∃ top ∈ LogicalLine.ofText source, top.Leads r.oldLine
  front : ∃ front, r.old = front ++ old ∧ r.new = front ++ new ∧
    r.indent + byteLength front + 1 = r.column
  fits : Rewriting.TextFits r.old r.new
  marker : r.indent = 0 → isDocumentMarker (trimStart r.new) = true →
    isDocumentMarker (trimStart r.old) = true

theorem Properties?.isAbsent_append {skipped : List Char} (h : Properties? skipped)
    (starts : StartsScalar new) : isAbsent (skipped ++ new) = false := by
  cases h with
  | none => exact starts.isAbsent_eq
  | some mark => rcases mark with rfl | rfl <;> rfl

/-- A scalar without a key, with another text in its place. -/
theorem BeginsAlone.exists_swap (h : BeginsAlone source place) (opens : RestAt source place old)
    (starts : StartsScalar new) (stays : StaysAlone old new) (holding : Position) :
    ∃ r : Swap, r.place = place ∧ r.holder = holding ∧ r.keyed = false ∧
      r.Stands source old new := by
  obtain ⟨top, htop, line, leads, hindent, alone, hnumber, tag?, rest, hskip, present⟩ := h
  obtain ⟨skipped, htext, hstart, hskipped, hnew⟩ := exists_skipped hskip present
  have hread : ReadsAt line.text (line.indent + 1) place.column := ⟨tag?, rest, hskip, present⟩
  have hrest := leads.restAt htop
  rw [htext] at hrest
  have hrest := hrest.right
  rw [← hstart, hnumber] at hrest
  obtain rfl : rest = old := hrest.unique opens
  have hcollection := alone
  rw [htext] at hcollection
  obtain ⟨hstays, hnone⟩ := stays.behind present starts hskipped hcollection
  obtain ⟨hitem, hkey⟩ := Bool.or_eq_false_iff.mp hnone
  obtain ⟨hitemOld, hkeyOld⟩ := Bool.or_eq_false_iff.mp alone
  have hcontent : isAbsent (skipped ++ new) = false := hskipped.isAbsent_append starts
  let r : Swap :=
    { number := line.number, indent := line.indent, column := place.column, holder := holding
      keyed := false, old := line.text, new := skipped ++ new
      item := hitem.trans hitemOld.symm
      key := hkey.trans hkeyOld.symm
      colon := by rw [htext]; exact hstays.colon
      alone := fun _ => ⟨alone, hread, tag?, new, hnew new starts, starts.isAbsent_eq⟩
      behind := fun hkeyed => by cases hkeyed }
  refine ⟨r, ?_, rfl, rfl, ⟨top, htop, leads⟩, ⟨skipped, htext, rfl, ?_⟩, ⟨?_, fun _ => ?_, hcontent⟩,
    fun hmargin => absurd hmargin (Nat.ne_of_gt hindent)⟩
  · rw [Swap.place, show r.number = place.line from hnumber]
  · rw [show r.column = _ from hstart]
    exact Nat.add_right_comm _ _ _
  · rw [show r.old = _ from htext]
    cases hskipped with
    | none => exact .inl starts.trimStart_eq
    | some mark more => exact .inr rfl
  · rw [HasContent, show trimStart r.new = r.new from hskipped.trimStart_eq starts.trimStart_eq]
    exact hcontent

/-- Between a colon and a value on its line are blanks. -/
theorem KeySplit.endsKey_gap {split : KeySplit} (ends : endsKey split.rest = true)
    (present : isAbsent split.value = false) (text : List Char) :
    endsKey (split.gap ++ text) = true := by
  have hrest := split.rest_eq
  cases hgap : split.gap with
  | nil =>
    rw [hgap, List.nil_append] at hrest
    rw [hrest] at ends
    cases hvalue : split.value with
    | nil =>
      rw [hvalue] at present
      cases present
    | cons c more =>
      have hblank := isBlank_head_trimStart hvalue
      rw [hvalue] at ends
      simp only [endsKey, Bool.or_eq_true, beq_iff_eq] at ends
      rcases ends with rfl | rfl <;> exact absurd hblank (by decide)
  | cons c more =>
    rw [hgap] at hrest
    rw [hrest] at ends
    exact ends

/-- The value of a key, with another text in its place. -/
theorem BeginsBehind.exists_swap (h : BeginsBehind source holding place)
    (opens : RestAt source place old) (starts : StartsScalar new) :
    ∃ r : Swap, r.place = place ∧ r.holder = holding ∧ r.keyed = true ∧ r.Stands source old new := by
  obtain ⟨top, htop, line, split, leads, hkey, rfl, hnumber, tag?, rest, hskip, present⟩ := h
  have hvaluePresent : isAbsent split.value = false := ReadsAt.present ⟨tag?, rest, hskip, present⟩
  obtain ⟨skipped, hvalue, hstart, hskipped, hnew⟩ := exists_skipped hskip present
  have hrest := (leads.restAt htop).value hkey
  rw [hvalue] at hrest
  have hrest := hrest.right
  rw [← hstart, hnumber] at hrest
  obtain rfl : rest = old := hrest.unique opens
  obtain ⟨head, htext, heads⟩ := exists_heads hkey
  have hends : endsKey (split.gap ++ (skipped ++ new)) = true :=
    KeySplit.endsKey_gap heads.ends hvaluePresent _
  have hgapBlank : split.gap.all isBlank = true := isBlank_of_mem_takeWhile _
  obtain ⟨htake, hdrop⟩ := cut_blanks hgapBlank (hskipped.trimStart_eq starts.trimStart_eq)
  have hread : ReadsAt (skipped ++ new) (line.indent + split.colon + byteLength split.gap + 2)
      place.column := ⟨tag?, new, hnew new starts, starts.isAbsent_eq⟩
  let w := heads.rewriting hends line.number line.indent
  have hold : w.old = line.text := htext.symm
  have hnewKey : splitKey w.new = some w.newSplit := w.newKey
  have hfits := heads.rewriting_fits hends line.number line.indent
  have fits : Rewriting.TextFits line.text w.new := hold ▸ hfits.text
  have marker : isDocumentMarker (trimStart w.new) = true →
    isDocumentMarker (trimStart line.text) = true := hold ▸ hfits.marker
  let r : Swap :=
    { number := line.number, indent := line.indent, column := place.column, holder := line.place
      keyed := true, old := line.text, new := w.new
      item := hold ▸ w.item
      key := by rw [hkey, hnewKey]; rfl
      colon := hold ▸ w.colon
      alone := fun hkeyed => by cases hkeyed
      behind := fun _ => ⟨rfl, by rw [hkey]; rfl, w.newSplit, hnewKey, by
        rw [show w.newSplit.value = _ from hdrop, show w.newSplit.gap = _ from htake]
        exact hread⟩ }
  refine ⟨r, ?_, rfl, rfl, ⟨top, htop, leads⟩, ⟨head ++ ':' :: (split.gap ++ skipped), ?_, ?_, ?_⟩,
    fits, fun _ => marker⟩
  · rw [Swap.place, show r.number = place.line from hnumber]
  · rw [show r.old = _ from htext, split.rest_eq, hvalue]
    simp
  · rw [show r.new = head ++ ':' :: (split.gap ++ (skipped ++ new)) from rfl]
    simp
  · have hmark : Char.utf8Size ':' = 1 := by decide
    rw [show r.column = _ from hstart, show r.indent = line.indent from rfl]
    simp only [byteLength_append, byteLength_cons, hmark, heads.colon]
    omega

end Line

/-! ### The new source -/

/-- Two sources that differ in the text of one line from a place on. -/
inductive Rewords (place : Position) (old new source source' : List Char) : Prop
  | intro {above below : List (List Char)} {before text text' : List Char}
      (lines : splitLines source = above ++ (before ++ text) :: below)
      (lines' : splitLines source' = above ++ (before ++ text') :: below)
      (line : above.length + 1 = place.line) (column : byteLength before + 1 = place.column)
      (oldText : trimEnd text = old) (newText : trimEnd text' = new)

section Rewords

variable {source source' old new : List Char} {place : Position}

theorem trimEnd_append_of_eq {text end' : List Char} (h : trimEnd text = end') (present : end' ≠ [])
    (before : List Char) : trimEnd (before ++ text) = before ++ end' := by
  subst h
  exact trimEndOf_append_of_ne_nil present before

theorem Rewords.restAt (h : Rewords place old new source source') (present : old ≠ []) :
    RestAt source place old := by
  cases h with
  | intro lines lines' line column oldText newText =>
    refine ⟨_, _, ?_, trimEnd_append_of_eq oldText present _, column.symm⟩
    rw [lines, ← line, Nat.add_sub_cancel, List.getElem?_append_right (Nat.le_refl _), Nat.sub_self]
    rfl

/-- The sources have the same lines with structure, but for the one of the scalar. -/
theorem Swap.Stands.ahead {r : Swap} (stands : r.Stands source old new)
    (h : Rewords r.place old new source source') (present : old ≠ []) (presentNew : new ≠ []) :
    r.Ahead (.ofText source) (.ofText source') := by
  obtain ⟨⟨top, htop, leads⟩, ⟨front, hold, hnew, hcolumn⟩, fits, marker⟩ := stands
  cases h with
  | @intro above below before text text' lines lines' line column oldText newText =>
    have htopNumber : top.number = above.length + 1 := by
      rw [line, ← leads.number_eq]
      rfl
    have hline := ofLine?_of_mem_ofText htop lines htopNumber
    -- Before the text stand the spaces, the dashes and what is before the scalar.
    obtain ⟨dashes, -, htext, hindent, -⟩ := leads.exists_dashes
    obtain ⟨-, hspaces, -⟩ := LogicalLine.ofLine?_eq_some_iff.mp hline
    have hlead : byteLength (List.replicate top.indent ' ' ++ dashes) = r.indent := by
      rw [byteLength_append, byteLength_eq_length_of_spaces (by simp), List.length_replicate, hindent]
      rfl
    rw [trimEnd_append_of_eq oldText present, htext, show r.oldLine.text = _ from hold,
      ← List.append_assoc, ← List.append_assoc] at hspaces
    obtain ⟨rfl, -⟩ := append_inj_of_byteLength hspaces (by
      have hplace : byteLength before + 1 = r.column := column
      rw [byteLength_append, hlead]
      omega)
    rw [List.append_assoc] at hline
    have hnonempty : r.old ≠ [] := by
      rw [hold]
      exact List.append_ne_nil_of_right_ne_nil _ present
    obtain ⟨top', htop', hexchanged⟩ := LogicalLine.exists_ofLine?_exchanged hline leads hlead
      ((trimEnd_append_of_eq oldText present front).trans hold.symm)
      ((trimEnd_append_of_eq newText presentNew front).trans hnew.symm) fits marker hnonempty
    refine ⟨?_, rfl, rfl⟩
    rw [Cursor.ofText, Cursor.ofText, LogicalLine.ofText, LogicalLine.ofText, lines, lines',
      LogicalLine.ofLines_append, LogicalLine.ofLines_append, LogicalLine.ofLines,
      LogicalLine.ofLines, List.append_assoc _ front text', Nat.add_comm 1, ← htopNumber,
      List.append_assoc _ front text, hline, htop']
    exact .append _ (.head hexchanged)

variable {holder last : Nat} {s : Scalar}

/-- **A scalar written anew** stands where the old one does, held by the same key or dash. -/
theorem Rewords.exists_holds (h : Rewords s.position old new source source')
    (held : (Outline.scan source).root.Holds holder last s) (present : old ≠ [])
    (starts : StartsScalar new) (stays : BeginsAlone source s.position → StaysAlone old new) :
    ∃ s', (Outline.scan source').root.Holds holder last s' ∧ s'.position = s.position := by
  have opens := h.restAt present
  have presentNew : new ≠ [] := by
    rintro rfl
    obtain ⟨c, rest, hcons, -⟩ := starts
    cases hcons
  -- No key or dash stands at this place, so the root is no scalar.
  obtain ⟨holding, keyed, rfl, rfl, reaches, begins⟩ := scan_begins held ⟨last + 1, 0⟩
  have swap : ∃ r : Swap, r.place = s.position ∧ r.holder = holding ∧ r.keyed = keyed ∧
      r.Stands source old new := by
    rcases begins with ⟨rfl, behind⟩ | ⟨rfl, alone⟩
    · exact behind.exists_swap opens starts
    · exact alone.exists_swap opens starts (stays alone) holding
  obtain ⟨r, hplace, rfl, rfl, stands⟩ := swap
  rw [← hplace] at h reaches ⊢
  obtain ⟨n', after', found, reaches'⟩ := (node_at (.ofText source)).swapped
    Cursor.ofText_placed (stands.ahead h present presentNew) reaches
  obtain ⟨s', hs', ⟨-, hown⟩ | hholds⟩ := reaches'.cases_holds
  · have hline := congrArg Position.line hown
    exact absurd hline (Nat.succ_ne_self _)
  · rw [scan_eq_of_nodeAt found]
    exact ⟨s', hholds, hs'⟩

end Rewords

end PlaybookStyle.Outline
