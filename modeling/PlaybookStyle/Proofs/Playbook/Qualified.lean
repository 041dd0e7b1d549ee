/-
Playbooks with a collection before the name of one module.

The play that calls the module stays but for that task, and so do the blocks
(`CallEdit.blocks_match`). Whether a block is a play is told by the values, not by the
outline; so the values of both texts have to agree in that. No blank line is added or
gone: the line of the key has content before and after.

* `parse_qualified` — the playbook of the text with the collection.
-/

import PlaybookStyle.Proofs.Outline.Qualified
import PlaybookStyle.Proofs.Playbook.Appending
import PlaybookStyle.Proofs.Playbook.Calls

namespace PlaybookStyle

open Playbook
open Outline (Node Item entryEdit itemEdit)

/-! ### Blank lines and one line with content -/

section Content

open SourceLines Text

variable {line line' : List Char}

/-- One line with content is as good as another. -/
theorem blankLinesAbove_replace (content : Outline.isAbsent (trim line) = false)
    (content' : Outline.isAbsent (trim line') = false) (above below : List (List Char)) :
    blankLinesAbove (above ++ line' :: below) = blankLinesAbove (above ++ line :: below) := by
  have hends : ∀ {line : List Char}, Outline.isAbsent (trim line) = false →
      blankLinesAbove (line :: below) = 0 := by
    intro line content
    rw [blankLinesAbove]
    split
    · rename_i hblank
      rw [hblank] at content
      cases content
    · rename_i hcomment
      rw [hcomment] at content
      cases content
    · rfl
  induction above with
  | nil => rw [List.nil_append, List.nil_append, hends content, hends content']
  | cons first rest ih => rw [List.cons_append, blankLinesAbove, List.cons_append, blankLinesAbove, ih]

theorem blankLinesBefore_replace (content : Outline.isAbsent (trim line) = false)
    (content' : Outline.isAbsent (trim line') = false) (above below : List (List Char)) (n : Nat) :
    (SourceLines.mk (above ++ line' :: below)).blankLinesBefore n =
      (SourceLines.mk (above ++ line :: below)).blankLinesBefore n := by
  have hsize : (SourceLines.mk (above ++ line' :: below)).size =
      (SourceLines.mk (above ++ line :: below)).size := by simp [size]
  rw [blankLinesBefore, blankLinesBefore, hsize]
  congr 1
  by_cases habove : n - 1 ≤ above.length
  · rw [List.take_append_of_le_length habove, List.take_append_of_le_length habove]
  · obtain ⟨k, hk⟩ : ∃ k, n - 1 = above.length + (k + 1) := ⟨n - 1 - above.length - 1, by omega⟩
    have htake : ∀ line : List Char, ((above ++ line :: below).take (n - 1)).reverse =
        (below.take k).reverse ++ line :: above.reverse := fun line => by
      rw [hk, List.take_length_add_append, List.take_succ_cons, List.reverse_append,
        List.reverse_cons, List.append_assoc, List.singleton_append]
    rw [htake, htake]
    exact blankLinesAbove_replace content content' _ _

end Content

namespace Playbook

variable {source : SourceLines}

/-! ### The play and the blocks that hold the task -/

section Blocks

variable {R : Part → Part → Prop} {e : Outline.Entry Node}
  {f : Outline.Entry Node → Outline.Entry Node}

/-- A play with the edited entry in one of its task lists. -/
theorem playOfItem_matches (alike : ∀ part part', Part.Alike part part' → R part part')
    {item : Item Node} {raw : List (Outline.Entry Node)} (hraw : item.value.entries? = some raw)
    (alone : e.Alone item.value.allEntries) {holder : Outline.Entry Node} (hholder : holder ∈ raw)
    (hopens : opensSection holder.key = true) (kind : PlayFieldKind.ofKey holder.key ≠ .roles)
    (he : e ∈ holder.value.allEntries)
    (lists : List.Forall₂ (TaskItem.Matches R) (taskItems source holder.value)
      (taskItems source (holder.value.edit e.position f))) :
    Block.Matches R (.play (.ofItem source item))
      (.play (.ofItem source (itemEdit e.position f item))) := by
  have same : ∀ part, R part part := fun part => alike _ _ (.refl part)
  rw [Outline.Node.allEntries_of_entries? hraw] at alone
  have hoff : ∀ entry ∈ raw, entryEdit e.position f entry =
      { entry with value := entry.value.edit e.position f } := fun entry hentry =>
    Outline.entryEdit_off (alone.position_ne hholder he hentry)
  have hself : ∀ entry ∈ raw, entry ≠ holder → entryEdit e.position f entry = entry :=
    fun entry hentry => alone.entryEdit_eq_self hholder (List.mem_cons_of_mem _ he) hentry
  have hedited : (itemEdit e.position f item).value.entries? =
      some (raw.map (entryEdit e.position f)) := by
    rw [Outline.itemEdit_eq, Outline.Node.entries?_edit, hraw, Option.map_some]
  have hentries : (raw.map (entryEdit e.position f)).filterMap playEntry? =
      raw.filterMap playEntry? := by
    rw [List.filterMap_map]
    refine List.filterMap_congr fun entry hentry => ?_
    rw [Function.comp_apply]
    by_cases heq : entry = holder
    · subst heq
      rw [hoff entry hentry, playEntry?_eq, playEntry?_eq, if_pos hopens, if_pos hopens]
    · rw [hself entry hentry heq]
  have hfields : (raw.map (entryEdit e.position f)).map
        (fun entry => (⟨PlayFieldKind.ofKey entry.key, entry.key, entry.position⟩ : Field PlayFieldKind)) =
      raw.map fun entry => ⟨PlayFieldKind.ofKey entry.key, entry.key, entry.position⟩ := by
    rw [List.map_map]
    refine List.map_congr_left fun entry hentry => ?_
    rw [Function.comp_apply, hoff entry hentry]
  have hsections : List.Forall₂ (fun s s' : PlaySection => s'.position = s.position ∧
      List.Forall₂ (Visit.Matches R) s.items.visits s'.items.visits)
        (raw.filterMap (playSection? source))
        ((raw.map (entryEdit e.position f)).filterMap (playSection? source)) := by
    rw [List.filterMap_map]
    refine forall₂_filterMap fun entry hentry => ?_
    rw [Function.comp_apply]
    by_cases heq : entry = holder
    · subst heq
      rw [hoff entry hentry, playSection?_eq, playSection?_eq, if_pos hopens, if_pos hopens,
        if_neg kind, if_neg kind]
      exact .some ⟨rfl, visitsOfItems_matches lists .none⟩
    · rw [hself entry hentry heq]
      cases playSection? source entry with
      | none => exact .none
      | some found => exact .some ⟨rfl, matches_self same _⟩
  have hplay : Play.ofItem source (itemEdit e.position f item) =
      { Play.ofItem source item with
        sections := (raw.map (entryEdit e.position f)).filterMap (playSection? source) } := by
    rw [Play.ofItem, hedited, Play.ofItem, hraw, Outline.itemEdit_eq]
    simp only [Option.getD_some, hentries, hfields]
  have hkept : (Play.ofItem source item).sections = raw.filterMap (playSection? source) := by
    rw [Play.ofItem, hraw]
    rfl
  rw [hplay]
  exact ⟨alike _ _ (.play _ _), Play.visits_matches same (hkept ▸ hsections)⟩

/-- Values that make blocks of one kind. -/
structure SameBlock (value value' : Yaml.Value) : Prop where
  mapping : value'.isMapping = value.isMapping
  hosts : (value'.get? "hosts").isSome = (value.get? "hosts").isSome

theorem blockOfItem_sameBlock {value value' : Yaml.Value} (h : SameBlock value value')
    (source : SourceLines) (item : Item Node) :
    Block.ofItem source value' item = Block.ofItem source value item := by
  rw [Block.ofItem, Block.ofItem, h.mapping, h.hosts]

/-- A value with hosts makes a play of any item. -/
theorem ofItem_play_of {value : Yaml.Value} {item : Item Node} {play : Play}
    (h : Block.ofItem source value item = .ok (.play play)) (item' : Item Node) :
    Block.ofItem source value item' = .ok (.play (.ofItem source item')) := by
  obtain ⟨hmapping, ⟨hhosts, -⟩ | ⟨-, i, -, hblock⟩⟩ := Block.ofItem_cases h
  · rw [Block.ofItem, hmapping, if_neg (by decide), if_pos hhosts]
  · cases hblock

/-- The blocks of edited items match if each item makes a block that does. -/
theorem exists_blocksOf_matches {items : List (Item Node)} {g : Item Node → Item Node}
    {values values' : List Yaml.Value} {blocks : List Block}
    (shapes : List.Forall₂ SameBlock values values')
    (made : blocksOf source values items = .ok blocks)
    (each : ∀ pair ∈ values.zip items, ∀ block, Block.ofItem source pair.1 pair.2 = .ok block →
      ∃ block', Block.ofItem source pair.1 (g pair.2) = .ok block' ∧ block.Matches R block') :
    ∃ blocks', blocksOf source values' (items.map g) = .ok blocks' ∧
      List.Forall₂ (Block.Matches R) blocks blocks' := by
  induction shapes generalizing items blocks with
  | nil =>
    obtain rfl := Except.ok.inj made
    refine ⟨[], ?_, .nil⟩
    cases items <;> rfl
  | @cons value value' values values' hshape _ ih =>
    cases items with
    | nil =>
      obtain rfl := Except.ok.inj made
      exact ⟨[], rfl, .nil⟩
    | cons item items =>
      rw [blocksOf] at made
      cases hblock : Block.ofItem source value item with
      | error problem =>
        rw [hblock] at made
        cases made
      | ok block =>
        cases hblocks : blocksOf source values items with
        | error problem =>
          rw [hblock, hblocks] at made
          cases made
        | ok found =>
          rw [hblock, hblocks] at made
          obtain rfl := Except.ok.inj made
          obtain ⟨heach, hrest⟩ := List.forall_mem_cons.mp each
          obtain ⟨block', hblock', hmatches⟩ := heach block hblock
          obtain ⟨blocks', hblocks', hall⟩ := ih hblocks hrest
          refine ⟨block' :: blocks', ?_, .cons hmatches hall⟩
          rw [List.map_cons, blocksOf, blockOfItem_sameBlock hshape, hblock', hblocks']
          rfl

/-- A text that differs in lines with content only has the same blank lines. -/
theorem blocksOf_congr {target : SourceLines}
    (blank : ∀ n, target.blankLinesBefore n = source.blankLinesBefore n)
    (values : List Yaml.Value) (items : List (Item Node)) :
    blocksOf target values items = blocksOf source values items := by
  let r : Relocation := ⟨id, fun _ count => count⟩
  have hself : items.map (Outline.itemMoved r.line) = items := by
    refine (List.map_congr_left fun item _ => ?_).trans (List.map_id items)
    exact Outline.itemMoved_id item
  have hsource := @blocksOf_moved r source source (fun _ => rfl) values items
  have htarget := @blocksOf_moved r source target blank values items
  rw [hself] at hsource htarget
  rw [htarget, ← hsource]

end Blocks

/-! ### The playbook -/

section Build

variable {path : String} {text text' : List Char} {values values' : List Yaml.Value}
  {playbook : Playbook} {t : Task} {call : ModuleCall} {e : Outline.Entry Node}
  {f : Outline.Entry Node → Outline.Entry Node}

/-- The play and the section that a task is from. -/
theorem exists_section_of_mem_tasks {items : List (Item Node)} {blocks : List Block}
    (made : blocksOf source values items = .ok blocks)
    (hblocks : playbook.blocks = blocks) (ht : t ∈ playbook.tasks) :
    ∃ pair ∈ values.zip items, Block.ofItem source pair.1 pair.2 = .ok (.play (.ofItem source pair.2)) ∧
      ∃ raw, pair.2.value.entries? = some raw ∧ ∃ holder ∈ raw, opensSection holder.key = true ∧
        PlayFieldKind.ofKey holder.key ≠ .roles ∧
          ∃ item ∈ taskItems source holder.value, .task t ∈ item.within := by
  obtain ⟨item, hitem, htask⟩ := List.mem_filterMap.mp ht
  obtain rfl := TaskItem.eq_task_of_task? htask
  obtain ⟨s, hs, hwithin⟩ := List.mem_flatMap.mp hitem
  obtain ⟨play, hplay, hs⟩ := List.mem_flatMap.mp hs
  obtain ⟨found, hfound, rfl⟩ := List.mem_map.mp hs
  obtain ⟨block, hblock, hplay⟩ := List.mem_filterMap.mp hplay
  rw [hblocks] at hblock
  obtain ⟨pair, hpair, hmade⟩ := exists_of_mem_right (blocksOf_zip made) hblock
  cases block with
  | inclusion i => cases hplay
  | play p =>
    obtain rfl := Option.some.inj hplay
    obtain rfl := play_of_ofItem hmade
    refine ⟨pair, hpair, hmade, ?_⟩
    rw [Play.ofItem] at hfound
    cases hraw : pair.2.value.entries? with
    | none =>
      rw [hraw] at hfound
      cases hfound
    | some raw =>
      rw [hraw] at hfound
      obtain ⟨holder, hholder, hsection⟩ := List.mem_filterMap.mp hfound
      obtain ⟨hopens, rfl⟩ := opens_of_playSection? hsection
      dsimp only at hwithin
      split at hwithin
      · simp [SectionItems.items] at hwithin
      · rename_i kind
        exact ⟨raw, rfl, holder, hholder, hopens, kind, mem_withinItems.mp hwithin⟩

/-- The blocks of the items with the call of one task edited. -/
theorem CallEdit.blocks_match (edit : CallEdit t call e f) {items : List (Item Node)}
    {blocks : List Block} (length : items.length = values.length)
    (made : blocksOf source values items = .ok blocks) (hblocks : playbook.blocks = blocks)
    (ht : t ∈ playbook.tasks) (alone : e.Alone (items.flatMap fun item => item.value.allEntries))
    (shapes : List.Forall₂ SameBlock values values') :
    ∃ blocks', blocksOf source values' (items.map (itemEdit e.position f)) = .ok blocks' ∧
      List.Forall₂ (Block.Matches (Part.Renamed t call (.ofEntry (f e)))) blocks blocks' := by
  obtain ⟨holder, hpair, hplay, raw, hraw, entry, hentry, hopens, kind, item, hitem, hwithin⟩ :=
    exists_section_of_mem_tasks made hblocks ht
  have hcovered := Outline.Node.allEntries_of_entries? hraw
  have aloneHolder := alone.of_item (List.of_mem_zip hpair).2
  obtain ⟨he, hlists⟩ := edit.items_match
    (Outline.Entry.Alone.of_entry (hcovered ▸ aloneHolder) hentry) hitem hwithin
  have hinside : e ∈ holder.2.value.allEntries := by
    rw [hcovered]
    exact List.mem_flatMap.mpr ⟨entry, hentry, List.mem_cons_of_mem _ he⟩
  have hnodup : ((values.zip items).flatMap fun pair => pair.2.value.allEntries).Nodup := by
    have hflat := alone.nodup
    rwa [← List.map_snd_zip length.le, List.flatMap_map] at hflat
  refine exists_blocksOf_matches shapes made fun pair hmem block hblock => ?_
  by_cases hsame : e ∈ pair.2.value.allEntries
  · obtain rfl := Outline.eq_of_mem_flatMap hnodup hmem hpair hsame hinside
    obtain rfl := Except.ok.inj (hblock.symm.trans hplay)
    exact ⟨.play (.ofItem source (itemEdit e.position f pair.2)), ofItem_play_of hplay _,
      playOfItem_matches (fun _ _ => .alike) hraw aloneHolder hentry hopens kind he hlists⟩
  · have hself : itemEdit e.position f pair.2 = pair.2 :=
      alone.itemEdit_eq_self (List.of_mem_zip hpair).2 hinside (List.of_mem_zip hmem).2
        fun same => hsame (same ▸ hinside)
    exact ⟨block, hself.symm ▸ hblock, .refl Part.Renamed.refl block⟩

/-- **The playbook with the key of one call edited.** -/
theorem build_callEdit (build : Playbook.build path text (.sequence values) = .ok playbook)
    (edit : CallEdit t call e f) (ht : t ∈ playbook.tasks)
    (he : e ∈ (Outline.scan text).root.allEntries)
    (outline : Outline.scan text' =
      ⟨(Outline.scan text).root.edit e.position f, (Outline.scan text).verbatim⟩)
    (blank : ∀ n, (SourceLines.ofText text').blankLinesBefore n =
      (SourceLines.ofText text).blankLinesBefore n)
    (shapes : List.Forall₂ SameBlock values values') :
    ∃ blocks', Playbook.build path text' (.sequence values') =
        .ok ⟨path, blocks', .ofText text', (Outline.scan text).verbatim, false⟩ ∧
      List.Forall₂ (Block.Matches (Part.Renamed t call (.ofEntry (f e)))) playbook.blocks blocks' := by
  obtain ⟨-, items, position, root, _, heq, -⟩ := exists_blocksOf_of_build build
  obtain rfl := Yaml.Value.sequence.inj heq
  obtain ⟨length, made, -⟩ := exists_blocksOf_of_build_sequence root build
  have alone := Outline.scan_alone text he
  rw [root, Outline.Node.allEntries_sequence] at alone
  obtain ⟨blocks', made', hmatches⟩ := edit.blocks_match length made rfl ht alone shapes
  refine ⟨blocks', ?_, hmatches⟩
  have outline' : Outline.scan text' =
      ⟨.sequence position (items.map (itemEdit e.position f)), (Outline.scan text).verbatim⟩ := by
    rw [outline, root, Outline.Node.edit, Outline.itemsEdit_eq_map]
  rw [← blocksOf_congr blank] at made'
  simp only [Playbook.build, outline', List.length_map, length, shapes.length_eq, if_true, made']
  rfl

end Build

/-! ### The playbook with a collection before the name of a module -/

/-- What is in an item of an inner list is in the node. -/
theorem mem_allEntries_of_innerList {n : Node} {list : List (Item Node)} (h : Outline.InnerList n list)
    {item : Item Node} (hitem : item ∈ list) {e : Outline.Entry Node}
    (he : e ∈ item.value.allEntries) : e ∈ n.allEntries := by
  induction h with
  | here =>
    rw [Outline.Node.allEntries_sequence]
    exact List.mem_flatMap.mpr ⟨item, hitem, he⟩
  | @under _ _ _ holder outer hholder houter _ ih =>
    rw [Outline.Node.allEntries_sequence]
    refine List.mem_flatMap.mpr ⟨holder, hholder, ?_⟩
    cases hentries : holder.value.entries? with
    | none =>
      rw [hentries] at houter
      cases houter
    | some entries =>
      rw [hentries] at houter
      rw [Outline.Node.allEntries_of_entries? hentries]
      exact List.mem_flatMap.mpr ⟨outer, houter, List.mem_cons_of_mem _ (ih hitem)⟩

/-- An entry that is alone in the node is alone in an item of an inner list. -/
theorem alone_of_innerList {n : Node} {list : List (Item Node)} (h : Outline.InnerList n list)
    {e : Outline.Entry Node} (alone : e.Alone n.allEntries) {item : Item Node} (hitem : item ∈ list) :
    e.Alone item.value.allEntries := by
  induction h with
  | here =>
    rw [Outline.Node.allEntries_sequence] at alone
    exact alone.of_item hitem
  | @under _ _ _ holder outer hholder houter _ ih =>
    rw [Outline.Node.allEntries_sequence] at alone
    cases hentries : holder.value.entries? with
    | none =>
      rw [hentries] at houter
      cases houter
    | some entries =>
      rw [hentries] at houter
      have inside := alone.of_item hholder
      rw [Outline.Node.allEntries_of_entries? hentries] at inside
      exact ih (inside.of_entry houter) hitem

section Collections

variable {path content content' word : String} {playbook : Playbook} {t : Task} {call : ModuleCall}
  {values values' : List Yaml.Value} {source source' : List Char} {e : Outline.Entry Node}

/-- The call of a task is made from an entry of the outline. -/
theorem exists_call_of_mem_tasks (parsed : Playbook.parse path content = .ok playbook)
    (ht : t ∈ playbook.tasks) (module : t.module? = some call) :
    ∃ e ∈ (Outline.scan content.toList).root.allEntries, call = .ofEntry e ∧
      namesModule e = true := by
  obtain ⟨list, inner, item, hitem, made⟩ := exists_item_of_mem_tasks parsed ht
  obtain ⟨before, e, after, hentries, -, names, rfl, -⟩ := exists_call_of_task made module
  refine ⟨e, mem_allEntries_of_innerList inner hitem ?_, rfl, names⟩
  rw [Outline.Node.allEntries_of_entries? hentries]
  exact List.mem_flatMap.mpr ⟨e, by simp, List.mem_cons_self⟩

/-- Both sources have the same blank lines before each line. -/
theorem blankLinesBefore_qualified {word : List Char} (hword : Outline.isWord word = true)
    (he : e ∈ (Outline.scan source).root.allEntries)
    (h : Outline.Qualifies word e.position source source') (n : Nat) :
    (SourceLines.ofText source').blankLinesBefore n =
      (SourceLines.ofText source).blankLinesBefore n := by
  have he' : e.qualified word ∈ (Outline.scan source').root.allEntries := by
    rw [Outline.scan_qualified hword he h]
    exact (Outline.scan_alone source he).mem_allEntries_edit he
  obtain @⟨above, below, before, text, short, long, line, -, -, -⟩ := h
  rw [SourceLines.ofText, SourceLines.ofText, short, long, List.map_append, List.map_append,
    List.map_cons, List.map_cons]
  refine blankLinesBefore_replace ?_ ?_ _ _ n
  · rw [Text.trim_trimEndOf_returns]
    exact Outline.content_at he short line
  · rw [Text.trim_trimEndOf_returns]
    exact Outline.content_at he' long line

/-- A collection is a word. -/
theorem isWord_of_collection (collection : word ∈ coreCollections) :
    Outline.isWord word.toList = true := by
  simp only [coreCollections, List.mem_cons, List.not_mem_nil, or_false] at collection
  rcases collection with rfl | rfl <;> decide

/-- With a collection before the name, the same module is called. -/
theorem callEdit_qualified (collection : word ∈ coreCollections)
    (module : t.module? = some (.ofEntry e)) (short : shortModuleName e.key = e.key)
    (arguments : ∀ values, (ModuleCall.ofEntry e).args ≠ .sequence values)
    (others : ∀ entry ∈ t.entries, entry.key ≠ e.key ∧ entry.key ≠ word ++ e.key) :
    CallEdit t (.ofEntry e) e (Outline.Entry.qualified word.toList) := by
  have hkey : (e.qualified word.toList).key = word ++ e.key := by
    rw [Outline.Entry.qualified, ← String.toList_append, String.ofList_toList]
  have hshort : shortModuleName (e.qualified word.toList).key = shortModuleName e.key := by
    rw [hkey, shortModuleName_collection collection, short]
  refine ⟨module, rfl, ⟨rfl, namesModule_collection collection hkey, ?_⟩,
    ModuleCall.renamed_qualified hshort arguments, hkey ▸ others⟩
  rw [hkey]
  exact not_mem_of_collection collection (by decide) e.key

/-- **With a collection before the name of one module** the text is read as a playbook
whose blocks match those of the text without it. -/
theorem parse_qualified (parsed : Playbook.parse path content = .ok playbook)
    (read : Yaml.Value.read content = .ok (.sequence values))
    (read' : Yaml.Value.read content' = .ok (.sequence values'))
    (shapes : List.Forall₂ SameBlock values values') (ht : t ∈ playbook.tasks)
    (he : e ∈ (Outline.scan content.toList).root.allEntries)
    (edit : CallEdit t call e (Outline.Entry.qualified word.toList))
    (collection : word ∈ coreCollections)
    (qualifies : Outline.Qualifies word.toList e.position content.toList content'.toList) :
    ∃ blocks', Playbook.parse path content' =
        .ok { playbook with blocks := blocks', source := .ofText content'.toList } ∧
      List.Forall₂ (Block.Matches (Part.Renamed t call (.ofEntry (e.qualified word.toList))))
        playbook.blocks blocks' := by
  have hword := isWord_of_collection collection
  obtain ⟨value, hread, build⟩ := exists_read_of_parse parsed
  obtain rfl := Except.ok.inj (hread.symm.trans read)
  obtain ⟨blocks', build', hmatches⟩ := build_callEdit build edit ht he
    (Outline.scan_qualified hword he qualifies) (blankLinesBefore_qualified hword he qualifies) shapes
  obtain ⟨-, items, position, root, -⟩ := exists_blocksOf_of_build build
  obtain ⟨-, -, hplaybook⟩ := exists_blocksOf_of_build_sequence root build
  refine ⟨blocks', ?_, hmatches⟩
  rw [Playbook.parse, read']
  simp only [build']
  rw [hplaybook]

end Collections

end Playbook

end PlaybookStyle
