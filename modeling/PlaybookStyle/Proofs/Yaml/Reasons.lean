/-
What is said of a text that is not YAML.

The wording of a fault is fixed but for numbers, for texts in quotes and for the way to a node
that is refused, which names its keys as they are read (`Error.isLine_message_iff`).
-/

import PlaybookStyle.Proofs.Text.OneLine
import PlaybookStyle.Yaml.Read

namespace PlaybookStyle.Yaml

open Text

/-! ### Wording -/

theorem Problem.isLine_message (problem : Problem) : IsLine problem.message := by
  cases problem <;> exact .lit (by decide)

theorem Situation.isLine_message (situation : Situation) : IsLine situation.message := by
  cases situation <;> exact .lit (by decide)

theorem Mark.isLine_describe (mark : Mark) : IsLine mark.describe :=
  .append (.append (.append (.lit (by decide)) (isLine_nat _)) (.lit (by decide))) (isLine_nat _)

/-- A place that is left out of a message, or named behind it. -/
theorem Mark.isLine_place (hidden : Bool) (mark : Mark) :
    IsLine (if hidden then "" else s!" at {mark.describe}") := by
  cases hidden with
  | true => exact .lit (by decide)
  | false => exact .append (.lit (by decide)) mark.isLine_describe

theorem SyntaxError.isLine_message (e : SyntaxError) : IsLine e.message := by
  have hproblem := e.problem.isLine_message.append (e.mark.isLine_place e.mark.isOrigin)
  unfold SyntaxError.message
  dsimp only
  split
  · exact hproblem
  · rename_i situation since _
    exact ((hproblem.append (.lit (by decide))).append situation.isLine_message).append
      (since.isLine_place (since.isOrigin || since.samePlace e.mark))

theorem isLine_fractionText (b : Decimal.Binary) : IsLine (fractionText b) := by
  have digits := newline_not_mem_toDigits (by decide : 1 < 10) b.shortest.1
  have zeros : ∀ n, '\n' ∉ List.replicate n '0' := fun n h => by
    cases List.eq_of_mem_replicate h
  unfold fractionText
  split
  · exact .lit (by decide)
  dsimp only
  split
  · refine .append (.lit fun h => ?_) (.lit (by decide))
    exact (List.mem_append.mp h).elim digits (zeros _)
  split
  · exact .append (.append (.lit fun h => digits (List.mem_of_mem_take h)) (.lit (by decide)))
      (.lit fun h => digits (List.mem_of_mem_drop h))
  split
  · exact .append (.append (.lit (by decide)) (.lit (zeros _))) (.lit digits)
  split
  · rename_i d hd
    exact .append (.append (.lit (hd ▸ digits)) (.lit (by decide))) (isLine_int _)
  · rename_i d rest _ hd
    rw [hd, List.mem_cons, not_or] at digits
    have first : IsLine (String.ofList [d]) := .lit fun h => digits.1 (List.mem_singleton.mp h)
    exact .append (.append (.append (.append first (.lit (by decide))) (.lit digits.2))
      (.lit (by decide))) (isLine_int _)
  · exact .lit (by decide)

theorem Number.isLine_text (n : Number) : IsLine n.text := by
  cases n with
  | integer value => exact isLine_int value
  | fraction negative value =>
    exact .append (by cases negative <;> exact .lit (by decide)) (isLine_fractionText value)
  | infinity negative => cases negative <;> exact .lit (by decide)
  | notANumber => exact .lit (by decide)

/-- Where a node is refused, the reason stays on one line. -/
def Error.Worded : Error → Prop
  | .refused _ reason _ => IsLine reason
  | _ => True

/-- A text with the mark that it is about stays on one line if the text does. -/
theorem isLine_at {text : String} {mark : Mark} :
    IsLine (if mark.isOrigin then text else s!"{text} at {mark.describe}") ↔ IsLine text := by
  split
  · rfl
  · exact ⟨fun h => (isLine_append.mp (isLine_append.mp h).1).1,
      fun h => .append (.append h (.lit (by decide))) mark.isLine_describe⟩

theorem Error.message_refused (path reason : String) (mark : Mark) :
    (Error.refused path reason mark).message =
      let text := if path == "." then reason else s!"{path}: {reason}"
      if mark.isOrigin then text else s!"{text} at {mark.describe}" := rfl

theorem Error.isLine_message_refused {path reason : String} (hreason : IsLine reason) (mark : Mark) :
    IsLine (Error.refused path reason mark).message ↔ IsLine path := by
  rw [Error.message_refused, isLine_at]
  split
  · rename_i hroot
    rw [beq_iff_eq.mp hroot]
    exact iff_of_true hreason (.lit (by decide))
  · exact ⟨fun h => (isLine_append.mp (isLine_append.mp h).1).1,
      fun h => .append (.append h (.lit (by decide))) hreason⟩

/-- **A message has a line feed** exactly if the way to a node that is refused has one. -/
theorem Error.isLine_message_iff {e : Error} (worded : e.Worded) :
    IsLine e.message ↔ ∀ path reason mark, e = .refused path reason mark → IsLine path := by
  cases e with
  | refused path reason mark =>
    rw [Error.isLine_message_refused worded]
    constructor
    · rintro h _ _ _ ⟨⟩
      exact h
    · exact fun h => h _ _ _ rfl
  | controlCharacter offset =>
    have hplace : IsLine (if offset = 0 then "" else s!" at position {offset}") := by
      split
      · exact .lit (by decide)
      · exact .append (.lit (by decide)) (isLine_nat offset)
    have hmessage : IsLine (Error.controlCharacter offset).message :=
      .append (.lit (by decide)) hplace
    exact iff_of_true hmessage (by rintro _ _ _ ⟨⟩)
  | syntaxError e => exact iff_of_true e.isLine_message (by rintro _ _ _ ⟨⟩)
  | unknownAnchor mark =>
    have hmessage : IsLine (Error.unknownAnchor mark).message := isLine_at.mpr (.lit (by decide))
    exact iff_of_true hmessage (by rintro _ _ _ ⟨⟩)
  | nestedTooDeep mark =>
    have hmessage : IsLine (Error.nestedTooDeep mark).message := isLine_at.mpr (.lit (by decide))
    exact iff_of_true hmessage (by rintro _ _ _ ⟨⟩)
  | repeatedTooOften => exact iff_of_true (.lit (by decide)) (by rintro _ _ _ ⟨⟩)
  | moreThanOneDocument => exact iff_of_true (.lit (by decide)) (by rintro _ _ _ ⟨⟩)

/-! ### What is thrown while values are computed -/

/-- Whatever the computation throws is worded. -/
def Composing.Worded {α : Type} (m : Composing α) : Prop :=
  ∀ count e, m.run count = .error e → e.Worded

section Composing

variable {α β : Type} {path : Path} {mark : Mark}

theorem worded_pure (a : α) : Composing.Worded (pure a) := by
  rintro count e ⟨⟩

theorem worded_throw {e : Error} (h : e.Worded) : Composing.Worded (throw e : Composing α) := by
  rintro count _ ⟨⟩
  exact h

theorem worded_bind {m : Composing α} {f : α → Composing β} (hm : Composing.Worded m)
    (hf : ∀ a, Composing.Worded (f a)) : Composing.Worded (m >>= f) := by
  intro count e h
  rw [StateT.run_bind] at h
  cases hrun : m.run count with
  | error e' =>
    rw [hrun] at h
    obtain rfl := Except.error.inj h
    exact hm count e' hrun
  | ok result =>
    rw [hrun] at h
    exact hf result.1 result.2 e h

theorem worded_modify (f : Nat → Nat) : Composing.Worded (modify f) := by
  rintro count e ⟨⟩

theorem worded_get : Composing.Worded get := by
  rintro count e ⟨⟩

theorem worded_refuse {reason : String} (h : IsLine reason) :
    Composing.Worded (Value.refuse path mark reason : Composing α) :=
  worded_throw h

end Composing

/-! ### Documents -/

namespace Document

theorem worded_load {failure? : Option Error} (failure : ∀ e ∈ failure?, e.Worded)
    (events : List Event) (b : Node.Building) :
    ∀ e ∈ (load failure? b events).failure?, e.Worded := by
  induction events generalizing b with
  | nil => exact failure
  | cons event rest ih =>
    obtain ⟨happening, mark⟩ := event
    cases happening with
    | streamEnd => rintro _ ⟨⟩
    | documentStart => exact ih b
    | documentEnd => rintro _ ⟨⟩
    | «alias» name =>
      rw [load]
      split
      · exact ih _
      · rintro _ ⟨⟩
        trivial
    | scalar properties text style => exact ih _
    | sequenceStart properties => exact ih _
    | mappingStart properties => exact ih _
    | sequenceEnd => exact ih _
    | mappingEnd => exact ih _

theorem worded_ofText (text : String) : ∀ e ∈ (ofText text).failure?, e.Worded := by
  unfold ofText
  dsimp only
  split
  · refine worded_load ?_ _ _
    intro e he
    obtain ⟨cause, -, rfl⟩ := Option.map_eq_some_iff.mp he
    trivial
  · rename_i control _
    refine worded_load ?_ _ _
    rintro _ ⟨⟩
    cases (Event.read (text.toList.take control.legible) true).failure? <;> trivial

end Document

namespace Value

variable {s : Surroundings}

theorem isLine_oversizedMessage (n : Int) : IsLine (oversizedMessage n) := by
  have hwidth : IsLine (if n < 0 then "i128" else "u128") := by
    split <;> exact .lit (by decide)
  exact .append (.append (.append (.append (.lit (by decide)) (isLine_int n)) (.lit (by decide)))
    hwidth) (.lit (by decide))

theorem isLine_duplicateReason (value : Value) : IsLine (duplicateReason value) := by
  cases value with
  | boolean b => exact .append (.append (.lit (by decide)) (isLine_bool b)) (.lit (by decide))
  | number n => exact .append (.lit (by decide)) n.isLine_text
  | string s => exact .append (.lit (by decide)) (isLine_quoted s)
  | null | sequence | mapping | tagged => exact .lit (by decide)

theorem worded_ofTagged (path : Path) (mark : Mark) (tag : Tag) (text : String) :
    Composing.Worded (ofTagged path mark tag text) := by
  have wrong : ∀ expected, IsLine expected → Composing.Worded
      (refuse path mark s!"invalid value: string {quoted text}, expected {expected}" :
        Composing Value) := fun expected h =>
    worded_refuse (.append (.append (.append (.lit (by decide)) (isLine_quoted text))
      (.lit (by decide))) h)
  unfold ofTagged
  dsimp only
  split
  · split
    · exact worded_pure _
    · exact wrong _ (.lit (by decide))
  · split
    · exact worded_pure _
    · exact worded_refuse (isLine_oversizedMessage _)
    · exact wrong _ (.lit (by decide))
  · split
    · exact worded_pure _
    · exact wrong _ (.lit (by decide))
  · split
    · exact worded_pure _
    · exact wrong _ (.lit (by decide))
  · exact worded_pure _

theorem worded_ofUntagged (path : Path) (mark : Mark) (text : String) (style : ScalarStyle) :
    Composing.Worded (ofUntagged path mark text style) := by
  unfold ofUntagged
  split
  · split
    · exact worded_pure _
    · exact worded_pure _
    · exact worded_pure _
    · exact worded_refuse (isLine_oversizedMessage _)
    · exact worded_pure _
  · exact worded_pure _

section Inside

variable {inside : Path → Node → Composing Value}

theorem worded_ofItems (h : ∀ path node, Composing.Worded (inside path node)) (path : Path)
    (index : Nat) (nodes : List Node) : Composing.Worded (ofItems inside path index nodes) := by
  induction nodes generalizing index with
  | nil => exact worded_pure _
  | cons node rest ih =>
    exact worded_bind (h _ node) fun _ => worded_bind (ih _) fun _ => worded_pure _

theorem worded_ofChildren (h : ∀ path node, Composing.Worded (inside path node)) (path : Path)
    (mark : Mark) :
    ∀ entries nodes, Composing.Worded (ofChildren inside path mark entries nodes)
  | _, [] => worded_pure _
  | _, [_] => worded_bind (h _ _) fun _ => worded_pure _
  | entries, keyNode :: node :: rest => by
    unfold ofChildren
    refine worded_bind (h _ _) fun key => ?_
    split
    · exact worded_refuse (isLine_duplicateReason _)
    · exact worded_bind (h _ _) fun value => worded_ofChildren h path mark _ rest

end Inside

section Bodies

variable {inside? : Option (Path → Node → Composing Value)}

theorem worded_ofBody (failure : ∀ e ∈ s.failure?, e.Worded)
    (h : ∀ inside ∈ inside?, ∀ path node, Composing.Worded (inside path node)) (path : Path)
    (node : Node) : Composing.Worded (ofBody s inside? path node) := by
  unfold ofBody
  split
  · split
    · exact worded_ofUntagged path _ _ _
    · exact worded_ofUntagged path _ _ _
    · exact worded_bind (worded_ofUntagged path _ _ _) fun _ => worded_pure _
    · exact worded_ofTagged path _ _ _
  · split
    · exact worded_throw trivial
    · rename_i inside
      exact worded_bind (worded_ofItems (h inside rfl) path 0 _) fun _ => worded_pure _
  · split
    · exact worded_throw trivial
    · rename_i inside
      exact worded_bind (worded_ofChildren (h inside rfl) path _ [] _) fun _ => worded_pure _
  · exact worded_throw trivial
  · cases hfailure : s.failure? with
    | none => exact worded_throw trivial
    | some e => exact worded_throw (failure e hfailure)

theorem worded_ofNode (failure : ∀ e ∈ s.failure?, e.Worded)
    (h : ∀ inside ∈ inside?, ∀ path node, Composing.Worded (inside path node)) (path : Path)
    (node : Node) : Composing.Worded (ofNode s inside? path node) := by
  cases node with
  | «alias» mark n =>
    unfold ofNode
    refine worded_bind (worded_modify _) fun _ => worded_bind worded_get fun count => ?_
    split
    · exact worded_throw trivial
    · split
      · exact worded_ofBody failure h path _
      · exact worded_throw trivial
  | _ =>
    unfold ofNode
    exact worded_ofBody failure h path _

end Bodies

theorem worded_compose (failure : ∀ e ∈ s.failure?, e.Worded) (depth : Nat) (path : Path)
    (node : Node) : Composing.Worded (compose s depth path node) := by
  induction depth generalizing path node with
  | zero => exact worded_ofNode failure (by rintro _ ⟨⟩) path node
  | succ depth ih =>
    refine worded_ofNode failure ?_ path node
    rintro _ ⟨⟩ path node
    exact ih path node

theorem worded_of_ofDocument {document : Document} (failure : ∀ e ∈ document.failure?, e.Worded)
    {e : Error} (h : ofDocument document = .error e) : e.Worded := by
  unfold ofDocument at h
  split at h
  · cases h
  · rename_i root hroot
    cases hrun : (compose ⟨root.anchored, document.count * 100, document.failure?⟩ maximalDepth
        .root root).run 0 with
    | error e' =>
      have hsame : (Except.error e' : Except Error Value) = .error e := by
        rw [← h]
        exact (congrArg (Functor.map Prod.fst) hrun).symm
      obtain rfl := Except.error.inj hsame
      exact worded_compose failure _ _ _ 0 e' hrun
    | ok result =>
      have hsame : (Except.ok result.1 : Except Error Value) = .error e := by
        rw [← h]
        exact (congrArg (Functor.map Prod.fst) hrun).symm
      cases hsame

/-- **What is said of a text** that has no value. -/
theorem worded_of_read {text : String} {e : Error} (h : read text = .error e) : e.Worded := by
  have failure := Document.worded_ofText text
  unfold read at h
  dsimp only at h
  cases hvalue : ofDocument (Document.ofText text) with
  | error e' =>
    rw [hvalue] at h
    obtain rfl := Except.error.inj h
    exact worded_of_ofDocument failure hvalue
  | ok value =>
    rw [hvalue] at h
    dsimp only [bind, Except.bind] at h
    split at h
    · rename_i found hfound
      obtain rfl := Except.error.inj h
      exact failure _ hfound
    · split at h
      · cases h
      · cases h
      · obtain rfl := Except.error.inj h
        trivial

end Value

end PlaybookStyle.Yaml
