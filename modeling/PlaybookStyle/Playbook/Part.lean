/-
The parts of a playbook that rules look at.

`Part.kind` is what a rule subscribes to. A scalar that is a condition has a kind
of its own, so that rules on values do not meet it unless they ask for it.
-/

import PlaybookStyle.Playbook.Basic

namespace PlaybookStyle.Playbook

inductive PartKind where
  | document
  | play
  | task
  | module
  | role
  | inclusion
  | entry
  | scalar
  /-- A scalar that is a condition. -/
  | condition
deriving DecidableEq, Repr, Inhabited

inductive Part where
  | document (playbook : Playbook)
  | play (play : Play)
  | task (task : Task)
  | module (call : ModuleCall)
  | role (role : Role)
  | inclusion (statement : Include)
  | entry (entry : Entry)
  | scalar (scalar : Scalar)
deriving Repr

namespace Part

instance : Inhabited Part := ⟨.scalar default⟩

def kind : Part → PartKind
  | document _ => .document
  | play _ => .play
  | task _ => .task
  | module _ => .module
  | role _ => .role
  | inclusion _ => .inclusion
  | entry _ => .entry
  | scalar s => if s.context = .condition then .condition else .scalar

/-- Where a part begins; a document begins at the first line. -/
def position : Part → Position
  | document _ => .start
  | play p => p.position
  | task t => t.position
  | module m => m.position
  | role r => r.position
  | inclusion i => i.position
  | entry e => e.position
  | scalar s => s.position

/-- The last line of a part; a document has at least one. -/
def endLine : Part → Nat
  | document p => max p.source.size 1
  | play p => p.endLine
  | task t => t.endLine
  | module m => m.endLine
  | role r => r.endLine
  | inclusion i => i.endLine
  | entry e => e.endLine
  | scalar s => s.endLine

end Part

/-- The part that an element of a task list is. -/
def TaskItem.part : TaskItem → Part
  | .task t => .task t
  | .inclusion i => .inclusion i

/-- The part that a top-level element is. -/
def Block.part : Block → Part
  | .play p => .play p
  | .inclusion i => .inclusion i

end PlaybookStyle.Playbook
