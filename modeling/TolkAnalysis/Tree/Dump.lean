import TolkAnalysis.Text.Quoted
import TolkAnalysis.Tree.Basic

/-!
# Written trees

A tree is written with one line for each node, indented by its depth: the slot
of the node, its kind, its place and, for a node without children, its text in
quotes.
-/

namespace TolkAnalysis

namespace Node

/-- The line of a node that its parent lists in `slot` at a given depth. -/
def dumpLine (n : Node) (slot : Option Field) (depth : Nat) : String :=
  let indent := String.ofList (List.replicate (2 * depth) ' ')
  let slotLabel := match slot with
    | some f => f.label ++ ": "
    | none => ""
  let leafText := if n.data.children.isEmpty then " " ++ Text.quoted n.text else ""
  indent ++ slotLabel ++ n.kind.name ++ " " ++ n.span.text ++ leafText

/-- The lines of a node and of what lies below it. -/
def dumpLines (n : Node) (slot : Option Field) (depth : Nat) : List String :=
  n.dumpLine slot depth ::
    n.slots.attach.flatMap fun s => s.1.2.dumpLines s.1.1 (depth + 1)
termination_by n.id
decreasing_by exact id_lt_of_mem_slots s.2

end Node

/-- A tree as lines of text. -/
def Tree.dump (t : Tree) : List String := t.rootNode.dumpLines none 0

end TolkAnalysis
