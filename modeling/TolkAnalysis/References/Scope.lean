import TolkAnalysis.Decl.View

/-!
# The scope of uses

A declaration inside a function can be used only in a part of its file: a local
variable in its block, a catch variable in its clause, a parameter in its
function. A search for its uses need not look elsewhere. The variables that the
body of a do-while loop declares are seen by the condition as well.
-/

namespace TolkAnalysis

namespace Decl

/-- The block that a local variable belongs to, with the loop around it if its
condition sees the variable. -/
def blockScope? (n : Node) : Option Node := do
  let block ← n.ancestorOfKind? .blockStatement
  match block.parent? with
  | some p => return if p.kind == .doWhileStatement then p else block
  | none => return block

/-- The node outside of which a declaration has no uses. A declaration that other
files can see has none. -/
def useScope? (d : Decl) : Option Node :=
  match d.kind with
  | .localVariable => blockScope? d.node
  | .catchVariable => d.node.parent?.bind (·.child? .catchBody)
  | .parameter | .typeParameter => d.owner?.map (·.node)
  | _ => none

end Decl

end TolkAnalysis
