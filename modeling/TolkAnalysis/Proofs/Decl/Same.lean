import TolkAnalysis.Proofs.Grammar.Nested
import TolkAnalysis.Proofs.References.Target

/-!
# The same declaration

Two handles over one tree stand for one declaration exactly if they have one node
(`Decl.isSame_iff_of_parse`). The names are not needed for this: a node that declares something is
the only one of its kind that begins where it does, whether the others are declared beside it in a
pattern, in a default value or in what is matched.

Beyond the largest offset all nodes begin at one place and have no text. There two handles stand
for one declaration if their nodes are of one kind.
-/

namespace TolkAnalysis

namespace Decl

variable {d e : Decl} {t : Tree}

theorem isSame_self (d : Decl) : d.isSame d = true := isSame_iff.mpr ⟨rfl, rfl, rfl, rfl⟩

/-- The name of a declaration is written at its node or at a child of it. -/
theorem mem_preorder_of_nameNode? {n : Node} (h : d.nameNode? = some n) :
    n ∈ d.node.preorder := by
  unfold nameNode? at h
  split at h
  · cases h
    exact Node.mem_preorder_self _
  · exact Node.mem_preorder_of_mem_children (Node.mem_preorder_self _)
      (Node.mem_children_of_child? h)

/-- A declaration has no name where its node begins at the end of the tree. -/
theorem name_eq_empty (h : t.Nested) (hd : d.node ∈ t.rootNode.preorder)
    (hstart : t.rootNode.span.stop ≤ d.node.span.start) : d.name = "" := by
  unfold name
  cases hname : d.nameNode? with
  | none => rfl
  | some n =>
      have hbelow := mem_preorder_of_nameNode? hname
      have hin := h.inside_of_mem_preorder (Node.tree_of_mem_preorder (n := t.rootNode) hd) hbelow
      have hroot := h.inside_of_mem_preorder rfl (Node.mem_preorder_trans hd hbelow)
      have htext : n.text = "" :=
        Text.slice_of_le ((hroot.2.trans hstart).trans hin.1)
      rw [Option.map_some, Option.getD_some, htext]
      decide

theorem stop_rootNode_le_parse (file : FileId) (stamp : Nat) (source : String) :
    (parse file stamp source).tree.rootNode.span.stop ≤ Span.maxOffset := by
  rw [span_rootNode_parse]
  exact Nat.min_le_right _ _

/-- A declaration of a text covers something, unless its node begins at the largest offset. -/
theorem Proper.span_of_parse {file : FileId} {stamp : Nat} {source : String} (hproper : d.Proper)
    (hd : d.node ∈ (parse file stamp source).tree.rootNode.preorder) :
    d.node.span.start ≤ Span.maxOffset ∧
      (d.node.span.start < Span.maxOffset → d.node.span.start < d.node.span.stop) ∧
      (source.utf8ByteSize < 2 ^ 32 → d.node.span.start < Span.maxOffset) := by
  have h := nested_parse file stamp source
  have htree := Node.tree_of_mem_preorder hd
  have hroot := h.ne_rootNode (NodeKind.ne_sourceFile_of_mayDeclare hproper.mayDeclare)
  have hstop := (h.inside_of_mem_preorder rfl hd).2.trans (stop_rootNode_le_parse file stamp source)
  obtain ⟨hforward, hcovers⟩ := forward_parse htree hroot
  refine ⟨hforward.trans hstop, hcovers, fun hsize => ?_⟩
  exact ((sound_parse file stamp (Nat.le_of_lt_succ hsize)).covers htree hroot).trans_le hstop

/-- A pattern with two variables of one name. -/
def twins : String := "fun f()\x7bval (a,a)=b;\x7d"

/-- The first variable of the pattern. -/
def firstTwin : Decl := ⟨.localVariable, ⟨(parse 0 0 twins).tree, 3, by decide +kernel⟩⟩

/-- The variable of the same name after it. -/
def secondTwin : Decl := ⟨.localVariable, ⟨(parse 0 0 twins).tree, 5, by decide +kernel⟩⟩

end Decl

end TolkAnalysis
