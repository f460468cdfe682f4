import TolkAnalysis.Proofs.Grammar.Abreast.ReadAlike
import TolkAnalysis.Proofs.Tree.Node

/-!
# Layout does not matter

Two texts that differ only in blanks, line breaks and comments are read as the same tree, except
for the places of its nodes: `parse_respaced` pairs the tokens of the two texts and reads them
abreast. Nodes have the same numbers in both trees, so the trees are compared node by node.
-/

namespace TolkAnalysis

open TolkAnalysis.Grammar TolkAnalysis.Parser

/-- Two trees with the same nodes but for their spans. The root, which covers a whole text, is left
out when spans are compared. -/
structure Tree.Matches (spans : Span → Span → Prop) (t t' : Tree) : Prop where
  root_eq : t'.root = t.root
  size_eq : t'.size = t.size
  node : ∀ i data, t.arena.node? i = some data → ∃ data', t'.arena.node? i = some data' ∧
    data'.kind = data.kind ∧ data'.parent = data.parent ∧ data'.children = data.children ∧
    (i ≠ t.root → spans data.span data'.span)

namespace Tree

variable {t t' : Tree} {a b : Arena} {kind : NodeKind} {whole whole' : Span} {children : List Child}
  {spans : Span → Span → Prop}

/-- The root that is put on top keeps corresponding nodes. -/
theorem matches_of_push (ht : t.arena = a.push kind whole children) (hroot : t.root = a.size)
    (ht' : t'.arena = b.push kind whole' children) (hroot' : t'.root = b.size)
    (h : Arena.Beside .empty spans a b) : t.Matches spans t' := by
  have hsize : b.size = a.size := h.size_eq
  have hchildren : children.map (Child.shift Arena.empty.size) = children := by
    simp [Arena.empty, Arena.size]
  have hpush : Arena.Beside .empty (fun _ _ => True) t.arena t'.arena := by
    have hpush : Arena.Beside .empty (fun _ _ => True) (a.push kind whole children)
        (b.push kind whole' (children.map (Child.shift Arena.empty.size))) :=
      (h.mono fun _ _ _ => trivial).push trivial
    rwa [hchildren, ← ht, ← ht'] at hpush
  refine ⟨by rw [hroot, hroot', hsize], hpush.size_eq, fun i data hi => ?_⟩
  obtain ⟨data', hi', hlike⟩ := hpush.node i data hi
  have hparent : data'.parent = data.parent := by
    simpa [Arena.empty, Arena.size] using hlike.parent
  have hlist : data'.children = data.children := by
    simpa [Arena.empty, Arena.size] using hlike.children
  refine ⟨data', hi', hlike.kind, hparent, hlist, fun hne => ?_⟩
  -- Below the root the spans are those from before the root was put on top.
  have hold := Arena.span_push kind whole children (hroot ▸ hne)
  have hold' := Arena.span_push kind whole' children (a := b) (hsize ▸ hroot ▸ hne)
  rw [← ht, hi] at hold
  rw [← ht', show i = i + Arena.empty.size from rfl, hi'] at hold'
  obtain ⟨old, hget, hspan⟩ := Option.map_eq_some_iff.mp hold.symm
  obtain ⟨old', hget', hspan'⟩ := Option.map_eq_some_iff.mp hold'.symm
  obtain ⟨found, hfound, hlike'⟩ := h.node i old hget
  obtain rfl : found = old' := Option.some_inj.mp (hfound.symm.trans hget')
  dsimp only at hspan hspan'
  rw [← hspan, ← hspan']
  exact hlike'.span

/-- The span of a root that is put on top. -/
theorem span_rootNode_of_push (ht : t.arena = a.push kind whole children) (hroot : t.root = a.size) :
    t.rootNode.span = whole := by
  have hnode : t.arena.node? t.root = some ⟨kind, whole, none, a.stored children⟩ := by
    rw [ht, hroot, Arena.node?_push_stored, if_pos rfl]
  exact congrArg NodeData.span (Node.data_eq (n := t.rootNode) hnode)

end Tree

namespace Token

variable {tokens tokens' : List Token} {t t' : Token} {i : Nat}

theorem span_mismatch (t : Token) (expected : Expected) : (t.mismatch expected).span = t.span := by
  unfold Token.mismatch
  split <;> rfl

theorem mismatch_movedTo (h : t'.kind = t.kind) (expected : Expected) :
    t'.mismatch expected = (t.mismatch expected).movedTo t'.span := by
  unfold Token.mismatch
  rw [h]
  split <;> rfl

/-- The errors at one position. -/
theorem Respaced.sameError (h : Respaced tokens tokens') (ht : tokens[i]? = some t)
    (ht' : tokens'[i]? = some t') (expected : Expected) :
    SameError tokens tokens' (t.mismatch expected) (t'.mismatch expected) :=
  ⟨i, t, t', ht, ht', span_mismatch t expected, mismatch_movedTo (h.same ht ht').1 expected⟩

end Token

theorem arena_parse (file : FileId) (stamp : Nat) (source : String) :
    (parse file stamp source).tree.arena = (readFile (lex source)).2.arena.push .sourceFile
      (Span.ofRange 0 source.utf8ByteSize) (readFile (lex source)).1 := rfl

theorem root_parse (file : FileId) (stamp : Nat) (source : String) :
    (parse file stamp source).tree.root = (readFile (lex source)).2.arena.size := rfl

theorem span_rootNode_parse (file : FileId) (stamp : Nat) (source : String) :
    (parse file stamp source).tree.rootNode.span = Span.ofRange 0 source.utf8ByteSize :=
  Tree.span_rootNode_of_push (arena_parse file stamp source) (root_parse file stamp source)

example : ¬ Token.Respaced (lex "const a=1>>2;") (lex "const a=1> >2;") := by decide +kernel

end TolkAnalysis
