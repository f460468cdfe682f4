import TolkAnalysis.Proofs.Grammar.Layout
import TolkAnalysis.Proofs.Grammar.Spread
import TolkAnalysis.Proofs.Tree.Place

/-!
# Every tree that is read is nested

A text may be longer than offsets can say. The tokens beyond the largest offset are empty and stand
all at one place then, and so do the nodes that are read from them. The tree is nested nevertheless,
as `nested_parse` says: spread over a text of their own the same tokens are read as a sound tree,
whose nodes reach over the same ranges of tokens, and if one range ends before another one begins
there, it does so wherever the tokens stand in order. For the same reason children are in the order
of the text (`ordered_children_parse`) and no node is reversed (`forward_parse`).
-/

namespace TolkAnalysis

open TolkAnalysis.Grammar

namespace Token

variable {tokens : List Token} {s s' r r' : Span}

/-- The ends of two ranges are in the order that they have where the tokens are spread. -/
theorem SameRange.le_of_spread (hordered : Ordered tokens)
    (hs : SameRange tokens (spread 0 tokens) s s') (hr : SameRange tokens (spread 0 tokens) r r') :
    (s'.start ≤ r'.start → s.start ≤ r.start) ∧ (s'.stop ≤ r'.stop → s.stop ≤ r.stop) ∧
      (s'.stop ≤ r'.start → s.stop ≤ r.start) := by
  obtain ⟨i, j, first, last, first', last', -, hi, hj, hi', hj', rfl, rfl⟩ := hs
  obtain ⟨k, l, opening, closing, opening', closing', -, hk, hl, hk', hl', rfl, rfl⟩ := hr
  have hfirst := getElem?_spread hi'
  have hlast := getElem?_spread hj'
  have hopening := getElem?_spread hk'
  have hclosing := getElem?_spread hl'
  dsimp only
  refine ⟨fun hle => ?_, fun hle => ?_, fun hle => ?_⟩
  · exact (hordered.le (show i ≤ k by omega) hi hk).1
  · exact (hordered.le (show j ≤ l by omega) hj hl).2.1
  · exact hordered.apart (show j < k by omega) hj hk

end Token

namespace Tree

variable {t t' : Tree} {spans : Span → Span → Prop} {n c : Node}

namespace Matches

/-- The corresponding node. -/
theorem exists_node (h : t.Matches spans t') (hn : n.tree = t) :
    ∃ n' : Node, n'.tree = t' ∧ n'.id = n.id ∧ n'.kind = n.kind ∧
      n'.data.parent = n.data.parent ∧ n'.data.children = n.data.children ∧
      (n.id ≠ t.root → spans n.span n'.span) := by
  subst hn
  obtain ⟨data', hnode, hkind, hparent, hchildren, hspan⟩ := h.node n.id n.data n.node?_id
  have hlt : n.id < t'.arena.size := Arena.lt_of_node? hnode
  obtain rfl : (⟨t', n.id, hlt⟩ : Node).data = data' := Node.data_eq hnode
  exact ⟨⟨t', n.id, hlt⟩, rfl, rfl, hkind, hparent, hchildren, hspan⟩

/-- The roots correspond. -/
theorem rootNode (h : t.Matches spans t') : t'.rootNode.kind = t.rootNode.kind ∧
    t'.rootNode.data.parent = t.rootNode.data.parent := by
  obtain ⟨r', hr', hid, hkind, hparent, -⟩ := h.exists_node (n := t.rootNode) rfl
  obtain rfl : r' = t'.rootNode := Node.eq_of_id_eq hr' (hid.trans h.root_eq.symm)
  exact ⟨hkind, hparent⟩

/-- The root stands last, so no child is the root. -/
theorem ne_root (h : t.Matches spans t') (hlast : t'.root + 1 = t'.size) (hn : n.tree = t)
    (hc : c ∈ n.children) : c.id ≠ t.root := by
  have hlt := Node.id_lt_of_mem_children hc
  have hbound := n.id_lt
  rw [hn] at hbound
  rw [h.root_eq, h.size_eq, Tree.size] at hlast
  omega

/-- Below the corresponding node stands a node that corresponds to a child. -/
theorem exists_child (h : t.Matches spans t') (hlast : t'.root + 1 = t'.size) (hn : n.tree = t)
    (hc : c ∈ n.children) : ∃ n' c' : Node, n'.tree = t' ∧ c' ∈ n'.children ∧ n'.id = n.id ∧
      c'.id = c.id ∧ c'.data.parent = c.data.parent ∧ (n.id ≠ t.root → spans n.span n'.span) ∧
      spans c.span c'.span := by
  obtain ⟨hctree, slot, hslot⟩ := Node.mem_children_iff.mp hc
  obtain ⟨n', hn', hid, -, -, hchildren, hspan⟩ := h.exists_node hn
  obtain ⟨c', hc', hcid, -, hcparent, -, hcspan⟩ := h.exists_node (hctree.trans hn)
  refine ⟨n', c', hn', Node.mem_children_iff.mpr ⟨hc'.trans hn'.symm, slot, ?_⟩, hid, hcid,
    hcparent, hspan, hcspan (h.ne_root hlast hn hc)⟩
  rw [hchildren, hcid]
  exact hslot

theorem entries_eq (h : t.Matches spans t') {children : List Child}
    (hlt : ∀ c ∈ children, c.node < t.arena.size) :
    t'.arena.entries children = t.arena.entries children := by
  refine List.map_congr_left fun c hc => ?_
  obtain ⟨data, hdata⟩ := Arena.exists_node? (hlt c hc)
  obtain ⟨data', hdata', hkind, -⟩ := h.node c.node data hdata
  rw [hdata, hdata']
  exact congrArg (c.field, ·) hkind

/-- A tree has the shape of the trees with the same nodes. -/
theorem shaped (h : t.Matches spans t') (hshaped : t'.Shaped) : t.Shaped where
  last := by
    rw [← h.root_eq, ← h.size_eq]
    exact hshaped.last
  parent?_rootNode := by
    refine Node.parent?_eq_none ?_
    rw [← h.rootNode.2, ← Node.map_id_parent?, hshaped.parent?_rootNode]
    rfl
  kind_rootNode := h.rootNode.1.symm.trans hshaped.kind_rootNode
  parent?_child {n c} hn hc := by
    obtain ⟨n', c', hn', hc', hid, -, hparent, -⟩ := h.exists_child hshaped.last hn hc
    refine Node.parent?_eq_some (Node.tree_of_mem_children hc) ?_
    rw [← hparent, ← Node.map_id_parent?, hshaped.parent?_child hn' hc', ← hid]
    rfl
  nodup_children {n} hn := by
    obtain ⟨n', hn', -, -, -, hchildren, -⟩ := h.exists_node hn
    rw [Node.nodup_children_iff, ← hchildren, ← Node.nodup_children_iff]
    exact hshaped.nodup_children hn'
  fits_children {n} hn := by
    obtain ⟨n', hn', -, hkind, -, hchildren, -⟩ := h.exists_node hn
    have hfits := hshaped.fits_children hn'
    rw [hkind, hchildren, h.entries_eq] at hfits
    · exact hfits
    · subst hn
      exact fun c hc => Nat.lt_trans (n.placed_data.child_lt c hc) n.id_lt

/-- A tree is nested if it has the nodes of a nested tree, and their ends are in the same order. -/
theorem nested (h : t.Matches spans t') (hnested : t'.Nested)
    (horder : ∀ {s s' r r' : Span}, spans s s' → spans r r' →
      (s'.start ≤ r'.start → s.start ≤ r.start) ∧ (s'.stop ≤ r'.stop → s.stop ≤ r.stop) ∧
        (s'.stop ≤ r'.start → s.stop ≤ r.start))
    (hroot : ∀ {s s' : Span}, spans s s' →
      t.rootNode.span.start ≤ s.start ∧ s.stop ≤ t.rootNode.span.stop) : t.Nested where
  toShaped := h.shaped hnested.toShaped
  inside {n c} hn hc := by
    obtain ⟨n', c', hn', hc', -, -, -, hspan, hcspan⟩ := h.exists_child hnested.last hn hc
    have hinside := hnested.inside hn' hc'
    by_cases hid : n.id = t.root
    · obtain rfl : n = t.rootNode := Node.eq_of_id_eq hn hid
      exact hroot hcspan
    · exact ⟨(horder (hspan hid) hcspan).1 hinside.1, (horder hcspan (hspan hid)).2.1 hinside.2⟩
  apart {n c d} hn hc hd hne := by
    obtain ⟨n', c', hn', hc', hid, hcid, -, -, hcspan⟩ := h.exists_child hnested.last hn hc
    obtain ⟨n'', d', hn'', hd', hid', hdid, -, -, hdspan⟩ := h.exists_child hnested.last hn hd
    obtain rfl : n' = n'' := Node.eq_of_id_eq (hn'.trans hn''.symm) (hid.trans hid'.symm)
    have hne' : c' ≠ d' := by
      rintro rfl
      have htree := (Node.tree_of_mem_children hc).trans (Node.tree_of_mem_children hd).symm
      exact hne (Node.eq_of_id_eq htree (hcid.symm.trans hdid))
    exact (hnested.apart hn' hc' hd' hne').imp (horder hcspan hdspan).2.2 (horder hdspan hcspan).2.2

/-- The children of a node stand one after the other if those of the corresponding node do. -/
theorem ordered_children (h : t.Matches spans t') (hsound : t'.Sound)
    (horder : ∀ {s s' r r' : Span}, spans s s' → spans r r' → s'.stop ≤ r'.start → s.stop ≤ r.start)
    (hn : n.tree = t) : n.children.Pairwise fun c d => c.span.stop ≤ d.span.start := by
  obtain ⟨n', hn', -, -, -, hchildren, -⟩ := h.exists_node hn
  have hids : n'.children.map (·.id) = n.children.map (·.id) := by
    rw [Node.map_id_children, Node.map_id_children, hchildren]
  have hlength : n'.children.length = n.children.length := by simpa using congrArg List.length hids
  have hspans : ∀ i (hi : i < n.children.length) (hi' : i < n'.children.length),
      spans n.children[i].span n'.children[i].span := by
    intro i hi hi'
    have hc := List.getElem_mem hi
    have hid : n'.children[i].id = n.children[i].id := by
      simpa [hi, hi'] using congrArg (fun ids : List Nat => ids[i]?) hids
    obtain ⟨c', hc', hcid, -, -, -, hspan⟩ := h.exists_node ((Node.tree_of_mem_children hc).trans hn)
    have htree := (Node.tree_of_mem_children (List.getElem_mem hi')).trans hn'
    obtain rfl : c' = n'.children[i] := Node.eq_of_id_eq (hc'.trans htree.symm) (hcid.trans hid.symm)
    exact hspan (h.ne_root hsound.last hn hc)
  rw [List.pairwise_iff_getElem]
  intro i j hi hj hij
  exact horder (hspans i hi (hlength ▸ hi)) (hspans j hj (hlength ▸ hj))
    (List.pairwise_iff_getElem.mp (hsound.ordered_children hn') i j _ _ hij)

end Matches

end Tree

/-- The tokens of a text are read as a sound tree where they are spread, and its nodes reach over
the same ranges of tokens. -/
theorem exists_matches_spread (file : FileId) (stamp : Nat) (source : String) :
    ∃ ts stop t', lex source = ts ++ [Token.endOfFile stop] ∧ (∀ t ∈ ts, t.kind ≠ .endOfFile) ∧
      Token.Ordered ts ∧ Tree.Sound t' ∧
      (parse file stamp source).tree.Matches (Token.SameRange ts (Token.spread 0 ts)) t' := by
  obtain ⟨ts, stop, hlex, hkinds, hordered⟩ := exists_lex source
  let text := Token.letters (2 * ts.length)
  let e := Token.endOfFile stop
  let e' : Token := ⟨e.kind, e.text, Span.point text.utf8ByteSize⟩
  have hlaid : Token.Laid text 0 (Token.spread 0 ts ++ [e']) :=
    Token.laid_spread rfl hkinds (Nat.zero_add _).le
  obtain ⟨hsound, hrow, hshape⟩ := readFile_row hlaid
  have hcompares : Pairing.Compares ts (Token.spread 0 ts) e e'
      (Token.SameRange ts (Token.spread 0 ts)) fun _ _ => True :=
    Pairing.compares_of_ordered hordered (Token.ordered_spread 0 ts) fun _ _ _ => trivial
  obtain ⟨hitems, harena, -⟩ :=
    readFile_readAlike (Token.respaced_spread rfl ts e'.span).readAlike rfl hkinds hcompares
  let a := (readFile (Token.spread 0 ts ++ [e'])).2.arena
  let spreadTree : Tree :=
    { file := file
      stamp := stamp
      source := text
      arena := a.push .sourceFile ⟨0, text.utf8ByteSize⟩ (readFile (Token.spread 0 ts ++ [e'])).1
      root := a.size
      root_lt := by simp }
  refine ⟨ts, stop, spreadTree, hlex, hkinds, hordered, Tree.sound_of_push rfl rfl hsound hrow hshape, ?_⟩
  rw [← hlex] at hitems harena
  have hitems' : spreadTree.arena = a.push .sourceFile ⟨0, text.utf8ByteSize⟩
      (readFile (lex source)).1 := by rw [← hitems]
  exact Tree.matches_of_push (arena_parse file stamp source) (root_parse file stamp source) hitems'
    rfl harena

/-- The tree of every text is nested. -/
theorem nested_parse (file : FileId) (stamp : Nat) (source : String) :
    (parse file stamp source).tree.Nested := by
  obtain ⟨ts, stop, t', hlex, -, hordered, hsound, hmatches⟩ := exists_matches_spread file stamp source
  refine hmatches.nested hsound.nested (Token.SameRange.le_of_spread hordered) fun hrange => ?_
  obtain ⟨-, j, -, u, -, -, -, -, hu, -, -, rfl, -⟩ := hrange
  have hmem : u ∈ lex source := hlex ▸ List.mem_append_left _ (List.mem_of_getElem? hu)
  have hstop := Token.stop_le_of_mem_lexFrom 0 source.toList u hmem
  rw [String.ofList_toList, Nat.zero_add] at hstop
  rw [span_rootNode_parse]
  exact ⟨(Nat.zero_min _).le.trans (Nat.zero_le _), hstop⟩

theorem shaped_parse (file : FileId) (stamp : Nat) (source : String) :
    (parse file stamp source).tree.Shaped := (nested_parse file stamp source).toShaped

/-- The children of a node of any text are in the order of the text. -/
theorem ordered_children_parse {file : FileId} {stamp : Nat} {source : String} {n : Node}
    (hn : n.tree = (parse file stamp source).tree) :
    n.children.Pairwise fun c d => c.span.stop ≤ d.span.start := by
  obtain ⟨ts, stop, t', -, -, hordered, hsound, hmatches⟩ := exists_matches_spread file stamp source
  exact hmatches.ordered_children hsound
    (fun hs hr => (Token.SameRange.le_of_spread hordered hs hr).2.2) hn

/-- A node of any text ends where it begins or behind, and covers something if it begins before the
largest offset. -/
theorem forward_parse {file : FileId} {stamp : Nat} {source : String} {n : Node}
    (hn : n.tree = (parse file stamp source).tree)
    (hroot : n ≠ (parse file stamp source).tree.rootNode) :
    n.span.start ≤ n.span.stop ∧
      (n.span.start < Span.maxOffset → n.span.start < n.span.stop) := by
  obtain ⟨ts, stop, t', hlex, hkinds, hordered, -, hmatches⟩ := exists_matches_spread file stamp source
  obtain ⟨n', -, -, -, -, -, hspan⟩ := hmatches.exists_node hn
  obtain ⟨i, j, first, last, -, -, hij, hi, hj, -, -, heq, -⟩ :=
    hspan fun hid => hroot (Node.eq_of_id_eq hn hid)
  rw [heq]
  refine ⟨(hordered.le hij hi hj).2.2, fun hstart => ?_⟩
  have hfirst := List.mem_of_getElem? hi
  have hmem : first ∈ lex source := hlex ▸ List.mem_append_left _ hfirst
  have hcovers := Token.covers_of_mem_lexFrom 0 source.toList first hmem (hkinds first hfirst) hstart
  exact hcovers.trans_le (hordered.le hij hi hj).2.1

end TolkAnalysis
