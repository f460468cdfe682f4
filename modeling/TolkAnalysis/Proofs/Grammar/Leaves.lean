import TolkAnalysis.Proofs.Grammar.Item
import TolkAnalysis.Proofs.Grammar.Progress
import TolkAnalysis.Proofs.Grammar.Walk.Item
import TolkAnalysis.Proofs.Grammar.Walk.Words
import TolkAnalysis.Proofs.Tree.Order

/-!
# Names and literals in the tree

Every name and every literal of a source that is read without errors is a leaf of its tree, and the
leaves follow one another in the order of the source. The words `get` before a function and `asm`
before a body in assembly are no names there. The one place where names and literals are lost are
the annotations of an import: they are read, but the import does not list them
(`parse_leaves`).

Two things are put together: where the parser meets no error it reads a name or a literal as a leaf
(`Steps.recorded`), and it leaves no node that it builds without a node above it but those
annotations (`Built.carried`).
-/

namespace TolkAnalysis

open ParserState TolkAnalysis.Parser

namespace Tree

/-- The nodes without children, as they are reached from the root. -/
def leaves (t : Tree) : List Node := t.rootNode.preorder.filter (·.children.isEmpty)

/-- A token stands between the start of an import and its path. -/
def IsBeforePath (t : Tree) (u : Token) : Prop :=
  ∃ m ∈ t.rootNode.preorder, m.kind = .importDirective ∧ ∃ path, m.child? .path = some path ∧
    m.span.start ≤ u.span.start ∧ u.span.start < path.span.start

instance (t : Tree) (u : Token) : Decidable (t.IsBeforePath u) :=
  decidable_of_iff (t.rootNode.preorder.any (fun m => m.kind == .importDirective &&
      (m.child? .path).any fun path =>
        m.span.start ≤ u.span.start && u.span.start < path.span.start) = true) (by
    simp [IsBeforePath, Option.any_eq_true])

/-- A token is a word of the grammar and no name: `get` before a function, or the `asm` that a body
in assembly begins with. -/
def IsWord (t : Tree) (u : Token) (later : List Token) : Prop :=
  u.IsGet later ∨ (u.text = "asm" ∧
    ∃ m ∈ t.rootNode.preorder, m.kind = .asmBody ∧ m.span.start = u.span.start)

instance (t : Tree) (u : Token) (later : List Token) : Decidable (t.IsWord u later) :=
  inferInstanceAs (Decidable ((_ ∧ _) ∨ (_ ∧ ∃ m ∈ t.rootNode.preorder, _)))

end Tree

namespace Node

variable {m n : Node}

/-- What is stored below a node is reached from it. -/
theorem mem_preorder_of_below (htree : m.tree = n.tree) (h : n.tree.arena.Below n.id m.id) :
    m ∈ n.preorder := by
  generalize hj : m.id = j at h
  induction h generalizing m with
  | refl =>
    rw [eq_of_id_eq htree hj]
    exact mem_preorder_self n
  | child _ hstores hc ih =>
    obtain ⟨p, hp, hid, -, -, hchildren⟩ := exists_of_stores hstores
    refine mem_preorder_of_mem_children (ih hp hid) (mem_children_iff.mpr ⟨htree.trans hp.symm, ?_⟩)
    rw [hj, hchildren]
    exact ⟨_, hc⟩

end Node

/-- An import lists nothing but its path. -/
theorem Tree.Shaped.eq_path {t : Tree} {m n path : Node} (h : t.Shaped) (hm : m.tree = t)
    (hkind : m.kind = .importDirective) (hn : n ∈ m.children) (hpath : m.child? .path = some path) :
    n = path := by
  obtain ⟨slot, hslot⟩ := Node.exists_slot_of_mem_children hn
  have hholds := h.holds_of_mem_slots hm hslot
  rw [hkind] at hholds
  obtain ⟨p, hp, rfl, -⟩ := NodeKind.exists_part_of_holds hholds
  obtain rfl := List.mem_singleton.mp hp
  have hfound := h.child?_of_mem_slots hm (hkind ▸ rfl) hslot
  exact Option.some_inj.mp (hfound.symm.trans hpath)

namespace Tree.Sound

variable {t : Tree} {m n : Node} {u : Token}

/-- A leaf is told apart by its span. -/
theorem eq_of_mem_leaves (h : t.Sound) (hm : m ∈ t.leaves) (hn : n ∈ t.leaves)
    (hspan : m.span = n.span) (hcovers : n.span.start < n.span.stop) : m = n := by
  by_contra hne
  let Apart (a b : Node) : Prop := a.span.stop ≤ b.span.start ∨ b.span.stop ≤ a.span.start
  have hsymm : Std.Symm Apart := ⟨fun _ _ hab => hab.symm⟩
  have hpairs : t.leaves.Pairwise Apart := (h.ordered_leaves rfl).imp Or.inl
  have hapart : Apart m n := hpairs.forall hm hn hne
  rcases hapart with hlt | hlt
  · rw [hspan] at hlt
    omega
  · rw [hspan] at hlt
    omega

/-- A node below a leaf is the leaf. -/
theorem eq_of_mem_preorder_leaf (hm : m ∈ t.leaves) (hn : n ∈ m.preorder) : n = m := by
  have hempty := List.isEmpty_iff.mp (List.mem_filter.mp hm).2
  rcases Node.mem_preorder_iff.mp hn with rfl | ⟨c, hc, -⟩
  · rfl
  · rw [hempty] at hc
    cases hc

/-- What an import has aside stands before its path. -/
theorem isBeforePath_of_aside (h : t.Sound) (hm : m ∈ t.rootNode.preorder) {i : Nat} {inner : Span}
    (haside : t.arena.Aside m.id i) (hinner : t.arena.Spans i inner)
    (hstart : inner.start = u.span.start) (hcovers : inner.start < inner.stop) :
    t.IsBeforePath u := by
  obtain ⟨span, children, path, pathSpan, inner', himport, hmem, ⟨_, _, hpath⟩, hinner', hle, hle'⟩ :=
    haside
  obtain rfl := hinner.eq hinner'
  have hmtree : m.tree = t := Node.tree_of_mem_preorder hm
  obtain ⟨hkind, hspan, hchildren⟩ := (hmtree ▸ m.stores).eq himport
  obtain ⟨p, hptree, hpid, -, hpspan, -⟩ := Node.exists_of_stores hpath
  have hslot : (some Field.path, p) ∈ m.slots := by
    rw [Node.mem_slots_iff, hptree, hmtree, hchildren, hpid]
    exact ⟨rfl, hmem⟩
  refine ⟨m, hm, hkind, p, h.shaped.child?_of_mem_slots hmtree (hkind ▸ rfl) hslot, ?_⟩
  rw [hspan, hpspan]
  omega

/-- No leaf stands between the start of an import and its path. -/
theorem span_ne_of_isBeforePath (h : t.Sound) (hu : t.IsBeforePath u)
    (hcovers : u.span.start < u.span.stop) (hn : n ∈ t.leaves) : n.span ≠ u.span := by
  intro hspan
  obtain ⟨m, hm, hkind, path, hpath, hle, hlt⟩ := hu
  have hmtree : m.tree = t := Node.tree_of_mem_preorder hm
  have hchild := Node.mem_children_of_mem_slots (Node.mem_slots_of_child? hpath)
  have hptree := (Node.tree_of_mem_children hchild).trans hmtree
  have hinside := (h.child hmtree hchild).2
  have hpcovers := h.covers hptree
    (h.shaped.ne_rootNode_of_mem_preorder hmtree hchild (Node.mem_preorder_self _))
  rw [← hspan] at hle hlt hcovers
  rcases h.nested.below_or_apart rfl (List.mem_filter.mp hn).1 hm with hbelow | habove | hapart | hapart
  · rcases Node.mem_preorder_iff.mp hbelow with rfl | ⟨c, hc, hnc⟩
    · rw [List.isEmpty_iff.mp (List.mem_filter.mp hn).2] at hchild
      cases hchild
    · obtain rfl := h.shaped.eq_path hmtree hkind hc hpath
      have hbehind := h.nested.inside_of_mem_preorder hptree hnc
      omega
  · obtain rfl := eq_of_mem_preorder_leaf hn habove
    rw [List.isEmpty_iff.mp (List.mem_filter.mp hn).2] at hchild
    cases hchild
  · omega
  · omega

end Tree.Sound

namespace Grammar

variable {ts : List Token} {e : Token}

/-- The declarations of a file carry every node that is built. -/
theorem readFile_carries {text : String} (hend : e.kind = .endOfFile)
    (hkinds : ∀ t ∈ ts, t.kind ≠ .endOfFile) (hlaid : Token.Laid text 0 (ts ++ [e])) {i : Nat}
    (hi : i < (readFile (ts ++ [e])).2.arena.size) :
    ∃ c ∈ (readFile (ts ++ [e])).1, (readFile (ts ++ [e])).2.arena.Carries c.node i := by
  obtain ⟨s, hrun, -, harena, -⟩ := (progress hend hkinds).file (le_refl (ts ++ [e]).length)
  have hpos : 0 < (ts ++ [e]).length := by simp
  have hbuilt := yields_fileItems (parsesAll_grammar text (ts ++ [e]).length) hpos _
    (sound_initialState hlaid)
  unfold Runs at hbuilt
  rw [hrun] at hbuilt
  rw [← harena] at hi ⊢
  exact hbuilt.carried i (Nat.zero_le i) hi

/-- A file is read by the steps of the parser. -/
theorem exists_steps_readFile (hend : e.kind = .endOfFile)
    (hkinds : ∀ t ∈ ts, t.kind ≠ .endOfFile) :
    ∃ s, Steps (ts ++ [e]) .file (initialState (ts ++ [e])) s ∧ s.rest = [e] ∧
      s.arena = (readFile (ts ++ [e])).2.arena ∧ s.errors = (readFile (ts ++ [e])).2.errors := by
  have hrounds : (ts ++ [e]).length < ts.length + 2 := by simp
  obtain ⟨items, s, hitems, hrest, -, -, harena, herrors⟩ :=
    readFile_wide hend hkinds (Nat.lt_add_of_pos_right Nat.two_pos) ts.length.lt_succ_self
  have hwalks := walks_fileItems (walksAll_wideParser hrounds (ts.length + 1)) hrounds
    (ts.length + 2) (initialState (ts ++ [e])) (List.suffix_refl _)
  unfold Runs at hwalks
  rw [hitems] at hwalks
  exact ⟨s, hwalks, hrest, harena.symm, herrors.symm⟩

/-- Every name and literal of a file without errors is recorded. -/
theorem readFile_records (hend : e.kind = .endOfFile) (hkinds : ∀ t ∈ ts, t.kind ≠ .endOfFile)
    (hok : (readFile (ts ++ [e])).2.errors = #[]) {before later : List Token} {u : Token}
    (hu : ts ++ [e] = before ++ u :: later) (hkind : u.kind.isNameOrLiteral = true) :
    (readFile (ts ++ [e])).2.arena.Records u later := by
  obtain ⟨s, hsteps, hrest, harena, herrors⟩ := exists_steps_readFile hend hkinds
  have hsuffix : u :: later <:+ ts ++ [e] := hu ▸ List.suffix_append before _
  have hread : s.rest <:+ later := by
    rw [hrest]
    refine (suffix_of_suffix_cons hsuffix (List.suffix_append ts [e])).resolve_right fun hlast => ?_
    -- The last token ends the file.
    have hue : u = e := List.mem_singleton.mp (hlast.subset List.mem_cons_self)
    rw [hue, hend] at hkind
    cases hkind
  rw [← harena]
  refine hsteps.recorded ?_ hsuffix hread hkind
  rw [herrors, hok]
  rfl

end Grammar

variable {t : Tree} {u : Token} {later : List Token}

/-- A node that begins where a token does is reached from the root, unless the token stands before
the path of an import. -/
theorem Tree.Sound.mem_preorder_of_carries (h : t.Sound)
    (hcarries : ∀ i < t.arena.size, t.arena.Carries t.root i) (hbefore : ¬ t.IsBeforePath u)
    {n : Node} (hn : n.tree = t) (hstart : n.span.start = u.span.start)
    (hcovers : n.span.start < n.span.stop) : n ∈ t.rootNode.preorder := by
  obtain ⟨k, hk, rfl | haside⟩ := hcarries n.id (hn ▸ n.id_lt)
  · exact Node.mem_preorder_of_below hn hk
  · have hm : (⟨t, k, hk.lt⟩ : Node) ∈ t.rootNode.preorder := Node.mem_preorder_of_below rfl hk
    have hinner : t.arena.Spans n.id n.span := ⟨_, _, hn ▸ n.stores⟩
    exact absurd (h.isBeforePath_of_aside hm haside hinner hstart hcovers) hbefore

/-- A token that is recorded has a leaf, unless it is a word of the grammar or stands before the path
of an import. -/
theorem Tree.Sound.exists_leaf_of_records (h : t.Sound)
    (hcarries : ∀ i < t.arena.size, t.arena.Carries t.root i) (hrecords : t.arena.Records u later)
    (hcovers : u.span.start < u.span.stop) (hword : ¬ t.IsWord u later)
    (hbefore : ¬ t.IsBeforePath u) : ∃ n ∈ t.leaves, n.span = u.span := by
  cases hrecords with
  | get hget => exact absurd (.inl hget) hword
  | asm htext hstores =>
    obtain ⟨n, hn, -, hkind, hspan, -⟩ := Node.exists_of_stores hstores
    have hroot : n ≠ t.rootNode := h.shaped.ne_rootNode (by simp [hkind])
    have hmem := h.mem_preorder_of_carries hcarries hbefore hn (by rw [hspan]) (h.covers hn hroot)
    exact absurd (.inr ⟨htext, n, hmem, hkind, by rw [hspan]⟩) hword
  | leaf hstores =>
    obtain ⟨n, hn, -, -, hspan, hchildren⟩ := Node.exists_of_stores hstores
    have hmem := h.mem_preorder_of_carries hcarries hbefore hn (by rw [hspan]) (by rwa [hspan])
    have hempty : n.children = [] := by
      rw [Node.children, Node.slots, List.map_eq_nil_iff, List.map_eq_nil_iff,
        List.attach_eq_nil_iff, hchildren]
    exact ⟨n, List.mem_filter.mpr ⟨hmem, List.isEmpty_iff.mpr hempty⟩, hspan⟩

/-- Every stored node of a tree that is read is carried by its root. -/
theorem carries_parse (file : FileId) (stamp : Nat) {source : String}
    (hsize : source.utf8ByteSize < 2 ^ 32) :
    ∀ i < (parse file stamp source).tree.arena.size,
      (parse file stamp source).tree.arena.Carries (parse file stamp source).tree.root i := by
  obtain ⟨ts, hlex, hlossless⟩ := lex_lossless source hsize
  have hlaid := lex_laid (Nat.le_of_lt_succ hsize)
  obtain ⟨-, hrow, -⟩ := Grammar.readFile_row hlaid
  have hlast : (parse file stamp source).tree.arena.node? (parse file stamp source).tree.root =
      some ⟨.sourceFile, Span.ofRange 0 source.utf8ByteSize, none,
        (Grammar.readFile (lex source)).1⟩ :=
    (Arena.node?_push hrow.lt_size _).trans (if_pos rfl)
  intro i hi
  have hroot : i < (Grammar.readFile (lex source)).2.arena.size ∨
      i = (Grammar.readFile (lex source)).2.arena.size := by
    have hsize : i < (Grammar.readFile (lex source)).2.arena.size + 1 := by
      rwa [← Arena.size_push]
    omega
  rcases hroot with hbefore | rfl
  · rw [hlex] at hbefore hlaid
    obtain ⟨c, hc, hcarries⟩ := Grammar.readFile_carries rfl hlossless.kind_ne hlaid hbefore
    rw [← hlex] at hc hcarries
    exact (hcarries.mono (.push _ _ _ _)).of_child ⟨none, hlast⟩ hc
  · exact .refl hi

/-- Without errors, every name and every literal is a leaf, unless it is a word of the grammar. Only
those before the path of an import are lost. -/
theorem parse_leaves (file : FileId) (stamp : Nat) (source : String)
    (hsize : source.utf8ByteSize < 2 ^ 32) (hok : (parse file stamp source).hasErrors = false) :
    (∀ before u later, lex source = before ++ u :: later → u.kind.isNameOrLiteral = true →
      ¬ (parse file stamp source).tree.IsWord u later →
      (¬ (parse file stamp source).tree.IsBeforePath u →
        ∃! n, n ∈ (parse file stamp source).tree.leaves ∧ n.span = u.span) ∧
      ((parse file stamp source).tree.IsBeforePath u →
        ¬ ∃ n ∈ (parse file stamp source).tree.leaves, n.span = u.span)) ∧
      (parse file stamp source).tree.leaves.Pairwise fun m n => m.span.stop ≤ n.span.start := by
  have hsound := sound_parse file stamp (Nat.le_of_lt_succ hsize)
  obtain ⟨ts, hlex, hlossless⟩ := lex_lossless source hsize
  have herrors : (Grammar.readFile (lex source)).2.errors = #[] := by
    have hempty : (Grammar.readFile (lex source)).2.errors.toList = [] :=
      List.isEmpty_iff.mp (by simpa [ParseOutput.hasErrors, parse] using hok)
    exact Array.toList_eq_nil_iff.mp hempty
  refine ⟨fun before u later hu hkind hword => ?_, hsound.ordered_leaves rfl⟩
  have hcovers : u.span.start < u.span.stop := by
    refine hlossless.nonempty u ?_
    have hmem : u ∈ lex source := by simp [hu]
    rw [hlex, List.mem_append] at hmem
    refine hmem.resolve_right fun hlast => ?_
    rw [List.mem_singleton.mp hlast] at hkind
    cases hkind
  refine ⟨fun hbefore => ?_, fun hbefore ⟨n, hn, hspan⟩ =>
    hsound.span_ne_of_isBeforePath hbefore hcovers hn hspan⟩
  have hrecords : (parse file stamp source).tree.arena.Records u later := by
    rw [hlex] at hu herrors
    have hread := Grammar.readFile_records rfl hlossless.kind_ne herrors hu hkind
    rw [← hlex] at hread
    exact hread.mono (.push _ _ _ _)
  obtain ⟨n, hn, hspan⟩ := hsound.exists_leaf_of_records (carries_parse file stamp hsize) hrecords
    hcovers hword hbefore
  refine ⟨n, ⟨hn, hspan⟩, fun m hm => ?_⟩
  exact hsound.eq_of_mem_leaves hm.1 hn (hm.2.trans hspan.symm) (hspan ▸ hcovers)

/-- A text with an annotation before an import and with words of the grammar that are no names. -/
def annotatedImport : String := "@a import \"b\" fun f() asm \"c\" get fun g()\x7b\x7d"

/-- The annotation of the import is lost, and the name of the function behind it is a leaf. -/
theorem parse_leaves_annotatedImport :
    (¬ ∃ n ∈ (parse 0 0 annotatedImport).tree.leaves, n.span = ⟨1, 2⟩) ∧
      ∃! n, n ∈ (parse 0 0 annotatedImport).tree.leaves ∧ n.span = ⟨18, 19⟩ := by
  obtain ⟨hleaves, -⟩ := parse_leaves 0 0 annotatedImport (by decide) (by decide +kernel)
  have hlost := hleaves ((lex annotatedImport).take 1) ⟨.ident, "a", ⟨1, 2⟩⟩
    ((lex annotatedImport).drop 2) (by decide +kernel) rfl (by decide +kernel)
  have hkept := hleaves ((lex annotatedImport).take 5) ⟨.ident, "f", ⟨18, 19⟩⟩
    ((lex annotatedImport).drop 6) (by decide +kernel) rfl (by decide +kernel)
  exact ⟨hlost.2 (by decide +kernel), hkept.1 (by decide +kernel)⟩

end TolkAnalysis
