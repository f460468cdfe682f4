import TolkAnalysis.Proofs.Resolution.Unqualified
import TolkAnalysis.Proofs.Tree.Order
import TolkAnalysis.References.Search

/-!
# The target of a search for references

Two handles that stand for one declaration of the current trees are equal
(`Workspace.Sound.eq_of_isSame`), so a search compares declarations as it should. The name of
a declaration refers to that declaration and to nothing else
(`Resolution.first_of_declaredByName?`), and any other name that finds it is spelled like it,
if it is not declared for a whole family of widths (`Lookup.Finds.spelled`).
-/

namespace TolkAnalysis

namespace Decl

variable {d e : Decl} {n p : Node}

theorem isSame_iff : d.isSame e = true ↔ d.file = e.file ∧ d.node.kind = e.node.kind ∧
    d.node.span.start = e.node.span.start ∧ d.name = e.name := by
  simp [isSame, and_assoc]

theorem Proper.of_kindOf? (h : kindOf? d.node = some d.kind) : d.Proper :=
  .inl (by rw [ofNode?, h]; rfl)

theorem Proper.mayDeclare (h : d.Proper) : d.node.kind.mayDeclare = true := by
  rcases h with h | h
  · obtain ⟨kind, hkind, -⟩ := Option.map_eq_some_iff.mp h
    unfold kindOf? at hkind
    split at hkind <;> first
      | cases hkind; done
      | (rename_i hnode; rw [hnode]; rfl)
  · rw [isImplicitTypeParameter, Bool.and_eq_true, beq_iff_eq, beq_iff_eq] at h
    rw [h.2]
    rfl

/-- A node stands for one declaration. -/
theorem Proper.eq_of_node_eq (hd : d.Proper) (he : e.Proper) (hnode : d.node = e.node) : d = e := by
  have implicit : ∀ {d e : Decl}, d.node = e.node → ofNode? d.node = some d →
      e.isImplicitTypeParameter = true → False := by
    intro d e hnode hd he
    rw [isImplicitTypeParameter, Bool.and_eq_true, beq_iff_eq, beq_iff_eq] at he
    rw [ofNode?, kindOf?, hnode, he.2] at hd
    cases hd
  rcases hd with hd | hd <;> rcases he with he | he
  · rw [hnode, he] at hd
    exact (Option.some_inj.mp hd).symm
  · exact (implicit hnode hd he).elim
  · exact (implicit hnode.symm he hd).elim
  · rw [isImplicitTypeParameter, Bool.and_eq_true, beq_iff_eq] at hd he
    obtain ⟨kind, node⟩ := d
    obtain ⟨kind', node'⟩ := e
    cases hnode
    cases hd.1
    cases he.1
    rfl

/-- A declaration that is itself a name has that name. -/
theorem Proper.nameNode?_of_isReferenceLike (h : d.Proper)
    (hname : d.node.kind.isReferenceLike = true) : d.nameNode? = some d.node := by
  rcases h.kind_of_node hname with ⟨hkind, -, -⟩ | ⟨hkind, hnode⟩
  · simp [nameNode?, hkind]
  · simp [nameNode?, isImplicitTypeParameter, hkind, hnode]

theorem nameNode?_of_not_isReferenceLike (h : ofNode? p = some d)
    (hname : p.kind.isReferenceLike = false) : d.nameNode? = p.child? .name := by
  obtain ⟨kind, hkind, rfl⟩ := Option.map_eq_some_iff.mp h
  refine if_neg fun hown => ?_
  rw [Bool.or_eq_true, beq_iff_eq, isImplicitTypeParameter, Bool.and_eq_true, beq_iff_eq,
    beq_iff_eq] at hown
  dsimp only at hown
  rcases hown with rfl | ⟨-, hnode⟩
  · unfold kindOf? at hkind
    split at hkind <;> first
      | cases hkind
      | (rename_i hnode; rw [hnode] at hname; cases hname; done)
      | (split at hkind <;> cases hkind)
  · rw [hnode] at hname
    cases hname

/-- The name of a declaration is where the declared name is written. -/
theorem nameNode?_of_declaredByName? {t : Tree} (h : t.Shaped) (hn : n ∈ t.rootNode.preorder)
    (hd : declaredByName? n = some d) : d.nameNode? = some n := by
  unfold declaredByName? at hd
  split at hd
  · rename_i hcatch
    obtain ⟨kind, hkind, rfl⟩ := Option.map_eq_some_iff.mp hd
    rw [Bool.and_eq_true, beq_iff_eq] at hcatch
    rw [kindOf?, hcatch.1] at hkind
    dsimp only at hkind
    rw [if_pos hcatch.2] at hkind
    cases hkind
    rfl
  · split at hd
    · rename_i hslot
      split at hd
      · rename_i p hp
        split at hd
        · cases hd
        · have hmem := h.mem_slots_of_parent? hn hp
          rw [beq_iff_eq.mp hslot] at hmem
          have hptree := (Node.id_lt_of_parent? hp).2.trans (Node.tree_of_mem_preorder hn)
          have hname : p.kind.isReferenceLike = false := by
            refine Bool.eq_false_iff.mpr fun hname => ?_
            have hchild := Node.mem_children_of_mem_slots hmem
            rw [h.children_eq_nil hptree (NodeKind.parts_of_isReferenceLike hname)] at hchild
            cases hchild
          rw [nameNode?_of_not_isReferenceLike hd hname]
          exact h.child?_of_mem_slots hptree (NodeKind.single_name _) hmem
      · cases hd
    · cases hd

end Decl

namespace Workspace

variable {w : Workspace} {d e : Decl}

theorem Knows.tree_eq {n m : Node} (hn : w.Knows n) (hm : w.Knows m) (hfile : n.file = m.file) :
    n.tree = m.tree := by
  obtain ⟨source, hf, htree⟩ := hn
  obtain ⟨source', hf', htree'⟩ := hm
  rw [hfile, hf'] at hf
  cases hf
  exact htree.symm.trans htree'

/-- Two handles that stand for one declaration of the current trees are equal. -/
theorem Sound.eq_of_isSame (h : w.Sound) (hshort : w.HasShortTexts) (hd : w.Reaches d.node)
    (he : w.Reaches e.node) (hproper : d.Proper) (hproper' : e.Proper) (hsame : e.isSame d = true) :
    e = d := by
  obtain ⟨hfile, hkind, hstart, -⟩ := Decl.isSame_iff.mp hsame
  have htree := he.1.tree_eq hd.1 hfile
  exact hproper'.eq_of_node_eq hproper ((hd.1.sound_tree h hshort).eq_of_start_eq (htree ▸ he.2) hd.2
    hkind hproper'.mayDeclare hstart)

end Workspace

/-! ### Names that find the target -/

variable {w : Workspace} {n : Node} {d : Decl}

/-- The name of a declaration refers to that declaration without any question. -/
theorem Resolution.first_of_declaredByName? (hspan : n.span.isEmpty = false)
    (hdecl : Decl.declaredByName? n = some d) (hname : d.nameNode? = some n) :
    Resolution.first w n = pure (some d) := by
  have hfits : (⟨w, n, false⟩ : Lookup).fits (Text.withoutBackticks n.text) d = true := by
    rw [Lookup.fits, Decl.name, hname]
    simp
  have hwanted : (⟨w, n, false⟩ : Lookup).wanted .empty = Text.withoutBackticks n.text := by
    simp [Lookup.wanted, LookupState.searchName?, LookupState.get?, LookupState.empty, Lookup.name]
  have hsearch : Lookup.search ⟨w, n, false⟩ =
      Lookup.offerNamed ⟨w, n, false⟩ (Text.withoutBackticks n.text) d := by
    unfold Lookup.search
    rw [if_neg (by rw [hspan]; exact Bool.false_ne_true)]
    dsimp only
    rw [hdecl]
    dsimp only
    rw [Lookup.offer, hwanted]
  unfold Resolution.first
  rw [hsearch, Lookup.offerNamed, if_pos hfits]
  rfl

/-- The name of an entry of an object literal declares nothing. -/
theorem Resolution.declaredByName?_of_isShorthand (h : isShorthand n = true) :
    Decl.declaredByName? n = none := by
  unfold isShorthand at h
  rw [Bool.and_eq_true, beq_iff_eq, Option.any_eq_true] at h
  obtain ⟨hslot, p, hp, hentry⟩ := h
  rw [Bool.and_eq_true, beq_iff_eq] at hentry
  unfold Decl.declaredByName? Decl.isCatchVariable
  simp [hslot, hp, hentry.1, Decl.ofNode?, Decl.kindOf?]

/-- A name that finds a declaration is spelled like it, unless it names one width of a family
for which the declaration stands. -/
theorem Lookup.Finds.spelled (h : w.Sound) (hn : w.Reaches n) (hname : n.kind.isReferenceLike = true)
    {b : Bool} (hd : (⟨w, n, b⟩ : Lookup).Finds w.Reaches d)
    (hfamily : d.name ∉ sizedTypeFamilies.map Prod.snd) : Text.withoutBackticks n.text = d.name := by
  obtain ⟨wanted, hwants, hfits⟩ := hd.fits
  unfold Lookup.fits at hfits
  rcases Bool.or_eq_true_iff.mp hfits with hself | hfits
  · have hreach := hd.offered.closed h.closed_reaches hn
    have hnode : d.node = n := hreach.1.eq_of_beq hn.1 h hself
    have hown := (h.proper_of_offers hd.offered).nameNode?_of_isReferenceLike
      (by rw [hnode]; exact hname)
    rw [Decl.name, hown, hnode]
    rfl
  · have hwanted : d.name = wanted := beq_iff_eq.mp hfits
    rcases hwants with hwants | hwants
    · exact (hwanted.trans hwants).symm
    · rw [← hwanted] at hwants
      exact absurd (sizedTypeFamily?_mem hwants) hfamily

end TolkAnalysis
