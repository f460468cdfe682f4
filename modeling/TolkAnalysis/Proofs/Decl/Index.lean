import Mathlib.Algebra.BigOperators.Group.List.Basic
import Mathlib.Algebra.GroupWithZero.Nat
import TolkAnalysis.Decl.Index
import TolkAnalysis.Proofs.Grammar.Nested

/-!
# What an index lists

The index of a tree lists under each category the declarations of that category
among the children of the root, in order (`FileIndex.elements_ofTree`). The
positions that are kept for a name stay in step with the groups
(`FileIndex.aligned_ofTree`), so a look-up by name lists those of the
declarations that have the name (`FileIndex.Aligned.byName_eq`).

`FileIndex.lists_parse` puts together what the index of a text says: no declaration
is left out, listed twice or out of order, and both look-ups, the offers to a
function that may refuse and the number of declarations speak of the same lists.
-/

namespace TolkAnalysis

namespace Category

/-- The kind of the nodes that are listed under a category. -/
def kind : Category → NodeKind
  | .functions => .functionDeclaration
  | .getMethods => .getMethodDeclaration
  | .methods => .methodDeclaration
  | .globalVariables => .globalVarDeclaration
  | .constants => .constantDeclaration
  | .structs => .structDeclaration
  | .enums => .enumDeclaration
  | .typeAliases => .typeAliasDeclaration

theorem ofKind?_eq_some_iff {kind : NodeKind} {category : Category} :
    ofKind? kind = some category ↔ kind = category.kind := by
  constructor
  · intro h
    cases kind <;> cases h <;> rfl
  · rintro rfl
    cases category <;> rfl

theorem mem_all (category : Category) : category ∈ all := by cases category <;> decide

theorem nodup_all : all.Nodup := by decide

/-- Every node that belongs under a category declares something. -/
theorem exists_ofNode? {n : Node} {category : Category} (h : n.kind = category.kind) :
    ∃ d, Decl.ofNode? n = some d ∧ d.node = n := by
  obtain ⟨kind, hkind⟩ : ∃ kind, Decl.kindOf? n = some kind := by
    rw [Decl.kindOf?, h]
    cases category <;> exact ⟨_, rfl⟩
  exact ⟨⟨kind, n⟩, by rw [Decl.ofNode?, hkind]; rfl, rfl⟩

end Category

namespace FileIndex

/-- What a node declares under a category. -/
def listedAt? (category : Category) (n : Node) : Option Decl :=
  if Category.ofKind? n.kind = some category then Decl.ofNode? n else none

theorem elements_add (index : FileIndex) (category c : Category) (d : Decl) :
    (index.add c d).elements category =
      if c = category then index.elements category ++ [d] else index.elements category := by
  unfold add elements group
  rw [Std.HashMap.getD_insert]
  by_cases h : c = category
  · subst h
    simp
  · simp [h]

theorem elements_addNode (index : FileIndex) (category : Category) (n : Node) :
    (index.addNode n).elements category =
      index.elements category ++ (listedAt? category n).toList := by
  unfold addNode listedAt?
  cases hc : Category.ofKind? n.kind with
  | none => simp
  | some c =>
      cases hd : Decl.ofNode? n with
      | none => simp
      | some d =>
          dsimp only
          rw [elements_add]
          by_cases h : c = category
          · simp [h]
          · simp [h]

/-- An index lists the declarations of a category in the order of the text. -/
theorem elements_ofTree (t : Tree) (category : Category) :
    (ofTree t).elements category = t.rootNode.children.filterMap (listedAt? category) := by
  have fold : ∀ (nodes : List Node) (index : FileIndex),
      (nodes.foldl addNode index).elements category =
        index.elements category ++ nodes.filterMap (listedAt? category) := by
    intro nodes
    induction nodes with
    | nil => simp
    | cons n nodes ih =>
        intro index
        rw [List.foldl_cons, ih, elements_addNode, List.append_assoc]
        cases hn : listedAt? category n <;> simp [hn]
  refine (fold _ _).trans ?_
  simp [elements, group, empty]

/-! ### The positions of names -/

/-- The positions of the declarations with a given name. -/
def namedAt (name : String) (ds : List Decl) : List Nat :=
  (ds.zipIdx.filter (·.1.name == name)).map Prod.snd

theorem namedAt_append_singleton (name : String) (ds : List Decl) (d : Decl) :
    namedAt name (ds ++ [d]) =
      if d.name = name then namedAt name ds ++ [ds.length] else namedAt name ds := by
  unfold namedAt
  rw [List.zipIdx_append]
  by_cases h : d.name = name <;> simp [h]

/-- What stands at the positions of a name are the declarations with that name. -/
theorem filterMap_namedAt (name : String) (ds : List Decl) :
    (namedAt name ds).filterMap (ds[·]?) = ds.filter (·.name == name) := by
  have hget : ∀ p ∈ ds.zipIdx.filter (·.1.name == name), ds[p.2]? = some p.1 := fun p hp =>
    List.mem_zipIdx_iff_getElem?.mp (List.mem_filter.mp hp).1
  calc
    (namedAt name ds).filterMap (ds[·]?)
    _ = (ds.zipIdx.filter (·.1.name == name)).filterMap fun p => some p.1 := by
        rw [namedAt, List.filterMap_map]
        exact List.filterMap_congr hget
    _ = (ds.zipIdx.map Prod.fst).filter (·.name == name) := by
        rw [List.filterMap_eq_map', List.filter_map]
        rfl
    _ = ds.filter (·.name == name) := by rw [List.zipIdx_map_fst]

/-- The positions of every name are those of the declarations with that name in their group. -/
def Aligned (index : FileIndex) : Prop := ∀ category name,
  (index.positionsOf category name).toList = namedAt name (index.elements category)

theorem aligned_empty (file : FileId) : (empty file).Aligned := by
  intro category name
  simp [positionsOf, elements, group, empty, namedAt]

/-- A declaration comes last in its group, and its position last among those of its name. -/
theorem Aligned.add {index : FileIndex} (h : index.Aligned) (c : Category) (d : Decl) :
    (index.add c d).Aligned := by
  intro category name
  have hpositions : ((index.add c d).positionsOf category name).toList =
      if (c, d.name) = (category, name) then
        namedAt name (index.elements category) ++ [(index.elements category).length]
      else namedAt name (index.elements category) := by
    unfold FileIndex.add positionsOf
    rw [Std.HashMap.getD_insert]
    by_cases hkey : (c, d.name) = (category, name)
    · rw [if_pos (beq_iff_eq.mpr hkey), if_pos hkey]
      obtain ⟨rfl, rfl⟩ := Prod.mk.inj hkey
      rw [Array.toList_push, ← h]
      rfl
    · rw [if_neg (fun hbeq => hkey (beq_iff_eq.mp hbeq)), if_neg hkey]
      exact h category name
  rw [hpositions, elements_add]
  by_cases hcategory : c = category
  · subst hcategory
    rw [if_pos rfl, namedAt_append_singleton]
    simp
  · simp [hcategory]

theorem Aligned.addNode {index : FileIndex} (h : index.Aligned) (n : Node) :
    (index.addNode n).Aligned := by
  unfold FileIndex.addNode
  split
  · exact h.add _ _
  · exact h

theorem aligned_ofTree (t : Tree) : (ofTree t).Aligned := by
  have fold : ∀ (nodes : List Node) (index : FileIndex), index.Aligned →
      (nodes.foldl addNode index).Aligned := by
    intro nodes
    induction nodes with
    | nil => exact fun _ h => h
    | cons n nodes ih => exact fun index h => ih _ (h.addNode n)
  exact fold _ _ (aligned_empty t.file)

theorem Aligned.byName_eq {index : FileIndex} (h : index.Aligned) (category : Category)
    (name : String) :
    index.byName category name = (index.elements category).filter (·.name == name) := by
  rw [← filterMap_namedAt, byName, h]
  exact List.filterMap_congr fun i _ => Array.getElem?_toList.symm

/-- A declaration that is found by category and name is listed under the category. -/
theorem mem_elements_of_mem_byName {t : Tree} {category : Category} {name : String} {d : Decl}
    (h : d ∈ (ofTree t).byName category name) :
    d ∈ (ofTree t).elements category ∧ d.name = name := by
  rw [(aligned_ofTree t).byName_eq] at h
  exact (List.mem_filter.mp h).imp_right beq_iff_eq.mp

/-- What an index lists stands below the root and is what the node declares. -/
theorem exists_of_mem_elements {t : Tree} {category : Category} {d : Decl}
    (h : d ∈ (ofTree t).elements category) :
    d.node ∈ t.rootNode.children ∧ Decl.ofNode? d.node = some d ∧
      Category.ofKind? d.node.kind = some category := by
  rw [elements_ofTree] at h
  obtain ⟨n, hn, hlisted⟩ := List.mem_filterMap.mp h
  unfold listedAt? at hlisted
  split at hlisted
  · rename_i hkind
    obtain ⟨kind, -, rfl⟩ := Option.map_eq_some_iff.mp hlisted
    exact ⟨hn, hlisted, hkind⟩
  · cases hlisted

/-- The nodes that are listed under a category are the children of the root of its kind. -/
theorem map_node_elements (t : Tree) (category : Category) :
    ((ofTree t).elements category).map (·.node) =
      t.rootNode.children.filter (·.kind == category.kind) := by
  rw [elements_ofTree, List.map_filterMap, ← List.filterMap_eq_filter]
  refine List.filterMap_congr fun n _ => ?_
  unfold listedAt? Option.guard
  by_cases h : n.kind = category.kind
  · obtain ⟨d, hd, hnode⟩ := Category.exists_ofNode? h
    rw [if_pos (Category.ofKind?_eq_some_iff.mpr h), if_pos (beq_iff_eq.mpr h), hd]
    exact congrArg some hnode
  · rw [if_neg (mt Category.ofKind?_eq_some_iff.mp h), if_neg (mt beq_iff_eq.mp h)]
    rfl

/-! ### Offers -/

section Offers

variable {σ : Type} (accept : σ → Decl → Bool × σ)

/-- Each declaration of a list is accepted where it is offered after those before it. -/
def AcceptsAll : List Decl → σ → Prop
  | [], _ => True
  | d :: ds, s => (accept s d).1 = true ∧ AcceptsAll ds (accept s d).2

/-- The state after the declarations of a list were offered. -/
def stateAfter (ds : List Decl) (s : σ) : σ := ds.foldl (fun s d => (accept s d).2) s

/-- The answer and the last state where the declarations of a list are offered one by one
up to the first that is refused. A state that collects what is offered ends as the offered
part of the list. -/
def OffersUntilRefused (ds : List Decl) (s : σ) (r : Bool × σ) : Prop :=
  ∃ offered later, ds = offered ++ later ∧ r.2 = stateAfter accept offered s ∧
    (r.1 = true ∧ later = [] ∧ AcceptsAll accept offered s ∨
      r.1 = false ∧ ∃ front d, offered = front ++ [d] ∧ AcceptsAll accept front s ∧
        (accept (stateAfter accept front s) d).1 = false)

theorem offersUntilRefused_offer (ds : List Decl) (s : σ) :
    OffersUntilRefused accept ds s (offer accept ds s) := by
  induction ds generalizing s with
  | nil => exact ⟨[], [], rfl, rfl, .inl ⟨rfl, rfl, trivial⟩⟩
  | cons d ds ih =>
      rw [offer]
      split
      · rename_i s' haccept
        have hstate : (accept s d).2 = s' := congrArg Prod.snd haccept
        have hyes : (accept s d).1 = true := congrArg Prod.fst haccept
        obtain ⟨offered, later, rfl, hlast, hanswer⟩ := ih s'
        refine ⟨d :: offered, later, rfl, ?_, ?_⟩
        · rw [hlast, stateAfter, stateAfter, List.foldl_cons, hstate]
        · rcases hanswer with ⟨htrue, hlater, hall⟩ | ⟨hfalse, front, e, rfl, hall, hno⟩
          · exact .inl ⟨htrue, hlater, hyes, hstate ▸ hall⟩
          · refine .inr ⟨hfalse, d :: front, e, rfl, ⟨hyes, hstate ▸ hall⟩, ?_⟩
            rw [stateAfter, List.foldl_cons, hstate]
            exact hno
      · rename_i s' haccept
        refine ⟨[d], ds, rfl, (congrArg Prod.snd haccept).symm, .inr ⟨rfl, [], d, rfl, trivial, ?_⟩⟩
        exact congrArg Prod.fst haccept

end Offers

/-! ### The number of declarations -/

/-- The number of declarations is the total over all categories. -/
theorem size_eq_sum (index : FileIndex) :
    index.size = (Category.all.map fun c => (index.elements c).length).sum := by
  have hgroup : ∀ p ∈ index.groups.toList, p.2.size = (index.elements p.1).length := by
    intro p hp
    rw [elements, group, Std.HashMap.getD_eq_getD_getElem?,
      Std.HashMap.mem_toList_iff_getElem?_eq_some.mp hp]
    rfl
  have habsent : ∀ c ∉ index.groups, (index.elements c).length = 0 := by
    intro c hc
    rw [elements, group, Std.HashMap.getD_eq_fallback hc]
    rfl
  have hkeys : index.groups.keys.Perm (Category.all.filter (· ∈ index.groups)) :=
    (List.perm_ext_iff_of_nodup Std.HashMap.nodup_keys (Category.nodup_all.filter _)).mpr
      fun c => by simp [Category.mem_all]
  calc
    index.size
    _ = (index.groups.toList.map fun p => p.2.size).sum := by
        rw [size, Std.HashMap.fold_eq_foldl_toList, List.sum_eq_foldl, List.foldl_map]
    _ = (index.groups.keys.map fun c => (index.elements c).length).sum := by
        rw [← Std.HashMap.map_fst_toList_eq_keys, List.map_map]
        exact congrArg List.sum (List.map_congr_left hgroup)
    _ = ((Category.all.filter (· ∈ index.groups)).map fun c => (index.elements c).length).sum :=
        (hkeys.map _).sum_eq
    _ = (Category.all.map fun c => (index.elements c).length).sum := by
        have hrest : ((Category.all.filter (· ∉ index.groups)).map
            fun c => (index.elements c).length).sum = 0 := by
          refine List.sum_eq_zero fun count hcount => ?_
          obtain ⟨c, hc, rfl⟩ := List.mem_map.mp hcount
          exact habsent c (of_decide_eq_true (List.mem_filter.mp hc).2)
        have hsplit := List.sum_map_filter_add_sum_map_filter_not (· ∈ index.groups)
          (fun c => (index.elements c).length) Category.all
        rwa [hrest, Nat.add_zero] at hsplit

/-! ### The index of a text -/

/-- What an index says of the declarations at the top of a tree. -/
structure Lists (index : FileIndex) (t : Tree) : Prop where
  /-- Under a category stand the children of the root of its kind. -/
  nodes (category : Category) : (index.elements category).map (·.node) =
    t.rootNode.children.filter (·.kind == category.kind)
  /-- Each of them stands there as what it declares. -/
  declares {category : Category} {d : Decl} (hd : d ∈ index.elements category) :
    Decl.ofNode? d.node = some d
  /-- None of them stands there twice, or under two categories. -/
  once : ((Category.all.flatMap index.elements).map (·.node)).Nodup
  /-- They stand there in the order of the text. -/
  ordered (category : Category) : (index.elements category).Pairwise fun d e =>
    d.node.span.stop ≤ e.node.span.start
  /-- A look-up by name finds those that have the name, in the same order. -/
  byName (category : Category) (name : String) :
    index.byName category name = (index.elements category).filter (·.name == name)
  /-- They are offered in the same order until one is refused. -/
  process {σ : Type} (category : Category) (accept : σ → Decl → Bool × σ) (s : σ) :
    OffersUntilRefused accept (index.elements category) s (index.process category accept s)
  /-- All of them are counted. -/
  size : index.size = (Category.all.map fun c => (index.elements c).length).sum

theorem lists_parse (file : FileId) (stamp : Nat) (source : String) :
    (ofTree (parse file stamp source).tree).Lists (parse file stamp source).tree where
  nodes := map_node_elements _
  declares hd := (exists_of_mem_elements hd).2.1
  once := by
    rw [List.map_flatMap]
    simp only [map_node_elements]
    refine List.nodup_flatMap.mpr ⟨fun c _ => ?_, ?_⟩
    · exact ((shaped_parse file stamp source).nodup_children rfl).filter _
    · refine Category.nodup_all.imp fun {c c'} hne => List.disjoint_left.mpr fun n hn hn' => hne ?_
      have hkind := beq_iff_eq.mp (List.mem_filter.mp hn).2
      have hkind' := beq_iff_eq.mp (List.mem_filter.mp hn').2
      have hc := Category.ofKind?_eq_some_iff.mpr hkind
      rw [Category.ofKind?_eq_some_iff.mpr hkind'] at hc
      exact (Option.some_inj.mp hc).symm
  ordered category := by
    have hordered : (parse file stamp source).tree.rootNode.children.Pairwise
        fun c d => c.span.stop ≤ d.span.start := ordered_children_parse rfl
    have hlisted := hordered.filter (·.kind == category.kind)
    rw [← map_node_elements] at hlisted
    exact List.pairwise_map.mp hlisted
  byName := (aligned_ofTree _).byName_eq
  process category accept s := offersUntilRefused_offer accept _ s
  size := size_eq_sum _

end FileIndex

end TolkAnalysis
