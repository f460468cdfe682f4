import Mathlib.Data.List.TakeWhile
import TolkAnalysis.Proofs.Resolution.Listing
import TolkAnalysis.Proofs.Session.Workspace
import TolkAnalysis.Proofs.Tree.Place

/-!
# Environments

The environment of a node lists the declarations that are visible at it, nearest first.
`Workspace.environments` builds it from the root of a tree down: the root has the
declarations at the top of the files, and each node adds for each of its children what
it shows to that child (`Workspace.shown`). So an inner scope comes before an outer one
and hides it.

The search for a name goes the other way, from the name outwards, and remembers which
child it came from. `Workspace.environment_eq` shows that it meets the declarations of
the environment in order.
-/

namespace TolkAnalysis

/-- The categories of the declarations that are values. -/
def Category.values : List Category := [.functions, .getMethods, .globalVariables, .constants]

/-- The categories of the declarations that are types. -/
def Category.types : List Category := [.structs, .enums, .typeAliases]

/-- The declarations of a category at the top of a tree, in the order of the text. -/
def Tree.declared (t : Tree) (category : Category) : List Decl :=
  t.rootNode.children.filterMap (FileIndex.listedAt? category)

namespace Workspace

/-- The declarations of some categories at the top of the files that a file can see,
those of the nearest file first. -/
def topLevel (w : Workspace) (categories : List Category) (file : FileId) : List Decl :=
  ((w.searchFiles file).filterMap w.tree?).flatMap fun t => categories.flatMap t.declared

/-- The declarations of a file come before those of the other files that it can see. -/
theorem exists_topLevel_eq {w : Workspace} (categories : List Category) {file : FileId} {t : Tree}
    (htree : w.tree? file = some t) :
    ∃ ds, w.topLevel categories file = categories.flatMap t.declared ++ ds := by
  unfold topLevel searchFiles
  dsimp only
  rw [List.cons_append, List.filterMap_cons, htree]
  exact ⟨_, List.flatMap_cons⟩

/-- The name that a name is looked for under: its family if it ends in a width. -/
def wantedName (n : Node) : String :=
  (sizedTypeFamily? n.text).getD (Text.withoutBackticks n.text)

/-- A name in a receiver introduces a type parameter if no type of that name is visible. -/
def introduces (w : Workspace) (n : Node) : Bool :=
  n.text != "_" && !(w.topLevel Category.types n.file).any (·.name == wantedName n)

/-- The variables that a statement declares for those after it. -/
def statementVariables (n : Node) : List Decl :=
  if n.kind == .localVarsDeclaration then Lookup.declaredVariables n else []

/-- Statements, each with the variables declared before it. -/
def afterStatements (seen : List Decl) : List Node → List (Node × List Decl)
  | [] => []
  | n :: ns => (n, seen) :: afterStatements (seen ++ statementVariables n) ns

/-- What a node other than a block shows to a child in a slot. -/
def shows (w : Workspace) (n : Node) (slot : Option Field) : List Decl :=
  match n.kind with
  | .catchClause => Lookup.catchVariables n
  | .matchExpression =>
      if slot == some .expr then [] else (n.child? .expr).toList.flatMap statementVariables
  | .doWhileStatement =>
      if slot == some .condition then
        (n.child? .body).toList.flatMap fun body => body.children.flatMap statementVariables
      else []
  | .functionDeclaration | .methodDeclaration | .getMethodDeclaration =>
      Lookup.parametersOf n ++ Lookup.typeParametersOf n ++
        Lookup.receiverParameters w.introduces n
  | .structDeclaration | .typeAliasDeclaration => Lookup.typeParametersOf n
  | _ => []

/-- The children of a node, each with the declarations that the node shows to it. A block
shows to a statement what the statements before it declare. -/
def shown (w : Workspace) (n : Node) : List (Node × List Decl) :=
  if n.kind == .blockStatement then afterStatements [] n.children
  else n.slots.map fun s => (s.2, w.shows n s.1)

theorem afterStatements_fst (seen : List Decl) (ns : List Node) :
    (afterStatements seen ns).map Prod.fst = ns := by
  induction ns generalizing seen with
  | nil => rfl
  | cons n ns ih => exact congrArg (n :: ·) (ih _)

theorem shown_fst (w : Workspace) (n : Node) : (w.shown n).map Prod.fst = n.children := by
  unfold shown
  split
  · exact afterStatements_fst [] _
  · rw [List.map_map]
    rfl

theorem mem_children_of_mem_shown {w : Workspace} {n : Node} {c : Node × List Decl}
    (h : c ∈ w.shown n) : c.1 ∈ n.children := by
  rw [← w.shown_fst n]
  exact List.mem_map_of_mem h

/-- A node and what lies below it, each with its environment, where `env` is that of the
node. -/
def environments (w : Workspace) (n : Node) (env : List Decl) : List (Node × List Decl) :=
  (n, env) :: (w.shown n).attach.flatMap fun c => w.environments c.1.1 (c.1.2 ++ env)
termination_by n.id
decreasing_by exact Node.id_lt_of_mem_children (mem_children_of_mem_shown c.2)

/-- The declarations that are visible at a node of a current tree, nearest first. -/
def environment (w : Workspace) (n : Node) : List Decl :=
  match w.tree? n.file with
  | some t =>
      let env := w.topLevel (Category.values ++ Category.types) n.file
      (((w.environments t.rootNode env).find? (·.1 == n)).map (·.2)).getD []
  | none => []

/-- A name may stand for a declaration of that name. Before a dot it does not stand for a
function. -/
def mayName (n : Node) (d : Decl) : Bool :=
  d.name == Text.withoutBackticks n.text &&
    !(n.parent?.any (·.kind == .dotAccess) && (d.kind == .function || d.kind == .getMethod))

/-- The first declaration in the environment of a name that it may stand for. -/
def lookUp (w : Workspace) (n : Node) : Option Decl := (w.environment n).find? (mayName n)

/-- The same for a name that is looked for under another name than it has. -/
def mayNameAs (wanted : String) (n : Node) (d : Decl) : Bool :=
  d.name == wanted &&
    !(n.parent?.any (·.kind == .dotAccess) && (d.kind == .function || d.kind == .getMethod))

/-- The first declaration in the environment of a name that it may stand for if it is looked for
under a given name. -/
def lookUpAs (w : Workspace) (wanted : String) (n : Node) : Option Decl :=
  (w.environment n).find? (mayNameAs wanted n)

theorem lookUp_eq_lookUpAs (w : Workspace) (n : Node) :
    w.lookUp n = w.lookUpAs (Text.withoutBackticks n.text) n := rfl

theorem environments_cons (w : Workspace) (n : Node) (env : List Decl) :
    w.environments n env =
      (n, env) :: (w.shown n).flatMap fun c => w.environments c.1 (c.2 ++ env) := by
  rw [environments, List.flatMap_def, List.flatMap_def, List.attach_map_val (l := w.shown n)
    (f := fun c => w.environments c.1 (c.2 ++ env))]

/-- Every node below a node has one environment. -/
theorem environments_fst (w : Workspace) (n : Node) (env : List Decl) :
    (w.environments n env).map Prod.fst = n.preorder := by
  fun_induction environments w n env with
  | case1 n env ih =>
      have hchildren : (w.shown n).map (fun c => (w.environments c.1 (c.2 ++ env)).map Prod.fst) =
          (w.shown n).map fun c => c.1.preorder :=
        List.map_congr_left fun c hc => ih ⟨c, hc⟩
      rw [← environments, environments_cons, List.map_cons, Node.preorder_eq, ← w.shown_fst n,
        List.map_flatMap, List.flatMap_def, List.flatMap_def, List.map_map, hchildren]
      rfl

/-! ### The search from the name outwards -/

theorem flatMap_statementVariables (ns : List Node) :
    ns.flatMap statementVariables =
      (ns.filter (·.kind == .localVarsDeclaration)).flatMap Lookup.declaredVariables := by
  induction ns with
  | nil => rfl
  | cons n ns ih =>
      rw [List.flatMap_cons, List.filter_cons, ih]
      unfold statementVariables
      cases n.kind == .localVarsDeclaration <;> simp

theorem mem_afterStatements {ns : List Node} {c : Node} {seen ds : List Decl}
    (h : (c, ds) ∈ afterStatements seen ns) (hnodup : ns.Nodup)
    (htree : ∀ n ∈ ns, n.tree = c.tree) :
    ds = seen ++ (ns.takeWhile fun n => !(c == n)).flatMap statementVariables := by
  induction ns generalizing seen with
  | nil => cases h
  | cons n ns ih =>
      rw [List.nodup_cons] at hnodup
      rw [List.forall_mem_cons] at htree
      rcases List.mem_cons.mp h with heq | h
      · cases heq
        rw [List.takeWhile_cons_of_neg (by simp [Node.beq_self]), List.flatMap_nil,
          List.append_nil]
      · have hmem : c ∈ ns := by
          rw [← afterStatements_fst (seen ++ statementVariables n) ns]
          exact List.mem_map_of_mem h
        have hne : (c == n) = false := by
          refine Bool.eq_false_iff.mpr fun heq => hnodup.1 ?_
          rwa [← (Node.beq_iff_eq_of_tree htree.1.symm).mp heq]
        rw [List.takeWhile_cons_of_pos (by simp [hne]), List.flatMap_cons, ← List.append_assoc]
        exact ih h hnodup.2 htree.2

theorem blockVariables_eq (block : Node) (before : Option Node) :
    Lookup.blockVariables block before =
      (block.children.takeWhile fun n => !before.any (· == n)).flatMap statementVariables :=
  (flatMap_statementVariables _).symm

theorem blockVariables_none (block : Node) :
    Lookup.blockVariables block none = block.children.flatMap statementVariables := by
  rw [blockVariables_eq]
  exact congrArg (List.flatMap _) (List.takeWhile_eq_self_iff.mpr fun _ _ => rfl)

theorem scopeDecls_block (introduces : Node → Bool) {block : Node} (inner : Option Node)
    (h : block.kind = .blockStatement) :
    Lookup.scopeDecls introduces block inner = Lookup.blockVariables block inner := by
  simp [Lookup.scopeDecls, Lookup.scopeVariables, h, NodeKind.isFunctionLike]

theorem scopeDecls_eq_shows (w : Workspace) {n : Node} (inner : Option Node)
    (hblock : n.kind ≠ .blockStatement) :
    Lookup.scopeDecls w.introduces n inner = w.shows n (inner.bind (·.slot?)) := by
  unfold shows
  split <;> rename_i hkind <;> unfold Lookup.scopeDecls
  · simp [hkind, NodeKind.isFunctionLike, Lookup.scopeVariables]
  · simp only [hkind, NodeKind.isFunctionLike, Lookup.scopeVariables]
    cases n.child? .expr <;> simp [statementVariables]
  · simp only [hkind, NodeKind.isFunctionLike, Lookup.scopeVariables]
    cases n.child? .body <;> simp [blockVariables_none]
  · simp [hkind, NodeKind.isFunctionLike]
  · simp [hkind, NodeKind.isFunctionLike]
  · simp [hkind, NodeKind.isFunctionLike]
  · simp [hkind, NodeKind.isFunctionLike]
  · simp [hkind, NodeKind.isFunctionLike]
  · rename_i hcatch hmatch hloop hfunction hmethod hget hstruct
    have hlike : n.kind.isFunctionLike = false := by
      unfold NodeKind.isFunctionLike
      split <;> first | rfl | contradiction
    have hvariables : Lookup.scopeVariables n inner = [] := by
      unfold Lookup.scopeVariables
      split <;> first | rfl | contradiction
    rw [hlike, hvariables]
    simp only [Bool.false_eq_true, if_false, Bool.or_eq_true, beq_iff_eq]
    exact if_neg (not_or.mpr ⟨hstruct, hkind⟩)

/-- What a node shows to a child is what the search finds in the scope when it comes from
that child. -/
theorem shown_eq (w : Workspace) {t : Tree} (h : t.Shaped) {n c : Node} (hn : n.tree = t)
    {ds : List Decl} (hc : (c, ds) ∈ w.shown n) :
    ds = Lookup.scopeDecls w.introduces n (some c) := by
  have hmem := mem_children_of_mem_shown hc
  unfold shown at hc
  split at hc
  · rename_i hkind
    rw [scopeDecls_block _ _ (beq_iff_eq.mp hkind), blockVariables_eq]
    refine mem_afterStatements hc (h.nodup_children hn) fun m hm => ?_
    exact (Node.tree_of_mem_children hm).trans (Node.tree_of_mem_children hmem).symm
  · rename_i hkind
    obtain ⟨⟨slot, c'⟩, hs, heq⟩ := List.mem_map.mp hc
    cases heq
    rw [scopeDecls_eq_shows w _ (by simpa using hkind), Option.bind_some,
      h.slot?_of_mem_slots hn hs]

/-- The environment of a node is what the scopes around it show, from the inside out, and
then what the root has. -/
theorem eq_outward_of_mem_environments (w : Workspace) {t : Tree} (h : t.Shaped) {n m : Node}
    (hn : n.tree = t) {top env : List Decl}
    (hm : (m, env) ∈ w.environments n
      (Lookup.outward w.introduces (some n) n.ancestors ++ top)) :
    env = Lookup.outward w.introduces (some m) m.ancestors ++ top := by
  generalize hstart : Lookup.outward w.introduces (some n) n.ancestors ++ top = start at hm
  fun_induction environments w n start with
  | case1 n start ih =>
      rcases List.mem_cons.mp hm with heq | hm
      · cases heq
        exact hstart.symm
      · obtain ⟨⟨⟨c, ds⟩, hc⟩, -, hm⟩ := List.mem_flatMap.mp hm
        have hchild := mem_children_of_mem_shown hc
        refine ih ⟨(c, ds), hc⟩ ((Node.tree_of_mem_children hchild).trans hn) ?_ hm
        dsimp only at hchild ⊢
        rw [h.ancestors_child hn hchild, Lookup.outward, w.shown_eq h hn hc, List.append_assoc,
          hstart]

/-- The environment of a node lists what the search from the node outwards meets. -/
theorem environment_eq (w : Workspace) {n : Node} (h : n.tree.Shaped)
    (htree : w.tree? n.file = some n.tree) (hn : n ∈ n.tree.rootNode.preorder) :
    w.environment n = Lookup.outward w.introduces (some n) n.ancestors ++
      w.topLevel (Category.values ++ Category.types) n.file := by
  unfold environment
  rw [htree]
  dsimp only
  generalize htop : w.topLevel (Category.values ++ Category.types) n.file = top
  have hfst := w.environments_fst n.tree.rootNode top
  obtain ⟨⟨m, env⟩, hmem, hm⟩ := List.mem_map.mp (hfst ▸ hn)
  dsimp only at hm
  subst hm
  have hroot : Lookup.outward w.introduces (some m.tree.rootNode) m.tree.rootNode.ancestors ++
      top = top := by
    rw [h.ancestors_rootNode]
    rfl
  cases hfind : (w.environments m.tree.rootNode top).find? (·.1 == m) with
  | none =>
      have hne := List.find?_eq_none.mp hfind _ hmem
      exact absurd (Node.beq_self m) hne
  | some entry =>
      obtain ⟨k, env'⟩ := entry
      have hk : (k == m) = true := by simpa using List.find?_some hfind
      have hkmem := List.mem_of_find?_eq_some hfind
      have hktree : k ∈ m.tree.rootNode.preorder := hfst ▸ List.mem_map_of_mem hkmem
      have htrees : k.tree = m.tree := Node.tree_of_mem_preorder (n := m.tree.rootNode) hktree
      obtain rfl := (Node.beq_iff_eq_of_tree htrees).mp hk
      rw [← hroot] at hkmem
      exact w.eq_outward_of_mem_environments (n := k.tree.rootNode) h rfl hkmem

end Workspace

end TolkAnalysis
