import TolkAnalysis.Proofs.Inference.Afresh
import TolkAnalysis.Proofs.Resolution.Member
import TolkAnalysis.Proofs.Resolution.Name
import TolkAnalysis.Proofs.Session.History
import TolkAnalysis.Proofs.Ty.Parameters

/-!
# Types of fields

The type of a field of a generic struct is found in two steps. The look-up of the field's name goes
through options, aliases and applications of the object's type
(`FieldAccess.resolve_member`), and the arguments to put in place are read off that type separately
by `Inference.appliedArguments`. The second step looks behind an option only.

So where the struct applied to the arguments is the object's type or an option of it, the arguments
are put in place and no type parameter of the struct is left. Behind an alias the field is found as
well, but its declared type is given as it is (`Session.Consulted.inferType_field`,
`Session.not_inferType_field_of_alias`).
-/

namespace TolkAnalysis

/-- A name after a dot is looked for among the members of the type of what stands before the dot.
This is such a name whose object has a type that applies a struct to arguments, possibly behind an
option and behind aliases, where the struct has a field with the name and no method comes before its
fields. All types are those that the rules alone find. -/
structure FieldAccess (w : Workspace) (depth : Nat) where
  node : Node
  object : Node
  member : Node
  reaches : w.Reaches node
  kind : node.kind = .dotAccess
  object_eq : node.child? .obj = some object
  member_eq : node.child? .field = some member
  /-- The name is no index. -/
  identifier : member.kind = .identifier
  /-- The object is a value, not a name with its arguments. -/
  value : object.kind ≠ .genericInstantiation
  objectType : Ty
  infer_object : (w.afresh depth).infer object = some (some objectType)
  /-- The struct. -/
  owner : Decl
  ownerName : String
  members : List Ty
  args : List Ty
  applies : objectType.unwrapOption.stripAliases =
    .instantiation (.struct ⟨ownerName, some owner⟩ members) args
  unshadowed : Lookup.Unshadowed (w.afresh depth) ⟨w, member, false⟩ object objectType.unwrapOption
  field : Decl
  field_eq : owner.structFields.find? (·.name == Text.withoutBackticks member.text) = some field
  written : Node
  written_eq : field.writtenType? = some written
  /-- The declared type of the field. -/
  declared : Ty
  infer_written : (w.afresh depth).infer written = some (some declared)

namespace FieldAccess

variable {w : Workspace} {depth : Nat}

/-- The look-up of the name. -/
def lookup (a : FieldAccess w depth) : Lookup := ⟨w, a.member, false⟩

/-- The rules end for the object, so some questions have been asked. -/
theorem exists_depth (a : FieldAccess w depth) : ∃ k, depth = k + 1 := by
  cases depth with
  | zero => cases a.infer_object
  | succ k => exact ⟨k, rfl⟩

theorem reaches_object (a : FieldAccess w depth) (h : w.Sound) : w.Reaches a.object :=
  h.closed_reaches.child? a.reaches a.object_eq

theorem reaches_member (a : FieldAccess w depth) (h : w.Sound) : w.Reaches a.member :=
  h.closed_reaches.child? a.reaches a.member_eq

theorem isExpression_object (a : FieldAccess w depth) (h : w.Sound) :
    a.object.kind.isExpression = true := by
  have hholds := (a.reaches.1.shaped_tree h).holds_of_mem_slots rfl
    (Node.mem_slots_of_child? a.object_eq)
  rw [a.kind] at hholds
  revert hholds
  cases a.object.kind <;> decide

/-- What the object refers to is known, if it is a name. -/
theorem exists_named (a : FieldAccess w depth) (h : w.Sound) :
    ∃ named, Search.Answers (w.afresh depth) (a.lookup.qualifierDecl a.object) named ∧
      ∀ d ∈ named, (w.afresh depth).resolve a.object = some (some d) := by
  obtain ⟨k, rfl⟩ := a.exists_depth
  unfold Lookup.qualifierDecl
  split
  · rename_i hname
    have hkind : a.object.kind = .identifier := by
      have hexpression := a.isExpression_object h
      revert hname hexpression
      cases a.object.kind <;> decide
    have hinfer : (Inference.nodeType ⟨w⟩ a.object).run.eval? (w.afresh k) = _ := a.infer_object
    unfold Inference.nodeType at hinfer
    rw [hkind] at hinfer
    obtain ⟨named, hnamed, -⟩ := Option.bind_eq_some_iff.mp hinfer
    have hresolve := w.resolve_afresh_mono (Nat.le_succ k) hnamed
    exact ⟨named, Search.answers_resolve _ hresolve, fun d hd => by rw [hresolve, hd]⟩
  · exact ⟨none, Search.answers_pure none, fun d hd => nomatch hd⟩

/-- The look-up goes to the members of the object's type. -/
theorem search_eq (a : FieldAccess w depth) (h : w.Sound) (hshort : w.HasShortTexts) :
    a.lookup.search = a.lookup.searchQualified a.object := by
  have hsound := a.reaches.1.sound_tree h hshort
  have hchild := Node.mem_slots_of_child? a.member_eq
  have hmem := Node.mem_children_of_child? a.member_eq
  have hslot : a.member.slot? = some .field := hsound.shaped.slot?_of_mem_slots rfl hchild
  have hparent : a.member.parent? = some a.node := hsound.shaped.parent?_child rfl hmem
  have hspan : a.member.span.isEmpty = false := by
    refine hsound.isEmpty_span (Node.tree_of_mem_children hmem) ?_
    rw [a.identifier]
    decide
  have hown : Decl.declaredByName? a.member = none := by
    unfold Decl.declaredByName? Decl.isCatchVariable
    rw [hslot]
    simp
  have hqualifier : a.lookup.qualifier? = some a.object := by
    simp [Lookup.qualifier?, lookup, hslot, hparent, a.kind, a.object_eq]
  unfold Lookup.search
  rw [show a.lookup.element = a.member from rfl, hspan, hown, hqualifier]
  rfl

theorem isReferenceLike_member (a : FieldAccess w depth) :
    a.member.kind.isReferenceLike = true := by
  rw [a.identifier]
  rfl

theorem one_le_depth (a : FieldAccess w depth) : 1 ≤ depth := by
  obtain ⟨k, rfl⟩ := a.exists_depth
  exact Nat.le_add_left 1 k

/-- A method with another name does not fit. -/
theorem fits_method (a : FieldAccess w depth) (h : w.Sound) {kind : DeclKind} {m : Decl × Node}
    (hm : m ∈ a.lookup.methods kind) (hne : m.1.name ≠ a.lookup.name) :
    a.lookup.fits a.lookup.name m.1 = false :=
  (h.fits_of_mem_methods (a.reaches_member h).1 a.isReferenceLike_member hm _).trans
    (beq_eq_false_iff_ne.mpr hne)

/-- No method on the types before the fields is taken. -/
theorem lists_searchInstanceMethods (a : FieldAccess w depth) (h : w.Sound)
    (hshort : w.HasShortTexts) {u : Ty}
    (hu : u ∈ MemberSource.leading a.objectType.unwrapOption.memberSources) :
    a.lookup.Lists (w.afresh depth) a.lookup.name
      (a.lookup.searchInstanceMethods .empty u) [] := by
  refine Lookup.lists_nil_forM fun m hm => ?_
  obtain ⟨b, hb⟩ := Lookup.exists_answers_receiverMatches (l := a.lookup)
    (fun n hn hkind => h.resolve_of_mem_methods hshort hm hn hkind a.one_le_depth)
    (a.unshadowed.applied m hm) u
  refine Lookup.lists_nil_method Lookup.wanted_empty hb fun htrue => a.fits_method h hm ?_
  exact a.unshadowed.onValues m hm u hu (htrue ▸ hb)

/-- No static method on the type that the object names is taken. -/
theorem lists_searchStaticMethods (a : FieldAccess w depth) (h : w.Sound)
    (hshort : w.HasShortTexts) {d : Decl}
    (hd : (w.afresh depth).resolve a.object = some (some d))
    (hkind : (d.kind == .struct || d.kind == .typeAlias) = true) :
    a.lookup.Lists (w.afresh depth) a.lookup.name
      (a.lookup.searchStaticMethods .empty d.name) [] := by
  refine Lookup.lists_nil_forM fun m hm => ?_
  obtain ⟨b, hb⟩ := Lookup.exists_answers_isReceiverNamed (l := a.lookup)
    (h.resolve_of_mem_methods hshort hm (Node.mem_preorder_self _) · a.one_le_depth) d.name
  refine Lookup.lists_nil_method Lookup.wanted_empty hb fun htrue => a.fits_method h hm ?_
  exact a.unshadowed.onTypes d hd hkind m hm (htrue ▸ hb)

/-- The name refers to the first field of the struct with the name. -/
theorem resolve_member (a : FieldAccess w depth) (h : w.Sound) (hshort : w.HasShortTexts)
    (howner : w.Knows a.owner.node) :
    (w.afresh (depth + 1)).resolve a.member = some (some a.field) := by
  have hknows := (a.reaches_member h).1
  obtain ⟨named, hnamed, hresolve⟩ := a.exists_named h
  have hfield : a.owner.structFields.find? (a.lookup.fits a.lookup.name) = some a.field := by
    rw [← a.field_eq]
    exact List.find?_congr fun d hd =>
      h.fits_of_mem_structFields hknows a.isReferenceLike_member howner hd _
  have hlists := Lookup.lists_searchQualified (l := a.lookup) rfl hnamed
    (fun d hd => a.lists_searchStaticMethods h hshort (hresolve d hd)) a.infer_object a.value
    (fun u => a.lists_searchInstanceMethods h hshort) a.applies hfield
  rw [← a.search_eq h hshort] at hlists
  exact (Lookup.eval?_first hlists).trans (congrArg some hfield)

/-- The rules alone give the access the declared type of the field with the arguments of the
object's type in place. -/
theorem infer_node (a : FieldAccess w depth) (h : w.Sound) (hshort : w.HasShortTexts)
    (howner : w.Knows a.owner.node) :
    (w.afresh (depth + 2)).infer a.node =
      some (some (a.declared.substitute (Inference.appliedArguments a.objectType))) := by
  have hkind : a.field.kind = .field :=
    (Decl.of_mem_structFields (List.mem_of_find?_eq_some a.field_eq)).1
  have hindex : a.member.kind ≠ .numericIndex := by
    rw [a.identifier]
    decide
  change (Inference.nodeType ⟨w⟩ a.node).run.eval? (w.afresh (depth + 1)) = _
  have hdeclared : (Inference.declType ⟨w⟩ a.field).run.eval? (w.afresh (depth + 1)) =
      some (some a.declared) := by
    unfold Inference.declType
    rw [hkind]
    exact Inference.eval?_fieldType a.written_eq
      (w.infer_afresh_mono (Nat.le_succ depth) a.infer_written)
  rw [Inference.nodeType_dotAccess a.kind]
  exact Inference.eval?_memberType a.member_eq hindex (a.resolve_member h hshort howner) hdeclared
    a.object_eq (w.infer_afresh_mono (Nat.le_succ depth) a.infer_object)

/-- The struct applied to the arguments. -/
def applied (a : FieldAccess w depth) : Ty :=
  .instantiation (.struct ⟨a.ownerName, some a.owner⟩ a.members) a.args

/-- The declared type of the field, with each type parameter of the struct replaced by the argument
for it. -/
def substituted (a : FieldAccess w depth) : Ty :=
  a.declared.substitute (.ofList (a.owner.typeParameterNames.zip a.args))

/-- The struct applied to the arguments is what the object's type holds if it is that type, or if
the type is an option of it, possibly behind aliases. -/
theorem unwrapOption_eq_applied (a : FieldAccess w depth)
    (h : a.objectType = a.applied ∨ a.objectType.unwrapAlias = .union [a.applied, .null] ∨
      a.objectType.unwrapAlias = .union [.null, a.applied]) :
    a.objectType.unwrapOption = a.applied := by
  rcases h with h | h | h
  · rw [h]
    rfl
  all_goals
    unfold Ty.unwrapOption
    rw [h]
    rfl

/-- The arguments are put in place if the struct applied to them is the object's type itself or an
option of it, and else, behind an alias, they are not. -/
theorem substitute_appliedArguments (a : FieldAccess w depth) :
    (a.objectType.unwrapOption = a.applied →
      a.declared.substitute (Inference.appliedArguments a.objectType) = a.substituted) ∧
    (a.objectType.unwrapOption ≠ a.applied →
      a.declared.substitute (Inference.appliedArguments a.objectType) = a.declared) := by
  have happlies := a.applies
  constructor
  · intro h
    unfold Inference.appliedArguments
    rw [h]
    rfl
  · intro h
    unfold Inference.appliedArguments
    split
    · rename_i inner args heq
      rw [heq] at happlies
      exact absurd (heq.trans happlies) h
    · exact if_pos rfl

end FieldAccess

namespace Session

variable {s : Session}

/-- Every consulted session gives an access of a field the declared type of the field with what
`Inference.appliedArguments` finds in the object's type put in place. -/
theorem Consulted.inferType_fieldAccess (h : s.Consulted) (hshort : s.workspace.HasShortTexts)
    {requests : List Request} (hknows : ∀ request ∈ requests, s.workspace.Knows request.subject)
    {depth : Nat} (a : FieldAccess s.workspace depth) :
    (inferType a.node (s.after requests)).1 =
      some (a.declared.substitute (Inference.appliedArguments a.objectType)) := by
  have hsound := h.reachable.sound
  have hobject := (a.reaches_object hsound).1
  have howner : s.workspace.Knows a.owner.node := by
    have hmay := h.mayType hobject
    have hin := hmay.anchored _ hsound.closed_knows hobject
    rw [hmay.afresh depth _ a.infer_object] at hin
    have happlied := Ty.hereditary_anchored.stripAliases (hin a.objectType rfl).unwrapOption
    rw [a.applies, Ty.anchored_instantiation, Ty.anchored_struct, Nominal.anchored_some] at happlied
    exact happlied.1.1
  exact (h.answers_after hknows a.reaches.1).2 _ _ (a.infer_node hsound hshort howner)

/-- Let a struct be applied to as many arguments as it has type parameters, all of them without type
parameters. Where the struct applied to them is the object's type itself or an option of it, what is
read from a field has its declared type with each type parameter replaced by its argument, and no
type parameter of the struct is left in it. Where it stands behind an alias, the declared type is
left as it is. -/
theorem Consulted.inferType_field (h : s.Consulted) (hshort : s.workspace.HasShortTexts)
    {requests : List Request} (hknows : ∀ request ∈ requests, s.workspace.Knows request.subject)
    {depth : Nat} (a : FieldAccess s.workspace depth)
    (hlength : a.args.length = a.owner.typeParameterNames.length)
    (hclosed : ∀ t ∈ a.args, t.Closed) :
    (a.objectType.unwrapOption = a.applied →
      (inferType a.node (s.after requests)).1 = some a.substituted ∧
        ∀ name ∈ a.owner.typeParameterNames, name ∉ a.substituted.paramNames) ∧
    (a.objectType.unwrapOption ≠ a.applied →
      (inferType a.node (s.after requests)).1 = some a.declared) := by
  rw [h.inferType_fieldAccess hshort hknows a]
  obtain ⟨hdirect, halias⟩ := a.substitute_appliedArguments
  refine ⟨fun happlied => ⟨congrArg some (hdirect happlied), fun name hname => ?_⟩,
    fun hne => congrArg some (halias hne)⟩
  exact Ty.not_mem_paramNames_substitute hlength.ge hclosed a.declared hname

/-! ### Boxes of integers -/

/-- A text in which a generic struct is applied, once as it is and once behind an alias. -/
def boxText : String :=
  "struct Box<T>{v:T}\ntype Crate=Box<int>\nconst a=(1 as Box<int>).v;\nconst b=(1 as Crate).v;"

/-- The tree of the text. -/
def boxTree : Tree := (parse 0 1 boxText).tree

theorem size_boxTree : boxTree.arena.size = 35 := by decide +kernel

/-- A node of the text. -/
def boxNode (id : Fin 35) : Node := ⟨boxTree, id, by rw [size_boxTree]; exact id.2⟩

/-- The struct. -/
def box : Decl := ⟨.struct, boxNode 8⟩

/-- The type parameter of the struct. -/
def boxParameter : Decl := ⟨.typeParameter, boxNode 2⟩

/-- The field of the struct. -/
def boxField : Decl := ⟨.field, boxNode 6⟩

/-- The alias. -/
def crate : Decl := ⟨.typeAlias, boxNode 14⟩

/-- The session in which the text has been read. -/
def boxes : Session := rereading "" boxText

theorem consulted_boxes : boxes.Consulted :=
  .blank (reachable_rereading _ _) (blank_rereading _ _)

theorem sound_boxes : boxes.workspace.Sound := consulted_boxes.reachable.sound

theorem hasShortTexts_boxes : boxes.workspace.HasShortTexts :=
  hasShortTexts_rereading _ _ (by decide +kernel) (by decide +kernel)

theorem reaches_boxNode (id : Fin 35) : boxes.workspace.Reaches (boxNode id) := by
  refine reaches_rereading _ _ (by decide +kernel) rfl ?_
  revert id
  decide +kernel

theorem eq_boxNode {n : Node} {id : Fin 35} (hn : boxes.workspace.Knows n)
    (h : (n == boxNode id) = true) : n = boxNode id :=
  hn.eq_of_beq (reaches_boxNode id).1 sound_boxes h

theorem eq_decl_of_beq {d target : Decl} (id : Fin 35) (hd : boxes.workspace.Knows d.node)
    (htarget : target.node = boxNode id) (h : (d == target) = true) : d = target := by
  obtain ⟨hkind, hnode⟩ := Bool.and_eq_true_iff.mp h
  cases d
  cases target
  rw [htarget] at hnode
  obtain rfl := beq_iff_eq.mp hkind
  exact congrArg _ ((eq_boxNode hd hnode).trans htarget.symm)

/-- Nodes of the text with some of their children. -/
def boxSlots : List (Fin 35 × Field × Fin 35) :=
  [(6, .typeExpr, 5), (13, .name, 10), (13, .arguments, 12), (14, .underlyingType, 13),
   (20, .name, 17), (20, .arguments, 19), (21, .castedTo, 20), (22, .inner, 21), (24, .obj, 22),
   (24, .field, 23), (29, .castedTo, 28), (30, .inner, 29), (32, .obj, 30), (32, .field, 31)]

/-- Nodes of the text with their kinds. -/
def boxKinds : List (Fin 35 × NodeKind) :=
  [(2, .typeParameter), (5, .typeIdentifier), (10, .typeIdentifier), (11, .typeIdentifier),
   (13, .instantiatedType), (17, .typeIdentifier), (18, .typeIdentifier), (20, .instantiatedType),
   (21, .castAsOperator), (22, .parenthesizedExpression), (23, .identifier), (24, .dotAccess),
   (28, .typeIdentifier), (29, .castAsOperator), (30, .parenthesizedExpression), (31, .identifier),
   (32, .dotAccess)]

-- The parts are computed together, since each computation parses the text again.
/-- The tables are right, and there is no method. -/
theorem boxTree_parts :
    (∀ e ∈ boxSlots, ((boxNode e.1).child? e.2.1).any (· == boxNode e.2.2) = true) ∧
      (∀ e ∈ boxKinds, (boxNode e.1).kind = e.2) ∧
      (boxTree.declared .methods).isEmpty = true := by
  decide +kernel

theorem child?_boxNode : ∀ e ∈ boxSlots, (boxNode e.1).child? e.2.1 = some (boxNode e.2.2) := by
  intro e he
  obtain ⟨c, hc, hbeq⟩ := (Option.any_eq_true ..).mp (boxTree_parts.1 e he)
  rw [hc, eq_boxNode (sound_boxes.closed_knows.child? (reaches_boxNode e.1).1 hc) hbeq]

theorem kind_boxNode : ∀ e ∈ boxKinds, (boxNode e.1).kind = e.2 := boxTree_parts.2.1

/-- Names of types in the text with what they refer to. -/
def boxNames : List (Fin 35 × Decl) := [(5, boxParameter), (10, box), (17, box), (28, crate)]

/-- Each of the names stands alone, is the name of no builtin type, and what the scopes and the file
show for it is what it refers to. -/
theorem boxNames_place : ∀ e ∈ boxNames,
    (boxNode e.1).slot? ≠ some .field ∧
      (boxNode e.1).parent?.any (·.kind == .instanceArgument) = false ∧
      (Decl.declaredByName? (boxNode e.1)).isNone = true ∧ (boxNode e.1).text ≠ "_" ∧
      (boxNode e.1).text ≠ "self" ∧ (Ty.ofName? (boxNode e.1).text).isNone = true ∧
      (⟨boxes.workspace, boxNode e.1, false⟩ : Lookup).forTypes = true ∧
      (⟨boxes.workspace, boxNode e.1, false⟩ : Lookup).isInReceiver = false ∧
      (((⟨boxes.workspace, boxNode e.1, false⟩ : Lookup).shownOutward boxes.workspace.introduces
        none (boxNode e.1 :: (boxNode e.1).ancestors) ++
          Category.types.flatMap (boxNode e.1).tree.declared).find?
            ((⟨boxes.workspace, boxNode e.1, false⟩ : Lookup).fits
              (Workspace.wantedName (boxNode e.1)))).any (· == e.2) = true := by
  decide +kernel

theorem resolve_boxNode : ∀ e ∈ boxNames,
    (boxes.workspace.afresh 2).resolve (boxNode e.1) = some (some e.2) := by
  intro e he
  obtain ⟨hslot, hentry, hown, hblank, -, -, htypes, houtside, hfound⟩ := boxNames_place e he
  have hname : Workspace.Standalone (boxNode e.1) := .of_place hslot hentry
  have hn := reaches_boxNode e.1
  obtain ⟨d, hd, hbeq⟩ := (Option.any_eq_true ..).mp hfound
  have hresolve := sound_boxes.resolve_typeName hasShortTexts_boxes hn hname
    (Option.isNone_iff_eq_none.mp hown) hblank htypes houtside hd
  have hmay := consulted_boxes.mayRefer hn.1
  have hknows : boxes.workspace.Knows d.node :=
    hmay.closed sound_boxes.closed_knows hn.1 d (hmay.afresh 2 _ hresolve)
  obtain ⟨id, htarget⟩ : ∃ id, e.2.node = boxNode id := by
    simp only [boxNames, List.mem_cons, List.not_mem_nil, or_false] at he
    rcases he with rfl | rfl | rfl | rfl <;> exact ⟨_, rfl⟩
  rw [hresolve, eq_decl_of_beq id hknows htarget hbeq]

/-- What is read off the declarations and the lists of arguments of the text. -/
theorem box_parts :
    box.structFields.all (· == boxField) = true ∧ box.typeParameters.all (· == boxNode 2) = true ∧
      box.typeParameterNames = ["T"] ∧ boxParameter.name = "T" ∧
      boxParameter.defaultType?.isNone = true ∧
      (∀ id ∈ ([23, 31] : List (Fin 35)), (box.structFields.find?
        (·.name == Text.withoutBackticks (boxNode id).text)).any (· == boxField) = true) ∧
      crate.isBuiltin = false ∧ crate.typeParameters.isEmpty = true ∧
      (boxNode 12).children.all (· == boxNode 11) = true ∧ (boxNode 12).children.length = 1 ∧
      (boxNode 19).children.all (· == boxNode 18) = true ∧ (boxNode 19).children.length = 1 ∧
      (boxNode 11).text = "int" ∧ (boxNode 18).text = "int" := by
  decide +kernel

/-- There are no methods. -/
theorem not_mem_methods_boxes {element : Node} {kind : DeclKind} {m : Decl × Node} :
    m ∉ (⟨boxes.workspace, element, false⟩ : Lookup).methods kind := by
  intro hm
  obtain ⟨file, index, hindex, hmem, -⟩ := Lookup.exists_index_of_mem_methods hm
  obtain ⟨source, hf, rfl⟩ := Workspace.exists_source_of_index? hindex
  have htree := tree_eq_of_rereading "" boxText (Option.map_eq_some_iff.mpr ⟨source, hf, rfl⟩)
  have hstamp : (parse 0 0 "").tree.size = 1 := by decide +kernel
  have hnone : boxTree.declared .methods = [] := List.isEmpty_iff.mp boxTree_parts.2.2
  rw [sound_boxes.index hf, FileIndex.elements_ofTree, htree, hstamp] at hmem
  have hmem : m.1 ∈ boxTree.declared .methods := hmem
  rw [hnone] at hmem
  cases hmem

/-- The declared type of the field. -/
def boxContent : Ty := .typeParam (Inference.nominalOf boxParameter) none

/-- The struct applied to an integer. -/
def boxed (members : List Ty) : Ty :=
  .instantiation (.struct (Inference.nominalOf box) members) [.int]

/-- The name of a type has the type of what it refers to. -/
theorem infer_boxName {e : Fin 35 × Decl} (he : e ∈ boxNames) {depth : Nat} (hdepth : 2 ≤ depth)
    {t : Option Ty} (ht : (Inference.declType ⟨boxes.workspace⟩ e.2).run.eval?
      (boxes.workspace.afresh depth) = some t) :
    (boxes.workspace.afresh (depth + 1)).infer (boxNode e.1) = some t := by
  obtain ⟨-, -, -, -, hself, hprimitive, htypes, -⟩ := boxNames_place e he
  have hkind : (boxNode e.1).kind = .typeIdentifier :=
    beq_iff_eq.mp (Bool.and_eq_true_iff.mp htypes).1
  rw [Workspace.infer_afresh_succ, Inference.nodeType_typeIdentifier hkind]
  exact (Inference.eval?_namedType hself (Option.isNone_iff_eq_none.mp hprimitive)
    (boxes.workspace.resolve_afresh_mono hdepth (resolve_boxNode e he))).trans ht

theorem eval?_boxParameter (known : Findings) :
    (Inference.declType ⟨boxes.workspace⟩ boxParameter).run.eval? known =
      some (some boxContent) := by
  obtain ⟨-, -, -, -, hdefault, -⟩ := box_parts
  exact Inference.eval?_declType_typeParameter rfl (Option.isNone_iff_eq_none.mp hdefault)

theorem infer_boxContent :
    (boxes.workspace.afresh 3).infer (boxNode 5) = some (some boxContent) :=
  infer_boxName (e := (5, boxParameter)) (by simp [boxNames]) (Nat.le_refl 2) (eval?_boxParameter _)

theorem infer_boxParameter :
    (boxes.workspace.afresh 1).infer (boxNode 2) = some (some boxContent) := by
  rw [Workspace.infer_afresh_succ,
    Inference.nodeType_typeParameter (kind_boxNode (2, .typeParameter) (by simp [boxKinds]))]
  exact eval?_boxParameter _

theorem exists_eval?_box : ∃ t members,
    (Inference.declType ⟨boxes.workspace⟩ box).run.eval? (boxes.workspace.afresh 3) =
      some (some t) ∧ t.unwrapInstantiation = .struct (Inference.nominalOf box) members := by
  obtain ⟨hfields, hparams, -⟩ := box_parts
  have hK := sound_boxes.closed_knows
  have hbox : boxes.workspace.Knows box.node := (reaches_boxNode 8).1
  refine Inference.exists_eval?_declType_struct rfl (fun f hf => ?_) fun p hp => ?_
  · obtain rfl := eq_decl_of_beq 6 (hK.structFields hbox f hf) rfl
      (List.all_eq_true.mp hfields f hf)
    have hwritten : boxField.writtenType? = some (boxNode 5) :=
      child?_boxNode (6, .typeExpr, 5) (by simp [boxSlots])
    exact ⟨_, Inference.eval?_fieldType hwritten infer_boxContent⟩
  · rw [eq_boxNode (hK.typeParameters hbox p hp) (List.all_eq_true.mp hparams p hp)]
    exact ⟨_, boxes.workspace.infer_afresh_mono (by decide) infer_boxParameter⟩

theorem infer_int {id : Fin 35} (hkind : (boxNode id).kind = .typeIdentifier)
    (htext : (boxNode id).text = "int") :
    (boxes.workspace.afresh 1).infer (boxNode id) = some (some .int) := by
  rw [Workspace.infer_afresh_succ, Inference.nodeType_typeIdentifier hkind]
  exact Inference.eval?_namedType_primitive (by rw [htext]; decide) (by rw [htext]; rfl)

/-- The struct is written with an argument at two places. -/
theorem exists_infer_boxed (id name list argument : Fin 35)
    (hkind : (boxNode id).kind = .instantiatedType) (hname : (name, box) ∈ boxNames)
    (hslots : (id, .name, name) ∈ boxSlots ∧ (id, .arguments, list) ∈ boxSlots)
    (hlist : (boxNode list).children.all (· == boxNode argument) = true ∧
      (boxNode list).children.length = 1)
    (hargument : (boxes.workspace.afresh 1).infer (boxNode argument) = some (some .int)) :
    ∃ members, (boxes.workspace.afresh 5).infer (boxNode id) = some (some (boxed members)) := by
  obtain ⟨t, members, ht, hunwrap⟩ := exists_eval?_box
  have hargs : ∀ c ∈ (boxNode list).children,
      (boxes.workspace.afresh 4).infer c = some (some ((fun _ => Ty.int) c)) := by
    intro c hc
    rw [eq_boxNode (sound_boxes.closed_knows.child (reaches_boxNode list).1 hc)
      (List.all_eq_true.mp hlist.1 c hc)]
    exact boxes.workspace.infer_afresh_mono (by decide) hargument
  obtain ⟨members', h⟩ := Inference.exists_eval?_instantiatedType (i := ⟨boxes.workspace⟩)
    (child?_boxNode _ hslots.1) (infer_boxName hname (by decide) ht)
    (boxes.workspace.resolve_afresh_mono (by decide) (resolve_boxNode _ hname)) hunwrap
    (child?_boxNode _ hslots.2) hargs
  refine ⟨members', ?_⟩
  rw [Workspace.infer_afresh_succ, Inference.nodeType_instantiatedType hkind, h]
  obtain ⟨c, hc⟩ := List.length_eq_one_iff.mp hlist.2
  rw [hc]
  rfl

/-- A cast in parentheses has the type that is written. -/
theorem infer_boxCast (id cast written : Fin 35)
    (hkinds : (boxNode id).kind = .parenthesizedExpression ∧ (boxNode cast).kind = .castAsOperator)
    (hslots : (id, .inner, cast) ∈ boxSlots ∧ (cast, .castedTo, written) ∈ boxSlots) {t : Ty}
    (ht : (boxes.workspace.afresh 6).infer (boxNode written) = some (some t)) :
    (boxes.workspace.afresh 8).infer (boxNode id) = some (some t) := by
  have hcast : (boxes.workspace.afresh 7).infer (boxNode cast) = some (some t) := by
    rw [Workspace.infer_afresh_succ, Inference.nodeType_castAsOperator hkinds.2]
    exact Inference.eval?_inferChild (child?_boxNode _ hslots.2) ht
  rw [Workspace.infer_afresh_succ, Inference.nodeType_parenthesizedExpression hkinds.1]
  exact Inference.eval?_inferChild (child?_boxNode _ hslots.1) hcast

/-- The box of an integer. -/
theorem exists_infer_direct : ∃ members,
    (boxes.workspace.afresh 8).infer (boxNode 22) = some (some (boxed members)) := by
  obtain ⟨-, -, -, -, -, -, -, -, -, -, hlist, hlength, -, hint⟩ := box_parts
  obtain ⟨members, h⟩ := exists_infer_boxed 20 17 19 18
    (kind_boxNode (20, .instantiatedType) (by simp [boxKinds])) (by simp [boxNames])
    (by simp [boxSlots]) ⟨hlist, hlength⟩
    (infer_int (kind_boxNode (18, .typeIdentifier) (by simp [boxKinds])) hint)
  exact ⟨members, infer_boxCast 22 21 20
    ⟨kind_boxNode (22, .parenthesizedExpression) (by simp [boxKinds]),
      kind_boxNode (21, .castAsOperator) (by simp [boxKinds])⟩ (by simp [boxSlots])
    (boxes.workspace.infer_afresh_mono (by decide) h)⟩

/-- The crate. -/
theorem exists_infer_aliased : ∃ members, (boxes.workspace.afresh 8).infer (boxNode 30) =
    some (some (.alias (Inference.nominalOf crate) (boxed members))) := by
  obtain ⟨-, -, -, -, -, -, hbuiltin, hparams, hlist, hlength, -, -, hint, -⟩ := box_parts
  obtain ⟨members, h⟩ := exists_infer_boxed 13 10 12 11
    (kind_boxNode (13, .instantiatedType) (by simp [boxKinds])) (by simp [boxNames])
    (by simp [boxSlots]) ⟨hlist, hlength⟩
    (infer_int (kind_boxNode (11, .typeIdentifier) (by simp [boxKinds])) hint)
  have hcrate : (Inference.declType ⟨boxes.workspace⟩ crate).run.eval? (boxes.workspace.afresh 5) =
      some (some (.alias (Inference.nominalOf crate) (boxed members))) :=
    Inference.eval?_declType_typeAlias rfl hbuiltin
      (child?_boxNode (14, .underlyingType, 13) (by simp [boxSlots])) h
      (List.isEmpty_iff.mp hparams)
  exact ⟨members, infer_boxCast 30 29 28
    ⟨kind_boxNode (30, .parenthesizedExpression) (by simp [boxKinds]),
      kind_boxNode (29, .castAsOperator) (by simp [boxKinds])⟩ (by simp [boxSlots])
    (infer_boxName (e := (28, crate)) (by simp [boxNames]) (by decide) hcrate)⟩

/-- The field of the struct is read from an object whose type applies the struct to an integer. -/
def boxAccess (id object member : Fin 35) {t : Ty} {members : List Ty}
    (hkinds : (boxNode id).kind = .dotAccess ∧ (boxNode member).kind = .identifier ∧
      (boxNode object).kind = .parenthesizedExpression)
    (hslots : (id, .obj, object) ∈ boxSlots ∧ (id, .field, member) ∈ boxSlots)
    (ht : (boxes.workspace.afresh 8).infer (boxNode object) = some (some t))
    (happlies : t.unwrapOption.stripAliases = boxed members)
    (hfield : box.structFields.find? (·.name == Text.withoutBackticks (boxNode member).text) =
      some boxField) : FieldAccess boxes.workspace 8 where
  node := boxNode id
  object := boxNode object
  member := boxNode member
  reaches := reaches_boxNode id
  kind := hkinds.1
  object_eq := child?_boxNode _ hslots.1
  member_eq := child?_boxNode _ hslots.2
  identifier := hkinds.2.1
  value := by
    rw [hkinds.2.2]
    decide
  objectType := t
  infer_object := ht
  owner := box
  ownerName := box.name
  members := members
  args := [.int]
  applies := happlies
  unshadowed :=
    { applied := fun m hm => absurd hm not_mem_methods_boxes
      onValues := fun m hm => absurd hm not_mem_methods_boxes
      onTypes := fun _ _ _ m hm => absurd hm not_mem_methods_boxes }
  field := boxField
  field_eq := hfield
  written := boxNode 5
  written_eq := child?_boxNode (6, .typeExpr, 5) (by simp [boxSlots])
  declared := boxContent
  infer_written := boxes.workspace.infer_afresh_mono (by decide) infer_boxContent

theorem find?_boxField {id : Fin 35} (hid : id ∈ ([23, 31] : List (Fin 35))) :
    box.structFields.find? (·.name == Text.withoutBackticks (boxNode id).text) = some boxField := by
  obtain ⟨-, -, -, -, -, hfind, -⟩ := box_parts
  obtain ⟨d, hd, hbeq⟩ := (Option.any_eq_true ..).mp (hfind id hid)
  have hknows := sound_boxes.closed_knows.structFields (reaches_boxNode 8).1 d
    (List.mem_of_find?_eq_some hd)
  rw [hd, eq_decl_of_beq 6 hknows rfl hbeq]

theorem substituted_box :
    boxContent.substitute (.ofList (box.typeParameterNames.zip [.int])) = .int := by
  obtain ⟨-, -, hnames, hname, -⟩ := box_parts
  rw [hnames]
  simp [boxContent, Inference.nominalOf, hname, Ty.substitute, Substitution.ofList,
    Ty.replaceParams, Substitution.isEmpty, Substitution.insert, Substitution.get?]

theorem length_box : ([.int] : List Ty).length = box.typeParameterNames.length := by
  obtain ⟨-, -, hnames, -⟩ := box_parts
  rw [hnames]
  rfl

theorem closed_box : ∀ t ∈ ([.int] : List Ty), t.Closed := List.forall_mem_singleton.mpr trivial

/-- What is read from the box of an integer is an integer. -/
theorem inferType_field_direct :
    (inferType (boxNode 24) boxes).1 = some .int ∧
      ∀ name ∈ box.typeParameterNames, name ∉ Ty.int.paramNames := by
  obtain ⟨members, ht⟩ := exists_infer_direct
  let a := boxAccess 24 22 23 ⟨kind_boxNode (24, .dotAccess) (by simp [boxKinds]),
    kind_boxNode (23, .identifier) (by simp [boxKinds]),
    kind_boxNode (22, .parenthesizedExpression) (by simp [boxKinds])⟩
    (by simp [boxSlots]) ht rfl (find?_boxField (by simp))
  have h := (Consulted.inferType_field consulted_boxes hasShortTexts_boxes (List.forall_mem_nil _)
    a length_box closed_box).1 (a.unwrapOption_eq_applied (.inl rfl))
  rwa [show a.substituted = .int from substituted_box] at h

/-- Behind an alias the argument is not put in place: what is read from the crate is not an
integer. -/
theorem not_inferType_field_of_alias :
    ¬ ∀ s : Session, s.Consulted → s.workspace.HasShortTexts → ∀ (depth : Nat)
      (a : FieldAccess s.workspace depth),
      a.args.length = a.owner.typeParameterNames.length → (∀ t ∈ a.args, t.Closed) →
      (inferType a.node s).1 = some a.substituted := by
  intro h
  obtain ⟨members, ht⟩ := exists_infer_aliased
  let a := boxAccess 32 30 31 ⟨kind_boxNode (32, .dotAccess) (by simp [boxKinds]),
    kind_boxNode (31, .identifier) (by simp [boxKinds]),
    kind_boxNode (30, .parenthesizedExpression) (by simp [boxKinds])⟩
    (by simp [boxSlots]) ht rfl (find?_boxField (by simp))
  have hint := h boxes consulted_boxes hasShortTexts_boxes 8 a length_box closed_box
  have hanswer :=
    consulted_boxes.inferType_fieldAccess hasShortTexts_boxes (List.forall_mem_nil _) a
  rw [a.substitute_appliedArguments.2 nofun] at hanswer
  have hsame : some a.declared = some a.substituted := hanswer.symm.trans hint
  rw [show a.substituted = .int from substituted_box] at hsame
  cases hsame

end Session

end TolkAnalysis
