import TolkAnalysis.Proofs.Inference.Closed
import TolkAnalysis.Proofs.Query.Transcription

/-!
# Types in trees that are written in another way

One lemma for each rule for types: about the node at the same position of the other tree it asks
about the nodes at the same positions and gives the type that comes from the declarations there.
`Inference.maps_nodeType` puts them together.

The text of a node counts where a name or an operator is written, or the index of an element, and
there it is read alike.
-/

namespace TolkAnalysis

variable {φ : Transcription}

namespace Inference

open Attempt (Along Maps along_pure along_failure maps_pure maps_ofOption maps_mapM bind_ofOption)

variable {i i' : Inference} {n : Node} {d : Decl}

/-- The second rule gives the type of the first with the declarations at the same positions. -/
abbrev Reanchors (φ : Transcription) (x x' : Attempt Ty) : Prop := Maps φ (Ty.reanchor φ.decl) x x'

/-! ### Children -/

theorem maps_infer (n : Node) : Reanchors φ (i.infer n) (i'.infer (φ.node n)) :=
  .infer n fun t => .answer (by
    cases t with
    | none => exact .none
    | some t => exact .some rfl)

theorem maps_resolve (hn : n.Named) : Maps φ φ.decl (i.resolve n) (i'.resolve (φ.node n)) :=
  .resolve (φ.sameName_node hn) fun d _ => .answer (by
    cases d with
    | none => exact .none
    | some d => exact .some rfl)

theorem bind_resolve {α α' : Type} {R : α → α' → Prop} (hn : n.Named) {k : Decl → Attempt α}
    {k' : Decl → Attempt α'} (hk : ∀ d : Decl, d.Titled → Along φ R (k d) (k' (φ.decl d))) :
    Along φ R (i.resolve n >>= k) (i'.resolve (φ.node n) >>= k') :=
  .resolve (φ.sameName_node hn) fun d hd => by
    cases d with
    | none => exact .answer .none
    | some d => exact hk d (hd d rfl)

theorem maps_inferOrUnknown (n : Node) :
    Reanchors φ (i.inferOrUnknown n) (i'.inferOrUnknown (φ.node n)) := (maps_infer n).getD rfl

theorem maps_inferChild (n : Node) (slot : Field) :
    Reanchors φ (i.inferChild n slot) (i'.inferChild (φ.node n) slot) :=
  bind_ofOption (φ.child?_node n slot) fun c _ => maps_infer c

theorem maps_inferChildren (n : Node) :
    Maps φ (List.map (Ty.reanchor φ.decl)) (i.inferChildren n) (i'.inferChildren (φ.node n)) := by
  unfold inferChildren
  rw [φ.children_node]
  exact maps_mapM maps_inferOrUnknown _

theorem maps_inferSome (ns : List Node) :
    Maps φ (List.map (Ty.reanchor φ.decl)) (i.inferSome ns) (i'.inferSome (ns.map φ.node)) := by
  induction ns with
  | nil => exact maps_pure rfl
  | cons n ns ih =>
      exact (maps_infer n).answer?.bind fun t => ih.bind fun ts => maps_pure (by
        cases t <;> rfl)

/-! ### Declarations -/

theorem nominalOf_decl (hd : d.Titled) :
    nominalOf (φ.decl d) = (nominalOf d).reanchor φ.decl := by
  rw [nominalOf, φ.name_decl hd]
  rfl

theorem maps_applied (t : Ty) (params : List Node) :
    Reanchors φ (i.applied t params) (i'.applied (t.reanchor φ.decl) (params.map φ.node)) := by
  unfold applied
  rw [List.isEmpty_map]
  split
  · exact maps_pure rfl
  · exact (maps_mapM maps_inferOrUnknown params).bind fun ts => maps_pure (by
      rw [Ty.reanchor, Ty.reanchorAll_eq_map])

theorem maps_fieldType (d : Decl) : Reanchors φ (i.fieldType d) (i'.fieldType (φ.decl d)) :=
  bind_ofOption (φ.writtenType?_decl d) fun c _ => maps_infer c

theorem maps_structType (hd : d.Titled) : Reanchors φ (i.structType d) (i'.structType (φ.decl d)) := by
  unfold structType
  rw [φ.structFields_decl, φ.typeParameters_decl, nominalOf_decl hd]
  refine (maps_mapM (fun f => (maps_fieldType f).getD rfl) d.structFields).bind fun fields => ?_
  rw [← Ty.reanchorAll_eq_map]
  exact maps_applied (.struct (nominalOf d) fields) d.typeParameters

theorem maps_aliasType (hd : d.Titled) : Reanchors φ (i.aliasType d) (i'.aliasType (φ.decl d)) := by
  unfold aliasType
  rw [φ.isBuiltin_decl, φ.name_decl hd, nominalOf_decl hd, φ.typeParameters_decl]
  split
  · refine maps_pure ?_
    cases hname : Ty.ofName? d.name with
    | none => rfl
    | some t => exact (Ty.reanchor_of_isPrimitive (Ty.isPrimitive_of_ofName? hname)).symm
  · exact bind_ofOption (φ.underlyingType?_decl d) fun c _ => (maps_infer c).bind fun inner =>
      maps_applied (.alias (nominalOf d) inner) d.typeParameters

theorem maps_receiver (n : Node) :
    Reanchors φ (do i.infer (← .ofOption (← .ofOption (Decl.enclosingFunction? n)).receiverType?))
      (do i'.infer (← .ofOption (← .ofOption (Decl.enclosingFunction? (φ.node n))).receiverType?)) :=
  bind_ofOption (φ.enclosingFunction?_node n) fun function _ =>
    bind_ofOption (φ.receiverType?_decl function) fun receiver _ => maps_infer receiver

theorem maps_parameterType (param : Node) :
    Reanchors φ (i.parameterType param) (i'.parameterType (φ.node param)) := by
  unfold parameterType
  rw [φ.child?_node, φ.isSelfParameter_node]
  cases param.child? .typeExpr with
  | some written => exact maps_infer written
  | none =>
      rw [Option.map_none]
      dsimp only
      split
      · exact maps_receiver param
      · exact along_failure

theorem maps_returnedType (body : Node) :
    Reanchors φ (i.returnedType body) (i'.returnedType (φ.node body)) := by
  unfold returnedType
  dsimp only
  rw [φ.returnedValues_node, List.isEmpty_map]
  split
  · exact maps_pure rfl
  · refine (maps_inferSome (returnedValues body)).bind fun ts => maps_pure ?_
    rw [Ty.joinList?_reanchor]
    cases Ty.joinList? ts <;> rfl

theorem maps_functionResult (d : Decl) :
    Reanchors φ (i.functionResult d) (i'.functionResult (φ.decl d)) := by
  unfold functionResult
  rw [φ.returnType?_decl, φ.bodyKind_decl, φ.body?_decl]
  cases d.returnType? with
  | some written => exact maps_inferOrUnknown written
  | none =>
      cases d.body? with
      | none => cases d.bodyKind <;> exact maps_pure rfl
      | some body =>
          cases d.bodyKind with
          | common => exact maps_returnedType body
          | _ => exact maps_pure rfl

theorem maps_functionType (d : Decl) : Reanchors φ (i.functionType d) (i'.functionType (φ.decl d)) := by
  unfold functionType
  rw [φ.parameters_decl]
  refine (maps_mapM (fun p => (maps_parameterType p).getD rfl) d.parameters).bind fun params => ?_
  refine (maps_functionResult d).bind fun result => maps_pure ?_
  rw [Ty.reanchor, Ty.reanchorAll_eq_map]

theorem destructure_node (path : List Nat) (pattern : Node) (t : Ty) :
    destructure path (φ.node pattern) (t.reanchor φ.decl) =
      (destructure path pattern t).map (Ty.reanchor φ.decl) := by
  induction path generalizing pattern t with
  | nil => rfl
  | cons index path ih =>
      simp only [destructure, Ty.elements?_reanchor, φ.children_node, Option.bind_eq_bind]
      cases t.elements? with
      | none => rfl
      | some elements =>
          simp only [Option.map_some, Option.bind_some, List.length_map, List.getElem?_map]
          split
          · rfl
          · cases elements[index]? with
            | none => rfl
            | some element =>
                cases pattern.children[index]? with
                | none => rfl
                | some part => exact ih part element

theorem maps_localType (d : Decl) : Reanchors φ (i.localType d) (i'.localType (φ.decl d)) := by
  unfold localType
  rw [φ.writtenType?_decl, φ.assignedValue?_decl, φ.localDeclaration?_decl, φ.destructuringPath_decl]
  cases d.writtenType? with
  | some hint => exact maps_infer hint
  | none =>
      have hpattern : (d.localDeclaration?.map φ.node).bind (·.child? .lhs) =
          (d.localDeclaration?.bind (·.child? .lhs)).map φ.node := by
        cases d.localDeclaration? with
        | none => rfl
        | some declaration => exact φ.child?_node declaration .lhs
      refine bind_ofOption rfl fun value _ => (maps_infer value).bind fun t => ?_
      exact bind_ofOption hpattern fun pattern _ => maps_ofOption (destructure_node _ pattern t)

theorem maps_defaultType (d : Decl) :
    Maps φ (Option.map (Ty.reanchor φ.decl)) (i.defaultType d) (i'.defaultType (φ.decl d)) := by
  unfold defaultType
  rw [φ.defaultType?_decl]
  cases d.defaultType? with
  | none => exact maps_pure rfl
  | some written => exact (maps_infer written).answer?

theorem maps_declType (hd : d.Titled) : Reanchors φ (i.declType d) (i'.declType (φ.decl d)) := by
  unfold declType
  rw [φ.kind_decl]
  cases d.kind with
  | struct => exact maps_structType hd
  | typeAlias => exact maps_aliasType hd
  | enum => exact maps_pure (by rw [nominalOf_decl hd]; rfl)
  | enumMember =>
      exact bind_ofOption (φ.owner?_decl d) fun owner howner => maps_pure (by
        rw [nominalOf_decl (Decl.titled_of_owner? howner)]
        rfl)
  | constant =>
      rw [φ.writtenType?_decl]
      cases d.writtenType? with
      | some written => exact maps_infer written
      | none => exact bind_ofOption (φ.value?_decl d) fun value _ => maps_infer value
  | globalVariable | field => exact maps_fieldType d
  | parameter => exact maps_parameterType d.node
  | typeParameter =>
      exact (maps_defaultType d).bind fun default => maps_pure (by
        rw [nominalOf_decl hd, Ty.reanchor_typeParam])
  | localVariable => exact maps_localType d
  | catchVariable =>
      exact maps_pure (by
        rw [φ.isFirstCatchVariable_decl]
        split <;> rfl)
  | function | getMethod | instanceMethod | staticMethod => exact maps_functionType d

theorem maps_builtinType (h : i.workspace.Along φ i'.workspace) (n : Node) (name : String) :
    Reanchors φ (i.builtinType n name) (i'.builtinType (φ.node n) name) := by
  unfold builtinType
  dsimp only
  rw [φ.file_node, h.nearest?]
  cases hd : ((i.workspace.searchFiles n.file).filterMap i.workspace.index?).findSome? _ with
  | none => exact maps_pure rfl
  | some d => exact (maps_declType (Workspace.Along.titled_of_nearest? h.sound hd)).getD rfl

/-! ### Type expressions -/

theorem maps_namedType (hn : n.Named) (hkind : n.kind = .typeIdentifier) :
    Reanchors φ (i.namedType n) (i'.namedType (φ.node n)) := by
  have hname := φ.sameName_node hn
  have hprimitive : Ty.ofName? (φ.node n).text = Ty.ofName? n.text := by
    cases hname' : Ty.ofName? n.text with
    | none => exact hname.primitive hname'
    | some t =>
        have hnode : n.isPrimitiveName = true := by rw [Node.isPrimitiveName, hkind, hname']; rfl
        rw [φ.text_node (Node.mem_verbatim_primitive hnode), hname']
  unfold namedType
  dsimp only
  rw [hname.self, hprimitive]
  split
  · exact maps_receiver n
  · cases hprimitive : Ty.ofName? n.text with
    | some t =>
        exact maps_pure (Ty.reanchor_of_isPrimitive (Ty.isPrimitive_of_ofName? hprimitive)).symm
    | none => exact bind_resolve hn fun d hd => maps_declType hd

theorem maps_unionType (n : Node) : Reanchors φ (i.unionType n) (i'.unionType (φ.node n)) := by
  unfold unionType
  rw [φ.children_node]
  exact (maps_mapM maps_infer n.children).bind fun ts => maps_pure (Ty.unionOf_reanchor ts)

theorem instantiate_reanchor (d : Decl) (base : Ty) (args : List Ty) :
    instantiate (φ.decl d) (base.reanchor φ.decl) (args.map (Ty.reanchor φ.decl)) =
      (instantiate d base args).reanchor φ.decl := by
  have instantiate_eq (d : Decl) (base : Ty) (args : List Ty) : instantiate d base args =
      .instantiation (if d.kind == .struct || d.kind == .typeAlias then
        base.unwrapInstantiation.substitute
          (Substitution.ofList (boundParams d.typeParameterNames args base.typeArgs))
      else base.unwrapInstantiation) args := by
    cases base <;> rfl
  rw [instantiate_eq, instantiate_eq, φ.kind_decl, φ.typeParameterNames_decl, Ty.typeArgs_reanchor,
    Ty.reanchorAll_eq_map, boundParams_reanchor, Ty.unwrapInstantiation_reanchor,
    Ty.substitute_reanchor (Substitution.reanchors_ofList _), Ty.reanchor, Ty.reanchorAll_eq_map]
  split <;> rfl

theorem maps_listedTypes (list : Option Node) :
    Maps φ (List.map (Ty.reanchor φ.decl)) (i.listedTypes list)
      (i'.listedTypes (list.map φ.node)) := by
  cases list with
  | none => exact maps_pure rfl
  | some l => exact maps_inferChildren l

theorem maps_instantiatedType (n : Node) :
    Reanchors φ (i.instantiatedType n) (i'.instantiatedType (φ.node n)) := by
  refine bind_ofOption (φ.child?_node n .name) fun name hname => ?_
  refine (maps_infer name).bind fun base => ?_
  rw [φ.child?_node]
  refine (maps_listedTypes (n.child? .arguments)).bind fun args => ?_
  refine (maps_resolve (.inr ⟨n, .inl hname⟩)).answer?.bind fun d => ?_
  cases d with
  | none =>
      exact maps_pure (by rw [Ty.unwrapInstantiation_reanchor, Ty.reanchor, Ty.reanchorAll_eq_map])
  | some d => exact maps_pure (instantiate_reanchor d base args)

theorem maps_callableType (n : Node) : Reanchors φ (i.callableType n) (i'.callableType (φ.node n)) := by
  refine bind_ofOption (φ.child?_node n .paramTypes) fun list _ => ?_
  refine (maps_inferChild n .returnType).bind fun result => ?_
  refine (maps_infer list).bind fun params => ?_
  rw [φ.kind_node]
  have single (params : Ty) : Reanchors φ (pure (.function [params] result))
      (pure (.function [params.reanchor φ.decl] (result.reanchor φ.decl))) := maps_pure rfl
  cases params with
  | tensor ts =>
      cases list.kind with
      | tensorType => exact maps_pure rfl
      | _ => exact single (.tensor ts)
  | typeParam m default =>
      have hsingle := single (.typeParam m default)
      rw [Ty.reanchor_typeParam] at hsingle ⊢
      exact hsingle
  | _ => exact single _

/-! ### Expressions -/

theorem maps_ternaryType (n : Node) : Reanchors φ (i.ternaryType n) (i'.ternaryType (φ.node n)) := by
  refine (maps_inferChild n .consequence).answer?.bind fun consequence => ?_
  refine (maps_inferChild n .alternative).answer?.bind fun alternative => ?_
  have hnull (t : Ty) : t.reanchor φ.decl = .null ↔ t = .null :=
    Ty.reanchor_eq_iff_of_isPrimitive rfl
  split
  · rw [Option.map_none]
    exact maps_ofOption rfl
  · exact maps_pure rfl
  · exact maps_pure (Ty.nullable_reanchor _)
  · rename_i s hs
    have hs' := mt (hnull s).mp hs
    have hnullable := Ty.nullable_reanchor (f := φ.decl) s
    rw [Option.map_some, Option.map_some]
    generalize s.reanchor φ.decl = s' at hs' hnullable
    cases s' <;> first | exact absurd rfl hs' | exact maps_pure hnullable
  · rename_i s t hs ht
    rw [Option.map_some, Option.map_some]
    split
    case h_5 heq _ => exact maps_pure (Option.some.inj heq).symm
    all_goals simp_all

theorem maps_binaryType (n : Node) : Reanchors φ (i.binaryType n) (i'.binaryType (φ.node n)) := by
  refine bind_ofOption (φ.child?_node n .operatorName) fun operator hoperator => ?_
  have hsame := φ.sameOperator_node ⟨n, hoperator⟩
  dsimp only
  rw [hsame.contains_eq (by decide), hsame.contains_eq (by decide), hsame "??" (by decide)]
  split
  · exact maps_pure rfl
  · split
    · exact maps_pure rfl
    · split
      · refine (maps_inferChild n .left).bind fun left => ?_
        refine (maps_inferChild n .right).bind fun right => maps_pure ?_
        rw [Ty.unwrapOption_reanchor, Ty.join_reanchor]
      · exact maps_inferChild n .left

theorem maps_unaryType (n : Node) : Reanchors φ (i.unaryType n) (i'.unaryType (φ.node n)) := by
  refine bind_ofOption (φ.child?_node n .operatorName) fun operator hoperator => ?_
  have hsame := φ.sameOperator_node ⟨n, hoperator⟩
  dsimp only
  rw [hsame "!" (by decide), hsame.contains_eq (by decide)]
  split
  · exact maps_pure rfl
  · split
    · exact maps_pure rfl
    · exact maps_inferChild n .argument

theorem reanchors_appliedArguments (t : Ty) : Substitution.Reanchors φ.decl (appliedArguments t)
    (appliedArguments (t.reanchor φ.decl)) := by
  have hzip (names : List String) (args : List Ty) :
      names.zip (args.map (Ty.reanchor φ.decl)) =
        (names.zip args).map fun b => (b.1, b.2.reanchor φ.decl) := by
    rw [List.zip_map_right]
    rfl
  unfold appliedArguments
  rw [Ty.unwrapOption_reanchor]
  cases t.unwrapOption with
  | instantiation inner args =>
      rw [Ty.reanchor, Ty.reanchorAll_eq_map]
      dsimp only
      rw [Ty.anchor?_reanchor]
      cases inner.anchor? with
      | none => exact Substitution.reanchors_empty
      | some d =>
          rw [Option.map_some]
          dsimp only
          rw [φ.typeParameterNames_decl, hzip]
          exact Substitution.reanchors_ofList _
  | typeParam m default =>
      rw [Ty.reanchor_typeParam]
      exact Substitution.reanchors_empty
  | _ => exact Substitution.reanchors_empty

theorem maps_memberType (n : Node) : Reanchors φ (i.memberType n) (i'.memberType (φ.node n)) := by
  refine bind_ofOption (φ.child?_node n .field) fun member hmember => ?_
  have hnamed : member.Named := .inr ⟨n, .inr hmember⟩
  rw [φ.kind_node]
  split
  · refine bind_ofOption (f := id) ?_ fun index _ => (maps_inferChild n .obj).bind fun object => ?_
    · rw [(φ.sameName_node hnamed).index, Option.map_id, id]
    · refine maps_ofOption ?_
      rw [Ty.elements?_reanchor]
      cases object.elements? with
      | none => rfl
      | some ts => exact List.getElem?_map ..
  · refine bind_resolve hnamed fun d hd => (maps_declType hd).bind fun t => ?_
    refine (maps_inferChild n .obj).answer?.bind fun object => ?_
    cases object with
    | none => exact maps_pure rfl
    | some object =>
        exact maps_pure (Ty.substitute_reanchor (reanchors_appliedArguments object) t)

theorem calleeParts?_node (callee : Node) : calleeParts? (φ.node callee) =
    (calleeParts? callee).map fun parts => (φ.node parts.1, parts.2.map φ.node) := by
  fun_induction calleeParts? callee with
  | case1 callee hkind => rw [calleeParts?, φ.kind_node, hkind]; rfl
  | case2 callee hkind =>
      rw [calleeParts?, φ.kind_node, hkind]
      dsimp only
      rw [φ.child?_node, Option.map_map, Option.map_map]
      rfl
  | case3 callee hkind inner hinner ih =>
      have hinner' := (φ.child?_node callee .expr).trans (congrArg _ hinner)
      rw [calleeParts?, φ.kind_node, hkind]
      dsimp only
      split
      · rename_i inner' heq
        rw [hinner'] at heq
        obtain rfl := Option.some.inj heq
        rw [ih, φ.child?_node, Option.map_map, Option.map_map]
        rfl
      · rename_i heq
        rw [hinner'] at heq
        cases heq
  | case4 callee hkind hnone =>
      rw [calleeParts?, φ.kind_node, hkind]
      dsimp only
      split
      · rename_i inner heq
        rw [φ.child?_node, hnone] at heq
        cases heq
      · rfl
  | case5 callee hidentifier hdot hgeneric =>
      rw [calleeParts?, φ.kind_node]
      split <;> first | contradiction | rfl

theorem calleeObject?_node (callee : Node) :
    calleeObject? (φ.node callee) = (calleeObject? callee).map φ.node := by
  fun_induction calleeObject? callee with
  | case1 callee hkind =>
      rw [calleeObject?, φ.kind_node, hkind]
      exact φ.child?_node callee .obj
  | case2 callee hkind inner hinner ih =>
      have hinner' := (φ.child?_node callee .expr).trans (congrArg _ hinner)
      rw [calleeObject?, φ.kind_node, hkind]
      dsimp only
      split
      · rename_i inner' heq
        rw [hinner'] at heq
        obtain rfl := Option.some.inj heq
        exact ih
      · rename_i heq
        rw [hinner'] at heq
        cases heq
  | case3 callee hkind hnone =>
      rw [calleeObject?, φ.kind_node, hkind]
      dsimp only
      split
      · rename_i inner heq
        rw [φ.child?_node, hnone] at heq
        cases heq
      · rfl
  | case4 callee hdot hgeneric =>
      rw [calleeObject?, φ.kind_node]
      split <;> first | contradiction | rfl

theorem named_of_calleeParts? {callee : Node} {parts : Node × Option Node}
    (h : calleeParts? callee = some parts) : parts.1.Named := by
  fun_induction calleeParts? callee generalizing parts with
  | case1 callee hkind =>
      cases h
      exact .inl (by rw [hkind]; rfl)
  | case2 callee hkind =>
      obtain ⟨field, hfield, rfl⟩ := Option.map_eq_some_iff.mp h
      exact .inr ⟨callee, .inr hfield⟩
  | case3 callee hkind inner hinner ih =>
      obtain ⟨parts', hparts, rfl⟩ := Option.map_eq_some_iff.mp h
      exact @ih parts' hparts
  | case4 | case5 => cases h

theorem maps_namesType (n : Node) : Maps φ id (i.namesType n) (i'.namesType (φ.node n)) := by
  have hresolve (hn : n.Named) : Maps φ id
      (do return (← (i.resolve n).answer?).any (·.kind.isType))
      (do return (← (i'.resolve (φ.node n)).answer?).any (·.kind.isType)) :=
    (maps_resolve hn).answer?.bind fun d => maps_pure (by cases d <;> rfl)
  unfold namesType
  rw [φ.kind_node]
  split
  · rename_i hkind
    exact hresolve (.inl (by rw [hkind]; rfl))
  · rename_i hkind
    exact hresolve (.inl (by rw [hkind]; rfl))
  · exact maps_pure rfl
  · exact maps_pure rfl

theorem maps_passesSelf (object : Option Node) :
    Maps φ id (i.passesSelf object) (i'.passesSelf (object.map φ.node)) := by
  cases object with
  | none => exact maps_pure rfl
  | some o => exact (maps_namesType o).bind fun _ => maps_pure rfl

theorem maps_resultType (hd : d.Titled) : Reanchors φ (i.resultType d) (i'.resultType (φ.decl d)) := by
  unfold resultType
  rw [φ.returnType?_decl]
  cases d.returnType? with
  | some written => exact maps_infer written
  | none =>
      refine (maps_declType hd).bind fun t => ?_
      cases t with
      | function params result => exact maps_pure rfl
      | typeParam m default =>
          rw [Ty.reanchor_typeParam]
          exact along_failure
      | _ => exact along_failure

theorem maps_typeParameterTypes (d : Decl) : Maps φ (List.map (Ty.reanchor φ.decl))
    (i.typeParameterTypes d) (i'.typeParameterTypes (φ.decl d)) := by
  unfold typeParameterTypes
  rw [φ.typeParameters_decl]
  exact maps_mapM maps_inferOrUnknown _

/-- The second rule learns the types with the declarations at the same positions. -/
abbrev Learns (φ : Transcription) (x x' : Attempt Substitution) : Prop :=
  Along φ (Substitution.Reanchors φ.decl) x x'

theorem learns_deduceReceiver {σ σ' : Substitution} (hσ : σ.Reanchors φ.decl σ') (d : Decl)
    (object : Option Node) :
    Learns φ (i.deduceReceiver σ d object)
      (i'.deduceReceiver σ' (φ.decl d) (object.map φ.node)) := by
  unfold deduceReceiver
  rw [φ.receiverType?_decl]
  cases d.receiverType? with
  | none => exact along_pure hσ
  | some receiver =>
      cases object with
      | none => exact along_pure hσ
      | some o =>
          refine (maps_infer receiver).answer?.bind fun declared => ?_
          refine (maps_infer o).answer?.bind fun actual => ?_
          cases declared with
          | none => exact along_pure hσ
          | some p =>
              cases actual with
              | none => exact along_pure hσ
              | some a => exact along_pure (Substitution.deduce_reanchor p a hσ)

theorem maps_writtenParameterType (param : Node) :
    Maps φ (Option.map (Ty.reanchor φ.decl)) (i.writtenParameterType param)
      (i'.writtenParameterType (φ.node param)) := by
  unfold writtenParameterType
  rw [φ.child?_node]
  cases param.child? .typeExpr with
  | none => exact maps_pure rfl
  | some written => exact (maps_infer written).answer?

theorem learns_deduceArguments {σ σ' : Substitution} (hσ : σ.Reanchors φ.decl σ')
    (pairs : List (Node × Node)) :
    Learns φ (i.deduceArguments σ pairs)
      (i'.deduceArguments σ' (pairs.map fun p => (φ.node p.1, φ.node p.2))) := by
  induction pairs generalizing σ σ' with
  | nil => exact along_pure hσ
  | cons pair pairs ih =>
      refine (maps_writtenParameterType pair.1).bind fun declared => ?_
      refine (maps_infer pair.2).answer?.bind fun actual => ?_
      cases declared with
      | none => exact ih hσ
      | some p =>
          cases actual with
          | none => exact ih hσ
          | some a => exact ih (Substitution.deduce_reanchor p a hσ)

theorem learns_writtenArguments (d : Decl) (list : Option Node) :
    Learns φ (i.writtenArguments d list) (i'.writtenArguments (φ.decl d) (list.map φ.node)) := by
  cases list with
  | none => exact along_pure Substitution.reanchors_empty
  | some l =>
      exact (maps_typeParameterTypes d).bind fun params => (maps_inferChildren l).bind fun args =>
        along_pure (Substitution.reanchors_ofParams params args)

theorem callArguments_node (n : Node) :
    (((φ.node n).child? .arguments).map (·.childrenOfKind .callArgument)).getD [] =
      (((n.child? .arguments).map (·.childrenOfKind .callArgument)).getD []).map φ.node := by
  rw [φ.child?_node]
  exact φ.getD_map_child? (fun list => φ.childrenOfKind_node list _) _

theorem maps_genericCallType (n callee : Node) {target : Decl} (htarget : target.Titled)
    (written : Option Node) (result : Ty) :
    Reanchors φ (i.genericCallType n callee target written result)
      (i'.genericCallType (φ.node n) (φ.node callee) (φ.decl target) (written.map φ.node)
        (result.reanchor φ.decl)) := by
  unfold genericCallType
  dsimp only
  rw [isTypeParam_reanchor, φ.name_decl htarget, calleeObject?_node, callArguments_node]
  split
  · exact bind_ofOption rfl fun o _ => maps_infer o
  · refine (learns_writtenArguments target written).bind fun σ₁ σ₁' h₁ => ?_
    refine (learns_deduceReceiver h₁ target _).bind fun σ₂ σ₂' h₂ => ?_
    refine (maps_passesSelf _).bind fun skipSelf => ?_
    rw [id, φ.parametersFor_decl, List.zip_map]
    refine (learns_deduceArguments h₂ _).bind fun σ₃ σ₃' h₃ => ?_
    rw [Ty.substitute_reanchor h₃, Ty.hasGenerics_reanchor]
    split
    · exact along_failure
    · exact maps_pure rfl

theorem maps_callType (n : Node) : Reanchors φ (i.callType n) (i'.callType (φ.node n)) := by
  refine bind_ofOption (φ.child?_node n .callee) fun callee _ => ?_
  refine bind_ofOption (calleeParts?_node callee) fun parts hparts => ?_
  refine bind_resolve (named_of_calleeParts? hparts) fun target htarget => ?_
  rw [φ.kind_decl]
  split
  · refine (maps_resultType htarget).bind fun result => ?_
    rw [Ty.hasGenerics_reanchor]
    split
    · exact maps_genericCallType n callee htarget parts.2 result
    · exact maps_pure rfl
  · refine (maps_declType htarget).bind fun t => ?_
    rw [Ty.unwrapAlias_reanchor]
    cases t.unwrapAlias with
    | function params result => exact maps_pure rfl
    | typeParam m default =>
        rw [Ty.reanchor_typeParam]
        exact along_failure
    | _ => exact along_failure

theorem maps_genericInstantiationType (n : Node) :
    Reanchors φ (i.genericInstantiationType n) (i'.genericInstantiationType (φ.node n)) := by
  refine bind_ofOption (φ.child?_node n .expr) fun expr _ => ?_
  refine bind_ofOption (calleeParts?_node expr) fun parts hparts => ?_
  refine bind_resolve (named_of_calleeParts? hparts) fun target htarget => ?_
  rw [φ.child?_node, φ.kind_decl]
  refine (maps_listedTypes (n.child? .arguments)).bind fun args => ?_
  split
  · refine (maps_infer expr).bind fun t => (maps_typeParameterTypes target).bind fun params => ?_
    exact maps_pure (Ty.substitute_reanchor (Substitution.reanchors_ofParams params args) t)
  · exact (maps_declType htarget).bind fun base => maps_pure (instantiate_reanchor target base args)

theorem maps_expectedArgument (arg : Node) :
    Reanchors φ (i.expectedArgument arg) (i'.expectedArgument (φ.node arg)) := by
  refine bind_ofOption (φ.parent?_node arg) fun list _ => ?_
  refine bind_ofOption (f := φ.node) ?_ fun call _ => ?_
  · rw [φ.parent?_node, Option.filter_map, φ.kind_beq_comp_node]
  refine bind_ofOption (f := id) ?_ fun position _ => ?_
  · rw [φ.childrenOfKind_node, List.findIdx?_map, Option.map_id, id]
    refine congrArg (List.findIdx? · _) (funext fun c => ?_)
    rw [Function.comp_apply, φ.beq_node]
  refine bind_ofOption (φ.child?_node call .callee) fun callee _ => ?_
  refine bind_ofOption (calleeParts?_node callee) fun parts hparts => ?_
  refine bind_resolve (named_of_calleeParts? hparts) fun target htarget => ?_
  rw [φ.kind_decl, calleeObject?_node]
  split
  · refine (maps_passesSelf _).bind fun skipSelf => ?_
    refine bind_ofOption (f := φ.node) ?_ fun param _ => ?_
    · rw [id, φ.parametersFor_decl, List.getElem?_map]
      rfl
    refine bind_ofOption (φ.child?_node param .typeExpr) fun written _ => ?_
    exact (maps_infer written).bind fun t => maps_pure (Ty.unwrapAlias_reanchor t)
  · exact along_failure

theorem maps_expectedEntry (entry : Node) :
    Reanchors φ (i.expectedEntry entry) (i'.expectedEntry (φ.node entry)) := by
  refine (maps_inferChild entry .name).bind fun t => ?_
  rw [Ty.unwrapAlias_reanchor]
  cases t.unwrapAlias with
  | union variants =>
      refine maps_ofOption ?_
      rw [Ty.reanchorAll_eq_map, List.find?_map]
      refine congrArg (fun p => (variants.find? p).map _) (funext fun v => ?_)
      rw [Function.comp_apply, Ty.baseType_reanchor]
      cases v.baseType with
      | typeParam m default => rw [Ty.reanchor_typeParam]
      | _ => rfl
  | typeParam m default =>
      rw [Ty.reanchor_typeParam]
      exact maps_pure (Ty.reanchor_typeParam m default).symm
  | _ => exact maps_pure rfl

theorem maps_objectLiteralType (n : Node) :
    Reanchors φ (i.objectLiteralType n) (i'.objectLiteralType (φ.node n)) := by
  unfold objectLiteralType
  rw [φ.child?_node]
  cases n.child? .typeExpr with
  | some written => exact maps_infer written
  | none =>
      refine bind_ofOption (φ.parent?_node n) fun parent _ => ?_
      rw [φ.kind_node]
      split
      · refine bind_ofOption (f := φ.node) ?_ fun declared _ => maps_inferChild declared .typeExpr
        rw [φ.child?_node, Option.filter_map, φ.kind_beq_comp_node]
      · exact maps_expectedArgument parent
      · exact maps_expectedEntry parent
      · exact bind_ofOption (φ.enclosingFunction?_node parent) fun function _ =>
          bind_ofOption (φ.returnType?_decl function) fun written _ => maps_infer written
      · exact along_failure

theorem maps_matchType (n : Node) : Reanchors φ (i.matchType n) (i'.matchType (φ.node n)) := by
  have hbodies : ((((φ.node n).childrenIn .arms).filterMap (·.child? .body)).filter
        (·.kind != .blockStatement)) =
      (((n.childrenIn .arms).filterMap (·.child? .body)).filter (·.kind != .blockStatement)).map
        φ.node := by
    have hbody : (fun arm : Node => arm.child? .body) ∘ φ.node =
        fun arm => (arm.child? .body).map φ.node := funext fun arm => φ.child?_node arm .body
    have hkind : (fun body : Node => body.kind != .blockStatement) ∘ φ.node =
        fun body => body.kind != .blockStatement :=
      funext fun body => congrArg (· != _) (φ.kind_node body)
    rw [φ.childrenIn_node, List.filterMap_map, hbody, ← List.map_filterMap, List.filter_map, hkind]
  unfold matchType
  dsimp only
  rw [hbodies]
  exact (maps_inferSome _).bind fun ts => maps_ofOption (Ty.joinList?_reanchor ts)

/-- The rule for a node gives the type that comes from the declarations at the same positions. -/
theorem maps_nodeType (h : i.workspace.Along φ i'.workspace) (n : Node) :
    Reanchors φ (i.nodeType n) (i'.nodeType (φ.node n)) := by
  have word (hword : n.kind.isWord = true) : n.Named := .inl hword
  have declared : Reanchors φ (do i.declType (← .ofOption (Decl.ofNode? n)))
      (do i'.declType (← .ofOption (Decl.ofNode? (φ.node n)))) :=
    bind_ofOption (φ.ofNode?_node n) fun d hd => maps_declType (Decl.titled_of_ofNode? hd)
  unfold nodeType
  rw [φ.kind_node]
  split
  -- The rules that have a lemma of their own.
  case h_3 => exact maps_ternaryType n
  case h_4 => exact maps_binaryType n
  case h_5 => exact maps_unaryType n
  case h_10 => exact (maps_inferChild n .inner).bind fun t => maps_pure (Ty.unwrapOption_reanchor t)
  case h_11 => exact maps_memberType n
  case h_12 => exact maps_callType n
  case h_13 => exact maps_genericInstantiationType n
  case h_14 => exact maps_objectLiteralType n
  case h_15 =>
    exact (maps_inferChildren n).bind fun ts => maps_pure (by
      rw [Ty.reanchor_tensor, Ty.reanchorAll_eq_map])
  case h_16 =>
    exact (maps_inferChildren n).bind fun ts => maps_pure (by
      rw [Ty.reanchor_tuple, Ty.reanchorAll_eq_map])
  case h_17 => exact maps_matchType n
  case h_19 =>
    rw [φ.child?_node]
    cases n.child? .value with
    | some value => exact maps_infer value
    | none => exact maps_inferChild n .name
  case h_21 => exact maps_builtinType h n "slice"
  case h_24 hkind => exact bind_resolve (word (by rw [hkind]; rfl)) fun d hd => maps_declType hd
  case h_25 hkind => exact maps_namedType (word (by rw [hkind]; rfl)) hkind
  case h_26 => exact (maps_inferChild n .inner).bind fun t => maps_pure (Ty.nullable_reanchor t)
  case h_27 => exact maps_unionType n
  case h_28 =>
    exact (maps_inferChildren n).bind fun ts => maps_pure (by
      rw [Ty.reanchor_tensor, Ty.reanchorAll_eq_map])
  case h_29 =>
    exact (maps_inferChildren n).bind fun ts => maps_pure (by
      rw [Ty.reanchor_tuple, Ty.reanchorAll_eq_map])
  case h_31 => exact maps_instantiatedType n
  case h_32 => exact maps_callableType n
  -- The others take the type of a child or of the declaration, have a fixed type or none.
  all_goals first
    | with_reducible exact maps_inferChild n _
    | with_reducible exact declared
    | exact maps_pure rfl
    | exact along_failure

end Inference

end TolkAnalysis
