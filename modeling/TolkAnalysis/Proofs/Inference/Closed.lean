import TolkAnalysis.Proofs.Resolution.Found

/-!
# Types stay in closed families

One lemma for each rule for types: about a node of a closed family, it asks only
about the nodes of the family that are asked about, and the type that it gives carries
declarations of the family only. `Inference.types_nodeType` puts them together.
-/

namespace TolkAnalysis

variable {A K : Node → Prop}

/-- What a visitor keeps at the nodes of a family, a walk below them keeps. -/
theorem Node.walkStack_invariant {σ : Type} {visit : σ → Node → Step × σ} {Q : σ → Prop}
    (hchild : ∀ n, K n → ∀ c ∈ n.children, K c) (hvisit : ∀ s n, K n → Q s → Q (visit s n).2)
    (stack : List Node) (s : σ) (hstack : ∀ n ∈ stack, K n) (hs : Q s) :
    Q (walkStack visit stack s).2 := by
  fun_induction walkStack visit stack s with
  | case1 s => exact hs
  | case2 n stack s s' heq =>
      have h := hvisit s n (hstack n List.mem_cons_self) hs
      rwa [heq] at h
  | case3 n stack s s' heq ih =>
      rw [List.forall_mem_cons] at hstack
      have h := hvisit s n hstack.1 hs
      rw [heq] at h
      exact ih hstack.2 h
  | case4 n stack s s' heq ih =>
      rw [List.forall_mem_cons] at hstack
      have h := hvisit s n hstack.1 hs
      rw [heq] at h
      exact ih (List.forall_mem_append.mpr ⟨hchild n hstack.1, hstack.2⟩) h

namespace Inference

open Attempt (Within within_pure within_failure within_ofOption within_mapM)

variable {i : Inference} {n : Node} {d : Decl}

/-- The rule asks only about nodes in `A`, and declarations in its type are in `K`. -/
abbrev Types (A K : Node → Prop) (a : Attempt Ty) : Prop := Within A K (Ty.In K) a

/-! ### Children -/

theorem types_inferChild {slot : Field} (h : ∀ c, n.child? slot = some c → A c) :
    Types A K (i.inferChild n slot) :=
  Attempt.Within.bind (within_ofOption h) fun _ hc => i.within_infer hc

theorem types_inferSlot (hA : i.workspace.Asking A K) (hn : K n) (slot : Field)
    (hslot : slot.isAskedAbout = true) : Types A K (i.inferChild n slot) :=
  types_inferChild fun _ hc => hA.slot hn hc hslot

theorem within_inferChildren (h : ∀ c ∈ n.children, A c) :
    Within A K (fun ts => ∀ t ∈ ts, t.In K) (i.inferChildren n) :=
  within_mapM fun c hc => i.within_inferOrUnknown (h c hc)

/-! ### Declarations -/

theorem anchored_nominalOf (hd : K d.node) : (nominalOf d).Anchored fun d => K d.node := by
  intro d' hd'
  cases hd'
  exact hd

theorem types_applied {t : Ty} (ht : t.In K) {params : List Node} (hparams : ∀ p ∈ params, A p) :
    Types A K (i.applied t params) := by
  unfold applied
  split
  · exact within_pure ht
  · refine (within_mapM fun p hp => i.within_inferOrUnknown (hparams p hp)).bind fun ts hts => ?_
    exact within_pure ((Ty.anchored_instantiation _ _).mpr ⟨ht, hts⟩)

theorem types_fieldType (hA : i.workspace.Asking A K) (hd : K d.node) : Types A K (i.fieldType d) :=
  types_inferSlot hA hd .typeExpr rfl

theorem types_structType (hA : i.workspace.Asking A K) (hd : K d.node) :
    Types A K (i.structType d) := by
  refine (within_mapM fun f hf => ?_).bind fun fields hfields =>
    types_applied ((Ty.anchored_struct _ _).mpr ⟨anchored_nominalOf hd, hfields⟩)
      fun _ hp => hA.typeParameter hd hp
  exact (types_fieldType hA (hA.structFields hd f hf)).getD Ty.anchored_unknown

theorem types_aliasType (hA : i.workspace.Asking A K) (hd : K d.node) :
    Types A K (i.aliasType d) := by
  unfold aliasType
  split
  · refine within_pure ?_
    cases hname : Ty.ofName? d.name with
    | none => exact anchored_nominalOf hd
    | some t => exact Ty.hereditary_anchored.of_ofName? hname
  · refine Attempt.Within.bind (within_ofOption fun _ hu => hA.slot hd hu rfl) fun u hu => ?_
    refine (i.within_infer hu).bind fun inner hinner => ?_
    exact types_applied ((Ty.anchored_alias _ _).mpr ⟨anchored_nominalOf hd, hinner⟩)
      fun _ hp => hA.typeParameter hd hp

theorem types_parameterType (hA : i.workspace.Asking A K) (hn : K n) :
    Types A K (i.parameterType n) := by
  unfold parameterType
  split
  · rename_i written hwritten
    exact i.within_infer (hA.slot hn hwritten rfl)
  · split
    · refine Attempt.Within.bind (within_ofOption fun owner ho => hA.enclosingFunction? hn ho)
        fun owner ho => ?_
      exact Attempt.Within.bind (within_ofOption fun r hr => hA.receiverType ho hr)
        fun r hr => i.within_infer hr
    · exact within_failure

theorem asked_returnedValues (hA : i.workspace.Asking A K) {body : Node} (hbody : K body) :
    ∀ n ∈ returnedValues body, A n := by
  have hvisit : ∀ (found : Array Node) (n : Node), K n → (∀ m ∈ found, A m) →
      ∀ m ∈ (visitReturn found n).2, A m := by
    intro found n hn hfound
    unfold visitReturn
    split
    · exact hfound
    · split
      · cases hvalue : n.child? .body with
        | none => exact hfound
        | some value =>
            intro m hm
            rcases Array.mem_push.mp hm with hm | rfl
            · exact hfound m hm
            · exact hA.slot hn hvalue rfl
      · exact hfound
  have hwalk := Node.walkStack_invariant (fun n hn c hc => hA.child hn hc) hvisit [body] #[]
    (by simpa using hbody) (by simp)
  exact fun n hn => hwalk n (Array.mem_toList_iff.mp hn)

theorem types_returnedType (hA : i.workspace.Asking A K) {body : Node} (hbody : K body) :
    Types A K (i.returnedType body) := by
  unfold returnedType
  dsimp only
  split
  · exact within_pure trivial
  · refine (i.within_inferSome (asked_returnedValues hA hbody)).bind fun ts hts =>
      within_pure ?_
    cases hjoin : Ty.joinList? ts with
    | none => trivial
    | some t => exact Ty.stable_anchored.of_joinList? hjoin hts

theorem types_functionResult (hA : i.workspace.Asking A K) (hd : K d.node) :
    Types A K (i.functionResult d) := by
  unfold functionResult
  split
  · rename_i written hwritten
    exact i.within_inferOrUnknown (hA.slot hd hwritten rfl)
  · rename_i body _ _ hbody
    exact types_returnedType hA (hA.child? hd hbody)
  · exact within_pure trivial

theorem types_functionType (hA : i.workspace.Asking A K) (hd : K d.node) :
    Types A K (i.functionType d) := by
  refine (within_mapM fun p hp => ?_).bind fun params hparams =>
    (types_functionResult hA hd).bind fun result hresult =>
    within_pure ((Ty.anchored_function _ _).mpr ⟨hparams, hresult⟩)
  exact (types_parameterType hA (hA.parameters hd p hp)).getD Ty.anchored_unknown

theorem anchored_of_destructure {path : List Nat} {pattern : Node} {t s : Ty}
    (h : destructure path pattern t = some s) (ht : t.In K) : s.In K := by
  induction path generalizing pattern t with
  | nil =>
      cases h
      exact ht
  | cons index path ih =>
      obtain ⟨elements, helements, h⟩ := Option.bind_eq_some_iff.mp h
      dsimp only at h
      split at h
      · cases h
      · obtain ⟨element, helement, h⟩ := Option.bind_eq_some_iff.mp h
        obtain ⟨part, -, h⟩ := Option.bind_eq_some_iff.mp h
        exact ih h (ht.elements? helements element (List.mem_of_getElem? helement))

theorem asked_assignedValue? (hA : i.workspace.Asking A K) (hd : K d.node) {value : Node}
    (h : d.assignedValue? = some value) : A value := by
  obtain ⟨declaration, hdeclaration, hvalue⟩ := Option.bind_eq_some_iff.mp h
  exact hA.slot (hA.localDeclaration? hd hdeclaration) hvalue rfl

theorem types_localType (hA : i.workspace.Asking A K) (hd : K d.node) :
    Types A K (i.localType d) := by
  unfold localType
  split
  · rename_i hint hhint
    exact i.within_infer (hA.slot hd hhint rfl)
  · refine Attempt.Within.bind (within_ofOption fun _ hv => asked_assignedValue? hA hd hv)
      fun v hv => ?_
    refine (i.within_infer hv).bind fun value hvalue => ?_
    refine Attempt.Within.bind (within_ofOption (fun _ _ => trivial)) fun pattern _ => ?_
    exact within_ofOption fun _ ht => anchored_of_destructure ht hvalue

theorem within_defaultType (hA : i.workspace.Asking A K) (hd : K d.node) :
    Within A K (fun t => ∀ x ∈ t, x.In K) (i.defaultType d) := by
  unfold defaultType
  split
  · rename_i written hwritten
    unfold Decl.defaultType? at hwritten
    split at hwritten
    · cases hwritten
    · exact (i.within_infer (hA.slot hd hwritten rfl)).answer?
  · exact within_pure (by simp)

theorem types_declType (hA : i.workspace.Asking A K) (hd : K d.node) : Types A K (i.declType d) := by
  unfold declType
  split
  · exact types_structType hA hd
  · exact types_aliasType hA hd
  · exact within_pure (anchored_nominalOf hd)
  · exact Attempt.Within.bind (within_ofOption fun _ ho => hA.owner? hd ho) fun _ ho =>
      within_pure (anchored_nominalOf ho)
  · split
    · rename_i written hwritten
      exact i.within_infer (hA.slot hd hwritten rfl)
    · exact types_inferSlot hA hd .value rfl
  · exact types_fieldType hA hd
  · exact types_fieldType hA hd
  · exact types_parameterType hA hd
  · exact (within_defaultType hA hd).bind fun default hdefault =>
      within_pure ((Ty.anchored_typeParam _ _).mpr ⟨anchored_nominalOf hd, hdefault⟩)
  · exact types_localType hA hd
  · refine within_pure ?_
    split <;> trivial
  all_goals exact types_functionType hA hd

theorem types_builtinType (hA : i.workspace.Asking A K) (n : Node) (name : String) :
    Types A K (i.builtinType n name) := by
  unfold builtinType
  dsimp only
  split
  · rename_i d hd
    obtain ⟨index, hindex, hd⟩ := List.exists_of_findSome?_eq_some hd
    obtain ⟨file, -, hindex⟩ := List.mem_filterMap.mp hindex
    have hKd := hA.named hindex (List.mem_of_mem_head? hd)
    exact (types_declType hA hKd).getD ((Ty.anchored_builtin _).mpr (Nominal.anchored_none _))
  · exact within_pure ((Ty.anchored_builtin _).mpr (Nominal.anchored_none _))

/-! ### Type expressions -/

theorem types_namedType (hA : i.workspace.Asking A K) (hn : A n) : Types A K (i.namedType n) := by
  unfold namedType
  dsimp only
  split
  · refine Attempt.Within.bind (within_ofOption fun _ hf =>
      hA.enclosingFunction? (hA.known hn) hf) fun _ hf => ?_
    exact Attempt.Within.bind (within_ofOption fun _ hr => hA.receiverType hf hr)
      fun _ hr => i.within_infer hr
  · split
    · rename_i primitive hprimitive
      exact within_pure (Ty.hereditary_anchored.of_ofName? hprimitive)
    · exact (i.within_resolve hn).bind fun _ hd => types_declType hA hd

theorem types_unionType (h : ∀ c ∈ n.children, A c) : Types A K (i.unionType n) :=
  (within_mapM fun c hc => i.within_infer (h c hc)).bind fun _ hts =>
    within_pure (Ty.stable_anchored.unionOf hts)

variable {P : Decl → Prop}

theorem within_listedTypes {list : Option Node} (h : ∀ l ∈ list, ∀ c ∈ l.children, A c) :
    Within A K (fun ts => ∀ t ∈ ts, t.In K) (i.listedTypes list) := by
  unfold listedTypes
  split
  · exact within_inferChildren (h _ rfl)
  · exact within_pure (by simp)

theorem types_instantiatedType (hA : i.workspace.Asking A K) (hn : K n)
    (hkind : n.kind = .instantiatedType) : Types A K (i.instantiatedType n) := by
  refine Attempt.Within.bind (within_ofOption fun _ hm => hA.generic hn hkind hm) fun name hname => ?_
  refine (i.within_infer hname).bind fun base hbase => ?_
  refine (within_listedTypes fun _ hl _ hc => hA.argument hn hkind rfl hl hc).bind
    fun args hargs => ?_
  refine (i.within_resolve hname).answer?.bind fun d hd => ?_
  split
  · exact within_pure (Ty.stable_anchored.instantiate _ hbase hargs)
  · exact within_pure ((Ty.anchored_instantiation _ _).mpr ⟨hbase.unwrapInstantiation, hargs⟩)

theorem types_callableType (hA : i.workspace.Asking A K) (hn : K n) :
    Types A K (i.callableType n) := by
  refine Attempt.Within.bind (within_ofOption fun _ hm => hA.slot hn hm rfl) fun list hlist => ?_
  refine (types_inferSlot hA hn .returnType rfl).bind fun result hresult => ?_
  refine (i.within_infer hlist).bind fun params hparams => ?_
  split
  · exact within_pure ((Ty.anchored_function _ _).mpr
      ⟨(Ty.anchored_tensor _).mp hparams, hresult⟩)
  · exact within_pure ((Ty.anchored_function _ _).mpr ⟨by simpa using hparams, hresult⟩)

/-! ### Expressions -/

theorem types_ternaryType (hA : i.workspace.Asking A K) (hn : K n) : Types A K (i.ternaryType n) := by
  refine (types_inferSlot hA hn .consequence rfl).answer?.bind fun s hs => ?_
  refine (types_inferSlot hA hn .alternative rfl).answer?.bind fun t ht => ?_
  split
  · exact within_ofOption ht
  · exact within_pure (hs _ rfl)
  · exact within_pure (ht _ rfl).nullable
  · exact within_pure (hs _ rfl).nullable
  · exact within_pure (hs _ rfl)

theorem types_binaryType (hA : i.workspace.Asking A K) (hn : K n) : Types A K (i.binaryType n) := by
  refine Attempt.Within.bind (within_ofOption (fun _ _ => trivial)) fun operator _ => ?_
  dsimp only
  split
  · exact within_pure trivial
  · split
    · exact within_pure trivial
    · split
      · refine (types_inferSlot hA hn .left rfl).bind fun left hleft => ?_
        exact (types_inferSlot hA hn .right rfl).bind fun right hright =>
          within_pure (hleft.unwrapOption.join hright)
      · exact types_inferSlot hA hn .left rfl

theorem types_unaryType (hA : i.workspace.Asking A K) (hn : K n) : Types A K (i.unaryType n) := by
  refine Attempt.Within.bind (within_ofOption (fun _ _ => trivial)) fun operator _ => ?_
  dsimp only
  split
  · exact within_pure trivial
  · split
    · exact within_pure trivial
    · exact types_inferSlot hA hn .argument rfl

theorem anchored_appliedArguments {t : Ty} (ht : t.Anchored P) :
    (appliedArguments t).Binds (Ty.Anchored P) := by
  have hu := ht.unwrapOption
  unfold appliedArguments
  split
  · rename_i inner args heq
    rw [heq, Ty.anchored_instantiation] at hu
    split
    · exact Substitution.binds_ofList fun b hb => hu.2 _ (List.of_mem_zip hb).2
    · exact Substitution.binds_empty
  · exact Substitution.binds_empty

theorem types_memberType (hA : i.workspace.Asking A K) (hn : K n) : Types A K (i.memberType n) := by
  refine Attempt.Within.bind (within_ofOption fun _ hm => hA.slot hn hm rfl) fun member hmember => ?_
  split
  · refine Attempt.Within.bind (within_ofOption (fun _ _ => trivial)) fun index _ => ?_
    refine (types_inferSlot hA hn .obj rfl).bind fun object hobject => within_ofOption fun t ht => ?_
    obtain ⟨elements, helements, ht⟩ := Option.bind_eq_some_iff.mp ht
    exact hobject.elements? helements t (List.mem_of_getElem? ht)
  · refine (i.within_resolve hmember).bind fun d hd => (types_declType hA hd).bind fun t ht => ?_
    refine (types_inferSlot hA hn .obj rfl).answer?.bind fun object hobject => ?_
    split
    · exact within_pure (ht.substitute (anchored_appliedArguments (hobject _ rfl)))
    · exact within_pure ht

theorem asked_calleeParts? (hA : i.workspace.Asking A K) {callee : Node} (hc : A callee)
    {parts : Node × Option Node} (h : calleeParts? callee = some parts) :
    A parts.1 ∧ ∀ l ∈ parts.2, ∀ c ∈ l.children, A c := by
  fun_induction calleeParts? callee generalizing parts with
  | case1 callee hkind =>
      cases h
      exact ⟨hc, by simp⟩
  | case2 callee hkind =>
      obtain ⟨field, hfield, heq⟩ := Option.map_eq_some_iff.mp h
      cases heq
      exact ⟨hA.slot (hA.known hc) hfield rfl, by simp⟩
  | case3 callee hkind inner hinner ih =>
      obtain ⟨inner', hparts, heq⟩ := Option.map_eq_some_iff.mp h
      cases heq
      exact ⟨(ih (hA.slot (hA.known hc) hinner rfl) hparts).1,
        fun _ hl _ => hA.argument (hA.known hc) hkind rfl hl⟩
  | case4 | case5 => cases h

theorem asked_calleeObject? (hA : i.workspace.Asking A K) {callee : Node} (hc : A callee) :
    ∀ o ∈ calleeObject? callee, A o := by
  fun_induction calleeObject? callee with
  | case1 callee hkind => exact fun o ho => hA.slot (hA.known hc) ho rfl
  | case2 callee hkind inner hinner ih => exact ih (hA.slot (hA.known hc) hinner rfl)
  | case3 | case4 => exact fun _ ho => nomatch ho

theorem within_namesType {object : Node} (ho : A object) :
    Within A K (fun _ => True) (i.namesType object) := by
  unfold namesType
  split
  · exact (i.within_resolve ho).answer?.bind fun _ _ => within_pure trivial
  · exact (i.within_resolve ho).answer?.bind fun _ _ => within_pure trivial
  · exact within_pure trivial
  · exact within_pure trivial

theorem within_passesSelf {object : Option Node} (ho : ∀ o ∈ object, A o) :
    Within A K (fun _ => True) (i.passesSelf object) := by
  unfold passesSelf
  split
  · exact (within_namesType (ho _ rfl)).bind fun _ _ => within_pure trivial
  · exact within_pure trivial

theorem types_resultType (hA : i.workspace.Asking A K) (hd : K d.node) :
    Types A K (i.resultType d) := by
  unfold resultType
  split
  · rename_i written hwritten
    exact i.within_infer (hA.slot hd hwritten rfl)
  · refine (types_declType hA hd).bind fun t ht => ?_
    split
    · exact within_pure ((Ty.anchored_function _ _).mp ht).2
    · exact within_failure

theorem within_typeParameterTypes (hA : i.workspace.Asking A K) (hd : K d.node) :
    Within A K (fun ts => ∀ t ∈ ts, t.In K) (i.typeParameterTypes d) :=
  within_mapM fun _ hp => i.within_inferOrUnknown (hA.typeParameter hd hp)

/-- The rule asks only about nodes in `A`, and its substitution binds types in `K`. -/
abbrev Binds (A K : Node → Prop) (a : Attempt Substitution) : Prop :=
  Within A K (fun σ => σ.Binds (Ty.In K)) a

theorem binds_deduceReceiver (hA : i.workspace.Asking A K) {σ : Substitution}
    (hσ : σ.Binds (Ty.In K)) (hd : K d.node) {object : Option Node}
    (ho : ∀ o ∈ object, A o) : Binds A K (i.deduceReceiver σ d object) := by
  unfold deduceReceiver
  split
  · rename_i receiver o hreceiver
    refine (i.within_infer (hA.receiverType hd hreceiver)).answer?.bind fun p hp => ?_
    refine (i.within_infer (ho o rfl)).answer?.bind fun a ha => ?_
    split
    · exact within_pure (Ty.stable_anchored.deduce hσ (hp _ rfl) (ha _ rfl))
    · exact within_pure hσ
  · exact within_pure hσ

theorem binds_deduceArguments (hA : i.workspace.Asking A K) {σ : Substitution}
    (hσ : σ.Binds (Ty.In K)) {pairs : List (Node × Node)}
    (hpairs : ∀ p ∈ pairs, K p.1 ∧ A p.2) : Binds A K (i.deduceArguments σ pairs) := by
  induction pairs generalizing σ with
  | nil => exact within_pure hσ
  | cons pair pairs ih =>
      obtain ⟨param, arg⟩ := pair
      rw [List.forall_mem_cons] at hpairs
      have hdeclared : Within A K (fun t => ∀ x ∈ t, x.In K) (i.writtenParameterType param) := by
        unfold writtenParameterType
        split
        · rename_i written hwritten
          exact (i.within_infer (hA.slot hpairs.1.1 hwritten rfl)).answer?
        · exact within_pure (by simp)
      rw [deduceArguments]
      refine hdeclared.bind fun p hp => (i.within_infer hpairs.1.2).answer?.bind fun a ha => ?_
      split
      · exact ih (Ty.stable_anchored.deduce hσ (hp _ rfl) (ha _ rfl)) hpairs.2
      · exact ih hσ hpairs.2

theorem binds_writtenArguments (hA : i.workspace.Asking A K) (hd : K d.node) {list : Option Node}
    (hlist : ∀ l ∈ list, ∀ c ∈ l.children, A c) : Binds A K (i.writtenArguments d list) := by
  unfold writtenArguments
  split
  · refine (within_typeParameterTypes hA hd).bind fun params _ => ?_
    exact (within_inferChildren (hlist _ rfl)).bind fun args hargs =>
      within_pure (Substitution.binds_ofParams hargs)
  · exact within_pure Substitution.binds_empty

theorem asked_callArgument (hA : i.workspace.Asking A K) (hn : K n) {arg : Node}
    (h : arg ∈ ((n.child? .arguments).map (·.childrenOfKind .callArgument)).getD []) : A arg :=
  hA.kind (hA.listed hn h) (Node.kind_of_listed h) rfl

theorem types_genericCallType (hA : i.workspace.Asking A K) (hn : K n) {callee : Node}
    (hc : A callee) {target : Decl} (ht : K target.node) {written : Option Node}
    (hwritten : ∀ l ∈ written, ∀ c ∈ l.children, A c) {result : Ty} (hresult : result.In K) :
    Types A K (i.genericCallType n callee target written result) := by
  have hobject := asked_calleeObject? hA hc
  unfold genericCallType
  dsimp only
  split
  · exact Attempt.Within.bind (within_ofOption hobject) fun _ ho => i.within_infer ho
  · refine (binds_writtenArguments hA ht hwritten).bind fun σ₁ h₁ => ?_
    refine (binds_deduceReceiver hA h₁ ht hobject).bind fun σ₂ h₂ => ?_
    refine (within_passesSelf hobject).bind fun skipSelf _ => ?_
    refine (binds_deduceArguments hA h₂ fun pair hpair => ?_).bind fun σ₃ h₃ => ?_
    · have hmem := List.of_mem_zip hpair
      exact ⟨hA.parametersFor ht _ hmem.1, asked_callArgument hA hn hmem.2⟩
    · split
      · exact within_failure
      · exact within_pure (hresult.substitute h₃)

theorem types_callType (hA : i.workspace.Asking A K) (hn : K n) : Types A K (i.callType n) := by
  refine Attempt.Within.bind (within_ofOption fun _ hm => hA.slot hn hm rfl) fun callee hc => ?_
  refine Attempt.Within.bind (within_ofOption fun _ hparts =>
    asked_calleeParts? hA hc hparts) fun parts hparts => ?_
  refine (i.within_resolve hparts.1).bind fun target ht => ?_
  split
  · refine (types_resultType hA ht).bind fun result hresult => ?_
    split
    · exact types_genericCallType hA hn hc ht hparts.2 hresult
    · exact within_pure hresult
  · refine (types_declType hA ht).bind fun t ht' => ?_
    have hu := ht'.unwrapAlias
    split
    · rename_i heq
      rw [heq, Ty.anchored_function] at hu
      exact within_pure hu.2
    · exact within_failure

theorem types_genericInstantiationType (hA : i.workspace.Asking A K) (hn : K n)
    (hkind : n.kind = .genericInstantiation) : Types A K (i.genericInstantiationType n) := by
  refine Attempt.Within.bind (within_ofOption fun _ hm => hA.slot hn hm rfl) fun expr he => ?_
  refine Attempt.Within.bind (within_ofOption fun _ hparts =>
    asked_calleeParts? hA he hparts) fun parts hparts => ?_
  refine (i.within_resolve hparts.1).bind fun target ht => ?_
  refine (within_listedTypes fun _ hl _ hc => hA.argument hn hkind rfl hl hc).bind
    fun args hargs => ?_
  split
  · refine (i.within_infer he).bind fun t ht' => ?_
    exact (within_typeParameterTypes hA ht).bind fun params _ =>
      within_pure (ht'.substitute (Substitution.binds_ofParams hargs))
  · exact (types_declType hA ht).bind fun base hbase =>
      within_pure (Ty.stable_anchored.instantiate _ hbase hargs)

theorem types_expectedArgument (hA : i.workspace.Asking A K) (hn : K n) :
    Types A K (i.expectedArgument n) := by
  refine Attempt.Within.bind (within_ofOption fun _ hp => hA.parent hn hp) fun list hlist => ?_
  refine Attempt.Within.bind (within_ofOption fun _ hp => hA.parent hlist
    (Option.filter_eq_some_iff.mp hp).1) fun call hcall => ?_
  refine Attempt.Within.bind (within_ofOption (fun _ _ => trivial)) fun position _ => ?_
  refine Attempt.Within.bind (within_ofOption fun _ hm => hA.slot hcall hm rfl) fun callee hc => ?_
  refine Attempt.Within.bind (within_ofOption fun _ hparts =>
    asked_calleeParts? hA hc hparts) fun parts hparts => ?_
  refine (i.within_resolve hparts.1).bind fun target ht => ?_
  split
  · refine (within_passesSelf (asked_calleeObject? hA hc)).bind fun skipSelf _ => ?_
    refine Attempt.Within.bind (within_ofOption fun p hp =>
      hA.parametersFor ht p (List.mem_of_getElem? hp)) fun param hparam => ?_
    refine Attempt.Within.bind (within_ofOption fun _ hm => hA.slot hparam hm rfl)
      fun written hwritten => ?_
    exact (i.within_infer hwritten).bind fun t ht => within_pure ht.unwrapAlias
  · exact within_failure

theorem types_expectedEntry (h : ∀ c, n.child? .name = some c → A c) :
    Types A K (i.expectedEntry n) := by
  refine (types_inferChild h).bind fun t ht => ?_
  have hu := ht.unwrapAlias
  split
  · rename_i variants heq
    rw [heq, Ty.anchored_union] at hu
    exact within_ofOption fun v hv => hu v (List.mem_of_find?_eq_some hv)
  · exact within_pure hu

theorem types_objectLiteralType (hA : i.workspace.Asking A K) (hn : K n)
    (hkind : n.kind = .objectLiteral) : Types A K (i.objectLiteralType n) := by
  unfold objectLiteralType
  split
  · rename_i written hwritten
    exact i.within_infer (hA.slot hn hwritten rfl)
  · refine Attempt.Within.bind (within_ofOption fun p (hp : n.parent? = some p) =>
      (⟨hA.parent hn hp, hp⟩ : K p ∧ n.parent? = some p)) fun parent ⟨hp, hparent⟩ => ?_
    split
    · refine Attempt.Within.bind (within_ofOption fun _ hm => hA.child? hp
        (Option.filter_eq_some_iff.mp hm).1) fun declared hdeclared => ?_
      exact types_inferSlot hA hdeclared .typeExpr rfl
    · exact types_expectedArgument hA hp
    · rename_i hentry
      exact types_expectedEntry fun _ hc => hA.expected hn hkind hparent hentry hc
    · refine Attempt.Within.bind (within_ofOption fun _ hf => hA.enclosingFunction? hp hf)
        fun function hf => ?_
      exact types_inferSlot hA hf .returnType rfl
    · exact within_failure

theorem types_matchType (hA : i.workspace.Asking A K) (hn : K n) : Types A K (i.matchType n) := by
  refine (i.within_inferSome fun body hbody => ?_).bind fun ts hts =>
    within_ofOption fun t ht => Ty.stable_anchored.of_joinList? ht hts
  obtain ⟨arm, harm, hbody⟩ := List.mem_filterMap.mp (List.mem_filter.mp hbody).1
  exact hA.slot (hA.childrenIn hn harm) hbody rfl

/-- The rule for a node that is asked about asks only about such nodes. -/
theorem types_nodeType (hA : i.workspace.Asking A K) (hn : A n) : Types A K (i.nodeType n) := by
  have hK := hA.known hn
  have child := fun slot hslot => types_inferSlot hA hK slot hslot (i := i)
  have declared := Attempt.Within.bind (A := A) (K := K) (within_ofOption fun _ hd =>
    Workspace.Closed.ofNode? hK hd) fun _ hd => types_declType hA hd (i := i)
  unfold nodeType
  split
  -- The rules that have a lemma of their own.
  case h_3 => exact types_ternaryType hA hK
  case h_4 => exact types_binaryType hA hK
  case h_5 => exact types_unaryType hA hK
  case h_10 => exact (child .inner rfl).bind fun _ ht => within_pure ht.unwrapOption
  case h_11 => exact types_memberType hA hK
  case h_12 => exact types_callType hA hK
  case h_13 hkind => exact types_genericInstantiationType hA hK hkind
  case h_14 hkind => exact types_objectLiteralType hA hK hkind
  case h_15 hkind =>
    exact (within_inferChildren fun _ => hA.part hK hkind rfl).bind fun _ hts =>
      within_pure ((Ty.anchored_tensor _).mpr hts)
  case h_16 hkind =>
    exact (within_inferChildren fun _ => hA.part hK hkind rfl).bind fun _ hts =>
      within_pure ((Ty.anchored_tuple _).mpr hts)
  case h_17 => exact types_matchType hA hK
  case h_19 hkind =>
    split
    · rename_i value hvalue
      exact i.within_infer (hA.slot hK hvalue rfl)
    · exact types_inferChild fun _ hc => hA.entry hn hkind hc
  case h_21 => exact types_builtinType hA n "slice"
  case h_24 => exact (i.within_resolve hn).bind fun _ hd => types_declType hA hd
  case h_25 => exact types_namedType hA hn
  case h_26 => exact (child .inner rfl).bind fun _ ht => within_pure ht.nullable
  case h_27 hkind => exact types_unionType fun _ => hA.part hK hkind rfl
  case h_28 hkind =>
    exact (within_inferChildren fun _ => hA.part hK hkind rfl).bind fun _ hts =>
      within_pure ((Ty.anchored_tensor _).mpr hts)
  case h_29 hkind =>
    exact (within_inferChildren fun _ => hA.part hK hkind rfl).bind fun _ hts =>
      within_pure ((Ty.anchored_tuple _).mpr hts)
  case h_31 hkind => exact types_instantiatedType hA hK hkind
  case h_32 => exact types_callableType hA hK
  -- The others take the type of a child or of the declaration, have a fixed type or none.
  all_goals first
    | with_reducible exact child _ rfl
    | with_reducible exact declared
    | exact within_pure trivial
    | exact within_failure

end Inference

end TolkAnalysis
