import TolkAnalysis.Proofs.Resolution.Offer

/-!
# What a look-up finds

One lemma for each step of a search: it asks only about nodes that rules ask about,
and what it collects was offered in one of the places of `Lookup.Offers` and fits. `Lookup.collects_search` is the same for the whole
search, and `Resolution.within_first` for the question what a node refers to.
-/

namespace TolkAnalysis

variable {A K : Node → Prop}

theorem sizedTypeFamily?_mem {name family : String} (h : sizedTypeFamily? name = some family) :
    family ∈ sizedTypeFamilies.map Prod.snd := by
  obtain ⟨⟨lead, family'⟩, hmem, h⟩ := List.exists_of_findSome?_eq_some h
  dsimp only at h
  split at h
  · obtain ⟨-, h⟩ := Option.ite_none_right_eq_some.mp h
    cases h
    exact List.mem_map_of_mem hmem
  · cases h

namespace Lookup

open Search (Within within_pure within_forM within_resolve within_infer)

/-- The search asks only about nodes in `A`, and all that it collects is found. -/
abbrev Collects (A K : Node → Prop) (l : Lookup) (q : Search Unit) : Prop :=
  Within A K (l.Finds K) (fun _ => True) q

variable {l : Lookup} {s : LookupState}

/-! ### States -/

theorem wanted_empty : l.wanted .empty = l.name := by
  simp [wanted, LookupState.searchName?, LookupState.get?, LookupState.empty]

theorem wants_empty : l.Wants (l.wanted .empty) := .inl wanted_empty

/-- A look-up of a name that does not stand after a dot looks for the family of
the name if it has one, and else for the name. -/
theorem wanted_unqualifiedState :
    l.wanted l.unqualifiedState = (sizedTypeFamily? l.element.text).getD l.name := by
  have hkey : (LookupState.dotQualifierKey == LookupState.searchNameKey) = false := by decide
  unfold wanted unqualifiedState LookupState.searchName? LookupState.get?
  cases sizedTypeFamily? l.element.text with
  | none => simp [LookupState.withValue, LookupState.empty, hkey]
  | some family => simp only [LookupState.withValue, Std.HashMap.getElem?_insert, hkey,
      Bool.false_eq_true, if_false, beq_self_eq_true, if_true, Option.getD_some]

theorem wants_unqualifiedState : l.Wants (l.wanted l.unqualifiedState) := by
  rw [wanted_unqualifiedState]
  cases h : sizedTypeFamily? l.element.text with
  | none => exact .inl rfl
  | some family => exact .inr h

/-! ### Steps of a search -/

theorem collects_offerAll (hs : l.Wants (l.wanted s)) {ds : List Decl}
    (h : ∀ d ∈ ds, l.Offers K d) : l.Collects A K (l.offerAll s ds) :=
  l.within_offerAll fun d hd hfits => ⟨h d hd, _, hs, hfits⟩

theorem collects_offer (hs : l.Wants (l.wanted s)) {d : Decl} (h : l.Offers K d) :
    l.Collects A K (l.offer s d) :=
  l.within_offerNamed fun hfits => ⟨h, _, hs, hfits⟩

theorem collects_pure : l.Collects A K (pure ()) := within_pure trivial

theorem Collects.seq {q q' : Search Unit} (hq : l.Collects A K q) (hq' : l.Collects A K q') :
    l.Collects A K (q >>= fun _ => q') := hq.bind fun _ _ => hq'

/-! ### Names in scopes -/

theorem collects_searchParameters (hs : l.Wants (l.wanted s)) {function : Node}
    (hscope : function ∈ l.element :: l.element.ancestors)
    (hkind : function.kind.isFunctionLike = true) :
    l.Collects A K (l.searchParameters s function) := by
  unfold searchParameters
  split
  · refine collects_offerAll hs fun d hd => ?_
    obtain ⟨p, hp, hd⟩ := List.mem_filterMap.mp hd
    exact .parameter hscope hkind hp hd
  · exact collects_pure

theorem within_receiverTypeParameters (hA : l.workspace.Asking A K) (hn : K l.element)
    {function : Node} (hscope : function ∈ l.element :: l.element.ancestors) {d : Decl}
    (hd : Decl.ofNode? function = some d) :
    Within A K (l.Finds K) (fun ns => ∀ n ∈ ns, l.Offers K (.implicitTypeParameter n))
      (d.receiverTypeParameters l.resolve) := by
  have hKd := Workspace.Closed.ofNode? (closed_scope hA.toClosed hn hscope) hd
  unfold Decl.receiverTypeParameters
  split
  · rename_i receiver hreceiver
    refine Search.within_filterM (fun n hmem => ?_) fun n hmem => ?_
    · have hKn := hA.preorder (hA.receiverType? hKd hreceiver) n (List.mem_filter.mp hmem).1
      have hkind := beq_iff_eq.mp (List.mem_filter.mp hmem).2
      exact (within_resolve l (hA.kind hKn hkind rfl)).bind fun _ _ =>
        within_pure trivial
    · obtain ⟨hmem, hkind⟩ := List.mem_filter.mp hmem
      exact .receiver hscope hd hreceiver hmem (beq_iff_eq.mp hkind)
  · exact within_pure (by simp)

theorem collects_searchReceiverParameters (hA : l.workspace.Asking A K) (hn : K l.element)
    (hs : l.Wants (l.wanted s)) {function : Node}
    (hscope : function ∈ l.element :: l.element.ancestors) :
    l.Collects A K (l.searchReceiverParameters s function) := by
  unfold searchReceiverParameters
  split
  · rename_i d hd
    refine (within_receiverTypeParameters hA hn hscope hd).bind fun ns hns =>
      collects_offerAll hs fun d' hd' => ?_
    obtain ⟨n, hmem, rfl⟩ := List.mem_map.mp hd'
    exact hns n hmem
  · exact collects_pure

theorem collects_searchScope (hA : l.workspace.Asking A K) (hn : K l.element)
    (hs : l.Wants (l.wanted s)) {scope : Node}
    (hscope : scope ∈ l.element :: l.element.ancestors) (inner : Option Node) :
    l.Collects A K (l.searchScope s scope inner) := by
  unfold searchScope
  split
  · rename_i hkind
    exact (collects_searchParameters hs hscope hkind).seq <|
      (collects_offerAll hs fun _ hd => .typeParameter hscope hd).seq <|
      collects_searchReceiverParameters hA hn hs hscope
  · split
    · exact collects_offerAll hs fun _ hd => .typeParameter hscope hd
    · split
      · exact collects_offerAll hs fun _ hd => .shown hscope hd
      · exact collects_pure

theorem collects_searchOutward (hA : l.workspace.Asking A K) (hn : K l.element)
    (hs : l.Wants (l.wanted s)) {scopes : List Node}
    (hscopes : ∀ scope ∈ scopes, scope ∈ l.element :: l.element.ancestors) (inner : Option Node) :
    l.Collects A K (l.searchOutward s inner scopes) := by
  induction scopes generalizing inner with
  | nil => exact collects_pure
  | cons scope scopes ih =>
      rw [List.forall_mem_cons] at hscopes
      exact (collects_searchScope hA hn hs hscopes.1 inner).seq (ih hscopes.2 (some scope))

theorem collects_searchLiteral (hA : l.workspace.Asking A K) (hn : K l.element)
    (hs : l.Wants (l.wanted s)) : l.Collects A K (l.searchLiteral s) := by
  unfold searchLiteral
  split
  · split
    · rename_i literal hliteral
      have hkind := Node.kind_of_ancestorOfKind? hliteral
      have hKl := hA.ancestorOfKind? hn hliteral
      refine (within_infer l (hA.kind hKl hkind rfl)).bind fun t ht => ?_
      cases t with
      | none => exact collects_pure
      | some t =>
          refine collects_offerAll hs fun d hd => ?_
          cases hanchor : t.baseType.anchor? with
          | none => simp [hanchor] at hd
          | some owner =>
              simp only [hanchor, Option.map_some, Option.getD_some] at hd
              exact .field ((ht t rfl).baseType.anchor? hanchor) hd
    · exact collects_pure
  · exact collects_pure

theorem collects_searchFiles (hs : l.Wants (l.wanted s)) : l.Collects A K (l.searchFiles s) := by
  refine within_forM fun index hindex => ?_
  obtain ⟨file, -, hindex⟩ := List.mem_filterMap.mp hindex
  exact within_forM fun _ _ => collects_offerAll hs fun _ hd => .top hindex hd

theorem collects_searchUnqualified (hA : l.workspace.Asking A K) (hn : K l.element) :
    l.Collects A K l.searchUnqualified := by
  have hs := wants_unqualifiedState (l := l)
  unfold searchUnqualified
  split
  · exact collects_pure
  · refine Collects.seq ?_ (Collects.seq ?_ ((collects_searchFiles hs).seq ?_))
    · unfold searchEntry
      split
      · exact collects_searchLiteral hA hn hs
      · exact collects_pure
    · unfold searchAround
      split
      · exact collects_pure
      · exact collects_searchOutward hA hn hs (fun _ h => h) none
    · unfold searchIntroduced
      split
      · rename_i h
        rw [Bool.and_eq_true, beq_iff_eq] at h
        exact collects_offer hs (.ownReceiver h.1 h.2)
      · exact collects_pure

/-! ### Names after a dot -/

variable {P : Decl → Prop}

theorem within_isReceiverTypeParameter {receiver : Node} (hr : A receiver) :
    Within A K P (fun _ => True) (l.isReceiverTypeParameter receiver) :=
  (within_resolve l hr).bind fun _ _ => within_pure trivial

theorem within_receiverMatches (hA : l.workspace.Asking A K) {receiver : Node} (hr : K receiver)
    (t : Ty) : Within A K P (fun _ => True) (l.receiverMatches t receiver) := by
  fun_induction receiverMatches l t receiver with
  | case1 t receiver hkind =>
      refine (within_isReceiverTypeParameter (hA.kind hr hkind rfl)).bind fun b _ => ?_
      split <;> exact within_pure trivial
  | case2 t receiver hkind =>
      refine (within_infer l (hA.kind hr hkind rfl)).bind fun t' _ => ?_
      split
      · split <;> exact within_pure trivial
      · exact within_pure trivial
  | case3 t receiver hkind inner hinner t' ht' ih => exact ih (hA.child? hr hinner)
  | case4 | case5 | case6 => exact within_pure trivial

theorem within_isReceiverNamed (hA : l.workspace.Asking A K) {receiver : Node} (hr : K receiver)
    (name : String) : Within A K P (fun _ => True) (l.isReceiverNamed name receiver) := by
  unfold isReceiverNamed
  split
  · rename_i hkind
    split
    · exact within_pure trivial
    · exact within_isReceiverTypeParameter (hA.kind hr hkind rfl)
  · exact within_pure trivial
  · exact within_pure trivial

/-- A method is listed in a file. -/
theorem exists_index_of_mem_methods {kind : DeclKind} {m : Decl × Node}
    (h : m ∈ l.methods kind) : ∃ file index, l.workspace.index? file = some index ∧
      m.1 ∈ index.elements .methods ∧ m.1.receiverType? = some m.2 := by
  obtain ⟨d, hd, hr⟩ := List.mem_filterMap.mp h
  obtain ⟨receiver, hreceiver, rfl⟩ := Option.map_eq_some_iff.mp hr
  obtain ⟨index, hindex, hmem⟩ := List.mem_flatMap.mp (List.mem_filter.mp hd).1
  obtain ⟨file, -, hindex⟩ := List.mem_filterMap.mp hindex
  exact ⟨file, index, hindex, hmem, hreceiver⟩

theorem offers_method (hA : l.workspace.Asking A K) {kind : DeclKind} {m : Decl × Node}
    (h : m ∈ l.methods kind) : l.Offers K m.1 ∧ K m.2 := by
  obtain ⟨file, index, hindex, hmem, hreceiver⟩ := exists_index_of_mem_methods h
  exact ⟨.top hindex hmem, hA.receiverType? (hA.element hindex hmem) hreceiver⟩

theorem collects_searchInstanceMethods (hA : l.workspace.Asking A K) (hs : l.Wants (l.wanted s))
    (t : Ty) : l.Collects A K (l.searchInstanceMethods s t) := by
  refine within_forM fun m hm => ?_
  obtain ⟨hoffer, hreceiver⟩ := offers_method hA hm
  refine (within_receiverMatches hA hreceiver t).bind fun b _ => ?_
  split
  · exact collects_offer hs hoffer
  · exact collects_pure

theorem collects_searchStaticMethods (hA : l.workspace.Asking A K) (hs : l.Wants (l.wanted s))
    (name : String) : l.Collects A K (l.searchStaticMethods s name) := by
  refine within_forM fun m hm => ?_
  obtain ⟨hoffer, hreceiver⟩ := offers_method hA hm
  refine (within_isReceiverNamed hA hreceiver name).bind fun b _ => ?_
  split
  · exact collects_offer hs hoffer
  · exact collects_pure

theorem anchor_of_mem_memberSources {t : Ty} (ht : t.In K) {anchor : Option Decl}
    (h : MemberSource.fields anchor ∈ t.memberSources) : ∀ d ∈ anchor, K d.node := by
  fun_induction Ty.memberSources t with
  | case1 n fields =>
      simp only [List.mem_cons, MemberSource.fields.injEq, reduceCtorEq, List.not_mem_nil,
        or_false] at h
      subst h
      exact ((Ty.anchored_struct n fields).mp ht).1
  | case2 n inner ih =>
      simp only [List.mem_cons, reduceCtorEq, false_or] at h
      exact ih ((Ty.anchored_alias n inner).mp ht).2 h
  | case3 inner args cell asCell ih =>
      have hcell : MemberSource.fields anchor ∉ asCell := by
        unfold asCell
        split <;> simp
      simp only [List.mem_cons, reduceCtorEq, List.mem_append, hcell, false_or] at h
      exact ih ((Ty.anchored_instantiation inner args).mp ht).1.unwrapInstantiation h
  | case4 t h1 h2 h3 => simp at h

theorem collects_searchType (hA : l.workspace.Asking A K) (hs : l.Wants (l.wanted s)) {t : Ty}
    (ht : t.In K) : l.Collects A K (l.searchType s t) := by
  refine within_forM fun source hsource => ?_
  cases source with
  | fields anchor =>
      refine collects_offerAll hs fun d hd => ?_
      cases anchor with
      | none => simp at hd
      | some owner => exact .field (anchor_of_mem_memberSources ht hsource owner rfl) hd
  | methods t => exact collects_searchInstanceMethods hA hs t

theorem collects_searchNamedEnum (hA : l.workspace.Asking A K) (hs : l.Wants (l.wanted s))
    (named : Option Decl) {t : Ty} (ht : t.In K) :
    l.Collects A K (l.searchNamedEnum s named t) := by
  have hu := ht.unwrapAlias
  unfold searchNamedEnum
  split
  · rename_i d n heq
    rw [heq, Ty.anchored_enum] at hu
    refine (collects_offerAll hs fun d' hd' => ?_).seq (collects_searchStaticMethods hA hs d.name)
    cases hanchor : n.anchor with
    | none => simp [hanchor] at hd'
    | some owner =>
        simp only [hanchor, Option.map_some, Option.getD_some] at hd'
        exact .member (hu owner hanchor) hd'
  · exact collects_pure

theorem collects_searchQualified (hA : l.workspace.Asking A K) {qualifier : Node}
    (hq : A qualifier) : l.Collects A K (l.searchQualified qualifier) := by
  have hs := wants_empty (l := l)
  have hdecl : Within A K (l.Finds K) (fun _ => True) (l.qualifierDecl qualifier) := by
    unfold qualifierDecl
    split
    · exact (within_resolve l hq).mono fun _ _ => trivial
    · exact within_pure trivial
  unfold searchQualified
  refine hdecl.bind fun named _ => Collects.seq ?_ ((within_infer l hq).bind fun t ht => ?_)
  · unfold searchNamedType
    split
    · split
      · exact collects_searchStaticMethods hA hs _
      · exact collects_pure
    · exact collects_pure
  · cases t with
    | none => exact collects_pure
    | some t =>
        have ht := (ht t rfl).unwrapOption
        dsimp only
        unfold searchQualifierType
        split
        · exact collects_searchStaticMethods hA hs _
        · exact (collects_searchNamedEnum hA hs named ht).seq (collects_searchType hA hs ht)

theorem asked_qualifier? (hA : l.workspace.Asking A K) (hn : K l.element) {qualifier : Node}
    (h : l.qualifier? = some qualifier) : A qualifier := by
  unfold qualifier? at h
  split at h
  · split at h
    · rename_i p hp
      split at h
      · exact hA.slot (hA.parent hn hp) h rfl
      · cases h
    · cases h
  · cases h

/-- All that a look-up collects was offered and fits. -/
theorem collects_search (hA : l.workspace.Asking A K) (hn : K l.element) :
    l.Collects A K l.search := by
  unfold search
  split
  · exact collects_pure
  · split
    · rename_i d hd
      exact collects_offer wants_empty (.ownName hd)
    · split
      · rename_i qualifier hq
        exact collects_searchQualified hA (asked_qualifier? hA hn hq)
      · exact collects_searchUnqualified hA hn

end Lookup

namespace Resolution

variable {w : Workspace} {n : Node}

theorem within_first (hA : w.Asking A K) (hn : K n) :
    (first w n).Within A K fun d => ∀ x ∈ d, (⟨w, n, false⟩ : Lookup).Finds K x := by
  have hrun := Lookup.within_run (Lookup.collects_search (l := ⟨w, n, false⟩) hA hn)
  refine (Query.within_bind ..).mpr (hrun.mono fun ds hds d hd => ?_)
  exact hds d (List.mem_of_mem_head? hd)

theorem mem_distinct {ds : List Decl} : ∀ d ∈ distinct ds, d ∈ ds := by
  have fold : ∀ (ds found all : List Decl), ds ⊆ all → found ⊆ all →
      ds.foldl (fun found d => if found.any (·.isSame d) then found else found ++ [d]) found ⊆
        all := by
    intro ds
    induction ds with
    | nil => exact fun found all _ hfound => hfound
    | cons d ds ih =>
        intro found all hds hfound
        rw [List.cons_subset] at hds
        refine ih _ all hds.2 ?_
        dsimp only
        split
        · exact hfound
        · exact List.append_subset.mpr ⟨hfound, List.cons_subset.mpr ⟨hds.1, by simp⟩⟩
  exact fun d hd => fold ds [] ds (List.Subset.refl _) (by simp) hd

theorem within_every (hA : w.Asking A K) (hn : A n) :
    (every w n).Within A K fun ds => ∀ d ∈ ds, K d.node := by
  unfold every
  split
  · have hrun := Lookup.within_run (Lookup.collects_search (l := ⟨w, n, true⟩) hA (hA.known hn))
    refine (Query.within_bind ..).mpr (hrun.mono fun ds hds d hd => ?_)
    exact (hds d (mem_distinct d hd)).offered.closed hA.toClosed (hA.known hn)
  · refine (Query.within_bind ..).mpr ((Query.within_reference hn).mono fun d hd x hx => ?_)
    exact hd x (Option.mem_toList.mp hx)

end Resolution

end TolkAnalysis
