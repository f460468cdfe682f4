import TolkAnalysis.Proofs.Query.Transcription
import TolkAnalysis.Proofs.Resolution.Found

/-!
# Names in trees that are written in another way

One lemma for each step of the search for a name: it offers the declarations at the same positions
of the other trees, and one of them fits if the other does. A method is found by the name of its
receiver as it is written, which is spelled alike in both trees. `Resolution.along_first` puts the
steps together.
-/

namespace TolkAnalysis

variable {φ : Transcription}

/-! ### Places where members are found -/

/-- The place with other declarations. -/
def MemberSource.reanchor (f : Decl → Decl) : MemberSource → MemberSource
  | .fields anchor => .fields (anchor.map f)
  | .methods t => .methods (t.reanchor f)

theorem Ty.memberSources_reanchor {f : Decl → Decl} (t : Ty) :
    (t.reanchor f).memberSources = t.memberSources.map (MemberSource.reanchor f) := by
  fun_induction memberSources t with
  | case1 n fields => rw [reanchor, memberSources]; rfl
  | case2 n inner ih => rw [reanchor, memberSources, ih]; rfl
  | case3 inner args cell asCell ih =>
      have hcell : (if inner.unwrapInstantiation.name == "Cell" then
          [MemberSource.methods cell, .methods (nullable cell)] else []) =
            asCell.map (MemberSource.reanchor f) := by
        unfold asCell
        split
        · exact congrArg (fun t => [MemberSource.methods cell, .methods t]) (nullable_reanchor cell)
        · rfl
      rw [reanchor, memberSources, unwrapInstantiation_reanchor, ih, name_reanchor]
      rw [List.map_cons, List.map_append, ← hcell]
      rfl
  | case4 t hstruct halias hinst =>
      cases t <;> first
        | exact (hstruct _ _ rfl).elim
        | exact (halias _ _ rfl).elim
        | exact (hinst _ _ rfl).elim
        | simp [reanchor, reanchor_typeParam, memberSources, MemberSource.reanchor]

namespace Lookup

open Search (Along along_pure along_resolve along_infer along_forM along_filterM)

/-- The second look-up is that of the node at the same position of the other tree. -/
structure Along (φ : Transcription) (l l' : Lookup) : Prop where
  workspace : l.workspace.Along φ l'.workspace
  element : l'.element = φ.node l.element
  sameName_element : φ.SameName l.element
  all : l'.all = l.all

/-- The second search collects the declarations at the same positions. -/
abbrev Follows (φ : Transcription) (q q' : Search Unit) : Prop :=
  Search.Along φ (fun _ _ => True) q q'

theorem Follows.seq {q q' k k' : Search Unit} (h : Follows φ q q') (hk : Follows φ k k') :
    Follows φ (do q; k) (do q'; k') := Search.Along.bind h fun _ _ _ => hk

variable {l l' : Lookup} {s : LookupState}

namespace Along

/-! ### Offers -/

theorem sameName (h : l.Along φ l') : Text.SameName l.element.text l'.element.text :=
  h.element ▸ h.sameName_element

theorem wanted (h : l.Along φ l') (s : LookupState) : l'.wanted s = l.wanted s :=
  congrArg s.searchName?.getD h.sameName.name

theorem forTypes (h : l.Along φ l') : l'.forTypes = l.forTypes := by
  rw [Lookup.forTypes, h.element, φ.kind_node, φ.parent?_node, Option.any_map, Lookup.forTypes]
  simp only [φ.kind_node]

theorem fits (h : l.Along φ l') (wanted : String) {d : Decl} (hd : d.Titled) :
    l'.fits wanted (φ.decl d) = l.fits wanted d := by
  rw [Lookup.fits, h.element, φ.node_decl, φ.beq_node, φ.name_decl hd, Lookup.fits]

theorem offerNamed (h : l.Along φ l') (wanted : String) {d : Decl} (hd : d.Titled) :
    Follows φ (l.offerNamed wanted d) (l'.offerNamed wanted (φ.decl d)) := by
  intro found hfound
  unfold Lookup.offerNamed
  rw [h.fits wanted hd, h.all]
  split
  · have hpush : ∀ d' ∈ found.push d, d'.Titled := by
      intro d' hd'
      rcases Array.mem_push.mp hd' with hd' | rfl
      · exact hfound d' hd'
      · exact hd
    cases l.all with
    | true => exact .answer ⟨hpush, Array.map_push.symm, .inl ⟨(), (), trivial, rfl, rfl⟩⟩
    | false => exact .answer ⟨hpush, Array.map_push.symm, .inr ⟨rfl, rfl⟩⟩
  · exact along_pure trivial found hfound

theorem offer (h : l.Along φ l') (s : LookupState) {d : Decl} (hd : d.Titled) :
    Follows φ (l.offer s d) (l'.offer s (φ.decl d)) := by
  unfold Lookup.offer
  rw [h.wanted]
  exact h.offerNamed _ hd

theorem offerAll (h : l.Along φ l') (s : LookupState) {ds : List Decl}
    (hds : ∀ d ∈ ds, d.Titled) : Follows φ (l.offerAll s ds) (l'.offerAll s (ds.map φ.decl)) := by
  unfold Lookup.offerAll
  rw [h.wanted]
  exact along_forM fun d hd => h.offerNamed _ (hds d hd)

/-- The declarations of the nodes of a list. -/
theorem offerNodes (h : l.Along φ l') (s : LookupState) (ns : List Node) :
    Follows φ (l.offerAll s (ns.filterMap Decl.ofNode?))
      (l'.offerAll s ((ns.map φ.node).filterMap Decl.ofNode?)) := by
  rw [φ.filterMap_ofNode?_node]
  exact h.offerAll s fun d hd => Decl.titled_of_mem_filterMap hd

/-! ### Scopes -/

theorem searchParameters (h : l.Along φ l') (s : LookupState) (function : Node) :
    Follows φ (l.searchParameters s function) (l'.searchParameters s (φ.node function)) := by
  unfold Lookup.searchParameters
  rw [h.forTypes, h.sameName.self, φ.child?_node]
  split
  · dsimp only
    rw [φ.getD_map_child? fun list => φ.childrenOfKind_node list _]
    exact h.offerNodes s _
  · exact along_pure trivial

theorem along_receiverTypeParameters (l l' : Lookup) (d : Decl) :
    Search.Along φ (fun ns ns' => ns' = ns.map φ.node) (d.receiverTypeParameters l.resolve)
      ((φ.decl d).receiverTypeParameters l'.resolve) := by
  unfold Decl.receiverTypeParameters
  rw [φ.receiverType?_decl]
  cases d.receiverType? with
  | none => exact along_pure rfl
  | some receiver =>
      rw [Option.map_some]
      dsimp only
      rw [φ.preorder_node, List.filter_map, φ.kind_beq_comp_node]
      refine along_filterM fun n hn => ?_
      have hkind := beq_iff_eq.mp (List.mem_filter.mp hn).2
      refine (along_resolve l l' (.inl (by rw [hkind]; rfl))).bind fun d d' hd => along_pure ?_
      rw [hd.2]
      cases d <;> rfl

theorem searchReceiverParameters (h : l.Along φ l') (s : LookupState) (function : Node) :
    Follows φ (l.searchReceiverParameters s function)
      (l'.searchReceiverParameters s (φ.node function)) := by
  unfold Lookup.searchReceiverParameters
  rw [φ.ofNode?_node]
  cases Decl.ofNode? function with
  | none => exact along_pure trivial
  | some d =>
      refine (along_receiverTypeParameters l l' d).bind fun params params' hparams => ?_
      subst hparams
      have himplicit : (params.map φ.node).map Decl.implicitTypeParameter =
          (params.map Decl.implicitTypeParameter).map φ.decl := by
        rw [List.map_map, List.map_map]
        rfl
      rw [himplicit]
      refine h.offerAll s fun d hd => ?_
      obtain ⟨n, -, rfl⟩ := List.mem_map.mp hd
      exact Decl.titled_implicitTypeParameter n

theorem offerTypeParameters (h : l.Along φ l') (s : LookupState) (owner : Node) :
    Follows φ (l.offerAll s (typeParametersOf owner))
      (l'.offerAll s (typeParametersOf (φ.node owner))) := by
  rw [φ.typeParametersOf_node]
  refine h.offerAll s fun d hd => ?_
  obtain ⟨-, n, -, -, hn⟩ := exists_of_mem_typeParametersOf hd
  exact Decl.titled_of_ofNode? hn

theorem searchFunction (h : l.Along φ l') (s : LookupState) (function : Node) :
    Follows φ (l.searchFunction s function) (l'.searchFunction s (φ.node function)) :=
  (h.searchParameters s function).seq
    ((h.offerTypeParameters s function).seq (h.searchReceiverParameters s function))

theorem titled_of_shownBy {scope : Node} {d : Decl} (h : ShownBy scope d) : d.Titled := by
  cases h with
  | block _ _ _ _ hd | subject _ _ _ _ hd | loop _ _ _ _ _ hd =>
      exact Decl.titled_of_ofNode? hd.ofNode?
  | catchClause _ _ hd => exact Decl.titled_of_ofNode? hd

theorem searchScope (h : l.Along φ l') (s : LookupState) (scope : Node) (inner : Option Node) :
    Follows φ (l.searchScope s scope inner)
      (l'.searchScope s (φ.node scope) (inner.map φ.node)) := by
  unfold Lookup.searchScope
  rw [φ.kind_node, h.forTypes]
  split
  · exact h.searchFunction s scope
  · split
    · exact h.offerTypeParameters s scope
    · split
      · rw [φ.scopeVariables_node]
        exact h.offerAll s fun d hd => titled_of_shownBy (shownBy_of_mem_scopeVariables hd)
      · exact along_pure trivial

theorem searchOutward (h : l.Along φ l') (s : LookupState) (inner : Option Node)
    (scopes : List Node) :
    Follows φ (l.searchOutward s inner scopes)
      (l'.searchOutward s (inner.map φ.node) (scopes.map φ.node)) := by
  induction scopes generalizing inner with
  | nil => exact along_pure trivial
  | cons scope scopes ih => exact (h.searchScope s scope inner).seq (ih (some scope))

theorem searchScopes (h : l.Along φ l') (s : LookupState) :
    Follows φ (l.searchScopes s) (l'.searchScopes s) := by
  have houtward := h.searchOutward s none (l.element :: l.element.ancestors)
  rwa [List.map_cons, ← φ.ancestors_node, ← h.element] at houtward

/-- The fields of the declaration that a type carries. -/
theorem offerFields (h : l.Along φ l') (s : LookupState) (anchor : Option Decl) :
    Follows φ (l.offerAll s ((anchor.map (·.structFields)).getD []))
      (l'.offerAll s (((anchor.map φ.decl).map (·.structFields)).getD [])) := by
  cases anchor with
  | none => exact along_pure trivial
  | some d =>
      simp only [Option.map_some, Option.getD_some, φ.structFields_decl]
      exact h.offerAll s fun f hf => Decl.titled_of_mem_structFields hf

theorem searchLiteral (h : l.Along φ l') (s : LookupState) :
    Follows φ (l.searchLiteral s) (l'.searchLiteral s) := by
  unfold Lookup.searchLiteral
  rw [h.element, φ.slot?_node, φ.ancestorOfKind?_node]
  split
  · cases l.element.ancestorOfKind? .objectLiteral with
    | none => exact along_pure trivial
    | some literal =>
        refine (along_infer l l' literal).bind fun t t' ht => ?_
        subst ht
        cases t with
        | none => exact along_pure trivial
        | some t =>
            rw [Option.map_some]
            dsimp only
            rw [Ty.baseType_reanchor, Ty.anchor?_reanchor]
            exact h.offerFields s _
  · exact along_pure trivial

theorem categories (h : l.Along φ l') (s : LookupState) : l'.categories s = l.categories s := by
  unfold Lookup.categories
  rw [h.forTypes]

theorem searchIndex (h : l.Along φ l') (s : LookupState) {x x' : FileIndex}
    (hx : x.Along φ x') (htitled : ∀ category, ∀ d ∈ x.elements category, d.Titled) :
    Follows φ (l.searchIndex s x) (l'.searchIndex s x') := by
  have hfollows : Follows φ ((l.categories s).forM fun c => l.offerAll s (x.elements c))
      (((l.categories s).map id).forM fun c => l'.offerAll s (x'.elements c)) :=
    along_forM fun c _ => (hx.elements c) ▸ h.offerAll s (htitled c)
  unfold Lookup.searchIndex
  rw [h.categories]
  rwa [List.map_id] at hfollows

theorem searchFiles (h : l.Along φ l') (s : LookupState) :
    Follows φ (l.searchFiles s) (l'.searchFiles s) := by
  unfold Lookup.searchFiles
  rw [h.element, φ.file_node, h.workspace.searchFiles]
  have hindexes := h.workspace.indexes (l.workspace.searchFiles l.element.file)
  have htitled : ∀ index ∈ (l.workspace.searchFiles l.element.file).filterMap l.workspace.index?,
      ∀ category, ∀ d ∈ index.elements category, d.Titled := by
    intro index hindex category d hd
    obtain ⟨file, -, hindex⟩ := List.mem_filterMap.mp hindex
    exact Workspace.Along.titled_of_mem_elements h.workspace.sound hindex hd
  generalize (l.workspace.searchFiles l.element.file).filterMap l.workspace.index? = xs
    at hindexes htitled
  generalize (l.workspace.searchFiles l.element.file).filterMap l'.workspace.index? = xs'
    at hindexes
  induction hindexes with
  | nil => exact along_pure trivial
  | cons hx _ ih =>
      rw [List.forall_mem_cons] at htitled
      exact (h.searchIndex s hx htitled.1).seq (ih htitled.2)

theorem parentKind? (h : l.Along φ l') : l'.parentKind? = l.parentKind? := by
  unfold Lookup.parentKind?
  rw [h.element, φ.parent?_node]
  cases l.element.parent? with
  | none => rfl
  | some p => exact congrArg some (φ.kind_node p)

theorem unqualifiedState (h : l.Along φ l') : l'.unqualifiedState = l.unqualifiedState := by
  unfold Lookup.unqualifiedState
  rw [h.sameName.sized, h.parentKind?]

theorem isInReceiver (h : l.Along φ l') : l'.isInReceiver = l.isInReceiver := by
  rw [Lookup.isInReceiver, h.element, φ.ancestorOfKind?_node, Option.isSome_map,
    Lookup.isInReceiver]

theorem searchEntry (h : l.Along φ l') (s : LookupState) :
    Follows φ (l.searchEntry s) (l'.searchEntry s) := by
  unfold Lookup.searchEntry
  rw [h.parentKind?]
  split
  · exact h.searchLiteral s
  · exact along_pure trivial

theorem searchAround (h : l.Along φ l') (s : LookupState) :
    Follows φ (l.searchAround s) (l'.searchAround s) := by
  unfold Lookup.searchAround
  rw [h.isInReceiver]
  split
  · exact along_pure trivial
  · exact h.searchScopes s

theorem searchIntroduced (h : l.Along φ l') (s : LookupState) :
    Follows φ (l.searchIntroduced s) (l'.searchIntroduced s) := by
  unfold Lookup.searchIntroduced
  rw [h.isInReceiver, h.element, φ.kind_node]
  split
  · exact h.offer s (Decl.titled_implicitTypeParameter _)
  · exact along_pure trivial

theorem searchUnqualified (h : l.Along φ l') :
    Follows φ l.searchUnqualified l'.searchUnqualified := by
  unfold Lookup.searchUnqualified
  rw [h.sameName.blank, h.unqualifiedState]
  split
  · exact along_pure trivial
  · exact (h.searchEntry _).seq ((h.searchAround _).seq
      ((h.searchFiles _).seq (h.searchIntroduced _)))

/-! ### Members -/

theorem isReceiverTypeParameter (l l' : Lookup) {receiver : Node} (hnamed : receiver.Named) :
    Search.Along φ Eq (l.isReceiverTypeParameter receiver)
      (l'.isReceiverTypeParameter (φ.node receiver)) :=
  (along_resolve l l' hnamed).bind fun d d' hd => along_pure (by
    rw [hd.2]
    cases d <;> rfl)

/-- What is written at the name that a receiver is compared by is spelled alike. -/
def Spelled (φ : Transcription) (receiver : Node) : Prop :=
  ∀ n, receiver.receiverName? = some n → (φ.node n).text = n.text

theorem receiverMatches (l l' : Lookup) (t : Ty) {receiver : Node} (h : Spelled φ receiver) :
    Search.Along φ Eq (l.receiverMatches t receiver)
      (l'.receiverMatches (t.reanchor φ.decl) (φ.node receiver)) := by
  fun_induction Lookup.receiverMatches l t receiver with
  | case1 t receiver hkind =>
      have hname : receiver.receiverName? = some receiver := by
        rw [Node.receiverName?, hkind]
      rw [Lookup.receiverMatches.eq_def l', φ.kind_node, hkind]
      dsimp only
      refine (isReceiverTypeParameter l l' (.inl (by rw [hkind]; rfl))).bind fun b b' hb => ?_
      subst hb
      rw [h receiver hname, Ty.name_reanchor]
      cases b <;> exact along_pure rfl
  | case2 t receiver hkind =>
      rw [Lookup.receiverMatches.eq_def l', φ.kind_node, hkind]
      dsimp only
      refine (along_infer l l' receiver).bind fun u u' hu => ?_
      subst hu
      cases u with
      | none => exact along_pure rfl
      | some u =>
          cases u with
          | instantiation declared args =>
              cases t with
              | instantiation inner args' => exact along_pure (by simp only [Ty.name_reanchor])
              | typeParam n default => rw [Ty.reanchor_typeParam]; exact along_pure rfl
              | _ => exact along_pure rfl
          | typeParam n default =>
              rw [Option.map_some, Ty.reanchor_typeParam]
              exact along_pure rfl
          | _ => exact along_pure rfl
  | case3 t receiver hkind inner hinner t' ht' ih =>
      rw [Lookup.receiverMatches.eq_def l', φ.kind_node, hkind]
      dsimp only
      split
      · rename_i inner' hinner'
        rw [φ.child?_node, hinner] at hinner'
        obtain rfl := Option.some.inj hinner'
        rw [Lookup.nullableInner?_reanchor, ht']
        refine ih fun n hn => h n ?_
        rw [Node.receiverName?, hkind]
        dsimp only
        split
        · rename_i inner'' hinner''
          rw [hinner] at hinner''
          rwa [← Option.some.inj hinner'']
        · rename_i hnone
          rw [hinner] at hnone
          cases hnone
      · rename_i hnone
        rw [φ.child?_node, hinner] at hnone
        cases hnone
  | case4 t receiver hkind inner hinner ht' =>
      rw [Lookup.receiverMatches.eq_def l', φ.kind_node, hkind]
      dsimp only
      split
      · rw [Lookup.nullableInner?_reanchor, ht']
        exact along_pure rfl
      · exact along_pure rfl
  | case5 t receiver hkind hinner =>
      rw [Lookup.receiverMatches.eq_def l', φ.kind_node, hkind]
      dsimp only
      split
      · rename_i inner' hinner'
        rw [φ.child?_node, hinner] at hinner'
        cases hinner'
      · exact along_pure rfl
  | case6 t receiver h1 h2 h3 =>
      rw [Lookup.receiverMatches.eq_def l', φ.kind_node]
      split <;> first | contradiction | exact along_pure rfl

theorem isReceiverNamed (l l' : Lookup) (name : String) {receiver : Node}
    (h : Spelled φ receiver) :
    Search.Along φ Eq (l.isReceiverNamed name receiver)
      (l'.isReceiverNamed name (φ.node receiver)) := by
  unfold Lookup.isReceiverNamed
  rw [φ.kind_node]
  split
  · rename_i hkind
    have hname : receiver.receiverName? = some receiver := by
      rw [Node.receiverName?, hkind]
    rw [h receiver hname]
    split
    · exact along_pure rfl
    · exact isReceiverTypeParameter l l' (.inl (by rw [hkind]; rfl))
  · rename_i hkind
    refine along_pure ?_
    have hname : receiver.receiverName? = receiver.child? .name := by
      rw [Node.receiverName?, hkind]
    rw [φ.child?_node]
    cases hchild : receiver.child? .name with
    | none => rfl
    | some n =>
        rw [Option.map_some, Option.any_some, Option.any_some, h n (hname.trans hchild)]
  · exact along_pure rfl

theorem methods (h : l.Along φ l') (kind : DeclKind) :
    l'.methods kind = (l.methods kind).map fun m => (φ.decl m.1, φ.node m.2) := by
  unfold Lookup.methods
  rw [h.element, φ.file_node, h.workspace.methodsFrom, List.filter_map, List.filterMap_map,
    List.map_filterMap]
  refine List.filterMap_congr fun d _ => ?_
  rw [Function.comp_apply, φ.receiverType?_decl, Option.map_map, Option.map_map]
  rfl

theorem of_mem_methods {kind : DeclKind} {m : Decl × Node} (h : l.workspace.Sound)
    (hm : m ∈ l.methods kind) : m.1.Titled ∧ Spelled φ m.2 := by
  obtain ⟨d, hd, hm⟩ := List.mem_filterMap.mp hm
  obtain ⟨receiver, hreceiver, rfl⟩ := Option.map_eq_some_iff.mp hm
  exact ⟨Workspace.Along.titled_of_mem_methodsFrom h (List.mem_filter.mp hd).1,
    fun n hn => φ.text_node (Node.mem_verbatim_receiver hreceiver hn)⟩

theorem searchInstanceMethods (h : l.Along φ l') (s : LookupState) (t : Ty) :
    Follows φ (l.searchInstanceMethods s t) (l'.searchInstanceMethods s (t.reanchor φ.decl)) := by
  unfold Lookup.searchInstanceMethods
  rw [h.methods]
  refine along_forM fun m hm => ?_
  obtain ⟨htitled, hspelled⟩ := of_mem_methods (φ := φ) h.workspace.sound hm
  refine (receiverMatches l l' t hspelled).bind fun b b' hb => ?_
  subst hb
  cases b with
  | true => exact h.offer s htitled
  | false => exact along_pure trivial

theorem searchStaticMethods (h : l.Along φ l') (s : LookupState) (name : String) :
    Follows φ (l.searchStaticMethods s name) (l'.searchStaticMethods s name) := by
  unfold Lookup.searchStaticMethods
  rw [h.methods]
  refine along_forM fun m hm => ?_
  obtain ⟨htitled, hspelled⟩ := of_mem_methods (φ := φ) h.workspace.sound hm
  refine (isReceiverNamed l l' name hspelled).bind fun b b' hb => ?_
  subst hb
  cases b with
  | true => exact h.offer s htitled
  | false => exact along_pure trivial

theorem searchSource (h : l.Along φ l') (s : LookupState) (source : MemberSource) :
    Follows φ (l.searchSource s source) (l'.searchSource s (source.reanchor φ.decl)) := by
  cases source with
  | fields anchor => exact h.offerFields s anchor
  | methods t => exact h.searchInstanceMethods s t

theorem searchType (h : l.Along φ l') (s : LookupState) (t : Ty) :
    Follows φ (l.searchType s t) (l'.searchType s (t.reanchor φ.decl)) := by
  unfold Lookup.searchType
  rw [Ty.memberSources_reanchor]
  exact along_forM fun source _ => h.searchSource s source

theorem qualifierDecl (l l' : Lookup) (qualifier : Node) :
    Search.Along φ (fun d d' => (∀ x ∈ d, x.Titled) ∧ d' = d.map φ.decl)
      (l.qualifierDecl qualifier) (l'.qualifierDecl (φ.node qualifier)) := by
  unfold Lookup.qualifierDecl
  rw [φ.kind_node]
  split
  · rename_i hkind
    refine along_resolve l l' (.inl ?_)
    cases hk : qualifier.kind <;> rw [hk] at hkind <;> first | rfl | cases hkind
  · exact along_pure ⟨nofun, rfl⟩

theorem searchNamedType (h : l.Along φ l') (s : LookupState) {named : Option Decl}
    (hnamed : ∀ d ∈ named, d.Titled) :
    Follows φ (l.searchNamedType s named) (l'.searchNamedType s (named.map φ.decl)) := by
  cases named with
  | none => exact along_pure trivial
  | some d =>
      unfold Lookup.searchNamedType
      rw [Option.map_some]
      dsimp only
      rw [φ.kind_decl, φ.name_decl (hnamed d rfl)]
      split
      · exact h.searchStaticMethods s d.name
      · exact along_pure trivial

theorem searchNamedEnum (h : l.Along φ l') (s : LookupState) {named : Option Decl}
    (hnamed : ∀ d ∈ named, d.Titled) (t : Ty) :
    Follows φ (l.searchNamedEnum s named t)
      (l'.searchNamedEnum s (named.map φ.decl) (t.reanchor φ.decl)) := by
  unfold Lookup.searchNamedEnum
  rw [Ty.unwrapAlias_reanchor]
  cases named with
  | none => exact along_pure trivial
  | some d =>
      cases t.unwrapAlias with
      | enum n =>
          rw [Option.map_some, Ty.reanchor]
          dsimp only
          rw [φ.name_decl (hnamed d rfl)]
          refine Follows.seq ?_ (h.searchStaticMethods s d.name)
          rw [Nominal.anchor_reanchor]
          cases n.anchor with
          | none => exact along_pure trivial
          | some owner =>
              simp only [Option.map_some, Option.getD_some, φ.enumMembers_decl]
              exact h.offerAll s fun m hm => Decl.titled_of_mem_enumMembers hm
      | typeParam n default =>
          rw [Ty.reanchor_typeParam]
          exact along_pure trivial
      | _ => exact along_pure trivial

theorem searchQualifierType (h : l.Along φ l') (s : LookupState) (qualifier : Node)
    {named : Option Decl} (hnamed : ∀ d ∈ named, d.Titled) (t : Ty) :
    Follows φ (l.searchQualifierType s qualifier named t)
      (l'.searchQualifierType s (φ.node qualifier) (named.map φ.decl) (t.reanchor φ.decl)) := by
  unfold Lookup.searchQualifierType
  rw [φ.kind_node, Ty.unwrapInstantiation_reanchor, Ty.name_reanchor]
  split
  · exact h.searchStaticMethods s _
  · exact (h.searchNamedEnum s hnamed t).seq (h.searchType s t)

theorem searchQualified (h : l.Along φ l') (qualifier : Node) :
    Follows φ (l.searchQualified qualifier) (l'.searchQualified (φ.node qualifier)) := by
  refine (qualifierDecl l l' qualifier).bind fun named named' ⟨hnamed, hnamed'⟩ => ?_
  subst hnamed'
  refine (h.searchNamedType _ hnamed).bind fun _ _ _ => ?_
  refine (along_infer l l' qualifier).bind fun t t' ht => ?_
  subst ht
  cases t with
  | none => exact along_pure trivial
  | some t =>
      rw [Option.map_some]
      dsimp only
      rw [Ty.unwrapOption_reanchor]
      exact h.searchQualifierType _ qualifier hnamed _

/-! ### The whole search -/

theorem qualifier? (h : l.Along φ l') : l'.qualifier? = l.qualifier?.map φ.node := by
  unfold Lookup.qualifier?
  rw [h.element, φ.slot?_node, φ.parent?_node]
  split
  · cases l.element.parent? with
    | none => rfl
    | some p =>
        rw [Option.map_some]
        dsimp only
        rw [φ.kind_node, φ.child?_node]
        split <;> rfl
  · rfl

/-- The search for a name collects the declarations at the same positions. -/
theorem search (h : l.Along φ l') : Follows φ l.search l'.search := by
  have hempty : l'.element.span.isEmpty = l.element.span.isEmpty :=
    h.element ▸ φ.isEmpty_span_node l.element
  have hdeclared : Decl.declaredByName? l'.element =
      (Decl.declaredByName? l.element).map φ.decl := h.element ▸ φ.declaredByName?_node l.element
  unfold Lookup.search
  rw [hempty, hdeclared, h.qualifier?]
  split
  · exact along_pure trivial
  · cases hd : Decl.declaredByName? l.element with
    | some d => exact h.offer _ (Decl.titled_of_declaredByName? hd)
    | none =>
        cases l.qualifier? with
        | some qualifier => exact h.searchQualified qualifier
        | none => exact h.searchUnqualified

end Along

/-- What a search collects is found at the same positions. -/
theorem along_run {q q' : Search Unit} (h : Follows φ q q') :
    Query.Along φ (fun ds ds' => (∀ d ∈ ds, d.Titled) ∧ ds' = ds.map φ.decl) (run q) (run q') := by
  unfold run
  have hstart := h #[] (by simp)
  rw [Array.map_empty] at hstart
  refine Query.Along.bind hstart ?_
  rintro ⟨r, found⟩ ⟨r', found'⟩ ⟨hfound, hfound', -⟩
  obtain rfl : found' = found.map φ.decl := hfound'
  exact .answer ⟨fun d hd => hfound d (Array.mem_toList_iff.mp hd), Array.toList_map⟩

end Lookup

namespace Resolution

variable {w w' : Workspace} {n : Node}

/-- A name refers to the declaration at the same position. -/
theorem along_first (h : w.Along φ w') (hn : φ.SameName n) :
    Query.Along φ (fun d d' => (∀ x ∈ d, Decl.Titled x) ∧ d' = d.map φ.decl) (first w n)
      (first w' (φ.node n)) := by
  have hlookup : Lookup.Along φ ⟨w, n, false⟩ ⟨w', φ.node n, false⟩ := ⟨h, rfl, hn, rfl⟩
  refine (Lookup.along_run hlookup.search).bind fun ds ds' ⟨hds, hds'⟩ => .answer ?_
  subst hds'
  rw [List.head?_map]
  exact ⟨fun d hd => hds d (List.mem_of_head? hd), rfl⟩

end Resolution

end TolkAnalysis
