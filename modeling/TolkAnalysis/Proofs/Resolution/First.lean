import TolkAnalysis.Proofs.Inference.Afresh
import TolkAnalysis.Proofs.References.Exact
import TolkAnalysis.Proofs.Resolution.Early
import TolkAnalysis.Proofs.Resolution.Name
import TolkAnalysis.Proofs.Session.Asked

/-!
# The first declaration is the first of all

Only an entry of an object literal that has no value may refer to several declarations: to a field
and to what its name means around the literal. Asked on the same tables, the first of them is what
the entry refers to. The tables are not the same: while a node is asked what it refers to, its
question is in flight. No rule asks about an entry of an object literal, so that makes no difference
to a node of a current tree, as `Session.resolve_eq_head?` says.

The number of an entry of a replaced tree may be the one of a node that the rules ask about
(`Session.not_resolve_eq_head?_of_stale`).
-/

namespace TolkAnalysis

namespace Lookup

/-- The fields that an entry of an object literal with a type may name. -/
def fieldsOf (t : Option Ty) : List Decl :=
  ((t.bind fun t => t.baseType.anchor?).map (·.structFields)).getD []

theorem searchEntry_eq {l : Lookup} {literal : Node} (hslot : l.element.slot? = some .name)
    (hparent : l.parentKind? = some .instanceArgument)
    (hliteral : l.element.ancestorOfKind? .objectLiteral = some literal) (s : LookupState) :
    l.searchEntry s = l.infer literal >>= fun t => l.offerAll s (fieldsOf t) := by
  unfold searchEntry searchLiteral
  rw [hslot, hparent, hliteral]
  refine congrArg (l.infer literal >>= ·) (funext fun t => ?_)
  cases t with
  | none => rfl
  | some t => rfl

theorem run_infer_bind {α : Type} (l : Lookup) (m : Node) (f : Option Ty → Search α)
    (found : Array Decl) (ask : Oracle) (c : Caches) : ((l.infer m >>= f).run.run found).run ask c =
      ((f (ask.infer m c).1).run.run found).run ask (ask.infer m c).2 := rfl

end Lookup

namespace Resolution

/-- An entry of an object literal refers to what fits first among the fields of the literal's type
and what the scopes around it show, if something does and no receiver has names in it. -/
theorem run_first_of_entry {w : Workspace} {n literal : Node} {d : Decl}
    (hspan : n.span.isEmpty = false) (hown : Decl.declaredByName? n = none)
    (hslot : n.slot? = some .name) (hparent : n.parent?.map (·.kind) = some .instanceArgument)
    (htext : (n.text == "" || n.text == "_") = false)
    (hliteral : n.ancestorOfKind? .objectLiteral = some literal)
    (houtside : (⟨w, n, false⟩ : Lookup).isInReceiver = false)
    (hreceivers : ∀ scope ∈ n :: n.ancestors, Lookup.receiverNames scope = [])
    (ask : Oracle) (c : Caches) (hd : (Lookup.fieldsOf (ask.infer literal c).1 ++
      (⟨w, n, false⟩ : Lookup).shownOutward (fun _ => false) none (n :: n.ancestors)).find?
        ((⟨w, n, false⟩ : Lookup).fits (Workspace.wantedName n)) = some d) :
    ((first w n).run ask c).1 = some d := by
  let l : Lookup := ⟨w, n, false⟩
  have hwanted : l.wanted l.unqualifiedState = Workspace.wantedName n :=
    Lookup.wanted_unqualifiedState
  have hsearch : l.search = l.infer literal >>= fun t =>
      l.offerAll l.unqualifiedState (Lookup.fieldsOf t) >>= fun _ =>
        l.searchAround l.unqualifiedState >>= fun _ => l.searchFiles l.unqualifiedState >>= fun _ =>
          l.searchIntroduced l.unqualifiedState := by
    have hqualifier : l.qualifier? = none := by
      unfold Lookup.qualifier?
      rw [hslot]
      rfl
    have hentry := Lookup.searchEntry_eq (l := l) hslot hparent hliteral
    unfold Lookup.search
    rw [hspan, hown, hqualifier]
    unfold Lookup.searchUnqualified
    rw [htext]
    simp only [Bool.false_eq_true, if_false, hentry, bind_assoc]
  have haround : l.Lists (w.afresh 0) (Workspace.wantedName n) (l.searchAround l.unqualifiedState)
      _ := Lookup.lists_searchAround rfl hwanted houtside hreceivers
  have hlists := (Lookup.lists_offerAll rfl hwanted (Lookup.fieldsOf (ask.infer literal c).1)).seq
    (haround.seq ((Lookup.lists_searchFiles rfl hwanted).seq
      (Lookup.lists_searchIntroduced (s := l.unqualifiedState) houtside))) #[]
  unfold Lookup.outcome at hlists
  rw [← List.append_assoc, List.find?_append, hd] at hlists
  rw [run_first]
  change ((l.search.run.run #[]).run ask c).1.2.toList.head? = _
  rw [hsearch, Lookup.run_infer_bind, Workspace.run_of_eval?_zero hlists]
  rfl

end Resolution

/-! ### Both answers -/

namespace Session

variable {s : Session} {n : Node}

/-- An entry of an object literal refers to the first of all declarations that it refers to. -/
theorem resolve_eq_of_isShorthand (h : s.Reachable) (hblank : s.Blank)
    (hn : s.workspace.Reaches n) (hentry : Resolution.isShorthand n = true) :
    (resolve n s).1 = (resolveAll n s).1.head? := by
  have hA := h.sound.asking
  have hroom := Caches.room_enter_resolve h.sound hn.1 (h.idle.resolve n.key)
  have hdepth := Caches.room_lt_depth (w := s.workspace) (c := s.caches)
  -- No rule asks about the entry, so it makes no difference that it is in flight.
  have hkey := hn.not_names fun hasked => Bool.false_ne_true (hasked.name.symm.trans hentry)
  have hrun := (hA.agreeing h.sound (fun _ hm => hm.1) (2 * s.workspace.loaded)
    s.workspace.depth).run (Resolution.within_first hA hn)
    ((h.idle.agreesOn hblank.1 hblank.2).enter_resolve_left n.key hkey)
    (by unfold Workspace.depth at hdepth; omega) hdepth
  rw [h.resolve_eq_run hblank, ← hrun.answer]
  exact (Resolution.head?_run_every _ _ _ _ hentry).symm

/-- A node refers to the first of all declarations that it refers to. -/
theorem resolve_eq_head? (h : s.Reachable) (hblank : s.Blank)
    (hn : Resolution.isShorthand n = true → s.workspace.Reaches n) :
    (resolve n s).1 = (resolveAll n s).1.head? ∧
      ((resolve n s).1 = none ↔ (resolveAll n s).1 = []) := by
  have hhead : (resolve n s).1 = (resolveAll n s).1.head? := by
    cases hentry : Resolution.isShorthand n with
    | true => exact resolve_eq_of_isShorthand h hblank (hn hentry) hentry
    | false => rw [resolveAll_eq s hentry, Option.head?_toList]
  exact ⟨hhead, by rw [hhead, List.head?_eq_none_iff]⟩

/-! ### An entry without a value -/

/-- A text in which a parameter is named by an entry of an object literal. -/
def literalText : String := "fun f(x:int?){T{x};}"

/-- The entry. -/
def entryName : Node := ⟨(parse 0 1 literalText).tree, 7, by decide +kernel⟩

theorem reaches_entryName : (rereading "" literalText).workspace.Reaches entryName :=
  reaches_rereading _ _ (by decide +kernel) rfl (by decide +kernel)

/-- The entry refers to the first of all declarations that it refers to. -/
theorem resolve_eq_head?_entryName :
    Resolution.isShorthand entryName = true ∧
      (resolve entryName (rereading "" literalText)).1 =
        (resolveAll entryName (rereading "" literalText)).1.head? :=
  ⟨by decide +kernel, (resolve_eq_head? (reachable_rereading _ _) (blank_rereading _ _) fun _ =>
    reaches_entryName).1⟩

/-! ### An entry of a replaced tree -/

/-- A text that declares the type of the literal. The type that the alias stands for has the number
that the entry has in the other text. -/
def aliasText : String := "struct U{x:int}type T=U;"

/-- The session in which the text with the literal has been replaced. -/
def recast : Session := rereading literalText aliasText

/-- The tree that is held. -/
def aliasTree : Tree := (parse 0 15 aliasText).tree

theorem tree?_recast : recast.workspace.tree? 0 = some aliasTree := by
  have hsize : (parse 0 0 literalText).tree.size = 15 := by decide +kernel
  rw [recast, tree?_rereading, hsize]
  rfl

/-- What the scopes around a node show that is looked up in the session. -/
def shownInRecast (n : Node) : List Decl :=
  (⟨recast.workspace, n, false⟩ : Lookup).shownOutward (fun _ => false) none (n :: n.ancestors)

/-- The first of some declarations that a node may refer to in the session. -/
def meantInRecast? (n : Node) (ds : List Decl) : Option Decl :=
  ds.find? ((⟨recast.workspace, n, false⟩ : Lookup).fits (Workspace.wantedName n))

/-- The type that a name refers to in the session. -/
def typeInRecast? (n : Node) : Option Decl :=
  meantInRecast? n (shownInRecast n ++ Category.types.flatMap aliasTree.declared)

/-- The entry of the tree that has been replaced. -/
def staleEntry : Node := ⟨(parse 0 0 literalText).tree, 7, by decide +kernel⟩

/-- The literal around the entry. -/
def staleLiteral : Node := (staleEntry.ancestorOfKind? .objectLiteral).get (by decide +kernel)

/-- The type that is written before the literal. -/
def staleType : Node := (staleLiteral.child? .typeExpr).get (by decide +kernel)

/-- The alias that the written type refers to. -/
def recastAlias : Decl := (typeInRecast? staleType).get (by decide +kernel)

/-- The type that the alias stands for. -/
def aliasedType : Node := recastAlias.underlyingType?.get (by decide +kernel)

/-- The struct that the aliased type refers to. -/
def recastStruct : Decl := (typeInRecast? aliasedType).get (by decide +kernel)

-- The parts are computed together, since each computation parses the texts again.
theorem staleEntry_place : staleEntry.span.isEmpty = false ∧
    (Decl.declaredByName? staleEntry).isNone = true ∧ staleEntry.slot? = some .name ∧
    staleEntry.parent?.map (·.kind) = some .instanceArgument ∧
    (staleEntry.text == "" || staleEntry.text == "_") = false ∧
    (⟨recast.workspace, staleEntry, false⟩ : Lookup).isInReceiver = false ∧
    (∀ scope ∈ staleEntry :: staleEntry.ancestors, Lookup.receiverNames scope = []) ∧
    Resolution.isShorthand staleEntry = true := by
  decide +kernel

theorem recastNames_place : ∀ n ∈ [staleType, aliasedType], n.span.isEmpty = false ∧
    n.slot? ≠ some .field ∧ n.parent?.any (·.kind == .instanceArgument) = false ∧
    (Decl.declaredByName? n).isNone = true ∧ (n.text == "" || n.text == "_") = false ∧
    n.text ≠ "self" ∧ (Ty.ofName? n.text).isNone = true ∧ n.kind = .typeIdentifier ∧
    (⟨recast.workspace, n, false⟩ : Lookup).forTypes = true ∧
    (⟨recast.workspace, n, false⟩ : Lookup).isInReceiver = false ∧
    (∀ scope ∈ n :: n.ancestors, Lookup.receiverNames scope = []) ∧ n.file = 0 := by
  decide +kernel

theorem recast_place : recastAlias.kind = .typeAlias ∧ recastAlias.isBuiltin = false ∧
    recastAlias.typeParameters.isEmpty = true ∧ recastStruct.kind = .struct ∧
    recastStruct.typeParameters.isEmpty = true ∧ staleLiteral.kind = .objectLiteral ∧
    aliasedType.key = staleEntry.key ∧ staleEntry.key ≠ staleType.key ∧
    staleLiteral.key ≠ staleType.key ∧ staleLiteral.key ≠ aliasedType.key ∧
    staleType.key ≠ aliasedType.key := by
  decide +kernel

theorem resolve_typeName_recast {n : Node} (hn : n ∈ [staleType, aliasedType]) {d : Decl}
    (hd : typeInRecast? n = some d) :
    (recast.workspace.afresh 1).resolve n = some (some d) := by
  obtain ⟨hspan, hslot, hparent, hown, htext, -, -, -, htypes, houtside, hreceivers, hfile⟩ :=
    recastNames_place n hn
  exact Workspace.Standalone.resolve_afresh_one (.of_place hslot hparent)
    (reachable_rereading _ _).sound (hfile ▸ tree?_recast) hspan (Option.isNone_iff_eq_none.mp hown)
    htext houtside hreceivers (Workspace.categories_of_forTypes _ htypes) hd

theorem resolve_staleType :
    (recast.workspace.afresh 1).resolve staleType = some (some recastAlias) :=
  resolve_typeName_recast (by simp) (Option.some_get _).symm

theorem resolve_aliasedType :
    (recast.workspace.afresh 1).resolve aliasedType = some (some recastStruct) :=
  resolve_typeName_recast (by simp) (Option.some_get _).symm

/-- The literal has the type of the alias, which asks what the aliased type refers to. -/
theorem infer_staleLiteral (bound : Nat) {c : Caches} (htypes : ∀ key, c.types.find? key = none)
    (hname : c.resolve.find? staleType.key = none) :
    ∃ c', c'.resolve.find? aliasedType.key = c.resolve.find? aliasedType.key ∧
      ((recast.workspace.oracleWithin (bound + 4)).infer staleLiteral c).1 =
        (((recast.workspace.oracleWithin (bound + 1)).resolve aliasedType c').1.bind fun d =>
          ((Inference.declType ⟨recast.workspace⟩ d).run.run
            (recast.workspace.oracleWithin (bound + 1))
            ((recast.workspace.oracleWithin (bound + 1)).resolve aliasedType c').2).1).map
          (Ty.alias (Inference.nominalOf recastAlias)) := by
  obtain ⟨halias, hbuiltin, hparams, -, -, hkind, -, -, hne, hne', hne''⟩ := recast_place
  obtain ⟨-, -, -, -, -, hself, hprimitive, hnameKind, -⟩ :=
    recastNames_place staleType (by simp)
  obtain ⟨-, -, -, -, -, hself', hprimitive', haliasedKind, -⟩ :=
    recastNames_place aliasedType (by simp)
  let i : Inference := ⟨recast.workspace⟩
  let ask := recast.workspace.oracleWithin
  -- The tables when the literal, its written type and the aliased type have been entered.
  let c₁ := Caches.typesPart.modify (·.enter staleLiteral.key) c
  let c₂ := Caches.typesPart.modify (·.enter staleType.key) c₁
  let c₃ := Caches.resolvePart.modify (·.leave staleType.key (some recastAlias))
    (Caches.resolvePart.modify (·.enter staleType.key) c₂)
  let c₄ := Caches.typesPart.modify (·.enter aliasedType.key) c₃
  have hrule : i.nodeType staleLiteral = i.infer staleType := by
    have hwritten : staleLiteral.child? .typeExpr = some staleType := (Option.some_get _).symm
    unfold Inference.nodeType
    rw [hkind]
    change i.objectLiteralType staleLiteral = _
    unfold Inference.objectLiteralType
    rw [hwritten]
  have hliteral : ((ask (bound + 4)).infer staleLiteral c).1 =
      ((ask (bound + 3)).infer staleType c₁).1 := by
    rw [Workspace.oracleWithin_succ_infer, QueryCache.getOrCompute_of_new (htypes _), hrule]
    rfl
  have hnew₁ : c₁.types.find? staleType.key = none :=
    (QueryCache.find?_enter_of_ne hne).trans (htypes _)
  have hresolve : (ask (bound + 2)).resolve staleType c₂ = (some recastAlias, c₃) :=
    Workspace.resolve_of_afresh_one hname resolve_staleType
  have hwritten : ((ask (bound + 3)).infer staleType c₁).1 =
      ((ask (bound + 2)).infer aliasedType c₃).1.map
        (Ty.alias (Inference.nominalOf recastAlias)) := by
    rw [Workspace.oracleWithin_succ_infer, QueryCache.getOrCompute_of_new hnew₁]
    refine (Inference.run_nodeType_typeIdentifier _ c₂ hnameKind hself
      (Option.isNone_iff_eq_none.mp hprimitive)).trans ?_
    rw [hresolve]
    exact Inference.run_declType_typeAlias _ c₃ halias hbuiltin (Option.some_get _).symm
      (List.isEmpty_iff.mp hparams)
  have hnew₃ : c₃.types.find? aliasedType.key = none :=
    (QueryCache.find?_enter_of_ne hne'').trans
      ((QueryCache.find?_enter_of_ne hne').trans (htypes _))
  have haliased : ((ask (bound + 2)).infer aliasedType c₃).1 =
      ((ask (bound + 1)).resolve aliasedType c₄).1.bind fun d =>
        ((i.declType d).run.run (ask (bound + 1))
          ((ask (bound + 1)).resolve aliasedType c₄).2).1 := by
    rw [Workspace.oracleWithin_succ_infer, QueryCache.getOrCompute_of_new hnew₃]
    exact Inference.run_nodeType_typeIdentifier _ c₄ haliasedKind hself'
      (Option.isNone_iff_eq_none.mp hprimitive')
  refine ⟨c₄, ?_, hliteral.trans (hwritten.trans (congrArg _ haliased))⟩
  exact (QueryCache.find?_leave_of_ne hne'' _).trans (QueryCache.find?_enter_of_ne hne'')

/-- While it is in flight what the entry refers to, the literal has no type: the aliased type has
the number of the entry. -/
theorem infer_staleLiteral_of_inFlight (bound : Nat) {c : Caches}
    (htypes : ∀ key, c.types.find? key = none) (hname : c.resolve.find? staleType.key = none)
    (hentry : c.resolve.find? staleEntry.key = some none) :
    ((recast.workspace.oracleWithin (bound + 4)).infer staleLiteral c).1 = none := by
  obtain ⟨-, -, -, -, -, -, hkey, -⟩ := recast_place
  obtain ⟨c', hfind, hinfer⟩ := infer_staleLiteral bound htypes hname
  rw [hkey, hentry, ← hkey] at hfind
  rw [hinfer, Workspace.oracleWithin_succ_resolve, QueryCache.getOrCompute_of_find? hfind]
  rfl

/-- The type of the literal if its fields have some types. -/
def recastTy (fields : List Ty) : Ty :=
  .alias (Inference.nominalOf recastAlias) (.struct (Inference.nominalOf recastStruct) fields)

theorem exists_infer_staleLiteral (bound : Nat) {c : Caches}
    (htypes : ∀ key, c.types.find? key = none) (hresolve : ∀ key, c.resolve.find? key = none) :
    ∃ fields, ((recast.workspace.oracleWithin (bound + 4)).infer staleLiteral c).1 =
      some (recastTy fields) := by
  obtain ⟨-, -, -, hstruct, hparams, -⟩ := recast_place
  obtain ⟨c', hfind, hinfer⟩ := infer_staleLiteral bound htypes (hresolve _)
  rw [Workspace.resolve_of_afresh_one (hfind.trans (hresolve _)) resolve_aliasedType,
    Option.bind_some] at hinfer
  let c'' := Caches.resolvePart.modify (·.leave aliasedType.key (some recastStruct))
    (Caches.resolvePart.modify (·.enter aliasedType.key) c')
  obtain ⟨fields, hfields⟩ := Inference.exists_run_declType_struct (i := ⟨recast.workspace⟩)
    (recast.workspace.oracleWithin (bound + 1)) c'' hstruct (List.isEmpty_iff.mp hparams)
  exact ⟨fields, hinfer.trans (by rw [hfields]; rfl)⟩

/-- What the entry refers to if the literal has a type. -/
def entryMeaning? (t : Option Ty) : Option Decl :=
  meantInRecast? staleEntry (Lookup.fieldsOf t ++ shownInRecast staleEntry)

theorem kind_entryMeaning?_none : (entryMeaning? none).map (·.kind) = some .parameter := by
  decide +kernel

theorem kind_entryMeaning?_recastTy (fields : List Ty) :
    (entryMeaning? (some (recastTy fields))).map (·.kind) = some .field := by
  change (meantInRecast? staleEntry
    (recastStruct.structFields ++ shownInRecast staleEntry)).map _ = _
  decide +kernel

theorem run_first_staleEntry (ask : Oracle) (c : Caches) {d : DeclKind}
    (hd : (entryMeaning? (ask.infer staleLiteral c).1).map (·.kind) = some d) :
    ((Resolution.first recast.workspace staleEntry).run ask c).1.map (·.kind) = some d := by
  obtain ⟨hspan, hown, hslot, hparent, htext, houtside, hreceivers, -⟩ := staleEntry_place
  obtain ⟨e, he, rfl⟩ := Option.map_eq_some_iff.mp hd
  rw [Resolution.run_first_of_entry hspan (Option.isNone_iff_eq_none.mp hown) hslot hparent htext
    (Option.some_get _).symm houtside hreceivers ask c he]
  rfl

/-- An entry of a tree that has been replaced refers to a parameter, but first of all declarations
to a field. -/
theorem not_resolve_eq_head?_of_stale :
    ¬ ∀ s : Session, s.Reachable → s.Blank → ∀ n : Node,
      (resolve n s).1 = (resolveAll n s).1.head? ∧
        ((resolve n s).1 = none ↔ (resolveAll n s).1 = []) := by
  intro h
  have hs : recast.Reachable := reachable_rereading _ _
  have hblank : recast.Blank := blank_rereading _ _
  have hhead := (h recast hs hblank staleEntry).1
  obtain ⟨-, -, -, -, -, -, -, hentry⟩ := staleEntry_place
  obtain ⟨-, -, -, -, -, -, -, hname, -⟩ := recast_place
  have hstamp : aliasTree.stamp = 15 := rfl
  have hloaded := hs.sound.stamp_add_size_le tree?_recast
  obtain ⟨bound, hbound⟩ := Nat.exists_eq_add_of_le'
    (show 4 ≤ 2 * recast.workspace.loaded by omega)
  obtain ⟨hresolve, htypes⟩ := hs.find?_of_blank hblank
  have hparameter : (resolve staleEntry recast).1.map (·.kind) = some .parameter := by
    rw [hs.resolve_eq_run hblank, hbound]
    refine run_first_staleEntry _ _ ?_
    rw [infer_staleLiteral_of_inFlight bound
      (c := Caches.resolvePart.modify (·.enter staleEntry.key) recast.caches) htypes
      ((QueryCache.find?_enter_of_ne hname).trans (hresolve _))
      (QueryCache.find?_enter_of_new (hresolve _))]
    exact kind_entryMeaning?_none
  have hfield : (resolveAll staleEntry recast).1.head?.map (·.kind) = some .field := by
    change ((Resolution.every recast.workspace staleEntry).run recast.workspace.oracle
      recast.caches).1.head?.map _ = _
    obtain ⟨fields, hfields⟩ := exists_infer_staleLiteral (bound + 1) htypes hresolve
    rw [Resolution.head?_run_every _ _ _ _ hentry, Workspace.oracle_eq, hbound]
    refine run_first_staleEntry _ _ ?_
    rw [hfields]
    exact kind_entryMeaning?_recastTy fields
  rw [hhead, hfield] at hparameter
  cases hparameter

end Session

end TolkAnalysis
