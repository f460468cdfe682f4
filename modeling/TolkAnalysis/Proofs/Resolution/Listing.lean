import TolkAnalysis.Proofs.Query.Run
import TolkAnalysis.Proofs.Resolution.Found

/-!
# Searches as lists

A look-up of one declaration ends at the first that fits, so a search that offers the
declarations of a list one after another finds the first member of the list that fits.
`Lookup.Lists` says so of a search, given answers to its questions. Searches one after
another list what they list put together (`Lists.seq`), which turns the outward walk
through the scopes into one list: `Lookup.outward`.

Only the scope of a method asks questions: which names in its receiver are type
parameters. `Lookup.Receives` says what is known about them.
-/

namespace TolkAnalysis

namespace Search

variable {α β : Type} {known : Findings}

/-- What a search ends with after it has found the declarations of an array, by the
answers that are known. -/
def eval? (known : Findings) (q : Search α) (found : Array Decl) :
    Option (Except Unit α × Array Decl) := ((q.run).run found).eval? known

theorem eval?_bind_ok {q : Search α} {f : α → Search β} {found found' : Array Decl} {a : α}
    (h : eval? known q found = some (.ok a, found')) :
    eval? known (q >>= f) found = eval? known (f a) found' :=
  (Query.eval?_bind ..).trans (congrArg (Option.bind · _) h)

theorem eval?_bind_error {q : Search α} {f : α → Search β} {found found' : Array Decl}
    {e : Unit} (h : eval? known q found = some (.error e, found')) :
    eval? known (q >>= f) found = some (.error e, found') :=
  (Query.eval?_bind ..).trans (congrArg (Option.bind · _) h)

theorem eval?_resolve (l : Lookup) {n : Node} {d : Option Decl} (h : known.resolve n = some d)
    (found : Array Decl) : eval? known (l.resolve n) found = some (.ok d, found) :=
  Option.bind_eq_some_iff.mpr ⟨d, h, rfl⟩

/-- A filter by questions keeps what the answers say. -/
theorem eval?_filterM {γ : Type} {ask : γ → Search Bool} {keep : γ → Bool} {cs : List γ}
    (h : ∀ c ∈ cs, ∀ found, eval? known (ask c) found = some (.ok (keep c), found))
    (found : Array Decl) :
    eval? known (cs.filterM ask) found = some (.ok (cs.filter keep), found) := by
  have aux : ∀ (cs kept : List γ),
      (∀ c ∈ cs, ∀ found, eval? known (ask c) found = some (.ok (keep c), found)) →
      eval? known (cs.filterAuxM ask kept) found =
        some (.ok ((cs.filter keep).reverse ++ kept), found) := by
    intro cs
    induction cs with
    | nil => exact fun kept _ => rfl
    | cons c cs ih =>
        intro kept h
        rw [List.forall_mem_cons] at h
        rw [List.filterAuxM, eval?_bind_ok (h.1 found), ih _ h.2]
        cases hkeep : keep c with
        | true => simp [hkeep]
        | false => simp [hkeep]
  unfold List.filterM
  rw [eval?_bind_ok (aux cs [] h), List.append_nil]
  exact congrArg (fun cs => some (Except.ok cs, found)) (List.reverse_reverse _)

end Search

namespace Lookup

open Search (eval?)

variable {known : Findings} {l : Lookup} {wanted : String} {ds ds' : List Decl}

/-- What a search of one declaration ends with when it offers the declarations of a
list after those found before. -/
def outcome (l : Lookup) (wanted : String) (ds : List Decl) (found : Array Decl) :
    Except Unit Unit × Array Decl :=
  match ds.find? (l.fits wanted) with
  | some d => (.error (), found.push d)
  | none => (.ok (), found)

/-- The search offers the declarations of a list and ends at the first that fits. -/
def Lists (known : Findings) (l : Lookup) (wanted : String) (q : Search Unit)
    (ds : List Decl) : Prop :=
  ∀ found, eval? known q found = some (l.outcome wanted ds found)

theorem lists_pure : l.Lists known wanted (pure ()) [] := fun _ => rfl

theorem Lists.seq {q q' : Search Unit} (hq : l.Lists known wanted q ds)
    (hq' : l.Lists known wanted q' ds') :
    l.Lists known wanted (q >>= fun _ => q') (ds ++ ds') := by
  intro found
  have h := hq found
  unfold outcome at h ⊢
  rw [List.find?_append]
  cases hfind : ds.find? (l.fits wanted) with
  | some d =>
      rw [hfind] at h
      exact Search.eval?_bind_error h
  | none =>
      rw [hfind] at h
      exact (Search.eval?_bind_ok h).trans (hq' found)

theorem lists_offerNamed (hall : l.all = false) (d : Decl) :
    l.Lists known wanted (l.offerNamed wanted d) [d] := by
  intro found
  unfold offerNamed outcome
  cases hfits : l.fits wanted d with
  | true =>
      rw [List.find?_cons_of_pos hfits, if_pos rfl, hall]
      rfl
  | false =>
      rw [List.find?_cons_of_neg (by rw [hfits]; exact Bool.false_ne_true)]
      rfl

theorem lists_forM {γ : Type} {f : γ → Search Unit} {shown : γ → List Decl} {cs : List γ}
    (h : ∀ c ∈ cs, l.Lists known wanted (f c) (shown c)) :
    l.Lists known wanted (cs.forM f) (cs.flatMap shown) := by
  induction cs with
  | nil => exact lists_pure
  | cons c cs ih =>
      rw [List.forall_mem_cons] at h
      exact h.1.seq (ih h.2)

theorem lists_offerAll (hall : l.all = false) {s : LookupState} (hs : l.wanted s = wanted)
    (ds : List Decl) : l.Lists known wanted (l.offerAll s ds) ds := by
  have h : l.Lists known wanted (ds.forM (l.offerNamed wanted)) (ds.flatMap ([·])) :=
    lists_forM fun d _ => lists_offerNamed hall d
  rw [List.flatMap_singleton'] at h
  unfold offerAll
  rw [hs]
  exact h

/-- The look-up answers with the first listed declaration that fits. -/
theorem eval?_run {q : Search Unit} (h : l.Lists known wanted q ds) :
    (run q).eval? known = some (ds.find? (l.fits wanted)).toList := by
  refine (Query.eval?_bind ..).trans ((congrArg (Option.bind · _) (h #[])).trans ?_)
  unfold outcome
  cases ds.find? (l.fits wanted) with
  | some d => rfl
  | none => rfl

/-- A node refers to the first listed declaration that fits. -/
theorem eval?_first {w : Workspace} {n : Node}
    (h : (⟨w, n, false⟩ : Lookup).Lists known wanted (Lookup.search ⟨w, n, false⟩) ds) :
    (Resolution.first w n).eval? known =
      some (ds.find? ((⟨w, n, false⟩ : Lookup).fits wanted)) := by
  unfold Resolution.first
  rw [Query.eval?_bind, eval?_run h]
  exact congrArg some Option.head?_toList

/-! ### Names in scopes -/

/-- The parameters of a function. -/
def parametersOf (function : Node) : List Decl :=
  (((function.child? .parameters).map
    (·.childrenOfKind .parameterDeclaration)).getD []).filterMap Decl.ofNode?

/-- The type identifiers in the receiver of a function. -/
def receiverNames (function : Node) : List Node :=
  match (Decl.ofNode? function).bind (·.receiverType?) with
  | some receiver => receiver.preorder.filter (·.kind == .typeIdentifier)
  | none => []

/-- What is known about the names in the receiver of a function: which of them
introduce a type parameter. -/
def Receives (known : Findings) (introduces : Node → Bool) (function : Node) : Prop :=
  ∀ n ∈ receiverNames function, ∃ d, known.resolve n = some d ∧
    d.any (·.kind == .typeParameter) = introduces n

/-- The type parameters that the receiver of a function introduces. -/
def receiverParameters (introduces : Node → Bool) (function : Node) : List Decl :=
  ((receiverNames function).filter introduces).map Decl.implicitTypeParameter

/-- What a scope shows to a node in its child `inner`, where values are meant. -/
def scopeDecls (introduces : Node → Bool) (scope : Node) (inner : Option Node) : List Decl :=
  if scope.kind.isFunctionLike then
    parametersOf scope ++ typeParametersOf scope ++ receiverParameters introduces scope
  else if scope.kind == .structDeclaration || scope.kind == .typeAliasDeclaration then
    typeParametersOf scope
  else scopeVariables scope inner

/-- What the scopes of a list show, each to a node in the one before it. -/
def outward (introduces : Node → Bool) : Option Node → List Node → List Decl
  | _, [] => []
  | inner, scope :: scopes =>
      scopeDecls introduces scope inner ++ outward introduces (some scope) scopes

/-- What a scope shows to a node in its child `inner`. Where only types are meant, variables are
passed over, and so are parameters unless `self` is meant. -/
def shownIn (l : Lookup) (introduces : Node → Bool) (scope : Node) (inner : Option Node) :
    List Decl :=
  if scope.kind.isFunctionLike then
    (if !l.forTypes || l.element.text == "self" then parametersOf scope else []) ++
      typeParametersOf scope ++ receiverParameters introduces scope
  else if scope.kind == .structDeclaration || scope.kind == .typeAliasDeclaration then
    typeParametersOf scope
  else if !l.forTypes then scopeVariables scope inner
  else []

/-- What the scopes of a list show to a name, each to a node in the one before it. -/
def shownOutward (l : Lookup) (introduces : Node → Bool) : Option Node → List Node → List Decl
  | _, [] => []
  | inner, scope :: scopes =>
      l.shownIn introduces scope inner ++ l.shownOutward introduces (some scope) scopes

section

variable {introduces : Node → Bool} {s : LookupState}

theorem shownIn_of_values (hvalues : l.forTypes = false) (scope : Node) (inner : Option Node) :
    l.shownIn introduces scope inner = scopeDecls introduces scope inner := by
  unfold shownIn scopeDecls
  rw [hvalues]
  rfl

theorem shownOutward_of_values (hvalues : l.forTypes = false) (scopes : List Node)
    (inner : Option Node) :
    l.shownOutward introduces inner scopes = outward introduces inner scopes := by
  induction scopes generalizing inner with
  | nil => rfl
  | cons scope scopes ih => exact congrArg₂ List.append (shownIn_of_values hvalues scope inner) (ih _)

/-- Where only types are meant, a scope shows no more than where values are meant. -/
theorem mem_scopeDecls_of_mem_shownIn {scope : Node} {inner : Option Node} {d : Decl}
    (h : d ∈ l.shownIn introduces scope inner) : d ∈ scopeDecls introduces scope inner := by
  unfold shownIn at h
  unfold scopeDecls
  split at h
  · rename_i hlike
    rw [if_pos hlike]
    split at h
    · exact h
    · rw [List.append_assoc]
      exact List.mem_append_right _ h
  · rename_i hlike
    rw [if_neg hlike]
    split at h
    · rename_i howner
      rwa [if_pos howner]
    · rename_i howner
      rw [if_neg howner]
      split at h
      · exact h
      · cases h

theorem mem_outward_of_mem_shownOutward {scopes : List Node} {inner : Option Node} {d : Decl}
    (h : d ∈ l.shownOutward introduces inner scopes) : d ∈ outward introduces inner scopes := by
  induction scopes generalizing inner with
  | nil => exact h
  | cons scope scopes ih =>
      rcases List.mem_append.mp h with h | h
      · exact List.mem_append_left _ (mem_scopeDecls_of_mem_shownIn h)
      · exact List.mem_append_right _ (ih h)

theorem lists_searchReceiverParameters (hall : l.all = false) (hs : l.wanted s = wanted)
    {function : Node} (h : Receives known introduces function) :
    l.Lists known wanted (l.searchReceiverParameters s function)
      (receiverParameters introduces function) := by
  unfold searchReceiverParameters receiverParameters
  unfold Receives receiverNames at h
  unfold receiverNames
  cases hd : Decl.ofNode? function with
  | none => exact lists_pure
  | some d =>
      rw [hd] at h
      dsimp only [Option.bind_some] at h ⊢
      unfold Decl.receiverTypeParameters
      cases hreceiver : d.receiverType? with
      | none => exact lists_offerAll hall hs []
      | some receiver =>
          rw [hreceiver] at h
          refine fun found => (Search.eval?_bind_ok (Search.eval?_filterM (fun n hn found' => ?_)
            found)).trans (lists_offerAll hall hs _ found)
          obtain ⟨a, ha, hkind⟩ := h n hn
          rw [← hkind]
          exact Search.eval?_bind_ok (Search.eval?_resolve l ha found')

theorem lists_searchParameters (hall : l.all = false) (hs : l.wanted s = wanted)
    (function : Node) :
    l.Lists known wanted (l.searchParameters s function)
      (if !l.forTypes || l.element.text == "self" then parametersOf function else []) := by
  unfold searchParameters
  split
  · exact lists_offerAll hall hs _
  · exact lists_pure

theorem lists_searchScope (hall : l.all = false) (hs : l.wanted s = wanted) {scope : Node}
    (h : Receives known introduces scope) (inner : Option Node) :
    l.Lists known wanted (l.searchScope s scope inner) (l.shownIn introduces scope inner) := by
  unfold searchScope shownIn
  split
  · unfold searchFunction
    rw [List.append_assoc]
    exact (lists_searchParameters hall hs scope).seq <|
      (lists_offerAll hall hs _).seq (lists_searchReceiverParameters hall hs h)
  · split
    · exact lists_offerAll hall hs _
    · split
      · exact lists_offerAll hall hs _
      · exact lists_pure

theorem lists_searchOutward (hall : l.all = false) (hs : l.wanted s = wanted) {scopes : List Node}
    (h : ∀ scope ∈ scopes, Receives known introduces scope) (inner : Option Node) :
    l.Lists known wanted (l.searchOutward s inner scopes)
      (l.shownOutward introduces inner scopes) := by
  induction scopes generalizing inner with
  | nil => exact lists_pure
  | cons scope scopes ih =>
      rw [List.forall_mem_cons] at h
      exact (lists_searchScope hall hs h.1 inner).seq (ih h.2 (some scope))

/-- Around a name outside receivers, where no method has one with names in it, the scopes show what
they show without a question. -/
theorem lists_searchAround (hall : l.all = false) (hs : l.wanted s = wanted)
    (houtside : l.isInReceiver = false)
    (hreceivers : ∀ scope ∈ l.element :: l.element.ancestors, receiverNames scope = []) :
    l.Lists known wanted (l.searchAround s)
      (l.shownOutward (fun _ => false) none (l.element :: l.element.ancestors)) := by
  unfold searchAround
  rw [houtside]
  refine lists_searchOutward hall hs (fun scope hscope m hm => ?_) none
  rw [hreceivers scope hscope] at hm
  cases hm

/-- Outside receivers a name introduces nothing. -/
theorem lists_searchIntroduced (houtside : l.isInReceiver = false) :
    l.Lists known wanted (l.searchIntroduced s) [] := by
  unfold searchIntroduced
  rw [houtside]
  exact lists_pure

/-- The declarations at the top of the files that the element's file can see, of the
categories that the name may stand for. -/
def visible (l : Lookup) (s : LookupState) : List Decl :=
  ((l.workspace.searchFiles l.element.file).filterMap l.workspace.index?).flatMap fun index =>
    (l.categories s).flatMap index.elements

theorem lists_searchFiles (hall : l.all = false) (hs : l.wanted s = wanted) :
    l.Lists known wanted (l.searchFiles s) (l.visible s) :=
  lists_forM fun _ _ => lists_forM fun _ _ => lists_offerAll hall hs _

/-- A name that stands for itself and is no entry of an object literal is looked for
around it and then in the files. -/
theorem lists_searchUnqualified (hall : l.all = false)
    (hwanted : l.wanted l.unqualifiedState = wanted)
    (htext : (l.element.text == "" || l.element.text == "_") = false)
    (hentry : (l.element.slot? == some .name && l.parentKind? == some .instanceArgument) = false)
    (haround : l.Lists known wanted (l.searchAround l.unqualifiedState) ds)
    (hintroduced : l.Lists known wanted (l.searchIntroduced l.unqualifiedState) ds') :
    l.Lists known wanted l.searchUnqualified
      (ds ++ (l.visible l.unqualifiedState ++ ds')) := by
  have hliteral : l.Lists known wanted (l.searchEntry l.unqualifiedState) [] := by
    unfold searchEntry searchLiteral
    split
    · rename_i hparent
      rw [hparent, Bool.and_true] at hentry
      rw [hentry]
      exact lists_pure
    · exact lists_pure
  unfold searchUnqualified
  rw [htext]
  exact hliteral.seq (haround.seq ((lists_searchFiles hall hwanted).seq hintroduced))

end

end Lookup

end TolkAnalysis
