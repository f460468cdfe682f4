import TolkAnalysis.Proofs.Resolution.Found

/-!
# Searches that end early

A look-up of the first declaration and one of all declarations make the same search, but the
first ends as soon as a declaration fits. `Lookup.leads_search` says that until then both ask
the same questions and collect nothing, and that after it the other one never ends early and
only adds to what it has collected. So, on the same tables, the declaration that the one ends
with is the first that the other finds (`Resolution.head?_run_every`).
-/

namespace TolkAnalysis

variable {α β : Type}

namespace Query

/-- Whatever the query is answered, its answer is good. -/
def Always (good : α → Prop) : Query α → Prop
  | .answer a => good a
  | .resolve _ next => ∀ d, (next d).Always good
  | .infer _ next => ∀ t, (next t).Always good

theorem Always.mono {good good' : α → Prop} {q : Query α} (hq : q.Always good)
    (h : ∀ a, good a → good' a) : q.Always good' := by
  induction q with
  | answer a => exact h a hq
  | resolve n next ih => exact fun d => ih d (hq d)
  | infer n next ih => exact fun t => ih t (hq t)

theorem Always.bind {good : α → Prop} {good' : β → Prop} {q : Query α} {f : α → Query β}
    (hq : q.Always good) (hf : ∀ a, good a → (f a).Always good') : (q >>= f).Always good' := by
  induction q with
  | answer a => exact hf a hq
  | resolve n next ih => exact fun d => ih d (hq d)
  | infer n next ih => exact fun t => ih t (hq t)

theorem always_true (q : Query α) : q.Always fun _ => True := by
  induction q with
  | answer a => trivial
  | resolve n next ih => exact ih
  | infer n next ih => exact ih

theorem Always.run {good : α → Prop} {q : Query α} (hq : q.Always good) (ask : Oracle)
    (c : Caches) : good (q.run ask c).1 := by
  induction q generalizing c with
  | answer a => exact hq
  | resolve n next ih => exact ih _ (hq _) _
  | infer n next ih => exact ih _ (hq _) _

/-- The outcome of a search that has collected declarations. -/
abbrev Outcome (α : Type) := Except Unit α × Array Decl

/-- Both searches ask the same questions until they end in the same way or the one ends early with
what the other has collected as well by then. -/
inductive Begins : Query (Outcome α) → Query (Outcome α) → Prop
  | goesOn (a : α) (found : Array Decl) :
      Begins (.answer (.ok a, found)) (.answer (.ok a, found))
  | ends {found : Array Decl} {q' : Query (Outcome α)} (hfound : found.toList ≠ [])
      (h : q'.Always fun r => found.toList <+: r.2.toList) :
      Begins (.answer (.error (), found)) q'
  | resolve {n : Node} {next next' : Option Decl → Query (Outcome α)}
      (h : ∀ d, Begins (next d) (next' d)) : Begins (.resolve n next) (.resolve n next')
  | infer {n : Node} {next next' : Option Ty → Query (Outcome α)}
      (h : ∀ t, Begins (next t) (next' t)) : Begins (.infer n next) (.infer n next')

/-- What comes after the same questions may begin what comes after them. -/
theorem Begins.after {p : Query β} {k k' : β → Query (Outcome α)} {good : β → Prop}
    (hp : p.Always good) (h : ∀ r, good r → Begins (k r) (k' r)) : Begins (p >>= k) (p >>= k') := by
  induction p with
  | answer r => exact h r hp
  | resolve n next ih => exact .resolve fun d => ih d (hp d)
  | infer n next ih => exact .infer fun t => ih t (hp t)

/-- One search begins another if its parts begin those of the other, as long as an early end is
one of the whole and the other search only adds. -/
theorem Begins.bind {p p' : Query (Outcome α)} {k k' : Outcome α → Query (Outcome β)}
    (h : Begins p p') (hok : ∀ a found, Begins (k (.ok a, found)) (k' (.ok a, found)))
    (hend : ∀ found, k (.error (), found) = .answer (.error (), found))
    (hadds : ∀ r, (k' r).Always fun r' => r.2.toList <+: r'.2.toList) :
    Begins (p >>= k) (p' >>= k') := by
  induction h with
  | goesOn a found => exact hok a found
  | @ends found q' hfound h =>
      change Begins (k (.error (), found)) (q' >>= k')
      rw [hend]
      exact .ends hfound (h.bind fun r hr => (hadds r).mono fun _ hr' => hr.trans hr')
  | resolve h ih => exact .resolve ih
  | infer h ih => exact .infer ih

/-- On the same tables, a search ends with what the one that it begins finds first. -/
theorem Begins.head?_run {p p' : Query (Outcome α)} (h : Begins p p') (ask : Oracle) (c : Caches) :
    (p.run ask c).1.2.toList.head? = (p'.run ask c).1.2.toList.head? := by
  induction h generalizing c with
  | goesOn a found => rfl
  | @ends found q' hfound hq' =>
      obtain ⟨more, hmore⟩ := hq'.run ask c
      rw [← hmore, List.head?_append_of_ne_nil _ hfound]
      rfl
  | resolve h ih => exact ih _ _
  | infer h ih => exact ih _ _

end Query

namespace Search

/-- The search asks questions and collects nothing. -/
def Quiet (q : Search α) : Prop :=
  ∀ found : Array Decl, Query.Always (fun r => ∃ a, r = (.ok a, found)) (q.run.run found)

/-- The search never ends early and only adds to what has been collected. -/
def Adds (q : Search α) : Prop :=
  ∀ found : Array Decl, Query.Always
    (fun r => (∃ a, r.1 = .ok a) ∧ found.toList <+: r.2.toList) (q.run.run found)

/-- The search is the beginning of another one, which never ends early. -/
structure Leads (q q' : Search Unit) : Prop where
  begins : ∀ found : Array Decl, Query.Begins (q.run.run found) (q'.run.run found)
  adds : Adds q'

theorem quiet_pure (a : α) : Quiet (pure a : Search α) := fun _ => ⟨a, rfl⟩

theorem Quiet.bind {q : Search α} {f : α → Search β} (hq : Quiet q) (hf : ∀ a, Quiet (f a)) :
    Quiet (q >>= f) := by
  intro found
  refine Query.Always.bind (hq found) ?_
  rintro _ ⟨a, rfl⟩
  exact hf a found

theorem quiet_liftM (q : Query α) : Quiet (liftM q : Search α) := by
  intro found
  have hlift : Query.Always (fun r => ∃ a, r = (a, found))
      (q >>= fun a => (pure (a, found) : Query (α × Array Decl))) :=
    q.always_true.bind fun a _ => ⟨a, rfl⟩
  refine Query.Always.bind hlift ?_
  rintro _ ⟨a, rfl⟩
  exact ⟨a, rfl⟩

theorem quiet_filterM {γ : Type} {f : γ → Search Bool} {l : List γ} (h : ∀ c ∈ l, Quiet (f c)) :
    Quiet (l.filterM f) := by
  have aux : ∀ (l kept : List γ), (∀ c ∈ l, Quiet (f c)) → Quiet (l.filterAuxM f kept) := by
    intro l
    induction l with
    | nil => exact fun kept _ => quiet_pure kept
    | cons c l ih =>
        intro kept h
        rw [List.forall_mem_cons] at h
        rw [List.filterAuxM]
        exact h.1.bind fun _ => ih _ h.2
  exact (aux l [] h).bind fun _ => quiet_pure _

theorem Quiet.adds {q : Search α} (hq : Quiet q) : Adds q := by
  refine fun found => (hq found).mono ?_
  rintro _ ⟨a, rfl⟩
  exact ⟨⟨a, rfl⟩, List.prefix_rfl⟩

theorem Adds.bind {q : Search α} {f : α → Search β} (hq : Adds q) (hf : ∀ a, Adds (f a)) :
    Adds (q >>= f) := by
  intro found
  refine Query.Always.bind (hq found) ?_
  rintro ⟨_, found'⟩ ⟨⟨a, rfl⟩, hprefix⟩
  exact (hf a found').mono fun r hr => ⟨hr.1, hprefix.trans hr.2⟩

theorem leads_pure : Leads (pure ()) (pure ()) := ⟨.goesOn (), (quiet_pure ()).adds⟩

/-- Questions before a search are those before the other. -/
theorem Leads.after {q : Search α} {f f' : α → Search Unit} (hq : Quiet q)
    (hf : ∀ a, Leads (f a) (f' a)) : Leads (q >>= f) (q >>= f') := by
  refine ⟨fun found => Query.Begins.after (hq found) ?_, hq.adds.bind fun a => (hf a).adds⟩
  rintro _ ⟨a, rfl⟩
  exact (hf a).begins found

theorem Leads.seq {q q' r r' : Search Unit} (hq : Leads q q') (hr : Leads r r') :
    Leads (q >>= fun _ => r) (q' >>= fun _ => r') := by
  refine ⟨fun found => (hq.begins found).bind (fun _ found' => hr.begins found') (fun _ => rfl) ?_,
    hq.adds.bind fun _ => hr.adds⟩
  rintro ⟨_ | _, found'⟩
  · exact List.prefix_rfl
  · exact (hr.adds found').mono fun _ h => h.2

theorem leads_forM {γ : Type} {f f' : γ → Search Unit} {l : List γ}
    (h : ∀ c ∈ l, Leads (f c) (f' c)) : Leads (l.forM f) (l.forM f') := by
  induction l with
  | nil => exact leads_pure
  | cons c l ih =>
      rw [List.forall_mem_cons] at h
      exact h.1.seq (ih h.2)

end Search

namespace Lookup

open Search (Quiet quiet_pure quiet_liftM quiet_filterM leads_pure leads_forM)

variable {w : Workspace} {n : Node} {s : LookupState}

/-- The look-up of the first declaration begins that of all declarations. -/
abbrev Leads (w : Workspace) (n : Node) (search : Lookup → Search Unit) : Prop :=
  Search.Leads (search ⟨w, n, false⟩) (search ⟨w, n, true⟩)

/-! ### Steps of a search -/

theorem quiet_resolve (l : Lookup) (m : Node) : Quiet (l.resolve m) := quiet_liftM _

theorem quiet_infer (l : Lookup) (m : Node) : Quiet (l.infer m) := quiet_liftM _

theorem leads_ite {c : Prop} [Decidable c] {q q' r r' : Search Unit}
    (hq : Search.Leads q q') (hr : Search.Leads r r') :
    Search.Leads (if c then q else r) (if c then q' else r') := by
  split
  · exact hq
  · exact hr

theorem leads_offerNamed (wanted : String) (d : Decl) : Leads w n (·.offerNamed wanted d) := by
  have hne (found : Array Decl) : (found.push d).toList ≠ [] := by simp
  refine leads_ite ⟨fun found => .ends (hne found) ?_, fun found => ?_⟩ leads_pure
  · exact List.prefix_rfl
  · exact ⟨⟨(), rfl⟩, by simp⟩

theorem leads_offerAll (ds : List Decl) : Leads w n (·.offerAll s ds) :=
  leads_forM fun d _ => leads_offerNamed _ d

theorem leads_offer (d : Decl) : Leads w n (·.offer s d) := leads_offerNamed _ d

/-! ### Names in scopes -/

theorem leads_searchParameters (function : Node) : Leads w n (·.searchParameters s function) :=
  leads_ite (leads_offerAll _) leads_pure

theorem quiet_receiverTypeParameters (l : Lookup) (d : Decl) :
    Quiet (d.receiverTypeParameters l.resolve) := by
  unfold Decl.receiverTypeParameters
  split
  · exact quiet_filterM fun m _ => (l.quiet_resolve m).bind fun _ => quiet_pure _
  · exact quiet_pure _

theorem leads_searchReceiverParameters (function : Node) :
    Leads w n (·.searchReceiverParameters s function) := by
  unfold Leads searchReceiverParameters
  split
  · exact .after (quiet_receiverTypeParameters _ _) fun _ => leads_offerAll _
  · exact leads_pure

theorem leads_searchScope (scope : Node) (inner : Option Node) :
    Leads w n (·.searchScope s scope inner) :=
  leads_ite
    ((leads_searchParameters scope).seq ((leads_offerAll _).seq
      (leads_searchReceiverParameters scope)))
    (leads_ite (leads_offerAll _) (leads_ite (leads_offerAll _) leads_pure))

theorem leads_searchOutward (scopes : List Node) (inner : Option Node) :
    Leads w n (·.searchOutward s inner scopes) := by
  induction scopes generalizing inner with
  | nil => exact leads_pure
  | cons scope scopes ih => exact (leads_searchScope scope inner).seq (ih (some scope))

theorem leads_searchLiteral : Leads w n (·.searchLiteral s) := by
  refine leads_ite ?_ leads_pure
  dsimp only
  split
  · refine .after (quiet_infer _ _) fun t => ?_
    cases t with
    | none => exact leads_pure
    | some t => exact leads_offerAll _
  · exact leads_pure

theorem leads_searchFiles : Leads w n (·.searchFiles s) :=
  leads_forM fun _ _ => leads_forM fun _ _ => leads_offerAll _

theorem leads_searchUnqualified : Leads w n (·.searchUnqualified) :=
  leads_ite leads_pure <|
    (leads_ite leads_searchLiteral leads_pure).seq <|
      (leads_ite leads_pure (leads_searchOutward _ none)).seq <|
        leads_searchFiles.seq (leads_ite (leads_offer _) leads_pure)

/-! ### Names after a dot -/

theorem quiet_isReceiverTypeParameter (l : Lookup) (receiver : Node) :
    Quiet (l.isReceiverTypeParameter receiver) :=
  (l.quiet_resolve receiver).bind fun _ => quiet_pure _

theorem quiet_receiverMatches (l : Lookup) (t : Ty) (receiver : Node) :
    Quiet (l.receiverMatches t receiver) := by
  fun_induction receiverMatches l t receiver with
  | case1 t receiver hkind =>
      refine (l.quiet_isReceiverTypeParameter receiver).bind fun b => ?_
      split <;> exact quiet_pure _
  | case2 t receiver hkind =>
      refine (l.quiet_infer receiver).bind fun t' => ?_
      split
      · split <;> exact quiet_pure _
      · exact quiet_pure _
  | case3 t receiver hkind inner hinner t' ht' ih => exact ih
  | case4 | case5 | case6 => exact quiet_pure _

theorem quiet_isReceiverNamed (l : Lookup) (name : String) (receiver : Node) :
    Quiet (l.isReceiverNamed name receiver) := by
  unfold isReceiverNamed
  split
  · split
    · exact quiet_pure _
    · exact l.quiet_isReceiverTypeParameter receiver
  · exact quiet_pure _
  · exact quiet_pure _

/-- Whether a receiver accepts a type does not depend on the look-up. -/
theorem receiverMatches_eq (l l' : Lookup) (t : Ty) (receiver : Node) :
    l.receiverMatches t receiver = l'.receiverMatches t receiver := by
  fun_induction receiverMatches l t receiver with
  | case1 t receiver hkind => rw [receiverMatches.eq_def, hkind]; rfl
  | case2 t receiver hkind => rw [receiverMatches.eq_def, hkind]; rfl
  | case3 t receiver hkind inner hinner t' ht' ih =>
      rw [ih, receiverMatches.eq_def l' t, hkind]
      dsimp only
      split
      · rename_i inner' hinner'
        rw [hinner, Option.some_inj] at hinner'
        rw [ht', hinner']
      · rename_i hnone
        rw [hinner] at hnone
        cases hnone
  | case4 t receiver hkind inner hinner ht' =>
      rw [receiverMatches.eq_def, hkind]
      dsimp only
      split
      · rw [ht']
      · rfl
  | case5 t receiver hkind hinner =>
      rw [receiverMatches.eq_def, hkind]
      dsimp only
      split
      · rename_i hsome
        rw [hinner] at hsome
        cases hsome
      · rfl
  | case6 t receiver h1 h2 h3 =>
      rw [receiverMatches.eq_def]
      split
      · exact (h1 ‹_›).elim
      · exact (h2 ‹_›).elim
      · exact (h3 ‹_›).elim
      · rfl

theorem leads_searchInstanceMethods (t : Ty) : Leads w n (·.searchInstanceMethods s t) := by
  refine leads_forM fun ⟨method, receiver⟩ _ => ?_
  dsimp only
  rw [receiverMatches_eq ⟨w, n, true⟩ ⟨w, n, false⟩]
  exact .after (quiet_receiverMatches _ t receiver) fun _ => leads_ite (leads_offer _) leads_pure

theorem leads_searchStaticMethods (name : String) :
    Leads w n (·.searchStaticMethods s name) :=
  leads_forM fun m _ => .after (quiet_isReceiverNamed ⟨w, n, false⟩ name m.2) fun _ =>
    leads_ite (leads_offer _) leads_pure

theorem leads_searchType (t : Ty) : Leads w n (·.searchType s t) :=
  leads_forM fun source _ => by
    cases source with
    | fields anchor => exact leads_offerAll _
    | methods t => exact leads_searchInstanceMethods t

theorem leads_searchNamedType (named : Option Decl) : Leads w n (·.searchNamedType s named) := by
  cases named with
  | none => exact leads_pure
  | some d => exact leads_ite (leads_searchStaticMethods d.name) leads_pure

theorem leads_searchNamedEnum (named : Option Decl) (t : Ty) :
    Leads w n (·.searchNamedEnum s named t) := by
  unfold Leads searchNamedEnum
  split
  · exact (leads_offerAll _).seq (leads_searchStaticMethods _)
  · exact leads_pure

theorem leads_searchQualified (qualifier : Node) : Leads w n (·.searchQualified qualifier) := by
  have hdecl : Quiet ((⟨w, n, false⟩ : Lookup).qualifierDecl qualifier) := by
    unfold qualifierDecl
    split
    · exact quiet_resolve _ qualifier
    · exact quiet_pure _
  refine .after hdecl fun named => (leads_searchNamedType named).seq ?_
  refine .after (quiet_infer _ qualifier) fun t => ?_
  cases t with
  | none => exact leads_pure
  | some t =>
      exact leads_ite (leads_searchStaticMethods _)
        ((leads_searchNamedEnum named _).seq (leads_searchType _))

/-- Both look-ups of a node ask the same questions until the one ends with a declaration, which
is the first that the other collects. -/
theorem leads_search : Leads w n search := by
  refine leads_ite leads_pure ?_
  dsimp only
  split
  · exact leads_offer _
  · rw [show (⟨w, n, false⟩ : Lookup).qualifier? = (⟨w, n, true⟩ : Lookup).qualifier? from rfl]
    split
    · exact leads_searchQualified _
    · exact leads_searchUnqualified

end Lookup

namespace Resolution

/-- Leaving out what has been found before does not change what is found first. -/
theorem head?_distinct (ds : List Decl) : (distinct ds).head? = ds.head? := by
  have kept : ∀ (ds : List Decl) (d : Decl) (found : List Decl),
      (ds.foldl (fun found d => if found.any (·.isSame d) then found else found ++ [d])
        (d :: found)).head? = some d := by
    intro ds
    induction ds with
    | nil => exact fun d found => rfl
    | cons e ds ih =>
        intro d found
        rw [List.foldl_cons]
        split
        · exact ih d found
        · exact ih d (found ++ [e])
  cases ds with
  | nil => rfl
  | cons d ds => exact kept ds d []

variable (w : Workspace) (n : Node) (ask : Oracle) (c : Caches)

/-- A node refers to what the look-up of the first declaration ends with. -/
theorem run_first : ((first w n).run ask c).1 =
    (((Lookup.search ⟨w, n, false⟩).run.run #[]).run ask c).1.2.toList.head? := by
  rw [first, Query.run_bind, Lookup.run, Query.run_bind]
  rfl

/-- Asked on the same tables, what an entry of an object literal refers to is the first of all
declarations that it refers to. -/
theorem head?_run_every (hentry : isShorthand n = true) :
    ((every w n).run ask c).1.head? = ((first w n).run ask c).1 := by
  rw [run_first, (Lookup.leads_search.begins #[]).head?_run, every, if_pos hentry, Query.run_bind,
    Lookup.run, Query.run_bind]
  exact head?_distinct _

end Resolution

end TolkAnalysis
