import TolkAnalysis.Proofs.Resolution.Unqualified
import TolkAnalysis.Proofs.Ty.Equality

/-!
# Fields of a struct

After a dot the members of the object's type are looked for. The type may be an alias of a struct
that is applied to arguments, or an option of it: `Ty.memberSources` goes through the aliases and
the application, and before it comes to the fields it lists the types whose methods are offered
(`MemberSource.leading`). Where no such method has the name (`Lookup.Unshadowed`), the name refers
to the first field with the name (`FieldAccess.resolve_member`).

What a method that is not taken asks on the way must be answered nevertheless: `Search.Answers`
says that a part of a search that offers nothing ends with an answer.
-/

namespace TolkAnalysis

namespace Search

variable {α β : Type} {known : Findings} {q : Search α} {a : α}

/-- The search offers nothing and answers `a`. -/
def Answers (known : Findings) (q : Search α) (a : α) : Prop :=
  ∀ found, eval? known q found = some (.ok a, found)

theorem answers_pure (a : α) : Answers known (pure a) a := fun _ => rfl

theorem Answers.bind {f : α → Search β} {b : β} (hq : Answers known q a)
    (hf : Answers known (f a) b) : Answers known (q >>= f) b :=
  fun found => (eval?_bind_ok (hq found)).trans (hf found)

theorem answers_resolve (l : Lookup) {n : Node} {d : Option Decl} (h : known.resolve n = some d) :
    Answers known (l.resolve n) d := eval?_resolve l h

theorem answers_infer (l : Lookup) {n : Node} {t : Option Ty} (h : known.infer n = some t) :
    Answers known (l.infer n) t := fun _ => Option.bind_eq_some_iff.mpr ⟨t, h, rfl⟩

end Search

theorem Decl.of_mem_structFields {owner d : Decl} (h : d ∈ owner.structFields) :
    d.kind = .field ∧ d.node.kind = .structFieldDeclaration := by
  unfold structFields at h
  split at h
  · obtain ⟨n, hn, hd⟩ := List.mem_filterMap.mp h
    have hkind : n.kind = .structFieldDeclaration := beq_iff_eq.mp (List.mem_filter.mp hn).2
    obtain ⟨kind, hof, rfl⟩ := Option.map_eq_some_iff.mp hd
    unfold kindOf? at hof
    rw [hkind] at hof
    cases hof
    exact ⟨rfl, hkind⟩
  · cases h

namespace MemberSource

/-- The types whose methods are offered before any field. -/
def leading : List MemberSource → List Ty
  | .methods t :: sources => t :: leading sources
  | _ => []

/-- The struct whose fields are offered first. -/
def owner? : List MemberSource → Option Decl
  | .methods _ :: sources => owner? sources
  | .fields anchor :: _ => anchor
  | [] => none

theorem owner?_append {front back : List MemberSource}
    (h : ∀ source ∈ front, ∃ t, source = .methods t) : owner? (front ++ back) = owner? back := by
  induction front with
  | nil => rfl
  | cons source front ih =>
      rw [List.forall_mem_cons] at h
      obtain ⟨⟨t, rfl⟩, h⟩ := h
      exact ih h

end MemberSource

/-- The members of a struct that is applied to arguments are found behind aliases of it. -/
theorem Ty.owner?_memberSources {t : Ty} {name : String} {owner : Decl} {fields args : List Ty}
    (h : t.stripAliases = .instantiation (.struct ⟨name, some owner⟩ fields) args) :
    MemberSource.owner? t.memberSources = some owner := by
  fun_induction Ty.stripAliases t with
  | case1 n inner ih =>
      rw [memberSources]
      exact ih h
  | case2 t =>
      subst h
      rw [memberSources, MemberSource.owner?, MemberSource.owner?_append]
      · change MemberSource.owner? (Ty.struct ⟨name, some owner⟩ fields).memberSources = _
        rw [memberSources]
        rfl
      · intro source hsource
        split at hsource
        · simp only [List.mem_cons, List.not_mem_nil, or_false] at hsource
          exact hsource.elim (fun h => ⟨_, h⟩) fun h => ⟨_, h⟩
        · cases hsource

namespace Lookup

open Search (Answers answers_pure answers_resolve answers_infer)

variable {known : Findings} {l : Lookup} {wanted : String} {ds : List Decl} {s : LookupState}

/-! ### Parts that offer nothing -/

theorem lists_of_answers {α : Type} {q : Search α} {f : α → Search Unit} {a : α}
    (hq : Answers known q a) (hf : l.Lists known wanted (f a) ds) :
    l.Lists known wanted (q >>= f) ds :=
  fun found => (Search.eval?_bind_ok (hq found)).trans (hf found)

/-- What comes after a declaration that fits does not count. -/
theorem Lists.seq_found {q : Search Unit} {f : Unit → Search Unit}
    (hq : l.Lists known wanted q ds) {d : Decl} (hd : ds.find? (l.fits wanted) = some d) :
    l.Lists known wanted (q >>= f) ds := by
  intro found
  have h := hq found
  unfold outcome at h ⊢
  rw [hd] at h ⊢
  exact Search.eval?_bind_error h

theorem lists_nil_forM {γ : Type} {f : γ → Search Unit} {cs : List γ}
    (h : ∀ c ∈ cs, l.Lists known wanted (f c) []) : l.Lists known wanted (cs.forM f) [] := by
  have hall := lists_forM h
  rwa [List.flatMap_eq_nil_iff.mpr fun _ _ => rfl] at hall

theorem lists_nil_offer (hs : l.wanted s = wanted) {d : Decl} (hd : l.fits wanted d = false) :
    l.Lists known wanted (l.offer s d) [] := by
  intro found
  rw [offer, hs, offerNamed, hd]
  rfl

/-- A method is passed over if it does not fit or its receiver is not accepted. -/
theorem lists_nil_method (hs : l.wanted s = wanted) {q : Search Bool} {b : Bool} {d : Decl}
    (hq : Answers known q b) (hd : b = true → l.fits wanted d = false) :
    l.Lists known wanted (do if ← q then l.offer s d else pure ()) [] := by
  refine lists_of_answers hq ?_
  cases b with
  | true => exact lists_nil_offer hs (hd rfl)
  | false => exact lists_pure

/-! ### Receivers -/

section

variable {receiver : Node}

theorem exists_answers_isReceiverTypeParameter {d : Option Decl}
    (h : known.resolve receiver = some d) :
    ∃ b, Answers known (l.isReceiverTypeParameter receiver) b :=
  ⟨_, (answers_resolve l h).bind (answers_pure _)⟩

/-- Whether a receiver accepts a type is answered if the questions about the names and the applied
types in it are. -/
theorem exists_answers_receiverMatches
    (hnames : ∀ n ∈ receiver.preorder, n.kind = .typeIdentifier → ∃ d, known.resolve n = some d)
    (happlied : ∀ n ∈ receiver.preorder, n.kind = .instantiatedType → ∃ t, known.infer n = some t)
    (t : Ty) : ∃ b, Answers known (l.receiverMatches t receiver) b := by
  fun_induction receiverMatches l t receiver with
  | case1 t receiver hkind =>
      obtain ⟨d, hd⟩ := hnames receiver (Node.mem_preorder_self _) hkind
      obtain ⟨b, hb⟩ := exists_answers_isReceiverTypeParameter (l := l) hd
      cases b with
      | true => exact ⟨_, hb.bind (answers_pure true)⟩
      | false => exact ⟨_, hb.bind (answers_pure _)⟩
  | case2 t receiver hkind =>
      obtain ⟨t', ht'⟩ := happlied receiver (Node.mem_preorder_self _) hkind
      have hinfer := answers_infer l ht'
      cases t' with
      | none => exact ⟨_, hinfer.bind (answers_pure false)⟩
      | some declared =>
          cases declared with
          | instantiation declared args =>
              cases t with
              | instantiation inner args => exact ⟨_, hinfer.bind (answers_pure _)⟩
              | _ => exact ⟨_, hinfer.bind (answers_pure false)⟩
          | _ => exact ⟨_, hinfer.bind (answers_pure false)⟩
  | case3 t receiver hkind inner hinner t' ht' ih =>
      have hbelow : ∀ n ∈ inner.preorder, n ∈ receiver.preorder := fun n hn =>
        Node.mem_preorder_iff.mpr (.inr ⟨inner, Node.mem_children_of_child? hinner, hn⟩)
      exact ih (fun n hn => hnames n (hbelow n hn)) fun n hn => happlied n (hbelow n hn)
  | case4 | case5 | case6 => exact ⟨_, answers_pure false⟩

theorem exists_answers_isReceiverNamed
    (hname : receiver.kind = .typeIdentifier → ∃ d, known.resolve receiver = some d)
    (typeName : String) : ∃ b, Answers known (l.isReceiverNamed typeName receiver) b := by
  unfold isReceiverNamed
  split
  · rename_i hkind
    split
    · exact ⟨_, answers_pure true⟩
    · obtain ⟨d, hd⟩ := hname hkind
      exact exists_answers_isReceiverTypeParameter hd
  · exact ⟨_, answers_pure _⟩
  · exact ⟨_, answers_pure false⟩

end

/-! ### Members of a type -/

/-- No method comes before the fields of a type: the rules end for the applied types in the
receivers of the methods, and neither a method on one of the types whose methods are offered before
the fields nor a static method on the type that the qualifier names has the name. -/
structure Unshadowed (known : Findings) (l : Lookup) (qualifier : Node) (t : Ty) : Prop where
  applied : ∀ m ∈ l.methods .instanceMethod, ∀ n ∈ m.2.preorder, n.kind = .instantiatedType →
    ∃ t', known.infer n = some t'
  onValues : ∀ m ∈ l.methods .instanceMethod, ∀ u ∈ MemberSource.leading t.memberSources,
    Answers known (l.receiverMatches u m.2) true → m.1.name ≠ l.name
  onTypes : ∀ d, known.resolve qualifier = some (some d) →
    (d.kind == .struct || d.kind == .typeAlias) = true →
    ∀ m ∈ l.methods .staticMethod, Answers known (l.isReceiverNamed d.name m.2) true →
    m.1.name ≠ l.name

/-- Sources of methods are passed over if none of their methods fits, and the search ends among the
fields after them if one of these does. -/
theorem lists_sources (hall : l.all = false) (hs : l.wanted s = wanted)
    {sources : List MemberSource} {owner d : Decl}
    (hmethods : ∀ u ∈ MemberSource.leading sources,
      l.Lists known wanted (l.searchInstanceMethods s u) [])
    (howner : MemberSource.owner? sources = some owner)
    (hd : owner.structFields.find? (l.fits wanted) = some d) :
    l.Lists known wanted (sources.forM (l.searchSource s)) owner.structFields := by
  induction sources with
  | nil => cases howner
  | cons source sources ih =>
      cases source with
      | fields anchor =>
          obtain rfl : anchor = some owner := howner
          exact (lists_offerAll hall hs owner.structFields).seq_found hd
      | methods u =>
          rw [MemberSource.leading, List.forall_mem_cons] at hmethods
          exact hmethods.1.seq (ih hmethods.2 howner)

variable {w : Workspace} {element object : Node} {t : Ty}

/-- Looking for a name after a dot ends among the fields of the struct that the type of the object
applies. -/
theorem lists_searchQualified (hall : l.all = false) {named : Option Decl}
    (hnamed : Answers known (l.qualifierDecl object) named)
    (hstatic : ∀ d ∈ named, (d.kind == .struct || d.kind == .typeAlias) = true →
      l.Lists known l.name (l.searchStaticMethods .empty d.name) [])
    (ht : known.infer object = some (some t)) (hkind : object.kind ≠ .genericInstantiation)
    (hmethods : ∀ u ∈ MemberSource.leading t.unwrapOption.memberSources,
      l.Lists known l.name (l.searchInstanceMethods .empty u) [])
    {name : String} {owner d : Decl} {fields args : List Ty}
    (happlies : t.unwrapOption.stripAliases =
      .instantiation (.struct ⟨name, some owner⟩ fields) args)
    (hd : owner.structFields.find? (l.fits l.name) = some d) :
    l.Lists known l.name (l.searchQualified object) owner.structFields := by
  have hnamedType : l.Lists known l.name (l.searchNamedType .empty named) [] := by
    unfold searchNamedType
    cases named with
    | none => exact lists_pure
    | some d =>
        dsimp only
        split
        · rename_i htype
          exact hstatic d rfl htype
        · exact lists_pure
  have hnamedEnum : l.searchNamedEnum .empty named t.unwrapOption = pure () := by
    unfold searchNamedEnum
    rw [← Ty.unwrapAlias_stripAliases, happlies]
    cases named <;> rfl
  have htype : l.Lists known l.name (l.searchType .empty t.unwrapOption) owner.structFields :=
    lists_sources hall wanted_empty hmethods (Ty.owner?_memberSources happlies) hd
  refine lists_of_answers hnamed (hnamedType.seq (lists_of_answers (answers_infer l ht) ?_))
  change l.Lists known l.name (l.searchQualifierType .empty object named t.unwrapOption) _
  unfold searchQualifierType
  rw [if_neg (by rw [beq_iff_eq]; exact hkind), hnamedEnum]
  exact htype

end Lookup

namespace Workspace

variable {w : Workspace} {element object : Node} {b : Bool} {depth : Nat}

/-- The names in the receiver of a method are answered by the rules alone. -/
theorem Sound.resolve_of_mem_methods (h : w.Sound) (hshort : w.HasShortTexts) {kind : DeclKind}
    {m : Decl × Node} (hm : m ∈ (⟨w, element, b⟩ : Lookup).methods kind) {n : Node}
    (hn : n ∈ m.2.preorder) (hname : n.kind = .typeIdentifier) (hdepth : 1 ≤ depth) :
    ∃ d, (w.afresh depth).resolve n = some d := by
  obtain ⟨file, index, hindex, hmem, hreceiver⟩ := Lookup.exists_index_of_mem_methods hm
  obtain ⟨source, hf, hchild, hof, -⟩ := h.mem_children_of_element hindex hmem
  have hnames : n ∈ Lookup.receiverNames m.1.node := by
    unfold Lookup.receiverNames
    rw [hof, Option.bind_some, hreceiver]
    exact List.mem_filter.mpr ⟨hn, beq_iff_eq.mpr hname⟩
  obtain ⟨d, hd, -⟩ :=
    h.resolve_receiverName hshort (reaches_of_mem_children h hf hchild) hnames
  exact ⟨d, w.resolve_afresh_mono hdepth hd⟩

/-- A method fits a name if it has the name. -/
theorem Sound.fits_of_mem_methods (h : w.Sound) (hn : w.Knows element)
    (hname : element.kind.isReferenceLike = true) {kind : DeclKind} {m : Decl × Node}
    (hm : m ∈ (⟨w, element, b⟩ : Lookup).methods kind) (wanted : String) :
    (⟨w, element, b⟩ : Lookup).fits wanted m.1 = (m.1.name == wanted) := by
  obtain ⟨file, index, hindex, hmem, -⟩ := Lookup.exists_index_of_mem_methods hm
  obtain ⟨source, hf, hchild, -, hcategory⟩ := h.mem_children_of_element hindex hmem
  refine fits_of_knows h hn hname (h.knows hf (Node.tree_of_mem_children hchild)) ?_ wanted
  revert hcategory
  cases m.1.node.kind <;> decide

/-- A field fits a name if it has the name. -/
theorem Sound.fits_of_mem_structFields (h : w.Sound) (hn : w.Knows element)
    (hname : element.kind.isReferenceLike = true) {owner d : Decl} (howner : w.Knows owner.node)
    (hd : d ∈ owner.structFields) (wanted : String) :
    (⟨w, element, b⟩ : Lookup).fits wanted d = (d.name == wanted) := by
  refine fits_of_knows h hn hname (h.closed_knows.structFields howner d hd) ?_ wanted
  rw [(Decl.of_mem_structFields hd).2]
  rfl

end Workspace

end TolkAnalysis
