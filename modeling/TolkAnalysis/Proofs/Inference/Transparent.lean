import TolkAnalysis.Proofs.Inference.Afresh
import TolkAnalysis.Proofs.Ty.Equality

/-!
# Values behind aliases

Element access, destructuring, calls of what is no function declaration, `!` and `??` look at what
is left of the type of a value once aliases are removed. Plain aliases are removed one after
another, so a value behind any number of them is taken apart like a value of the type that they
stand for. An applied generic alias is removed only if a union is written in it: of any other body,
also of a further alias of a union, the arguments are kept around it, and what is left is not of a
form that is taken apart.

`Ty.Opens` says that no such alias is on the way, and `Ty.alike_denoted_iff` that this is what it
takes. `Inference.alike_instantiate_iff` is about a generic alias that is applied to arguments: it
is transparent exactly if its body is a union once the arguments are in place.
-/

namespace TolkAnalysis

namespace Ty

/-! ### Taking values apart -/

/-- What a call of a value gives, for the types of functions. -/
def result? (t : Ty) : Option Ty :=
  match t.unwrapAlias with
  | .function _ result => some result
  | _ => none

/-- A value of the type has elements, can be called or may be null. -/
def TakenApart (t : Ty) : Prop :=
  t.elements?.isSome = true ∨ t.result?.isSome = true ∨ t.isNullable = true

/-- Values of the two types are taken apart into values of the same types. -/
structure Alike (s t : Ty) : Prop where
  elements : s.elements? = t.elements?
  result : s.result? = t.result?
  nullable : s.isNullable = t.isNullable
  option : s.unwrapOption.equals t.unwrapOption = true

theorem Alike.takenApart_iff {s t : Ty} (h : s.Alike t) : s.TakenApart ↔ t.TakenApart := by
  rw [TakenApart, TakenApart, h.elements, h.result, h.nullable]

/-- Only what stands behind the aliases is looked at. -/
theorem takenApart_congr {s t : Ty} (h : s.unwrapAlias = t.unwrapAlias) :
    s.elements? = t.elements? ∧ s.result? = t.result? ∧ s.isNullable = t.isNullable := by
  simp only [elements?, result?, isNullable, h, and_self]

theorem not_takenApart_of_instantiation {t inner : Ty} {args : List Ty}
    (h : t.unwrapAlias = .instantiation inner args) : ¬ t.TakenApart := by
  simp [TakenApart, elements?, result?, isNullable, h]

/-! ### What a type denotes -/

/-- The type behind all aliases, plain ones and applied ones. -/
def denoted : Ty → Ty
  | .alias _ inner => inner.denoted
  | .instantiation (.alias _ body) _ => body.denoted
  | t => t

/-- The type is a union, with no alias around it. -/
def IsUnion (t : Ty) : Prop := ∃ variants, t = .union variants

/-- Behind plain aliases there is no applied one, unless a union is written in it. -/
def Opens : Ty → Prop
  | .alias _ inner => inner.Opens
  | .instantiation (.alias _ body) _ => body.IsUnion
  | _ => True

theorem unwrapAlias_eq_self {t : Ty} (halias : ∀ n inner, t ≠ .alias n inner)
    (happlied : ∀ n body args, t ≠ .instantiation (.alias n body) args) : t.unwrapAlias = t :=
  unwrapAlias.eq_4 t halias (fun n variants => happlied n (.union variants)) happlied

/-- What a type denotes is no alias, applied or not. -/
theorem unwrapAlias_denoted (t : Ty) : t.denoted.unwrapAlias = t.denoted := by
  fun_induction denoted t with
  | case1 n inner ih => exact ih
  | case2 n body args ih => exact ih
  | case3 t halias happlied => exact unwrapAlias_eq_self halias happlied

theorem unwrapAlias_eq_denoted {t : Ty} (h : t.Opens) : t.unwrapAlias = t.denoted := by
  fun_induction denoted t with
  | case1 n inner ih => exact ih h
  | case2 n body args ih =>
      obtain ⟨variants, rfl⟩ := h
      rfl
  | case3 t halias happlied => exact unwrapAlias_eq_self halias happlied

/-- Without a union in it, an applied alias stays an instantiation. -/
theorem exists_unwrapAlias_eq_instantiation {t : Ty} (h : ¬ t.Opens) :
    ∃ inner args, t.unwrapAlias = .instantiation inner args := by
  fun_induction denoted t with
  | case1 n inner ih => exact ih h
  | case2 n body args ih =>
      cases body with
      | union variants => exact (h ⟨variants, rfl⟩).elim
      | _ => exact ⟨_, _, rfl⟩
  | case3 t halias happlied => exact (h (Opens.eq_3 t halias happlied ▸ trivial)).elim

/-- A type that is taken apart through aliases is one that opens. -/
theorem takenApart_iff_opens {t : Ty} (h : t.denoted.TakenApart) : t.TakenApart ↔ t.Opens := by
  constructor
  · intro htaken
    by_contra hopens
    obtain ⟨inner, args, heq⟩ := exists_unwrapAlias_eq_instantiation hopens
    exact not_takenApart_of_instantiation heq htaken
  · intro hopens
    obtain ⟨helements, hresult, hnullable⟩ := takenApart_congr (s := t) (t := t.denoted)
      ((unwrapAlias_eq_denoted hopens).trans (unwrapAlias_denoted t).symm)
    rwa [TakenApart, helements, hresult, hnullable]

/-- Only a union with null has an option to unwrap. -/
theorem unwrapOption_eq_self {t : Ty} (h : ∀ variants, t.unwrapAlias ≠ .union variants) :
    t.unwrapOption = t := by
  unfold unwrapOption
  split
  · rename_i variants heq
    exact (h variants heq).elim
  · rfl

/-- Only plain aliases stand around a type that opens and is no union. -/
theorem stripAliases_eq_denoted {t : Ty} (h : t.Opens) (hunion : ¬ t.denoted.IsUnion) :
    t.stripAliases = t.denoted := by
  fun_induction denoted t with
  | case1 n inner ih => exact ih h hunion
  | case2 n body args ih =>
      obtain ⟨variants, rfl⟩ := h
      exact (hunion ⟨variants, rfl⟩).elim
  | case3 t halias happlied =>
      cases t <;> first | rfl | exact (halias _ _ rfl).elim

theorem equals_unwrapOption_denoted {t : Ty} (h : t.Opens) (htaken : t.denoted.TakenApart) :
    t.unwrapOption.equals t.denoted.unwrapOption = true := by
  have hunwrap := unwrapAlias_eq_denoted h
  -- An option gives its inner type on both sides. Any other type is left as it is, and the two then
  -- differ by plain aliases only.
  by_cases hunion : t.denoted.IsUnion
  · obtain ⟨variants, heq⟩ := hunion
    have hnullable : (nullableInner? variants).isSome = true := by
      simpa [TakenApart, heq, elements?, result?, isNullable, unwrapAlias] using htaken
    obtain ⟨inner, hinner⟩ := Option.isSome_iff_exists.mp hnullable
    rw [unwrapOption, unwrapOption, unwrapAlias_denoted, hunwrap, heq]
    simp only [hinner, Option.getD_some, equals_refl]
  · have hplain : ∀ variants, t.denoted ≠ .union variants := fun variants heq =>
      hunion ⟨variants, heq⟩
    rw [unwrapOption_eq_self (hunwrap ▸ hplain),
      unwrapOption_eq_self ((unwrapAlias_denoted t).symm ▸ hplain),
      ← stripAliases_eq_denoted h hunion, ← equals_stripAliases_left (isAlias_stripAliases t)]
    exact equals_refl _

/-- A value is taken apart like a value of the type that its own type denotes if no applied alias
without a union in it is on the way, and is not taken apart otherwise. -/
theorem alike_denoted_iff {t : Ty} (h : t.denoted.TakenApart) : t.Alike t.denoted ↔ t.Opens := by
  constructor
  · intro halike
    exact (takenApart_iff_opens h).mp (halike.takenApart_iff.mpr h)
  · intro hopens
    obtain ⟨helements, hresult, hnullable⟩ := takenApart_congr
      ((unwrapAlias_eq_denoted hopens).trans (unwrapAlias_denoted t).symm)
    exact ⟨helements, hresult, hnullable, equals_unwrapOption_denoted hopens h⟩

end Ty

namespace Inference

/-! ### The rules that take values apart -/

variable {known known' : Findings} {i : Inference} {n : Node}

/-- An element that is accessed by its index is one of the elements of the object's type. -/
theorem eval?_memberType_index {member object : Node} {t : Ty}
    (hmember : n.child? .field = some member) (hkind : member.kind = .numericIndex)
    (hobject : n.child? .obj = some object) (ht : known.infer object = some (some t)) :
    (i.memberType n).run.eval? known =
      some ((elementIndex? member.text).bind fun index => t.elements?.bind (·[index]?)) := by
  unfold memberType
  rw [hmember, Attempt.eval?_bind Attempt.eval?_ofOption, if_pos (by simpa using hkind)]
  cases elementIndex? member.text with
  | none => rfl
  | some index =>
      rw [Attempt.eval?_bind Attempt.eval?_ofOption, Attempt.eval?_bind (eval?_inferChild hobject ht)]
      rfl

/-- A call of what is no function declaration gives the result of its type. -/
theorem eval?_callType_value {callee name : Node} {written : Option Node} {target : Decl} {t : Ty}
    (hcallee : n.child? .callee = some callee) (hparts : calleeParts? callee = some (name, written))
    (htarget : known.resolve name = some (some target)) (hkind : target.kind.isFunctionLike = false)
    (ht : (i.declType target).run.eval? known = some (some t)) :
    (i.callType n).run.eval? known = some t.result? := by
  unfold callType
  rw [hcallee, Attempt.eval?_bind Attempt.eval?_ofOption, hparts,
    Attempt.eval?_bind Attempt.eval?_ofOption, Attempt.eval?_bind (eval?_resolve htarget), hkind]
  refine (Attempt.eval?_bind ht).trans ?_
  unfold Ty.result?
  cases t.unwrapAlias <;> rfl

/-- What is asserted not to be null has the type of the option. -/
theorem eval?_nodeType_notNull {inner : Node} {t : Ty} (hkind : n.kind = .notNullOperator)
    (hinner : n.child? .inner = some inner) (ht : known.infer inner = some (some t)) :
    (i.nodeType n).run.eval? known = some (some t.unwrapOption) := by
  unfold nodeType
  rw [hkind]
  exact Attempt.eval?_bind (eval?_inferChild hinner ht)

/-- In front of `??` the option of a type counts. -/
theorem eval?_binaryType_coalesce {operator left right : Node} {s t : Ty}
    (hoperator : n.child? .operatorName = some operator) (htext : operator.text = "??")
    (hleft : n.child? .left = some left) (hs : known.infer left = some (some s))
    (hright : n.child? .right = some right) (ht : known.infer right = some (some t)) :
    (i.binaryType n).run.eval? known = some (some (Ty.join s.unwrapOption t)) := by
  unfold binaryType
  rw [hoperator, Attempt.eval?_bind Attempt.eval?_ofOption, htext, if_neg (by decide),
    if_neg (by decide), if_pos (by decide), Attempt.eval?_bind (eval?_inferChild hleft hs),
    Attempt.eval?_bind (eval?_inferChild hright ht)]
  rfl

/-! ### Types that the rules do not tell apart -/

section

variable {s t : Ty} (h : s.Alike t)

include h

theorem destructure_of_alike {path : List Nat} (hpath : path ≠ []) (pattern : Node) :
    destructure path pattern s = destructure path pattern t := by
  cases path with
  | nil => exact (hpath rfl).elim
  | cons index path => rw [destructure, destructure, h.elements]

theorem eval?_memberType_of_alike {member object : Node} (hmember : n.child? .field = some member)
    (hkind : member.kind = .numericIndex) (hobject : n.child? .obj = some object)
    (hs : known.infer object = some (some s)) (ht : known'.infer object = some (some t)) :
    (i.memberType n).run.eval? known = (i.memberType n).run.eval? known' := by
  rw [eval?_memberType_index hmember hkind hobject hs,
    eval?_memberType_index hmember hkind hobject ht, h.elements]

theorem eval?_callType_of_alike {callee name : Node} {written : Option Node} {target : Decl}
    (hcallee : n.child? .callee = some callee) (hparts : calleeParts? callee = some (name, written))
    (htarget : known.resolve name = some (some target))
    (htarget' : known'.resolve name = some (some target)) (hkind : target.kind.isFunctionLike = false)
    (hs : (i.declType target).run.eval? known = some (some s))
    (ht : (i.declType target).run.eval? known' = some (some t)) :
    (i.callType n).run.eval? known = (i.callType n).run.eval? known' := by
  rw [eval?_callType_value hcallee hparts htarget hkind hs,
    eval?_callType_value hcallee hparts htarget' hkind ht, h.result]

theorem equals_of_eval?_notNull {inner : Node} (hkind : n.kind = .notNullOperator)
    (hinner : n.child? .inner = some inner) (hs : known.infer inner = some (some s))
    (ht : known'.infer inner = some (some t)) :
    ∃ u u', (i.nodeType n).run.eval? known = some (some u) ∧
      (i.nodeType n).run.eval? known' = some (some u') ∧ u.equals u' = true :=
  ⟨_, _, eval?_nodeType_notNull hkind hinner hs, eval?_nodeType_notNull hkind hinner ht, h.option⟩

end

/-! ### Generic aliases -/

/-- What a generic alias is applied to is put in place in its body. -/
def putInPlace (d : Decl) (body : Ty) (params args : List Ty) : Ty :=
  body.substitute (.ofList (boundParams d.typeParameterNames args params))

theorem substitute_alias (nominal : Nominal) (body : Ty) (σ : Substitution) :
    (Ty.alias nominal body).substitute σ = .alias nominal (body.substitute σ) := by
  unfold Ty.substitute
  split <;> rfl

/-- An alias that is applied keeps its name around its body. -/
theorem instantiate_alias {d : Decl} (hd : d.kind = .typeAlias) (nominal : Nominal) (body : Ty)
    (params args : List Ty) :
    instantiate d (.instantiation (.alias nominal body) params) args =
      .instantiation (.alias nominal (putInPlace d body params args)) args := by
  unfold instantiate
  dsimp only
  rw [if_pos (by rw [hd]; rfl)]
  exact congrArg (Ty.instantiation · args) (substitute_alias ..)

/-- A generic alias comes applied to its type parameters. -/
theorem exists_eval?_declType_genericAlias {d : Decl} {written : Node} {body : Ty}
    (hkind : d.kind = .typeAlias) (hbuiltin : d.isBuiltin = false)
    (hwritten : d.underlyingType? = some written) (hbody : known.infer written = some (some body))
    (hgeneric : d.typeParameters ≠ [])
    (hparams : ∀ p ∈ d.typeParameters, ∃ t, known.infer p = some t) :
    ∃ params, (i.declType d).run.eval? known =
      some (some (.instantiation (.alias (nominalOf d) body) params)) := by
  obtain ⟨params, hmapM⟩ := Attempt.exists_eval?_mapM fun p hp =>
    let ⟨_, ht⟩ := hparams p hp
    ⟨_, eval?_inferOrUnknown (i := i) ht⟩
  refine ⟨params, ?_⟩
  unfold declType
  rw [hkind]
  change (i.aliasType d).run.eval? known = _
  unfold aliasType
  rw [hbuiltin, hwritten]
  refine (Attempt.eval?_bind Attempt.eval?_ofOption).trans
    ((Attempt.eval?_bind (eval?_infer hbody)).trans ?_)
  unfold applied
  rw [if_neg (by simpa using hgeneric)]
  exact Attempt.eval?_bind hmapM

/-- A generic alias that is applied to written arguments keeps its name around its body. -/
theorem eval?_instantiatedType_alias {name list : Node} {d : Decl} {nominal : Nominal} {body : Ty}
    {params : List Ty} {argument : Node → Ty} (hkind : d.kind = .typeAlias)
    (hname : n.child? .name = some name)
    (hbase : known.infer name = some (some (.instantiation (.alias nominal body) params)))
    (hd : known.resolve name = some (some d)) (hlist : n.child? .arguments = some list)
    (hargs : ∀ c ∈ list.children, known.infer c = some (some (argument c))) :
    (i.instantiatedType n).run.eval? known =
      some (some (.instantiation
        (.alias nominal (putInPlace d body params (list.children.map argument)))
        (list.children.map argument))) := by
  rw [eval?_instantiatedType hname hbase hd hlist hargs, instantiate_alias hkind]

/-- A generic alias that is applied to arguments is taken apart like what its body denotes, once
these are in place, if the body then is a union, and not at all otherwise. The same shows beside
the body itself if that opens. -/
theorem alike_instantiate_iff {d : Decl} (hd : d.kind = .typeAlias) (nominal : Nominal)
    {body : Ty} {params args : List Ty}
    (h : (putInPlace d body params args).denoted.TakenApart) :
    ((instantiate d (.instantiation (.alias nominal body) params) args).Alike
        (putInPlace d body params args).denoted ↔ (putInPlace d body params args).IsUnion) ∧
      ((instantiate d (.instantiation (.alias nominal body) params) args).TakenApart ↔
        (putInPlace d body params args).IsUnion) ∧
      ((putInPlace d body params args).Opens →
        ((instantiate d (.instantiation (.alias nominal body) params) args).Alike
          (putInPlace d body params args) ↔ (putInPlace d body params args).IsUnion)) := by
  rw [instantiate_alias hd]
  generalize putInPlace d body params args = s at h ⊢
  -- The applied alias opens just if its body is a union.
  have halike : (Ty.instantiation (.alias nominal s) args).Alike s.denoted ↔ s.IsUnion :=
    Ty.alike_denoted_iff (t := .instantiation (.alias nominal s) args) h
  have htaken : (Ty.instantiation (.alias nominal s) args).TakenApart ↔ s.IsUnion :=
    Ty.takenApart_iff_opens (t := .instantiation (.alias nominal s) args) h
  refine ⟨halike, htaken, fun hopens => ⟨fun hs => ?_, ?_⟩⟩
  · exact htaken.mp (hs.takenApart_iff.mpr ((Ty.takenApart_iff_opens h).mpr hopens))
  · rintro ⟨variants, rfl⟩
    exact halike.mpr ⟨variants, rfl⟩

/-! ### Pairs and options -/

/-- A text with a generic alias of a tensor and one of an option. -/
def genericsText : String := "type Pair<T> = (T, int)\ntype Maybe<T> = T?"

theorem size_generics : (parse 0 0 genericsText).tree.arena.size = 16 := by decide +kernel

/-- An alias that is declared at a node of the text. -/
def genericAlias (id : Fin 16) : Decl :=
  ⟨.typeAlias, (parse 0 0 genericsText).tree, id, by rw [size_generics]; exact id.2⟩

theorem typeParameterNames_genericAlias :
    (genericAlias 7).typeParameterNames = ["T"] ∧
      (genericAlias 14).typeParameterNames = ["T"] := by
  decide +kernel

/-- The type parameter of the aliases. -/
def genericParam : Ty := .typeParam ⟨"T", none⟩ none

theorem putInPlace_pair :
    putInPlace (genericAlias 7) (.tensor [genericParam, .int]) [genericParam] [.bool] =
      .tensor [.bool, .int] := by
  simp [putInPlace, typeParameterNames_genericAlias, boundParams, genericParam, Ty.substitute,
    Ty.replaceParams, Ty.replaceAll, Substitution.ofList, Substitution.isEmpty,
    Substitution.insert, Substitution.get?]

theorem putInPlace_maybe :
    putInPlace (genericAlias 14) (.union [genericParam, .null]) [genericParam] [.bool] =
      .union [.bool, .null] := by
  simp [putInPlace, typeParameterNames_genericAlias, boundParams, genericParam, Ty.substitute,
    Ty.replaceParams, Ty.replaceAll, Substitution.ofList, Substitution.isEmpty,
    Substitution.insert, Substitution.get?, Ty.unionOf, Ty.distinctVariants, Ty.unionParts,
    Ty.baseType, Ty.addVariant, Ty.unwrapAlias, Ty.equals, Ty.stripAliases]

/-- The option is taken apart like the union that is written in its alias. -/
theorem alike_maybe :
    (genericAlias 14).kind = .typeAlias ∧ (Ty.union [.bool, .null]).denoted.TakenApart ∧
      (instantiate (genericAlias 14) (.instantiation (.alias (nominalOf (genericAlias 14))
        (.union [genericParam, .null])) [genericParam]) [.bool]).Alike (.union [.bool, .null]) := by
  have htaken : (Ty.union [.bool, .null]).denoted.TakenApart := .inr (.inr rfl)
  have h := (alike_instantiate_iff (d := genericAlias 14) rfl (nominalOf (genericAlias 14))
    (putInPlace_maybe ▸ htaken)).1.mpr ⟨_, putInPlace_maybe⟩
  rw [putInPlace_maybe] at h
  exact ⟨rfl, htaken, h⟩

/-- The pair is not taken apart like the tensor that is written in its alias. -/
theorem not_alike_instantiate :
    ¬ ∀ (d : Decl) (nominal : Nominal) (body : Ty) (params args : List Ty), d.kind = .typeAlias →
      (∀ t ∈ args, t.hasGenerics = false) → (putInPlace d body params args).denoted.TakenApart →
      (instantiate d (.instantiation (.alias nominal body) params) args).Alike
        (putInPlace d body params args) := by
  intro h
  have hpair := h (genericAlias 7) (nominalOf (genericAlias 7)) (.tensor [genericParam, .int])
    [genericParam] [.bool] rfl (by simp [Ty.hasGenerics])
    (by rw [putInPlace_pair]; exact .inl rfl)
  rw [instantiate_alias rfl, putInPlace_pair] at hpair
  cases hpair.elements

end Inference

end TolkAnalysis
