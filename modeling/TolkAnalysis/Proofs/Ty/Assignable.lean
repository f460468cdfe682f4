import TolkAnalysis.Proofs.Ty.Normal

/-!
# Equal types accept each other

`accepts_of_equals` says that a type accepts the values of any type equal to it, as long as
only unions of some type and null are applied to arguments. The condition is needed: a value
whose type is an applied union fits a union only if both add null to the same type, since the
variants of an applied union are not compared. So a generic alias of any other union does not
even accept its own values, `not_accepts_self_of_applied_union`.
-/

namespace TolkAnalysis

namespace Ty

/-! ### Acceptance form by form -/

theorem unknown_accepts (r : Ty) : unknown.accepts r = true := by
  cases r <;> rw [accepts] <;> simp

theorem accepts_alias_left (n : Nominal) (s r : Ty) :
    (Ty.alias n s).accepts r = (r.isNamed n.name || s.accepts r) := by
  cases r <;> simp [accepts]

theorem accepts_alias_right {s : Ty} (hs : s.isAlias = false) (n : Nominal) (r : Ty) :
    s.accepts (Ty.alias n r) = s.accepts r := by
  cases s <;> first | cases hs; done | simp [accepts, unknown_accepts]

theorem accepts_stripAliases {s : Ty} (hs : s.isAlias = false) (r : Ty) :
    s.accepts r.stripAliases = s.accepts r := by
  fun_induction stripAliases r with
  | case1 n r ih => rw [ih, accepts_alias_right hs]
  | case2 r => rfl

theorem acceptAll_iff {ts rs : List Ty} :
    acceptAll ts rs = true ↔ List.Forall₂ (fun t r => t.accepts r = true) ts rs := by
  induction ts generalizing rs with
  | nil => cases rs <;> simp [acceptAll]
  | cons t ts ih => cases rs <;> simp [acceptAll, ih]

theorem accepts_function {params params' : List Ty} {result result' : Ty} :
    (function params result).accepts (.function params' result') =
      (acceptAll params params' && acceptAll params' params &&
        result.accepts result' && result'.accepts result) := by
  rw [accepts]

theorem accepts_union_union {variants others : List Ty} :
    (union variants).accepts (.union others) =
      ((fitNullable? variants others).isSome || unionContainsAll variants others) := by
  rw [accepts]
  rfl

theorem accepts_instantiation {s t : Ty} {args args' : List Ty} :
    (instantiation s args).accepts (.instantiation t args') =
      match s.unionBody? with
      | some variants => (Ty.union variants).accepts (.instantiation t args')
      | none => s.accepts t && acceptAll args args' := by
  rw [accepts]
  cases s.unionBody? <;> rfl

/-- A value of an applied union is taken for a value of the union. -/
theorem accepts_union_instantiation {variants others : List Ty} {t : Ty} {args : List Ty}
    (ht : t.baseType = .union others) :
    (union variants).accepts (.instantiation t args) =
      (fitNullable? variants others).isSome := by
  simp [accepts, baseType, ht]

/-! ### Equal types have equal base types -/

theorem baseType_stripAliases (t : Ty) : t.stripAliases.baseType = t.baseType := by
  fun_induction stripAliases t with
  | case1 n t ih => exact ih
  | case2 t => rfl

theorem baseType_of_unwrapAlias {t : Ty} {variants : List Ty}
    (h : t.unwrapAlias = .union variants) : t.baseType = .union variants := by
  fun_induction unwrapAlias t with
  | case1 n t ih => exact ih h
  | case2 n vs args => exact h
  | case3 n body args => cases h
  | case4 t => rw [h]; rfl

/-- The type is applied to arguments. -/
def isInstantiation : Ty → Bool
  | .instantiation .. => true
  | _ => false

theorem baseType_eq_self {t : Ty} (halias : t.isAlias = false)
    (hinst : t.isInstantiation = false) : t.baseType = t := by
  cases t <;> first | rfl | cases halias; done | cases hinst

/-- What equals a type that is neither an alias nor applied is not applied either. -/
theorem isInstantiation_of_equals {s t : Ty} (halias : s.isAlias = false)
    (hinst : s.isInstantiation = false) (h : s.equals t = true) :
    t.stripAliases.isInstantiation = false := by
  match ht : t.stripAliases with
  | .instantiation inner args =>
      have hback := equals_symm h
      rw [← equals_stripAliases_left halias, ht, equals_instantiation,
        stripAliases_eq_self halias] at hback
      obtain ⟨inner', args', rfl, -⟩ := hback
      cases hinst
  | .int | .intN .. | .varIntN .. | .coins | .bool | .bitsN _ | .bytesN _ | .null | .void
  | .never | .unknown | .builtin _ | .struct .. | .enum _ | .alias .. | .typeParam ..
  | .tensor _ | .tuple _ | .union _ | .function .. => rfl

theorem equals_baseType {s t : Ty} (h : s.equals t = true) :
    s.baseType.equals t.baseType = true := by
  fun_induction baseType s generalizing t with
  | case1 n s ih =>
      cases ht : t.isAlias with
      | false => exact ih ((equals_alias_left ht).symm.trans h)
      | true =>
          obtain ⟨m, t, rfl⟩ := exists_of_isAlias ht
          have hinner : s.baseType.equals t.baseType = true := ih (equals_alias_alias.mp h).2
          exact hinner
  | case2 s args ih =>
      obtain ⟨s', args', ht, hs, -⟩ := equals_instantiation.mp h
      have hinner : s.baseType.equals s'.baseType = true := ih hs
      rwa [← baseType_stripAliases t, ht]
  | case3 s halias hinst =>
      have halias : s.isAlias = false := by
        cases s <;> first | rfl | exact (halias _ _ rfl).elim
      have hinst : s.isInstantiation = false := by
        cases s <;> first | rfl | exact (hinst _ _ rfl).elim
      rw [← baseType_stripAliases t, baseType_eq_self (isAlias_stripAliases t)
        (isInstantiation_of_equals halias hinst h), equals_stripAliases_right halias]
      exact h

theorem baseType_of_unionBody? {t : Ty} {variants : List Ty} (h : t.unionBody? = some variants) :
    t.baseType = .union variants := by
  unfold unionBody? at h
  split at h <;> cases h
  rename_i heq
  exact baseType_of_unwrapAlias heq

theorem unionBody?_eq_none {t : Ty} (h : ∀ variants, t.baseType ≠ .union variants) :
    t.unionBody? = none :=
  Option.eq_none_iff_forall_not_mem.mpr fun variants hbody =>
    h variants (baseType_of_unionBody? hbody)

theorem isAlias_baseType (t : Ty) : t.baseType.isAlias = false := by
  fun_induction baseType t with
  | case1 n t ih => exact ih
  | case2 t args ih => exact ih
  | case3 t h => cases t <;> first | rfl | exact (h _ _ rfl).elim

theorem baseType_ne_union_of_equals {s t : Ty} (h : s.equals t = true)
    (hs : ∀ variants, s.baseType ≠ .union variants) : ∀ variants, t.baseType ≠ .union variants := by
  intro variants ht
  have hbase := equals_baseType (equals_symm h)
  rw [ht] at hbase
  obtain ⟨others, hs', -⟩ := equals_union.mp hbase
  rw [stripAliases_eq_self (isAlias_baseType s)] at hs'
  exact hs others hs'

/-! ### Unions of a type and null -/

/-- The other variant of a well-formed union with null does not equal null. -/
theorem WellFormed.nullableInner_ne_null {variants : List Ty} (h : (union variants).WellFormed)
    {t : Ty} (ht : nullableInner? variants = some t) : t.equals .null = false := by
  have hdistinct := (wellFormed_union.mp h).1.distinct
  rw [← Bool.not_eq_true]
  intro hnull
  have hstrip : t.stripAliases = .null := (equals_primitive rfl).mp (equals_symm hnull)
  have hunwrap : t.unwrapAlias = .null := by
    rw [← unwrapAlias_stripAliases, hstrip]
    rfl
  unfold nullableInner? at ht
  split at ht <;> cases ht <;>
    simp [hunwrap, unwrapAlias, equals, stripAliases] at hdistinct

theorem exists_of_nullableInner? {variants : List Ty} {t : Ty}
    (ht : nullableInner? variants = some t) : ∀ v ∈ variants, v = .null ∨ v = t := by
  unfold nullableInner? at ht
  split at ht <;> cases ht <;> simp

/-- Equal unions with null add it to equal types. -/
theorem equals_nullableInner {variants others : List Ty} {s t : Ty}
    (hwf : (union variants).WellFormed) (hs : nullableInner? variants = some s)
    (ht : nullableInner? others = some t) (h : (union variants).equals (.union others) = true) :
    s.equals t = true := by
  obtain ⟨ts, hts, -, hleft, -⟩ := equals_union.mp h
  cases hts
  obtain ⟨r, hr, hsr⟩ := hleft s (mem_of_nullableInner? hs)
  rcases exists_of_nullableInner? ht r hr with rfl | rfl
  · rw [hwf.nullableInner_ne_null hs] at hsr
    cases hsr
  · exact hsr

theorem isSome_fitNullable? {variants others : List Ty} (hwf : (union variants).WellFormed)
    (hs : (nullableInner? variants).isSome) (ht : (nullableInner? others).isSome)
    (h : (union variants).equals (.union others) = true) :
    (fitNullable? variants others).isSome := by
  obtain ⟨s, hs⟩ := Option.isSome_iff_exists.mp hs
  obtain ⟨t, ht⟩ := Option.isSome_iff_exists.mp ht
  simp [fitNullable?, hs, ht, equals_baseType (equals_nullableInner hwf hs ht h)]

/-! ### Assignability contains equality -/

mutual

/-- Every union that is applied to arguments, where a value of the type is taken apart, is a
union of some type and null. -/
def AppliesOptions : Ty → Prop
  | .alias _ inner => inner.AppliesOptions
  | .tensor elements => AllApplyOptions elements
  | .tuple elements => AllApplyOptions elements
  | .function params result => AllApplyOptions params ∧ result.AppliesOptions
  | .instantiation inner args =>
      (∀ variants, inner.baseType = .union variants → (nullableInner? variants).isSome) ∧
        inner.AppliesOptions ∧ AllApplyOptions args
  | _ => True

/-- The same for each type of a list. -/
def AllApplyOptions : List Ty → Prop
  | [] => True
  | t :: ts => t.AppliesOptions ∧ AllApplyOptions ts

end

theorem allApplyOptions_iff {ts : List Ty} : AllApplyOptions ts ↔ ∀ t ∈ ts, t.AppliesOptions := by
  induction ts with
  | nil => simp [AllApplyOptions]
  | cons t ts ih => simp [AllApplyOptions, ih]

theorem AppliesOptions.stripAliases {t : Ty} (h : t.AppliesOptions) :
    t.stripAliases.AppliesOptions := by
  fun_induction Ty.stripAliases t with
  | case1 n t ih => exact ih h
  | case2 t => exact h

theorem sizeOf_stripAliases_le (t : Ty) : sizeOf t.stripAliases ≤ sizeOf t := by
  fun_induction stripAliases t with
  | case1 n t ih => simp; omega
  | case2 t => exact Nat.le_refl _

/-- Equal types that are together smaller than the bound accept each other. -/
def EqualAccepts (bound : Nat) : Prop :=
  ∀ u v : Ty, sizeOf u + sizeOf v < bound → u.WellFormed → v.WellFormed → u.AppliesOptions →
    v.AppliesOptions → u.equals v = true → u.accepts v = true

namespace EqualAccepts

variable {bound : Nat} (h : EqualAccepts bound)
include h

theorem acceptAll {us vs : List Ty} (hlt : sizeOf us + sizeOf vs < bound)
    (hus : ∀ u ∈ us, u.WellFormed) (hvs : ∀ v ∈ vs, v.WellFormed)
    (hus' : AllApplyOptions us) (hvs' : AllApplyOptions vs)
    (heq : List.Forall₂ (fun u v => u.equals v = true) us vs) : Ty.acceptAll us vs = true := by
  rw [allApplyOptions_iff] at hus' hvs'
  refine acceptAll_iff.mpr (List.forall₂_iff_get.mpr ⟨heq.length_eq, fun i hu hv => ?_⟩)
  have hsize : sizeOf us[i] < sizeOf us := List.sizeOf_get us ⟨i, hu⟩
  have hsize' : sizeOf vs[i] < sizeOf vs := List.sizeOf_get vs ⟨i, hv⟩
  exact h _ _ (by simp only [List.get_eq_getElem]; omega) (hus _ (List.get_mem ..))
    (hvs _ (List.get_mem ..)) (hus' _ (List.get_mem ..)) (hvs' _ (List.get_mem ..))
    ((List.forall₂_iff_get.mp heq).2 i hu hv)

theorem function {params params' : List Ty} {result result' : Ty}
    (hlt : sizeOf (Ty.function params result) + sizeOf (Ty.function params' result') ≤ bound)
    (hwf : (Ty.function params result).WellFormed)
    (hwf' : (Ty.function params' result').WellFormed)
    (ha : (Ty.function params result).AppliesOptions)
    (ha' : (Ty.function params' result').AppliesOptions)
    (hparams : List.Forall₂ (fun u v => u.equals v = true) params params')
    (hresult : result.equals result' = true) :
    (Ty.function params result).accepts (.function params' result') = true := by
  obtain ⟨hwparams, hwresult⟩ := hereditary_wellFormed.function.mp hwf
  obtain ⟨hwparams', hwresult'⟩ := hereditary_wellFormed.function.mp hwf'
  simp only [function.sizeOf_spec] at hlt
  simp only [accepts_function, Bool.and_eq_true, and_assoc]
  exact ⟨h.acceptAll (by omega) hwparams hwparams' ha.1 ha'.1 hparams,
    h.acceptAll (by omega) hwparams' hwparams ha'.1 ha.1 (forall₂_equals_symm hparams),
    h _ _ (by omega) hwresult hwresult' ha.2 ha'.2 hresult,
    h _ _ (by omega) hwresult' hwresult ha'.2 ha.2 (equals_symm hresult)⟩

theorem instantiation {inner inner' : Ty} {args args' : List Ty}
    (hlt : sizeOf (Ty.instantiation inner args) + sizeOf (Ty.instantiation inner' args') ≤ bound)
    (hwf : (Ty.instantiation inner args).WellFormed)
    (hwf' : (Ty.instantiation inner' args').WellFormed)
    (ha : (Ty.instantiation inner args).AppliesOptions)
    (ha' : (Ty.instantiation inner' args').AppliesOptions)
    (hinner : inner.equals inner' = true)
    (hargs : List.Forall₂ (fun u v => u.equals v = true) args args') :
    (Ty.instantiation inner args).accepts (.instantiation inner' args') = true := by
  obtain ⟨hwinner, hwargs⟩ := hereditary_wellFormed.instantiation.mp hwf
  obtain ⟨hwinner', hwargs'⟩ := hereditary_wellFormed.instantiation.mp hwf'
  obtain ⟨hoption, hainner, haargs⟩ := ha
  obtain ⟨hoption', hainner', haargs'⟩ := ha'
  simp only [instantiation.sizeOf_spec] at hlt
  rw [accepts_instantiation]
  split
  · -- A union with null, applied to arguments: the base types are compared.
    rename_i variants hbody
    have hbase := baseType_of_unionBody? hbody
    have hequal := equals_baseType hinner
    rw [hbase] at hequal
    obtain ⟨others, hbase', -⟩ := equals_union.mp hequal
    rw [stripAliases_eq_self (isAlias_baseType inner')] at hbase'
    rw [accepts_union_instantiation hbase']
    exact isSome_fitNullable? (hbase ▸ hereditary_wellFormed.baseType hwinner)
      (hoption _ hbase) (hoption' _ hbase') (hbase' ▸ hequal)
  · rw [Bool.and_eq_true]
    exact ⟨h _ _ (by omega) hwinner hwinner' hainner hainner' hinner,
      h.acceptAll (by omega) hwargs hwargs' haargs haargs' hargs⟩

end EqualAccepts

/-- Equal types accept each other's values, if only options are applied to arguments. -/
theorem accepts_of_equals {s t : Ty} (hs : s.WellFormed) (ht : t.WellFormed)
    (hs' : s.AppliesOptions) (ht' : t.AppliesOptions) (h : s.equals t = true) :
    s.accepts t = true := by
  have smaller : EqualAccepts (sizeOf s + sizeOf t) := fun u v _ hu hv hu' hv' h =>
    accepts_of_equals hu hv hu' hv' h
  -- Aliases around the second type do not matter, except when the first is an alias as well.
  have hsize := sizeOf_stripAliases_le t
  have hu := hereditary_wellFormed.stripAliases ht
  have hu' := ht'.stripAliases
  cases s using inductionOnParts with
  | aliasOf n s =>
      rw [accepts_alias_left]
      cases halias : t.isAlias with
      | true =>
          obtain ⟨m, t, rfl⟩ := exists_of_isAlias halias
          simp [isNamed, nominal?, (equals_alias_alias.mp h).1]
      | false =>
          rw [equals_alias_left halias] at h
          have hinner : s.accepts t = true := 
            smaller s t (by simp only [Ty.alias.sizeOf_spec]; omega) hs ht hs' ht' h
          simp [hinner]
  | primitive s hprimitive =>
      rw [← accepts_stripAliases (isAlias_of_isPrimitive hprimitive) t,
        (equals_primitive hprimitive).mp h]
      cases s <;> cases hprimitive <;> simp [accepts, isIntFamily, equals, stripAliases]
  | builtin n =>
      obtain ⟨m, hm, hname⟩ := equals_builtin.mp h
      rw [← accepts_stripAliases rfl t, hm]
      simp [accepts, isNamed, nominal?, hname]
  | struct n fields =>
      obtain ⟨m, others, hm, hname⟩ := equals_struct.mp h
      rw [← accepts_stripAliases rfl t, hm]
      simp [accepts, isNamed, nominal?, hname]
  | enum n =>
      obtain ⟨m, hm, hname⟩ := equals_enum.mp h
      rw [← accepts_stripAliases rfl t, hm]
      simp [accepts, isNamed, nominal?, hname]
  | typeParam n default =>
      obtain ⟨m, other, hm, -⟩ := equals_typeParam.mp h
      rw [← accepts_stripAliases rfl t, hm]
      simp [accepts, nominal?]
  | tensor ss =>
      obtain ⟨ts, hts, hall⟩ := equals_tensor.mp h
      rw [← accepts_stripAliases rfl t, hts, accepts]
      rw [hts] at hu hu' hsize
      simp only [tensor.sizeOf_spec] at smaller hsize
      exact smaller.acceptAll (by omega) (hereditary_wellFormed.tensor.mp hs)
        (hereditary_wellFormed.tensor.mp hu) hs' hu' hall
  | tuple ss =>
      obtain ⟨ts, hts, hall⟩ := equals_tuple.mp h
      rw [← accepts_stripAliases rfl t, hts, accepts]
      rw [hts] at hu hu' hsize
      simp only [tuple.sizeOf_spec] at smaller hsize
      exact smaller.acceptAll (by omega) (hereditary_wellFormed.tuple.mp hs)
        (hereditary_wellFormed.tuple.mp hu) hs' hu' hall
  | union ss =>
      obtain ⟨ts, hts, -, -, hright⟩ := equals_union.mp h
      rw [← accepts_stripAliases rfl t, hts, accepts_union_union]
      simp only [unionContainsAll, unionContains, Bool.or_eq_true, List.all_eq_true, anyEqual_iff]
      exact .inr hright
  | function params result =>
      obtain ⟨params', result', hts, hparams, hresult⟩ := equals_function.mp h
      rw [← accepts_stripAliases rfl t, hts]
      rw [hts] at hu hu' hsize
      exact smaller.function (by omega) hs hu hs' hu' hparams hresult
  | instantiation inner args =>
      obtain ⟨inner', args', hts, hinner, hargs⟩ := equals_instantiation.mp h
      rw [← accepts_stripAliases rfl t, hts]
      rw [hts] at hu hu' hsize
      exact smaller.instantiation (by omega) hs hu hs' hu' hinner hargs
termination_by sizeOf s + sizeOf t

/-- A generic alias of an option, once applied, accepts its own values. -/
theorem accepts_self_of_applied_option :
    (instantiation (.alias ⟨"Maybe", none⟩ (.union [.int, .null])) [.int]).equals
        (.instantiation (.alias ⟨"Maybe", none⟩ (.union [.int, .null])) [.int]) = true ∧
      (instantiation (.alias ⟨"Maybe", none⟩ (.union [.int, .null])) [.int]).accepts
        (.instantiation (.alias ⟨"Maybe", none⟩ (.union [.int, .null])) [.int]) = true := by
  have hwf : (instantiation (.alias ⟨"Maybe", none⟩ (.union [.int, .null])) [.int]).WellFormed := by
    refine ⟨wellFormed_union.mpr ⟨⟨by simp, by simp [baseType], ?_⟩, by simp [WellFormed]⟩,
      by simp [AllWellFormed, WellFormed]⟩
    simp [unwrapAlias, equals, stripAliases]
  have happly :
      (instantiation (.alias ⟨"Maybe", none⟩ (.union [.int, .null])) [.int]).AppliesOptions := by
    simp [AppliesOptions, AllApplyOptions, baseType, nullableInner?]
  exact ⟨equals_refl _, accepts_of_equals hwf hwf happly happly (equals_refl _)⟩

/-- A generic alias of any other union, once applied, equals itself but does not accept its
own values. -/
theorem not_accepts_self_of_applied_union :
    ¬ ∀ s t : Ty, s.WellFormed → t.WellFormed → s.equals t = true → s.accepts t = true := by
  intro h
  have hwf : (instantiation (.alias ⟨"Either", none⟩ (.union [.int, .bool])) [.int]).WellFormed := by
    refine ⟨wellFormed_union.mpr ⟨⟨by simp, by simp [baseType], ?_⟩, by simp [WellFormed]⟩,
      by simp [AllWellFormed, WellFormed]⟩
    simp [unwrapAlias, equals, stripAliases]
  have haccepts := h _ _ hwf hwf (equals_refl _)
  have hbody : (Ty.alias ⟨"Either", none⟩ (.union [.int, .bool])).unionBody? =
      some [.int, .bool] := rfl
  rw [accepts_instantiation, hbody] at haccepts
  change (Ty.union [.int, .bool]).accepts _ = true at haccepts
  rw [accepts_union_instantiation rfl] at haccepts
  cases haccepts

end Ty

end TolkAnalysis
