import TolkAnalysis.Proofs.Ty.Assignable

/-!
# Variants that values are stored as

A union accepts a value if one of its variants is right for it. A variant with the base type of
the value is right before any other, and a base type forgets which arguments a generic type is
applied to. So the variant need not accept the value: `Box<int>?` takes a value of type
`Box<bool>` for a `Box<int>` (`not_accepts_of_exactVariantToFit`).

Equal types accept each other where no union is applied to arguments
(`accepts_of_equals_of_appliesNoUnion`). Where no generic type is applied at all, a base type
forgets nothing, so a variant with the base type of a value accepts it. `takes_of_unionOf` says
what is left in general.
-/

namespace TolkAnalysis

namespace Ty

mutual

/-- No generic type is applied where a value of the type is taken apart. -/
def Unapplied : Ty → Prop
  | .alias _ inner => inner.Unapplied
  | .tensor elements => AllUnapplied elements
  | .tuple elements => AllUnapplied elements
  | .function params result => AllUnapplied params ∧ result.Unapplied
  | .instantiation .. => False
  | _ => True

/-- The same for each type of a list. -/
def AllUnapplied : List Ty → Prop
  | [] => True
  | t :: ts => t.Unapplied ∧ AllUnapplied ts

end

theorem allUnapplied_iff {ts : List Ty} : AllUnapplied ts ↔ ∀ t ∈ ts, t.Unapplied := by
  induction ts with
  | nil => simp [AllUnapplied]
  | cons t ts ih => simp [AllUnapplied, ih]

theorem Unapplied.stripAliases {t : Ty} (h : t.Unapplied) : t.stripAliases.Unapplied := by
  fun_induction Ty.stripAliases t with
  | case1 n t ih => exact ih h
  | case2 t => exact h

mutual

/-- No union is applied to arguments where a value of the type is taken apart. -/
def AppliesNoUnion : Ty → Prop
  | .alias _ inner => inner.AppliesNoUnion
  | .tensor elements => AllApplyNoUnion elements
  | .tuple elements => AllApplyNoUnion elements
  | .function params result => AllApplyNoUnion params ∧ result.AppliesNoUnion
  | .instantiation inner args =>
      (∀ variants, inner.baseType ≠ .union variants) ∧ inner.AppliesNoUnion ∧ AllApplyNoUnion args
  | _ => True

/-- The same for each type of a list. -/
def AllApplyNoUnion : List Ty → Prop
  | [] => True
  | t :: ts => t.AppliesNoUnion ∧ AllApplyNoUnion ts

end

theorem allApplyNoUnion_iff {ts : List Ty} :
    AllApplyNoUnion ts ↔ ∀ t ∈ ts, t.AppliesNoUnion := by
  induction ts with
  | nil => simp [AllApplyNoUnion]
  | cons t ts ih => simp [AllApplyNoUnion, ih]

theorem Unapplied.appliesNoUnion {t : Ty} (h : t.Unapplied) : t.AppliesNoUnion := by
  induction t using inductionOnParts with
  | aliasOf n inner ih => exact ih h
  | tensor ts ih =>
      exact allApplyNoUnion_iff.mpr fun t ht => ih t ht (allUnapplied_iff.mp h t ht)
  | tuple ts ih =>
      exact allApplyNoUnion_iff.mpr fun t ht => ih t ht (allUnapplied_iff.mp h t ht)
  | function params result ihparams ihresult =>
      exact ⟨allApplyNoUnion_iff.mpr fun t ht => ihparams t ht (allUnapplied_iff.mp h.1 t ht),
        ihresult h.2⟩
  | instantiation inner args => exact h.elim
  | primitive t hprimitive => cases t <;> trivial
  | builtin | struct | enum | typeParam | union => trivial

/-- Only aliases stand around what is not applied. -/
theorem Unapplied.baseType_eq {t : Ty} (h : t.Unapplied) : t.baseType = t.stripAliases := by
  fun_induction Ty.stripAliases t with
  | case1 n t ih => exact ih h
  | case2 t halias =>
      cases t <;> first | rfl | exact (halias _ _ rfl).elim | exact h.elim

/-- A type accepts what it accepts without the aliases around it. -/
theorem accepts_of_stripAliases_accepts {s r : Ty} (h : s.stripAliases.accepts r = true) :
    s.accepts r = true := by
  fun_induction Ty.stripAliases s with
  | case1 n s ih => rw [accepts_alias_left, ih h, Bool.or_true]
  | case2 s => exact h

theorem acceptAll_of_forall₂ {R : Ty → Ty → Prop} {ss ts : List Ty} (h : List.Forall₂ R ss ts)
    (hR : ∀ s ∈ ss, ∀ t, R s t → s.accepts t = true ∧ t.accepts s = true) :
    acceptAll ss ts = true ∧ acceptAll ts ss = true := by
  rw [acceptAll_iff, acceptAll_iff]
  induction h with
  | nil => exact ⟨.nil, .nil⟩
  | cons hst _ ih =>
      rw [List.forall_mem_cons] at hR
      obtain ⟨hleft, hright⟩ := ih hR.2
      obtain ⟨hst, hts⟩ := hR.1 _ hst
      exact ⟨.cons hst hleft, .cons hts hright⟩

/-- Equal types accept each other, if no union is applied in one of them. -/
theorem accepts_of_equals_of_appliesNoUnion {s t : Ty} (hs : s.AppliesNoUnion)
    (h : s.equals t = true) :
    s.accepts t = true ∧ t.accepts s = true := by
  -- Beside a type that is not an alias, the aliases around the other do not matter.
  have strip {s t u : Ty} (hs : s.isAlias = false) (hu : t.stripAliases = u)
      (h : s.accepts u = true ∧ u.accepts s = true) :
      s.accepts t = true ∧ t.accepts s = true := by
    subst hu
    rw [accepts_stripAliases hs] at h
    exact ⟨h.1, accepts_of_stripAliases_accepts h.2⟩
  induction s using inductionOnParts generalizing t with
  | primitive s hprimitive =>
      refine strip (isAlias_of_isPrimitive hprimitive) ((equals_primitive hprimitive).mp h) ?_
      cases s <;> cases hprimitive <;> simp [accepts, isIntFamily, equals, stripAliases]
  | builtin n =>
      obtain ⟨m, hm, hname⟩ := equals_builtin.mp h
      exact strip rfl hm (by simp [accepts, isNamed, nominal?, hname])
  | struct n fields =>
      obtain ⟨m, others, hm, hname⟩ := equals_struct.mp h
      exact strip rfl hm (by simp [accepts, isNamed, nominal?, hname])
  | enum n =>
      obtain ⟨m, hm, hname⟩ := equals_enum.mp h
      exact strip rfl hm (by simp [accepts, isNamed, nominal?, hname])
  | typeParam n default =>
      obtain ⟨m, other, hm, -⟩ := equals_typeParam.mp h
      exact strip rfl hm (by simp [accepts, nominal?])
  | aliasOf n s ih =>
      cases halias : t.isAlias with
      | true =>
          obtain ⟨m, t, rfl⟩ := exists_of_isAlias halias
          have hname := (equals_alias_alias.mp h).1
          simp [accepts_alias_left, isNamed, nominal?, hname]
      | false =>
          rw [equals_alias_left halias] at h
          obtain ⟨hst, hts⟩ := ih hs h
          rw [accepts_alias_left, accepts_alias_right halias, hst, hts]
          simp
  | tensor ss ih =>
      obtain ⟨ts, hts, hall⟩ := equals_tensor.mp h
      refine strip rfl hts ?_
      rw [accepts, accepts]
      exact acceptAll_of_forall₂ hall fun s hmem t => ih s hmem (allApplyNoUnion_iff.mp hs s hmem)
  | tuple ss ih =>
      obtain ⟨ts, hts, hall⟩ := equals_tuple.mp h
      refine strip rfl hts ?_
      rw [accepts, accepts]
      exact acceptAll_of_forall₂ hall fun s hmem t => ih s hmem (allApplyNoUnion_iff.mp hs s hmem)
  | union ss =>
      obtain ⟨ts, hts, -, hleft, hright⟩ := equals_union.mp h
      refine strip rfl hts ?_
      rw [accepts_union_union, accepts_union_union, unionContainsAll, unionContainsAll]
      simp only [unionContains, Bool.or_eq_true, List.all_eq_true, anyEqual_iff]
      refine ⟨.inr hright, .inr fun s hmem => ?_⟩
      obtain ⟨t, ht, hst⟩ := hleft s hmem
      exact ⟨t, ht, equals_symm hst⟩
  | function params result ihparams ihresult =>
      obtain ⟨params', result', ht, hparams, hresult⟩ := equals_function.mp h
      refine strip rfl ht ?_
      obtain ⟨hto, hfrom⟩ := acceptAll_of_forall₂ hparams fun s hmem t =>
        ihparams s hmem (allApplyNoUnion_iff.mp hs.1 s hmem)
      obtain ⟨hresultTo, hresultFrom⟩ := ihresult hs.2 hresult
      simp only [accepts_function, hto, hfrom, hresultTo, hresultFrom, Bool.and_self, and_self]
  | instantiation inner args ihinner ihargs =>
      obtain ⟨inner', args', ht, hinner, hargs⟩ := equals_instantiation.mp h
      obtain ⟨hunion, hsinner, hsargs⟩ := hs
      refine strip rfl ht ?_
      obtain ⟨hto, hfrom⟩ := acceptAll_of_forall₂ hargs fun s hmem t =>
        ihargs s hmem (allApplyNoUnion_iff.mp hsargs s hmem)
      obtain ⟨hinnerTo, hinnerFrom⟩ := ihinner hsinner hinner
      simp only [accepts_instantiation, unionBody?_eq_none hunion,
        unionBody?_eq_none (baseType_ne_union_of_equals hinner hunion), hto, hfrom, hinnerTo,
        hinnerFrom, Bool.and_self, and_self]

/-! ### The variant for a value -/

/-- A value of type `r` may be stored as the variant: the variant accepts it, or has its base type
where one of the two applies a generic type. -/
def Takes (v r : Ty) : Prop :=
  v.accepts r = true ∨
    (v.baseType.equals r.baseType = true ∧ ¬ (v.Unapplied ∧ r.Unapplied))

/-- A variant with the base type of a value takes it. -/
theorem takes_of_equals_baseType {v r : Ty} (h : v.baseType.equals r.baseType = true) :
    v.Takes r := by
  by_cases hunapplied : v.Unapplied ∧ r.Unapplied
  · refine .inl (accepts_of_stripAliases_accepts ?_)
    rw [hunapplied.1.baseType_eq, hunapplied.2.baseType_eq] at h
    rw [← accepts_stripAliases (isAlias_stripAliases v)]
    exact (accepts_of_equals_of_appliesNoUnion hunapplied.1.stripAliases.appliesNoUnion h).1
  · exact .inr ⟨h, hunapplied⟩

theorem takes_never (v : Ty) : v.Takes .never := .inl (by simp [accepts])

theorem accepts_unknown (v : Ty) : v.accepts .unknown = true := by
  induction v using inductionOnParts with
  | aliasOf n v ih => rw [accepts_alias_left, ih, Bool.or_true]
  | primitive v h => cases v <;> cases h <;> simp [accepts]
  | builtin | struct | enum | typeParam | tensor | tuple | union | function | instantiation =>
      simp [accepts]

theorem exists_accepts_of_countAccepting {variants : List Ty} {r : Ty}
    (h : 0 < countAccepting variants r) : ∃ v ∈ variants, v.accepts r = true := by
  induction variants with
  | nil => simp [countAccepting] at h
  | cons v variants ih =>
      rw [countAccepting] at h
      cases hv : v.accepts r with
      | true => exact ⟨v, List.mem_cons_self, hv⟩
      | false =>
          rw [hv] at h
          obtain ⟨v', hv', haccepts⟩ := ih (by simpa using h)
          exact ⟨v', List.mem_cons_of_mem v hv', haccepts⟩

/-- A union accepts a value that is no union if a variant has its base type or exactly one variant
accepts it. -/
theorem accepts_union_eq {variants : List Ty} {r : Ty} (halias : r.isAlias = false)
    (hnever : r ≠ .never) (hunknown : r ≠ .unknown) (hr : ∀ others, r.baseType ≠ .union others) :
    (union variants).accepts r = ((variants.any fun v => v.baseType.equals r.baseType) ||
      countAccepting variants r == 1) := by
  have hplain : ∀ others, r = union others → False := by
    rintro others rfl
    exact hr others rfl
  -- The side conditions say that no earlier rule applies to the value.
  rw [accepts]
  · split
    · rename_i others heq
      exact (hr others heq).elim
    · simp
  · exact hnever
  · rintro n t rfl
    cases halias
  · exact hunknown
  · exact hplain

/-- A variant that a value is stored as is a variant of the union, and takes the value. -/
theorem takes_of_exactVariantToFit {variants : List Ty} {r v : Ty}
    (hr : ∀ others, r.baseType ≠ .union others) (h : exactVariantToFit variants r = some v) :
    v ∈ variants ∧ v.Takes r := by
  unfold exactVariantToFit at h
  split at h
  · rename_i others heq
    exact (hr others heq).elim
  · split at h
    · rename_i hfind
      cases h
      have hbase : v.baseType.equals r.baseType = true := by simpa using List.find?_some hfind
      exact ⟨List.mem_of_find?_eq_some hfind, takes_of_equals_baseType hbase⟩
    · obtain ⟨hv, haccepts⟩ := List.mem_filter.mp (mem_of_single? h)
      exact ⟨hv, .inl haccepts⟩

/-- A union accepts a value that is no union only if some variant takes the value, once the
aliases around it are off. -/
theorem exists_takes_of_accepts {variants : List Ty} {r : Ty} (hne : variants ≠ [])
    (hr : ∀ others, r.baseType ≠ .union others) (h : (union variants).accepts r = true) :
    ∃ v ∈ variants, v.Takes r.stripAliases := by
  obtain ⟨first, hfirst⟩ := List.exists_mem_of_ne_nil variants hne
  rw [← accepts_stripAliases rfl] at h
  by_cases hnever : r.stripAliases = .never
  · exact ⟨first, hfirst, hnever ▸ takes_never first⟩
  by_cases hunknown : r.stripAliases = .unknown
  · exact ⟨first, hfirst, .inl (hunknown ▸ accepts_unknown first)⟩
  rw [← baseType_stripAliases] at hr
  rw [accepts_union_eq (isAlias_stripAliases r) hnever hunknown hr, Bool.or_eq_true,
    List.any_eq_true, beq_iff_eq] at h
  obtain ⟨v, hv, hbase⟩ | hone := h
  · exact ⟨v, hv, takes_of_equals_baseType hbase⟩
  · obtain ⟨v, hv, haccepts⟩ := exists_accepts_of_countAccepting (hone ▸ Nat.one_pos)
    exact ⟨v, hv, .inl haccepts⟩

/-- What a union accepts of the values that are no unions, and the variant that such a value is
stored as. -/
theorem takes_of_unionOf {types variants : List Ty} {r : Ty} (htypes : ∀ t ∈ types, t.WellFormed)
    (hunion : unionOf types = .union variants) (hr : ∀ others, r.baseType ≠ .union others) :
    ((union variants).accepts r = true → ∃ v ∈ variants, v.Takes r.stripAliases) ∧
      ∀ v, exactVariantToFit variants r = some v → v ∈ variants ∧ v.Takes r := by
  have hwf : (union variants).WellFormed := hunion ▸ stable_wellFormed.unionOf htypes
  have hne : variants ≠ [] := by
    have hseveral := (wellFormed_union.mp hwf).1.several
    rintro rfl
    simp at hseveral
  exact ⟨exists_takes_of_accepts hne hr, fun v => takes_of_exactVariantToFit hr⟩

/-- A generic struct with one member, applied to the type of the member. -/
def boxOf (t : Ty) : Ty := .instantiation (.struct ⟨"Box", none⟩ [t]) [t]

theorem unionOf_boxOf_null : unionOf [boxOf .int, .null] = .union [boxOf .int, .null] := by
  simp [unionOf, distinctVariants, unionParts, addVariant, boxOf, baseType, unwrapAlias, equals,
    stripAliases]

theorem exactVariantToFit_boxOf :
    exactVariantToFit [boxOf .int, .null] (boxOf .bool) = some (boxOf .int) := by
  simp [exactVariantToFit, boxOf, baseType, equals, stripAliases]

/-- A box of booleans is stored as a box of integers, the variant with its base type. -/
theorem takes_of_unionOf_box :
    (∀ t ∈ [boxOf .int, .null], t.WellFormed) ∧
      unionOf [boxOf .int, .null] = .union [boxOf .int, .null] ∧
      (boxOf .int).Takes (boxOf .bool) := by
  have htypes : ∀ t ∈ [boxOf .int, .null], t.WellFormed := by
    simp [boxOf, WellFormed, AllWellFormed]
  have h := takes_of_unionOf htypes unionOf_boxOf_null (r := boxOf .bool) (by simp [boxOf, baseType])
  exact ⟨htypes, unionOf_boxOf_null, (h.2 _ exactVariantToFit_boxOf).2⟩

/-- No variant need accept the value. Nor need one without applied types: an alias with the name
of a struct accepts the values of the struct but not those of its other aliases, which the union
accepts as well. -/
theorem not_accepts_of_exactVariantToFit :
    (¬ ∀ types variants r, (∀ t ∈ types, WellFormed t) → unionOf types = .union variants →
      (∀ others, baseType r ≠ .union others) →
      ((union variants).accepts r = true → ∃ v ∈ variants, v.accepts r = true) ∧
        ∀ v, exactVariantToFit variants r = some v → v ∈ variants ∧ v.accepts r = true) ∧
    ¬ ∀ types variants r, (∀ t ∈ types, WellFormed t) → unionOf types = .union variants →
      (∀ others, baseType r ≠ .union others) → (∀ v ∈ variants, v.Unapplied) → r.Unapplied →
      (union variants).accepts r = true → ∃ v ∈ variants, v.accepts r = true := by
  constructor
  · intro h
    have hfit := (h _ _ (boxOf .bool) (by simp [boxOf, WellFormed, AllWellFormed])
      unionOf_boxOf_null (by simp [boxOf, baseType])).2 _ exactVariantToFit_boxOf
    simp [boxOf, accepts, unionBody?, unwrapAlias, isNamed, nominal?, acceptAll,
      isIntFamily] at hfit
  · intro h
    have hunion : unionOf [.alias ⟨"A", none⟩ .int, .bool] =
        .union [.alias ⟨"A", none⟩ .int, .bool] := by
      simp [unionOf, distinctVariants, unionParts, addVariant, baseType, unwrapAlias, equals,
        stripAliases]
    obtain ⟨v, hv, haccepts⟩ := h _ _ (.alias ⟨"B", none⟩ (.struct ⟨"A", none⟩ []))
      (by simp [WellFormed]) hunion (by simp [baseType]) (by simp [Unapplied]) (by simp [Unapplied])
      (by simp [accepts, baseType, equals, stripAliases, countAccepting, isNamed, nominal?])
    simp only [List.mem_cons, List.not_mem_nil, or_false] at hv
    obtain rfl | rfl := hv <;> simp [accepts, isNamed, nominal?, isIntFamily] at haccepts

end Ty

end TolkAnalysis
