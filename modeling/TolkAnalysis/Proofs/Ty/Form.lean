import TolkAnalysis.Proofs.Ty.Grouping
import TolkAnalysis.Proofs.Ty.Parameters

/-!
# The form of a type

Equality looks neither into the members of structs nor at the defaults of type parameters, and
it asks of two names only whether they are the same. `Ty.SameForm R s t` says that two types
agree in everything else, where `R` relates the names of the type parameters at equal places. If
`R` is one-to-one, types of one form are equal to the same types, read on the other side
(`SameForm.equals_eq`), and unions of types of one form are of one form (`SameForm.unionOf`).

`Ty.paramUses` lists the type parameters that belong to the form of a type. In what an
instantiation applies they are the parameters of a declaration that were given no argument, and
`Ty.hasGenerics` passes over these: it holds if there are `Ty.outerParams`, whatever the
`Ty.baseParams` are.
-/

namespace TolkAnalysis

namespace Ty

/-! ### Type parameters of a form -/

/-- A type parameter at a place in a type. -/
structure ParamUse where
  name : String
  /-- The place is in what an instantiation applies. -/
  applied : Bool

mutual

/-- The type parameters in a type, other than in the members of structs and in defaults. The
type itself may stand in what an instantiation applies. -/
def paramUses (applied : Bool) : Ty → List ParamUse
  | .typeParam nominal _ => [⟨nominal.name, applied⟩]
  | .alias _ inner => inner.paramUses applied
  | .tensor elements => paramUsesOf applied elements
  | .tuple elements => paramUsesOf applied elements
  | .union variants => paramUsesOf applied variants
  | .function params result => paramUsesOf applied params ++ result.paramUses applied
  | .instantiation inner args => inner.paramUses true ++ paramUsesOf applied args
  | _ => []

/-- The type parameters in the types of a list. -/
def paramUsesOf (applied : Bool) : List Ty → List ParamUse
  | [] => []
  | t :: ts => t.paramUses applied ++ paramUsesOf applied ts

end

/-- The names of the type parameters outside the members of structs and what instantiations
apply. -/
def outerParams (t : Ty) : List String :=
  ((t.paramUses false).filter (!·.applied)).map (·.name)

/-- The names of the type parameters in what instantiations apply, other than in the members of
structs. -/
def baseParams (t : Ty) : List String := ((t.paramUses false).filter (·.applied)).map (·.name)

variable {applied : Bool} {name : String} {t : Ty} {ts : List Ty} {u : ParamUse}

theorem mem_paramUsesOf : u ∈ paramUsesOf applied ts ↔ ∃ t ∈ ts, u ∈ t.paramUses applied := by
  induction ts with
  | nil => simp [paramUsesOf]
  | cons t ts ih => simp [paramUsesOf, ih]

theorem mem_outerParams : name ∈ t.outerParams ↔ ⟨name, false⟩ ∈ t.paramUses false := by
  simp only [outerParams, List.mem_map, List.mem_filter]
  exact ⟨fun ⟨⟨_, false⟩, ⟨hu, _⟩, rfl⟩ => hu, fun h => ⟨_, ⟨h, rfl⟩, rfl⟩⟩

theorem mem_baseParams : name ∈ t.baseParams ↔ ⟨name, true⟩ ∈ t.paramUses false := by
  simp only [baseParams, List.mem_map, List.mem_filter]
  exact ⟨fun ⟨⟨_, true⟩, ⟨hu, _⟩, rfl⟩ => hu, fun h => ⟨_, ⟨h, rfl⟩, rfl⟩⟩

/-- The type parameters of a form are type parameters of the type. -/
theorem mem_paramNames_of_mem_paramUses {t : Ty} {applied : Bool} (hu : u ∈ t.paramUses applied) :
    u.name ∈ t.paramNames := by
  have all {ts : List Ty} {applied : Bool}
      (ih : ∀ t ∈ ts, ∀ {applied}, u ∈ t.paramUses applied → u.name ∈ t.paramNames)
      (hu : u ∈ paramUsesOf applied ts) : u.name ∈ paramNamesOf ts := by
    obtain ⟨t, ht, hu⟩ := mem_paramUsesOf.mp hu
    exact mem_paramNamesOf.mpr ⟨t, ht, ih t ht hu⟩
  induction t using inductionOnParts generalizing applied with
  | primitive t hprimitive => cases t <;> first | cases hprimitive; done | cases hu
  | builtin n | struct n fields | enum n => cases hu
  | aliasOf n inner ih => exact ih hu
  | typeParam n default => exact List.mem_map_of_mem (f := ParamUse.name) hu
  | tensor ts ih | tuple ts ih | union ts ih => exact all @ih hu
  | function params result ihparams ihresult =>
      exact List.mem_append.mpr ((List.mem_append.mp hu).imp (all @ihparams) ihresult)
  | instantiation inner args ihinner ihargs =>
      exact List.mem_append.mpr ((List.mem_append.mp hu).imp ihinner (all @ihargs))

mutual

theorem applied_of_mem_paramUses : ∀ {t : Ty}, u ∈ t.paramUses true → u.applied = true
  | .typeParam .., h => by rw [List.mem_singleton.mp h]
  | .alias _ inner, h => applied_of_mem_paramUses (t := inner) h
  | .tensor _, h | .tuple _, h | .union _, h => applied_of_mem_paramUsesOf h
  | .function _ _, h =>
      (List.mem_append.mp h).elim applied_of_mem_paramUsesOf applied_of_mem_paramUses
  | .instantiation _ _, h =>
      (List.mem_append.mp h).elim applied_of_mem_paramUses applied_of_mem_paramUsesOf
  | .struct _ _, h | .builtin _, h | .enum _, h => nomatch h
  | .int, h | .intN .., h | .varIntN .., h | .coins, h | .bool, h | .bitsN _, h | .bytesN _, h
  | .null, h | .void, h | .never, h | .unknown, h => nomatch h

theorem applied_of_mem_paramUsesOf : ∀ {ts : List Ty}, u ∈ paramUsesOf true ts → u.applied = true
  | [], h => nomatch h
  | _ :: _, h => (List.mem_append.mp h).elim applied_of_mem_paramUses applied_of_mem_paramUsesOf

end

theorem anyHasGenerics_iff : anyHasGenerics ts = true ↔ ∃ t ∈ ts, t.hasGenerics = true := by
  induction ts with
  | nil => simp [anyHasGenerics]
  | cons t ts ih => simp [anyHasGenerics, ih]

/-- A type has generics if it has outer type parameters. -/
theorem hasGenerics_iff : t.hasGenerics = true ↔ ∃ name, name ∈ t.outerParams := by
  have all {ts : List Ty}
      (h : ∀ t ∈ ts, (t.hasGenerics = true ↔ ∃ u ∈ t.paramUses false, u.applied = false)) :
      anyHasGenerics ts = true ↔ ∃ u ∈ paramUsesOf false ts, u.applied = false := by
    simp only [anyHasGenerics_iff, mem_paramUsesOf]
    constructor
    · rintro ⟨t, ht, hgeneric⟩
      obtain ⟨u, hu, houter⟩ := (h t ht).mp hgeneric
      exact ⟨u, ⟨t, ht, hu⟩, houter⟩
    · rintro ⟨u, ⟨t, ht, hu⟩, houter⟩
      exact ⟨t, ht, (h t ht).mpr ⟨u, hu, houter⟩⟩
  suffices h : t.hasGenerics = true ↔ ∃ u ∈ t.paramUses false, u.applied = false by
    rw [h]
    exact ⟨fun ⟨u, hu, houter⟩ => ⟨u.name, mem_outerParams.mpr (houter ▸ hu)⟩,
      fun ⟨name, hname⟩ => ⟨⟨name, false⟩, mem_outerParams.mp hname, rfl⟩⟩
  induction t using inductionOnParts with
  | primitive t h => cases t <;> first | cases h; done | simp [hasGenerics, paramUses]
  | builtin n | struct n fields | enum n => simp [hasGenerics, paramUses]
  | aliasOf n inner ih => exact ih
  | typeParam n default => simp [hasGenerics, paramUses]
  | tensor ts ih | tuple ts ih | union ts ih => exact all ih
  | function params result ihparams ihresult =>
      simp only [hasGenerics, paramUses, Bool.or_eq_true, List.mem_append, or_and_right, exists_or,
        all ihparams, ihresult]
  | instantiation inner args _ ihargs =>
      simp only [hasGenerics, paramUses, all ihargs, List.mem_append, or_and_right, exists_or]
      refine (or_iff_right ?_).symm
      rintro ⟨u, hu, houter⟩
      rw [applied_of_mem_paramUses hu] at houter
      cases houter

/-- A type without generics has no type parameters but those of the bases. -/
theorem mem_baseParams_of_mem_paramUses (h : t.hasGenerics = false) (hu : u ∈ t.paramUses false) :
    u.name ∈ t.baseParams := by
  cases happlied : u.applied with
  | false =>
      rw [hasGenerics_iff.mpr ⟨u.name, mem_outerParams.mpr (happlied ▸ hu)⟩] at h
      cases h
  | true => exact mem_baseParams.mpr (happlied ▸ hu)

/-! ### Types of one form -/

/-- The types agree in all that equality looks at, and `R` relates the names of the type
parameters at equal places. -/
inductive SameForm (R : String → String → Prop) : Ty → Ty → Prop
  | primitive {t : Ty} (h : t.isPrimitive = true) : SameForm R t t
  | builtin (n : Nominal) : SameForm R (.builtin n) (.builtin n)
  | struct (n : Nominal) (fields others : List Ty) :
      SameForm R (.struct n fields) (.struct n others)
  | enum (n : Nominal) : SameForm R (.enum n) (.enum n)
  | aliasOf (n : Nominal) {s t : Ty} (h : SameForm R s t) : SameForm R (.alias n s) (.alias n t)
  | typeParam {n m : Nominal} (d e : Option Ty) (h : R n.name m.name) :
      SameForm R (.typeParam n d) (.typeParam m e)
  | tensor {ss ts : List Ty} (h : List.Forall₂ (SameForm R) ss ts) :
      SameForm R (.tensor ss) (.tensor ts)
  | tuple {ss ts : List Ty} (h : List.Forall₂ (SameForm R) ss ts) :
      SameForm R (.tuple ss) (.tuple ts)
  | union {ss ts : List Ty} (h : List.Forall₂ (SameForm R) ss ts) :
      SameForm R (.union ss) (.union ts)
  | function {params others : List Ty} {result other : Ty}
      (hparams : List.Forall₂ (SameForm R) params others) (hresult : SameForm R result other) :
      SameForm R (.function params result) (.function others other)
  | instantiation {inner other : Ty} {args others : List Ty} (hinner : SameForm R inner other)
      (hargs : List.Forall₂ (SameForm R) args others) :
      SameForm R (.instantiation inner args) (.instantiation other others)

theorem exists_mem_of_forall₂ {A : Ty → Ty → Prop} {ss ts : List Ty} (h : List.Forall₂ A ss ts)
    {s : Ty} (hs : s ∈ ss) : ∃ t ∈ ts, A s t := by
  induction h with
  | nil => cases hs
  | cons hst _ ih =>
      obtain rfl | hs := List.mem_cons.mp hs
      · exact ⟨_, List.mem_cons_self, hst⟩
      · obtain ⟨t, ht, hst⟩ := ih hs
        exact ⟨t, List.mem_cons_of_mem _ ht, hst⟩

namespace SameForm

variable {R : String → String → Prop} {s s' t' : Ty} {ss ss' ts' : List Ty}

theorem of_paramUses (h : ∀ u ∈ t.paramUses applied, R u.name u.name) : SameForm R t t := by
  have all {ts : List Ty} {applied : Bool}
      (ih : ∀ t ∈ ts, ∀ {applied}, (∀ u ∈ t.paramUses applied, R u.name u.name) → SameForm R t t)
      (h : ∀ u ∈ paramUsesOf applied ts, R u.name u.name) :
      List.Forall₂ (SameForm R) ts ts :=
    List.forall₂_same.mpr fun t ht =>
      ih t ht fun u hu => h u (mem_paramUsesOf.mpr ⟨t, ht, hu⟩)
  induction t using inductionOnParts generalizing applied with
  | primitive t ht => exact .primitive ht
  | builtin n => exact .builtin n
  | struct n fields => exact .struct n fields fields
  | enum n => exact .enum n
  | aliasOf n inner ih => exact .aliasOf n (ih h)
  | typeParam n default => exact .typeParam default default (h _ List.mem_cons_self)
  | tensor ts ih => exact .tensor (all @ih h)
  | tuple ts ih => exact .tuple (all @ih h)
  | union ts ih => exact .union (all @ih h)
  | function params result ihparams ihresult =>
      obtain ⟨hparams, hresult⟩ := List.forall_mem_append.mp h
      exact .function (all @ihparams hparams) (ihresult hresult)
  | instantiation inner args ihinner ihargs =>
      obtain ⟨hinner, hargs⟩ := List.forall_mem_append.mp h
      exact .instantiation (ihinner hinner) (all @ihargs hargs)

/-! Each form of type stands beside the same form only. -/

theorem eq_of_isPrimitive (hs : s.isPrimitive = true) (h : SameForm R s t) : t = s := by
  cases h <;> first | rfl | cases hs

theorem eq_of_builtin {n : Nominal} (h : SameForm R (.builtin n) t) : t = .builtin n := by
  cases h <;> rfl

theorem eq_of_enum {n : Nominal} (h : SameForm R (.enum n) t) : t = .enum n := by
  cases h <;> rfl

theorem exists_of_struct {n : Nominal} {fields : List Ty} (h : SameForm R (.struct n fields) t) :
    ∃ others, t = .struct n others := by
  cases h with
  | primitive h => cases h
  | struct _ _ others => exact ⟨others, rfl⟩

theorem exists_of_alias {n : Nominal} (h : SameForm R (.alias n s) t) :
    ∃ other, t = .alias n other ∧ SameForm R s other := by
  cases h with
  | primitive h => cases h
  | aliasOf _ h => exact ⟨_, rfl, h⟩

theorem exists_of_typeParam {n : Nominal} {d : Option Ty} (h : SameForm R (.typeParam n d) t) :
    ∃ m e, t = .typeParam m e ∧ R n.name m.name := by
  cases h with
  | primitive h => cases h
  | typeParam _ e h => exact ⟨_, e, rfl, h⟩

theorem exists_of_tensor (h : SameForm R (.tensor ss) t) :
    ∃ ts, t = .tensor ts ∧ List.Forall₂ (SameForm R) ss ts := by
  cases h with
  | primitive h => cases h
  | tensor h => exact ⟨_, rfl, h⟩

theorem exists_of_tuple (h : SameForm R (.tuple ss) t) :
    ∃ ts, t = .tuple ts ∧ List.Forall₂ (SameForm R) ss ts := by
  cases h with
  | primitive h => cases h
  | tuple h => exact ⟨_, rfl, h⟩

theorem exists_of_union (h : SameForm R (.union ss) t) :
    ∃ ts, t = .union ts ∧ List.Forall₂ (SameForm R) ss ts := by
  cases h with
  | primitive h => cases h
  | union h => exact ⟨_, rfl, h⟩

theorem exists_of_function (h : SameForm R (.function ss s) t) :
    ∃ ts other, t = .function ts other ∧ List.Forall₂ (SameForm R) ss ts ∧ SameForm R s other := by
  cases h with
  | primitive h => cases h
  | function hparams hresult => exact ⟨_, _, rfl, hparams, hresult⟩

theorem exists_of_instantiation (h : SameForm R (.instantiation s ss) t) :
    ∃ other ts, t = .instantiation other ts ∧ SameForm R s other ∧
      List.Forall₂ (SameForm R) ss ts := by
  cases h with
  | primitive h => cases h
  | instantiation hinner hargs => exact ⟨_, _, rfl, hinner, hargs⟩

theorem swap (h : SameForm R s t) : SameForm (flip R) t s := by
  have all {ss ts : List Ty} (ih : ∀ s ∈ ss, ∀ {t}, SameForm R s t → SameForm (flip R) t s)
      (h : List.Forall₂ (SameForm R) ss ts) : List.Forall₂ (SameForm (flip R)) ts ss := by
    induction h with
    | nil => exact .nil
    | cons hst _ ih' =>
        rw [List.forall_mem_cons] at ih
        exact .cons (ih.1 hst) (ih' ih.2)
  induction s using inductionOnParts generalizing t with
  | primitive s hs =>
      rw [h.eq_of_isPrimitive hs]
      exact .primitive hs
  | builtin n =>
      rw [h.eq_of_builtin]
      exact .builtin n
  | struct n fields =>
      obtain ⟨others, rfl⟩ := h.exists_of_struct
      exact .struct n others fields
  | enum n =>
      rw [h.eq_of_enum]
      exact .enum n
  | aliasOf n inner ih =>
      obtain ⟨other, rfl, hinner⟩ := h.exists_of_alias
      exact .aliasOf n (ih hinner)
  | typeParam n default =>
      obtain ⟨m, e, rfl, hname⟩ := h.exists_of_typeParam
      exact .typeParam e default hname
  | tensor ss ih =>
      obtain ⟨ts, rfl, hall⟩ := h.exists_of_tensor
      exact .tensor (all @ih hall)
  | tuple ss ih =>
      obtain ⟨ts, rfl, hall⟩ := h.exists_of_tuple
      exact .tuple (all @ih hall)
  | union ss ih =>
      obtain ⟨ts, rfl, hall⟩ := h.exists_of_union
      exact .union (all @ih hall)
  | function params result ihparams ihresult =>
      obtain ⟨others, other, rfl, hparams, hresult⟩ := h.exists_of_function
      exact .function (all @ihparams hparams) (ihresult hresult)
  | instantiation inner args ihinner ihargs =>
      obtain ⟨other, others, rfl, hinner, hargs⟩ := h.exists_of_instantiation
      exact .instantiation (ihinner hinner) (all @ihargs hargs)

/-! ### What is taken off a type -/

theorem isAlias_eq (h : SameForm R s t) : s.isAlias = t.isAlias := by
  cases h <;> rfl

theorem stripAliases (h : SameForm R s t) : SameForm R s.stripAliases t.stripAliases := by
  fun_induction Ty.stripAliases s generalizing t with
  | case1 n inner ih =>
      obtain ⟨other, rfl, hinner⟩ := h.exists_of_alias
      exact (ih hinner :)
  | case2 s hs =>
      have hs : s.isAlias = false := by
        cases s <;> first | rfl | exact (hs _ _ rfl).elim
      rwa [stripAliases_eq_self (h.isAlias_eq ▸ hs)]

theorem baseType (h : SameForm R s t) : SameForm R s.baseType t.baseType := by
  fun_induction Ty.baseType s generalizing t with
  | case1 n inner ih =>
      obtain ⟨other, rfl, hinner⟩ := h.exists_of_alias
      exact (ih hinner :)
  | case2 inner args ih =>
      obtain ⟨other, others, rfl, hinner, -⟩ := h.exists_of_instantiation
      exact (ih hinner :)
  | case3 s halias hinst =>
      -- A type of the same form is neither an alias nor applied.
      rw [Ty.baseType.eq_3]
      · exact h
      · rintro n inner rfl
        obtain ⟨other, rfl, -⟩ := h.swap.exists_of_alias
        exact halias _ _ rfl
      · rintro inner args rfl
        obtain ⟨other, others, rfl, -⟩ := h.swap.exists_of_instantiation
        exact hinst _ _ rfl

theorem unwrapAlias (h : SameForm R s t) : SameForm R s.unwrapAlias t.unwrapAlias := by
  fun_induction Ty.unwrapAlias s generalizing t with
  | case1 n inner ih =>
      obtain ⟨other, rfl, hinner⟩ := h.exists_of_alias
      exact (ih hinner :)
  | case2 n variants args =>
      obtain ⟨inner, others, rfl, hinner, -⟩ := h.exists_of_instantiation
      obtain ⟨body, rfl, hbody⟩ := hinner.exists_of_alias
      obtain ⟨variants', rfl, hvariants⟩ := hbody.exists_of_union
      exact .union hvariants
  | case3 n body args hbody ih =>
      obtain ⟨inner, others, rfl, hinner, hargs⟩ := h.exists_of_instantiation
      obtain ⟨other, rfl, hother⟩ := hinner.exists_of_alias
      rw [Ty.unwrapAlias.eq_3]
      · exact .instantiation (ih hother) hargs
      · rintro variants rfl
        obtain ⟨variants', rfl, -⟩ := hother.swap.exists_of_union
        exact hbody _ rfl
  | case4 s halias hunion hinst =>
      rw [Ty.unwrapAlias.eq_4]
      · exact h
      · rintro n inner rfl
        obtain ⟨other, rfl, -⟩ := h.swap.exists_of_alias
        exact halias _ _ rfl
      all_goals
        rintro n body args rfl
        obtain ⟨inner, others, rfl, hinner, -⟩ := h.swap.exists_of_instantiation
        obtain ⟨other, rfl, -⟩ := hinner.exists_of_alias
        exact hinst _ _ _ rfl

/-! ### Equality and unions -/

/-- Equal types are equal as well with other names for their type parameters, equal names for
equal ones. -/
theorem equals_of_equals (hR : Relator.RightUnique R) (hs : SameForm R s s') (ht : SameForm R t t')
    (h : s.equals t = true) : s'.equals t' = true := by
  have all {ss ss' ts ts' : List Ty}
      (ih : ∀ s ∈ ss, ∀ {t s' t'}, SameForm R s s' → SameForm R t t' → s.equals t = true →
        s'.equals t' = true)
      (hss : List.Forall₂ (SameForm R) ss ss') (hts : List.Forall₂ (SameForm R) ts ts')
      (h : List.Forall₂ (fun s t => s.equals t = true) ss ts) :
      List.Forall₂ (fun s t => s.equals t = true) ss' ts' := by
    induction h generalizing ss' ts' with
    | nil =>
        cases hss
        cases hts
        exact .nil
    | cons hst _ ih' =>
        obtain _ | ⟨hs, hss⟩ := hss
        obtain _ | ⟨ht, hts⟩ := hts
        rw [List.forall_mem_cons] at ih
        exact .cons (ih.1 hs ht hst) (ih' ih.2 hss hts)
  -- The aliases around the second type go away on both sides at once.
  have strip {t t' u : Ty} (ht : SameForm R t t') (hu : t.stripAliases = u) :
      SameForm R u t'.stripAliases := hu ▸ ht.stripAliases
  induction s using inductionOnParts generalizing t s' t' with
  | primitive s hprimitive =>
      have hform := strip ht ((equals_primitive hprimitive).mp h)
      rw [hs.eq_of_isPrimitive hprimitive]
      exact (equals_primitive hprimitive).mpr (hform.eq_of_isPrimitive hprimitive)
  | builtin n =>
      obtain ⟨m, hm, hname⟩ := equals_builtin.mp h
      rw [hs.eq_of_builtin]
      exact equals_builtin.mpr ⟨m, (strip ht hm).eq_of_builtin, hname⟩
  | struct n fields =>
      obtain ⟨m, others, hm, hname⟩ := equals_struct.mp h
      obtain ⟨fields', rfl⟩ := hs.exists_of_struct
      obtain ⟨others', hform⟩ := (strip ht hm).exists_of_struct
      exact equals_struct.mpr ⟨m, others', hform, hname⟩
  | enum n =>
      obtain ⟨m, hm, hname⟩ := equals_enum.mp h
      rw [hs.eq_of_enum]
      exact equals_enum.mpr ⟨m, (strip ht hm).eq_of_enum, hname⟩
  | aliasOf n inner ih =>
      obtain ⟨inner', rfl, hinner⟩ := hs.exists_of_alias
      cases hta : t.isAlias with
      | false =>
          rw [equals_alias_left hta] at h
          rw [equals_alias_left (ht.isAlias_eq ▸ hta)]
          exact ih hinner ht h
      | true =>
          obtain ⟨m, other, rfl⟩ := exists_of_isAlias hta
          obtain ⟨other', rfl, hother⟩ := ht.exists_of_alias
          obtain ⟨hname, h⟩ := equals_alias_alias.mp h
          exact equals_alias_alias.mpr ⟨hname, ih hinner hother h⟩
  | typeParam n default =>
      obtain ⟨m, other, hm, hname⟩ := equals_typeParam.mp h
      obtain ⟨n', default', rfl, hn⟩ := hs.exists_of_typeParam
      obtain ⟨m', other', hform, hm'⟩ := (strip ht hm).exists_of_typeParam
      exact equals_typeParam.mpr ⟨m', other', hform, hR (hname ▸ hn) hm'⟩
  | tensor ss ih =>
      obtain ⟨ts, hts, hall⟩ := equals_tensor.mp h
      obtain ⟨ss', rfl, hss⟩ := hs.exists_of_tensor
      obtain ⟨ts', hts', hform⟩ := (strip ht hts).exists_of_tensor
      exact equals_tensor.mpr ⟨ts', hts', all @ih hss hform hall⟩
  | tuple ss ih =>
      obtain ⟨ts, hts, hall⟩ := equals_tuple.mp h
      obtain ⟨ss', rfl, hss⟩ := hs.exists_of_tuple
      obtain ⟨ts', hts', hform⟩ := (strip ht hts).exists_of_tuple
      exact equals_tuple.mpr ⟨ts', hts', all @ih hss hform hall⟩
  | union ss ih =>
      obtain ⟨ts, hts, hlength, hleft, hright⟩ := equals_union.mp h
      obtain ⟨ss', rfl, hss⟩ := hs.exists_of_union
      obtain ⟨ts', hts', hform⟩ := (strip ht hts).exists_of_union
      refine equals_union.mpr ⟨ts', hts', ?_, fun s' hs' => ?_, fun t' ht' => ?_⟩
      · rw [← hss.length_eq, ← hform.length_eq, hlength]
      · obtain ⟨s, hs, hs'⟩ := exists_mem_of_forall₂ hss.flip hs'
        obtain ⟨t, ht, hst⟩ := hleft s hs
        obtain ⟨t', ht', htt'⟩ := exists_mem_of_forall₂ hform ht
        exact ⟨t', ht', ih s hs hs' htt' hst⟩
      · obtain ⟨t, ht, ht'⟩ := exists_mem_of_forall₂ hform.flip ht'
        obtain ⟨s, hs, hst⟩ := hright t ht
        obtain ⟨s', hs', hss'⟩ := exists_mem_of_forall₂ hss hs
        exact ⟨s', hs', ih s hs hss' ht' hst⟩
  | function params result ihparams ihresult =>
      obtain ⟨others, other, ht', hall, h⟩ := equals_function.mp h
      obtain ⟨params', result', rfl, hparams, hresult⟩ := hs.exists_of_function
      obtain ⟨others', other', hform, hothers, hother⟩ := (strip ht ht').exists_of_function
      exact equals_function.mpr
        ⟨others', other', hform, all @ihparams hparams hothers hall, ihresult hresult hother h⟩
  | instantiation inner args ihinner ihargs =>
      obtain ⟨other, others, ht', h, hall⟩ := equals_instantiation.mp h
      obtain ⟨inner', args', rfl, hinner, hargs⟩ := hs.exists_of_instantiation
      obtain ⟨other', others', hform, hother, hothers⟩ := (strip ht ht').exists_of_instantiation
      exact equals_instantiation.mpr
        ⟨other', others', hform, ihinner hinner hother h, all @ihargs hargs hothers hall⟩

theorem equals_eq (hR : Relator.BiUnique R) (hs : SameForm R s s') (ht : SameForm R t t') :
    s.equals t = s'.equals t' :=
  Bool.eq_iff_iff.mpr ⟨equals_of_equals hR.2 hs ht,
    equals_of_equals hR.1.flip hs.swap ht.swap⟩

theorem biUnique_eq : Relator.BiUnique (Eq : String → String → Prop) :=
  ⟨fun _ _ _ h h' => h.trans h'.symm, fun _ _ _ h h' => h.symm.trans h'⟩

/-- Types of one form are equal if also their type parameters have the same names. -/
theorem equals (h : SameForm Eq s t) : s.equals t = true := by
  have hself : SameForm Eq s s := .of_paramUses fun u (_ : u ∈ s.paramUses false) => rfl
  rw [← equals_eq biUnique_eq hself h]
  exact equals_refl s

theorem duplicates_iff (hR : Relator.BiUnique R) (hs : SameForm R s s') (ht : SameForm R t t') :
    s.Duplicates t ↔ s'.Duplicates t' := by
  rw [Duplicates, Duplicates, equals_eq hR hs.unwrapAlias ht.unwrapAlias]

theorem unionParts (h : SameForm R s t) :
    List.Forall₂ (SameForm R) s.unionParts t.unionParts := by
  by_cases hunion : ∃ ss, s.baseType = .union ss
  · obtain ⟨ss, hss⟩ := hunion
    obtain ⟨ts, hts, hall⟩ := (hss ▸ h.baseType).exists_of_union
    rw [Ty.unionParts, Ty.unionParts, hss, hts]
    exact hall
  · rw [unionParts_eq_self fun ss hss => hunion ⟨ss, hss⟩, unionParts_eq_self]
    · exact .cons h .nil
    · intro ts hts
      obtain ⟨ss, hss, -⟩ := (hts ▸ h.baseType.swap).exists_of_union
      exact hunion ⟨ss, hss⟩

end SameForm

/-! ### Unions of related types -/

section Related

variable {A : Ty → Ty → Prop} {xs ys : List Ty}

/-- Related types are duplicates together. -/
theorem forall₂_addVariant
    (hdup : ∀ s s' t t', A s s' → A t t' → (s.Duplicates t ↔ s'.Duplicates t'))
    {found found' : List Ty} (hfound : List.Forall₂ A found found') {t t' : Ty} (ht : A t t') :
    List.Forall₂ A (addVariant found t) (addVariant found' t') := by
  by_cases h : ∃ v ∈ found, v.Duplicates t
  · obtain ⟨v, hv, hvt⟩ := h
    obtain ⟨v', hv', hvv'⟩ := exists_mem_of_forall₂ hfound hv
    rw [addVariant_eq_self hv hvt, addVariant_eq_self hv' ((hdup v v' t t' hvv' ht).mp hvt)]
    exact hfound
  · rw [addVariant_eq_append fun v hv hvt => h ⟨v, hv, hvt⟩, addVariant_eq_append]
    · exact List.rel_append hfound (.cons ht .nil)
    · intro v' hv' hvt
      obtain ⟨v, hv, hvv'⟩ := exists_mem_of_forall₂ hfound.flip hv'
      exact h ⟨v, hv, (hdup v v' t t' hvv' ht).mpr hvt⟩

/-- The variants that stay are at the same places on both sides. -/
theorem forall₂_distinctVariants
    (hdup : ∀ s s' t t', A s s' → A t t' → (s.Duplicates t ↔ s'.Duplicates t'))
    (hparts : ∀ t t', A t t' → List.Forall₂ A t.unionParts t'.unionParts)
    (h : List.Forall₂ A xs ys) : List.Forall₂ A (distinctVariants xs) (distinctVariants ys) :=
  List.rel_foldl (P := List.Forall₂ A) (R := A)
    (fun _ _ hfound _ _ ht => forall₂_addVariant hdup hfound ht) .nil
    (List.rel_flatMap h fun t t' => hparts t t')

end Related

theorem SameForm.unionOf {R : String → String → Prop} (hR : Relator.BiUnique R) {xs ys : List Ty}
    (h : List.Forall₂ (SameForm R) xs ys) : SameForm R (unionOf xs) (unionOf ys) := by
  have hvariants := forall₂_distinctVariants (fun _ _ _ _ => SameForm.duplicates_iff hR)
    (fun _ _ => SameForm.unionParts) h
  unfold Ty.unionOf
  match distinctVariants xs, distinctVariants ys, hvariants with
  | _, _, .nil => exact .primitive rfl
  | _, _, .cons hst .nil => exact hst
  | _, _, .cons hst (.cons hst' hrest) => exact .union (.cons hst (.cons hst' hrest))

end Ty

end TolkAnalysis
