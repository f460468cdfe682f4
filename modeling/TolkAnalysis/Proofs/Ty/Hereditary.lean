import TolkAnalysis.Inference.TypeExpr
import TolkAnalysis.Ty.Assignable
import TolkAnalysis.Ty.Join

/-!
# Properties that types inherit

A property `Q` of types is hereditary if a type has it exactly when its parts do. The one
exception is a union, which is more than its variants: variants that have `Q` need not
make a union that has it. `Ty.Hereditary` says of `Q` what holds for every form of type,
where `N` is what `Q` asks of the name of a struct or an alias, and `Ty.Stable` adds that
`Ty.unionOf` makes a type with `Q` of types with `Q`.

Whatever the rules for types make of types with a stable property has the property again:
parts, joins, substitutions and learned bindings. So a property is followed through all of
them by looking at the forms of types and at `Ty.unionOf` alone.
-/

namespace TolkAnalysis

namespace Ty

/-- Neither named nor made of other types. -/
def isPrimitive : Ty → Bool
  | .int | .intN .. | .varIntN .. | .coins | .bool | .bitsN _ | .bytesN _
  | .null | .void | .never | .unknown => true
  | _ => false

/-- A name of a primitive type denotes a primitive type. -/
theorem isPrimitive_of_ofName? {name : String} {t : Ty} (ht : ofName? name = some t) :
    t.isPrimitive = true := by
  have sized : ∀ {t}, sizedOfName? name = some t → t.isPrimitive = true := by
    intro t ht
    unfold sizedOfName? at ht
    obtain ⟨entry, hmem, hentry⟩ :=
      List.exists_of_findSome?_eq_some (Option.join_eq_some_iff.mp ht)
    obtain ⟨digits, -, hwidth⟩ := Option.map_eq_some_iff.mp hentry
    obtain ⟨w, -, rfl⟩ := Option.map_eq_some_iff.mp hwidth
    simp only [sizedFamilies, List.mem_cons, List.not_mem_nil, or_false] at hmem
    rcases hmem with rfl | rfl | rfl | rfl | rfl | rfl <;> rfl
  unfold ofName? at ht
  split at ht <;> first | exact sized ht | (cases ht; rfl)

/-- Induction on the parts of a type. -/
@[elab_as_elim]
theorem inductionOnParts {motive : Ty → Prop}
    (primitive : ∀ t : Ty, t.isPrimitive = true → motive t)
    (builtin : ∀ n : Nominal, motive (.builtin n))
    (struct : ∀ (n : Nominal) (fields : List Ty), (∀ t ∈ fields, motive t) →
      motive (.struct n fields))
    (enum : ∀ n : Nominal, motive (.enum n))
    (aliasOf : ∀ (n : Nominal) (inner : Ty), motive inner → motive (.alias n inner))
    (typeParam : ∀ (n : Nominal) (default : Option Ty), (∀ t ∈ default, motive t) →
      motive (.typeParam n default))
    (tensor : ∀ ts : List Ty, (∀ t ∈ ts, motive t) → motive (.tensor ts))
    (tuple : ∀ ts : List Ty, (∀ t ∈ ts, motive t) → motive (.tuple ts))
    (union : ∀ ts : List Ty, (∀ t ∈ ts, motive t) → motive (.union ts))
    (function : ∀ (params : List Ty) (result : Ty), (∀ t ∈ params, motive t) → motive result →
      motive (.function params result))
    (instantiation : ∀ (inner : Ty) (args : List Ty), motive inner → (∀ t ∈ args, motive t) →
      motive (.instantiation inner args))
    (t : Ty) : motive t :=
  have part (s : Ty) (_ : sizeOf s < sizeOf t) : motive s :=
    inductionOnParts primitive builtin struct enum aliasOf typeParam tensor tuple union function
      instantiation s
  match t with
  | .builtin n => builtin n
  | .struct n fields => struct n fields fun s hs =>
      part s (by have := List.sizeOf_lt_of_mem hs; simp; omega)
  | .enum n => enum n
  | .alias n inner => aliasOf n inner (part inner (by simp only [Ty.alias.sizeOf_spec]; omega))
  | .typeParam n none => typeParam n none fun _ h => nomatch h
  | .typeParam n (some d) => typeParam n (some d) fun s hs =>
      part s (by cases hs; simp; omega)
  | .tensor ts => tensor ts fun s hs =>
      part s (by have := List.sizeOf_lt_of_mem hs; simp; omega)
  | .tuple ts => tuple ts fun s hs =>
      part s (by have := List.sizeOf_lt_of_mem hs; simp; omega)
  | .union ts => union ts fun s hs =>
      part s (by have := List.sizeOf_lt_of_mem hs; simp; omega)
  | .function params result => function params result
      (fun s hs => part s (by have := List.sizeOf_lt_of_mem hs; simp; omega))
      (part result (by simp only [Ty.function.sizeOf_spec]; omega))
  | .instantiation inner args => instantiation inner args
      (part inner (by simp only [Ty.instantiation.sizeOf_spec]; omega))
      fun s hs => part s (by have := List.sizeOf_lt_of_mem hs; simp; omega)
  | .int => primitive _ rfl
  | .intN .. => primitive _ rfl
  | .varIntN .. => primitive _ rfl
  | .coins => primitive _ rfl
  | .bool => primitive _ rfl
  | .bitsN _ => primitive _ rfl
  | .bytesN _ => primitive _ rfl
  | .null => primitive _ rfl
  | .void => primitive _ rfl
  | .never => primitive _ rfl
  | .unknown => primitive _ rfl
termination_by sizeOf t

/-- A type has `Q` if its parts do, and the variants of a union with `Q` have it. -/
structure Hereditary (N : Nominal → Prop) (Q : Ty → Prop) : Prop where
  primitive : ∀ {t : Ty}, t.isPrimitive = true → Q t
  struct : ∀ {n : Nominal} {fields : List Ty},
    Q (.struct n fields) ↔ N n ∧ ∀ t ∈ fields, Q t
  aliasOf : ∀ {n : Nominal} {t : Ty}, Q (.alias n t) ↔ N n ∧ Q t
  default : ∀ {n : Nominal} {d : Option Ty}, Q (.typeParam n d) → ∀ t ∈ d, Q t
  tensor : ∀ {ts : List Ty}, Q (.tensor ts) ↔ ∀ t ∈ ts, Q t
  tuple : ∀ {ts : List Ty}, Q (.tuple ts) ↔ ∀ t ∈ ts, Q t
  function : ∀ {params : List Ty} {result : Ty},
    Q (.function params result) ↔ (∀ t ∈ params, Q t) ∧ Q result
  instantiation : ∀ {inner : Ty} {args : List Ty},
    Q (.instantiation inner args) ↔ Q inner ∧ ∀ t ∈ args, Q t
  variants : ∀ {ts : List Ty}, Q (.union ts) → ∀ t ∈ ts, Q t

/-- A hereditary property that unions of types with the property have as well. -/
structure Stable (N : Nominal → Prop) (Q : Ty → Prop) : Prop extends Hereditary N Q where
  unionOf : ∀ {ts : List Ty}, (∀ t ∈ ts, Q t) → Q (unionOf ts)

variable {N : Nominal → Prop} {Q : Ty → Prop}

/-! ### Parts of a type -/

theorem mem_of_nullableInner? {ts : List Ty} {t : Ty} (ht : nullableInner? ts = some t) :
    t ∈ ts := by
  unfold nullableInner? at ht
  split at ht <;> simp_all

theorem mem_of_single? {ts : List Ty} {t : Ty} (ht : single? ts = some t) : t ∈ ts := by
  unfold single? at ht
  split at ht
  · cases ht
    exact List.mem_singleton_self t
  · cases ht

namespace Hereditary

variable (h : Hereditary N Q)
include h

theorem stripAliases {t : Ty} (ht : Q t) : Q t.stripAliases := by
  fun_induction Ty.stripAliases t with
  | case1 n inner ih => exact ih (h.aliasOf.mp ht).2
  | case2 t => exact ht

theorem baseType {t : Ty} (ht : Q t) : Q t.baseType := by
  fun_induction Ty.baseType t with
  | case1 n inner ih => exact ih (h.aliasOf.mp ht).2
  | case2 inner args ih => exact ih (h.instantiation.mp ht).1
  | case3 t => exact ht

theorem unwrapAlias {t : Ty} (ht : Q t) : Q t.unwrapAlias := by
  fun_induction Ty.unwrapAlias t with
  | case1 n inner ih => exact ih (h.aliasOf.mp ht).2
  | case2 n variants args => exact (h.aliasOf.mp (h.instantiation.mp ht).1).2
  | case3 n body args _ ih =>
      obtain ⟨hinner, hargs⟩ := h.instantiation.mp ht
      exact h.instantiation.mpr ⟨ih (h.aliasOf.mp hinner).2, hargs⟩
  | case4 t => exact ht

theorem unwrapInstantiation {t : Ty} (ht : Q t) : Q t.unwrapInstantiation := by
  fun_induction Ty.unwrapInstantiation t with
  | case1 inner args ih => exact ih (h.instantiation.mp ht).1
  | case2 t => exact ht

theorem unwrapOption {t : Ty} (ht : Q t) : Q t.unwrapOption := by
  have hu := h.unwrapAlias ht
  unfold Ty.unwrapOption
  split
  · rename_i variants heq
    rw [heq] at hu
    cases hv : nullableInner? variants with
    | none => exact ht
    | some s => exact h.variants hu s (mem_of_nullableInner? hv)
  · exact ht

theorem elements? {t : Ty} (ht : Q t) {ts : List Ty} (hts : t.elements? = some ts) :
    ∀ s ∈ ts, Q s := by
  have hu := h.unwrapAlias ht
  unfold Ty.elements? at hts
  split at hts <;> cases hts <;> rename_i heq <;> rw [heq] at hu
  · exact h.tensor.mp hu
  · exact h.tuple.mp hu

theorem of_exactVariantToFit {variants : List Ty} (hvariants : Q (.union variants)) {r t : Ty}
    (ht : exactVariantToFit variants r = some t) : Q t := by
  unfold exactVariantToFit fitNullable? at ht
  split at ht
  · split at ht
    · split at ht <;> cases ht
      exact hvariants
    · cases ht
  · split at ht
    · rename_i v hfind
      cases ht
      exact h.variants hvariants _ (List.mem_of_find?_eq_some hfind)
    · exact h.variants hvariants t (List.mem_filter.mp (mem_of_single? ht)).1

theorem of_ofName? {name : String} {t : Ty} (ht : ofName? name = some t) : Q t :=
  h.primitive (isPrimitive_of_ofName? ht)

theorem unionParts {t : Ty} (ht : Q t) : ∀ s ∈ t.unionParts, Q s := by
  have hb := h.baseType ht
  unfold Ty.unionParts
  split
  · rename_i variants heq
    rw [heq] at hb
    exact h.variants hb
  · intro s hs
    rw [List.mem_singleton.mp hs]
    exact ht

end Hereditary

/-! ### Variants of a union -/

theorem mem_of_mem_addVariant {ts : List Ty} {s t : Ty} (hs : s ∈ addVariant ts t) :
    s ∈ ts ∨ s = t := by
  unfold addVariant at hs
  split at hs
  · exact .inl hs
  · exact (List.mem_append.mp hs).imp_right List.mem_singleton.mp

/-- A distinct variant is one that some type of the list adds. -/
theorem exists_of_mem_distinctVariants {ts : List Ty} {s : Ty} (hs : s ∈ distinctVariants ts) :
    ∃ t ∈ ts, s ∈ t.unionParts := by
  have fold : ∀ (parts found : List Ty), s ∈ parts.foldl addVariant found →
      s ∈ found ∨ s ∈ parts := by
    intro parts
    induction parts with
    | nil => exact fun found h => .inl h
    | cons p parts ih =>
        intro found h
        rcases ih _ h with h | h
        · rcases mem_of_mem_addVariant h with h | rfl
          · exact .inl h
          · exact .inr List.mem_cons_self
        · exact .inr (List.mem_cons_of_mem p h)
  rcases fold _ _ hs with h | h
  · cases h
  · exact List.mem_flatMap.mp h

theorem Hereditary.distinctVariants (h : Hereditary N Q) {ts : List Ty} (hts : ∀ t ∈ ts, Q t) :
    ∀ s ∈ distinctVariants ts, Q s := by
  intro s hs
  obtain ⟨t, ht, hst⟩ := exists_of_mem_distinctVariants hs
  exact h.unionParts (hts t ht) s hst

/-- A hereditary property is stable if unions of several distinct variants have it. -/
theorem Hereditary.stable (h : Hereditary N Q)
    (hunion : ∀ {ts : List Ty}, (∀ t ∈ ts, Q t) → 2 ≤ (Ty.distinctVariants ts).length →
      Q (.union (Ty.distinctVariants ts))) : Stable N Q where
  toHereditary := h
  unionOf {ts} hts := by
    unfold Ty.unionOf
    split
    · exact h.primitive rfl
    · rename_i t heq
      exact h.distinctVariants hts t (heq ▸ List.mem_singleton_self t)
    · rename_i hnone hone
      refine hunion hts ?_
      match hd : Ty.distinctVariants ts with
      | [] => exact (hnone hd).elim
      | [t] => exact (hone t hd).elim
      | _ :: _ :: _ => simp

namespace Stable

/-! ### Joins -/

theorem nullable (h : Stable N Q) {t : Ty} (ht : Q t) : Q (nullable t) :=
  h.unionOf (by simp [ht, h.primitive (t := .null) rfl])

mutual

theorem join (h : Stable N Q) {s t : Ty} (hs : Q s) (ht : Q t) : Q (join s t) := by
  have pair : Q (Ty.unionOf [s, t]) := h.unionOf (by simp [hs, ht])
  rw [Ty.join.eq_def]
  split
  · exact hs
  · split
    · exact h.primitive rfl
    · exact hs
    · exact ht
    · exact h.nullable hs
    · split
      · exact h.tensor.mpr (h.joinAll (h.tensor.mp hs) (h.tensor.mp ht))
      · exact pair
    · split
      · exact h.tuple.mpr (h.joinAll (h.tuple.mp hs) (h.tuple.mp ht))
      · exact pair
    · exact h.join (h.aliasOf.mp hs).2 ht
    · exact h.join hs (h.aliasOf.mp ht).2
    · exact pair
termination_by sizeOf s + sizeOf t

theorem joinAll (h : Stable N Q) {ss ts : List Ty} (hs : ∀ s ∈ ss, Q s) (ht : ∀ t ∈ ts, Q t) :
    ∀ t ∈ joinAll ss ts, Q t := by
  match ss, ts with
  | s :: ss, t :: ts =>
      rw [List.forall_mem_cons] at hs ht
      rw [Ty.joinAll, List.forall_mem_cons]
      exact ⟨h.join hs.1 ht.1, h.joinAll hs.2 ht.2⟩
  | [], _ => simp [Ty.joinAll]
  | _ :: _, [] => simp [Ty.joinAll]
termination_by sizeOf ss + sizeOf ts

end

theorem of_joinList? (h : Stable N Q) {ts : List Ty} {t : Ty} (ht : joinList? ts = some t)
    (hts : ∀ s ∈ ts, Q s) : Q t := by
  cases ts with
  | nil => cases ht
  | cons s ts =>
      cases ht
      rw [List.forall_mem_cons] at hts
      obtain ⟨hs, hts⟩ := hts
      induction ts generalizing s with
      | nil => exact hs
      | cons r ts ih =>
          rw [List.forall_mem_cons] at hts
          exact ih _ (h.join hs hts.1) hts.2

end Stable

end Ty

/-! ### Substitutions -/

namespace Substitution

/-- Every type that a substitution binds has `Q`. -/
def Binds (Q : Ty → Prop) (σ : Substitution) : Prop :=
  ∀ (name : String) (t : Ty), σ.get? name = some t → Q t

variable {N : Nominal → Prop} {Q : Ty → Prop}

theorem binds_empty : empty.Binds Q := by
  intro name t h
  simp [get?, empty] at h

theorem Binds.insert {σ : Substitution} (hσ : σ.Binds Q) (name : String) {t : Ty} (ht : Q t) :
    (σ.insert name t).Binds Q := by
  intro name' t' h
  simp only [get?, Substitution.insert, Std.HashMap.getElem?_insert] at h
  split at h
  · cases h
    exact ht
  · exact hσ _ _ h

theorem binds_ofList {bindings : List (String × Ty)} (h : ∀ b ∈ bindings, Q b.2) :
    (ofList bindings).Binds Q := by
  have fold : ∀ (bs : List (String × Ty)) (σ : Substitution), (∀ b ∈ bs, Q b.2) →
      σ.Binds Q → (bs.foldl (fun σ b => σ.insert b.1 b.2) σ).Binds Q := by
    intro bs
    induction bs with
    | nil => exact fun σ _ hσ => hσ
    | cons b bs ih =>
        intro σ hbs hσ
        rw [List.forall_mem_cons] at hbs
        exact ih _ hbs.2 (hσ.insert b.1 hbs.1)
  exact fold bindings empty h binds_empty

theorem binds_ofParams {params args : List Ty} (h : ∀ t ∈ args, Q t) :
    (ofParams params args).Binds Q := by
  refine binds_ofList fun b hb => ?_
  obtain ⟨⟨p, a⟩, hmem, hb⟩ := List.mem_filterMap.mp hb
  obtain ⟨n, -, rfl⟩ := Option.map_eq_some_iff.mp hb
  exact h a (List.of_mem_zip hmem).2

theorem Binds.bind {σ : Substitution} (hσ : σ.Binds Q) (n : Nominal) {default : Option Ty}
    {arg : Ty} (hdefault : ∀ t ∈ default, Q t) (harg : Q arg) : (σ.bind n default arg).Binds Q := by
  unfold Substitution.bind
  split
  · split
    · refine hσ.insert _ ?_
      split
      · exact hdefault _ rfl
      · exact harg
    · exact hσ.insert _ harg
  · exact hσ

theorem mem_of_leftOver? {variants args rest : List Ty}
    (hrest : leftOver? variants args = some rest) : ∀ t ∈ rest, t ∈ args := by
  unfold leftOver? at hrest
  generalize variants.filter (!·.hasGenerics) = closed at hrest
  induction closed generalizing args rest with
  | nil =>
      cases hrest
      exact fun t ht => ht
  | cons v closed ih =>
      rw [List.foldlM_cons] at hrest
      obtain ⟨left, hleft, hrest⟩ := Option.bind_eq_some_iff.mp hrest
      intro t ht
      have hmem := ih hrest t ht
      split at hleft <;> cases hleft
      exact (List.mem_filter.mp hmem).1

end Substitution

namespace Ty.Stable

variable {N : Nominal → Prop} {Q : Ty → Prop}

open Substitution (Binds binds_ofList)

mutual

theorem replaceParams (h : Stable N Q) {σ : Substitution} (hσ : σ.Binds Q) :
    ∀ {t : Ty}, Q t → Q (t.replaceParams σ)
  | .typeParam n default, ht => by
      rw [Ty.replaceParams]
      cases hget : σ.get? n.name with
      | none => exact ht
      | some s => exact hσ _ _ hget
  | .struct n fields, ht =>
      h.struct.mpr ⟨(h.struct.mp ht).1, h.replaceAll hσ (h.struct.mp ht).2⟩
  | .alias n inner, ht => h.aliasOf.mpr ⟨(h.aliasOf.mp ht).1, h.replaceParams hσ (h.aliasOf.mp ht).2⟩
  | .tensor ts, ht => h.tensor.mpr (h.replaceAll hσ (h.tensor.mp ht))
  | .tuple ts, ht => h.tuple.mpr (h.replaceAll hσ (h.tuple.mp ht))
  | .union ts, ht => h.unionOf (h.replaceAll hσ (h.variants ht))
  | .function params result, ht => h.function.mpr
      ⟨h.replaceAll hσ (h.function.mp ht).1, h.replaceParams hσ (h.function.mp ht).2⟩
  | .instantiation inner args, ht => h.instantiation.mpr
      ⟨h.replaceParams hσ (h.instantiation.mp ht).1, h.replaceAll hσ (h.instantiation.mp ht).2⟩
  | .builtin _, ht | .enum _, ht => ht
  | .int, ht | .intN .., ht | .varIntN .., ht | .coins, ht | .bool, ht | .bitsN _, ht
  | .bytesN _, ht | .null, ht | .void, ht | .never, ht | .unknown, ht => ht

theorem replaceAll (h : Stable N Q) {σ : Substitution} (hσ : σ.Binds Q) :
    ∀ {ts : List Ty}, (∀ t ∈ ts, Q t) → ∀ t ∈ replaceAll σ ts, Q t
  | [], _ => by simp [Ty.replaceAll]
  | t :: ts, hts => by
      rw [List.forall_mem_cons] at hts
      rw [Ty.replaceAll, List.forall_mem_cons]
      exact ⟨h.replaceParams hσ hts.1, h.replaceAll hσ hts.2⟩

end

theorem substitute (h : Stable N Q) {t : Ty} (ht : Q t) {σ : Substitution} (hσ : σ.Binds Q) :
    Q (t.substitute σ) := by
  unfold Ty.substitute
  split
  · exact ht
  · exact h.replaceParams hσ ht

theorem boundParams (h : Stable N Q) {names : List String} {args params : List Ty}
    (hargs : ∀ t ∈ args, Q t) (hparams : ∀ t ∈ params, Q t) : ∀ b ∈ Inference.boundParams names args params, Q b.2 := by
  intro b hb
  obtain ⟨⟨name, position⟩, -, hb⟩ := List.mem_filterMap.mp hb
  dsimp only at hb
  split at hb
  · rename_i arg harg
    cases hb
    exact hargs arg (List.mem_of_getElem? harg)
  · split at hb
    · rename_i n default heq
      cases hb
      exact h.default (hparams _ (List.mem_of_getElem? heq)) default rfl
    · cases hb

theorem instantiate (h : Stable N Q) (d : Decl) {base : Ty} (hbase : Q base) {args : List Ty}
    (hargs : ∀ t ∈ args, Q t) : Q (Inference.instantiate d base args) := by
  refine h.instantiation.mpr ⟨?_, hargs⟩
  split
  · refine h.substitute (h.unwrapInstantiation hbase)
      (binds_ofList (h.boundParams hargs ?_))
    split
    · exact (h.instantiation.mp hbase).2
    · simp
  · exact h.unwrapInstantiation hbase

/-! ### Learned bindings -/

theorem variantArgs? (h : Stable N Q) {variants args rest : List Ty}
    (hrest : Substitution.variantArgs? variants args = some rest) (hargs : ∀ t ∈ args, Q t) :
    ∀ t ∈ rest, Q t := by
  obtain ⟨left, hleft, hrest⟩ := Option.bind_eq_some_iff.mp hrest
  have hl : ∀ t ∈ left, Q t := fun t ht => hargs t (Substitution.mem_of_leftOver? hleft t ht)
  simp only at hrest
  split at hrest
  · cases hrest
    simpa using h.unionOf hl
  · split at hrest <;> cases hrest
    exact hl

mutual

theorem deduce (h : Stable N Q) {σ : Substitution} (hσ : σ.Binds Q) :
    ∀ {p arg : Ty}, Q p → Q arg → (σ.deduce p arg).Binds Q
  | .instantiation _ params, arg, hp, harg => by
      have hparams := (h.instantiation.mp hp).2
      have inner : (match arg.unwrapAlias with
          | .instantiation _ args => Substitution.deduceAll σ params args
          | _ => σ).Binds Q := by
        have hu := h.unwrapAlias harg
        split
        · rename_i args heq
          rw [heq] at hu
          exact h.deduceAll hσ hparams (h.instantiation.mp hu).2
        · exact hσ
      rw [Substitution.deduce.eq_def]
      dsimp only
      split
      · exact h.deduceAll inner hparams (h.instantiation.mp harg).2
      · exact inner
  | .function params result, arg, hp, harg => by
      have hp := h.function.mp hp
      rw [Substitution.deduce.eq_def]
      dsimp only
      split
      · have harg := h.function.mp harg
        exact h.deduce (h.deduceAll hσ hp.1 harg.1) hp.2 harg.2
      · exact hσ
  | .tensor params, arg, hp, harg => by
      rw [Substitution.deduce.eq_def]
      dsimp only
      split
      · split
        · exact h.deduceAll hσ (h.tensor.mp hp) (h.tensor.mp harg)
        · exact hσ
      · exact hσ
  | .tuple params, arg, hp, harg => by
      rw [Substitution.deduce.eq_def]
      dsimp only
      split
      · split
        · exact h.deduceAll hσ (h.tuple.mp hp) (h.tuple.mp harg)
        · exact hσ
      · exact hσ
  | .union variants, arg, hp, harg => by
      have hvariants := h.variants hp
      rw [Substitution.deduce.eq_def]
      dsimp only
      split
      · split
        · rename_i rest heq
          exact h.deduceOpen hσ hvariants (h.variantArgs? heq (h.variants harg))
        · exact hσ
      · exact h.deduceEach hσ hvariants harg
  | .typeParam n default, arg, hp, harg => by
      rw [Substitution.deduce]
      exact hσ.bind n (h.default hp) harg
  | .struct .., _, _, _ | .alias .., _, _, _ | .builtin _, _, _, _ | .enum _, _, _, _
  | .int, _, _, _ | .intN .., _, _, _ | .varIntN .., _, _, _ | .coins, _, _, _ | .bool, _, _, _
  | .bitsN _, _, _, _ | .bytesN _, _, _, _ | .null, _, _, _ | .void, _, _, _ | .never, _, _, _
  | .unknown, _, _, _ => by
      simpa only [Substitution.deduce] using hσ

theorem deduceAll (h : Stable N Q) {σ : Substitution} (hσ : σ.Binds Q) :
    ∀ {ps as : List Ty}, (∀ t ∈ ps, Q t) → (∀ t ∈ as, Q t) → (σ.deduceAll ps as).Binds Q
  | p :: ps, a :: as, hps, has => by
      rw [List.forall_mem_cons] at hps has
      rw [Substitution.deduceAll]
      exact h.deduceAll (h.deduce hσ hps.1 has.1) hps.2 has.2
  | [], _, _, _ => by simpa only [Substitution.deduceAll] using hσ
  | _ :: _, [], _, _ => by simpa only [Substitution.deduceAll] using hσ

theorem deduceEach (h : Stable N Q) {σ : Substitution} (hσ : σ.Binds Q) :
    ∀ {ps : List Ty} {a : Ty}, (∀ t ∈ ps, Q t) → Q a → (σ.deduceEach ps a).Binds Q
  | [], _, _, _ => by simpa only [Substitution.deduceEach] using hσ
  | p :: ps, a, hps, ha => by
      rw [List.forall_mem_cons] at hps
      rw [Substitution.deduceEach]
      exact h.deduceEach (h.deduce hσ hps.1 ha) hps.2 ha

theorem deduceOpen (h : Stable N Q) {σ : Substitution} (hσ : σ.Binds Q) :
    ∀ {ps as : List Ty}, (∀ t ∈ ps, Q t) → (∀ t ∈ as, Q t) → (σ.deduceOpen ps as).Binds Q
  | [], _, _, _ => by simpa only [Substitution.deduceOpen] using hσ
  | p :: ps, as, hps, has => by
      rw [List.forall_mem_cons] at hps
      rw [Substitution.deduceOpen.eq_def]
      dsimp only
      split
      · split
        · rename_i a as
          rw [List.forall_mem_cons] at has
          exact h.deduceOpen (h.deduce hσ hps.1 has.1) hps.2 has.2
        · exact hσ
      · exact h.deduceOpen hσ hps.2 has

end

end Ty.Stable

end TolkAnalysis
