import TolkAnalysis.Proofs.Ty.Equality

/-!
# Unions in normal form

The variants of a union are in normal form if there are several, none of them is a union
behind aliases and instantiations, and no two are equal once aliases are removed from both.
`Ty.WellFormed` asks this of every union in a type, at any depth: in the members of a struct,
behind aliases, in the default of a type parameter, in what is applied and in its arguments.

`Ty.unionOf` puts variants in normal form, so the property is stable, and no rule for types
leaves it: `wellFormed_results` goes through the rules one by one. Conversely a union in
normal form is what `Ty.unionOf` makes of its variants, `wellFormed_union_iff`.
-/

namespace TolkAnalysis

namespace Ty

/-- The variants of a union in normal form. Equality is symmetric, so it is enough to compare
each variant with those after it. -/
structure NormalVariants (variants : List Ty) : Prop where
  several : 2 ≤ variants.length
  flat : ∀ v ∈ variants, ∀ others, v.baseType ≠ .union others
  distinct : variants.Pairwise fun s t => s.unwrapAlias.equals t.unwrapAlias = false

mutual

/-- Every union in a type is in normal form. -/
def WellFormed : Ty → Prop
  | .struct _ fields => AllWellFormed fields
  | .alias _ inner => inner.WellFormed
  | .typeParam _ (some default) => default.WellFormed
  | .tensor elements => AllWellFormed elements
  | .tuple elements => AllWellFormed elements
  | .union variants => NormalVariants variants ∧ AllWellFormed variants
  | .function params result => AllWellFormed params ∧ result.WellFormed
  | .instantiation inner args => inner.WellFormed ∧ AllWellFormed args
  | _ => True

/-- Every union in the types of a list is in normal form. -/
def AllWellFormed : List Ty → Prop
  | [] => True
  | t :: ts => t.WellFormed ∧ AllWellFormed ts

end

theorem allWellFormed_iff {ts : List Ty} : AllWellFormed ts ↔ ∀ t ∈ ts, t.WellFormed := by
  induction ts with
  | nil => simp [AllWellFormed]
  | cons t ts ih => simp [AllWellFormed, ih]

theorem wellFormed_union {variants : List Ty} :
    (union variants).WellFormed ↔ NormalVariants variants ∧ ∀ v ∈ variants, v.WellFormed :=
  and_congr_right fun _ => allWellFormed_iff

theorem hereditary_wellFormed : Hereditary (fun _ => True) WellFormed where
  primitive {t} ht := by cases t <;> first | cases ht; done | trivial
  struct := by simp [WellFormed, allWellFormed_iff]
  aliasOf := by simp [WellFormed]
  default {n d} h := by cases d <;> simp_all [WellFormed]
  tensor := by simp [WellFormed, allWellFormed_iff]
  tuple := by simp [WellFormed, allWellFormed_iff]
  function := by simp [WellFormed, allWellFormed_iff]
  instantiation := by simp [WellFormed, allWellFormed_iff]
  variants h := (wellFormed_union.mp h).2

/-! ### What a union is made of -/

theorem unionParts_eq_self {t : Ty} (h : ∀ variants, t.baseType ≠ .union variants) :
    t.unionParts = [t] := by
  unfold unionParts
  split
  · exact (h _ ‹_›).elim
  · rfl

/-- No part of a well-formed type is a union in turn. -/
theorem WellFormed.flat_of_mem_unionParts {t : Ty} (ht : t.WellFormed) :
    ∀ v ∈ t.unionParts, ∀ others, v.baseType ≠ .union others := by
  have hb := hereditary_wellFormed.baseType ht
  unfold unionParts
  split
  · rename_i variants heq
    rw [heq] at hb
    exact (wellFormed_union.mp hb).1.flat
  · rename_i hno
    intro v hv
    rw [List.mem_singleton.mp hv]
    exact fun others => hno others

theorem pairwise_addVariant {ts : List Ty} {t : Ty}
    (h : ts.Pairwise fun s t => s.unwrapAlias.equals t.unwrapAlias = false) :
    (addVariant ts t).Pairwise fun s t => s.unwrapAlias.equals t.unwrapAlias = false := by
  unfold addVariant
  split
  · exact h
  · rename_i hnone
    refine List.pairwise_append.mpr ⟨h, List.pairwise_singleton _ _, fun s hs r hr => ?_⟩
    rw [List.mem_singleton.mp hr]
    simpa using List.any_eq_false.mp (Bool.not_eq_true _ ▸ hnone) s hs

theorem pairwise_distinctVariants (ts : List Ty) :
    (distinctVariants ts).Pairwise fun s t => s.unwrapAlias.equals t.unwrapAlias = false := by
  have fold : ∀ (parts found : List Ty),
      (found.Pairwise fun s t => s.unwrapAlias.equals t.unwrapAlias = false) →
      (parts.foldl addVariant found).Pairwise
        fun s t => s.unwrapAlias.equals t.unwrapAlias = false := by
    intro parts
    induction parts with
    | nil => exact fun found h => h
    | cons p parts ih => exact fun found h => ih _ (pairwise_addVariant h)
  exact fold _ _ .nil

/-- Distinct variants of well-formed types are in normal form, if there are several. -/
theorem normalVariants_distinctVariants {ts : List Ty} (hts : ∀ t ∈ ts, t.WellFormed)
    (hseveral : 2 ≤ (distinctVariants ts).length) : NormalVariants (distinctVariants ts) where
  several := hseveral
  flat v hv := by
    obtain ⟨t, ht, hvt⟩ := exists_of_mem_distinctVariants hv
    exact (hts t ht).flat_of_mem_unionParts v hvt
  distinct := pairwise_distinctVariants ts

theorem stable_wellFormed : Stable (fun _ => True) WellFormed :=
  hereditary_wellFormed.stable fun hts hseveral => wellFormed_union.mpr
    ⟨normalVariants_distinctVariants hts hseveral, hereditary_wellFormed.distinctVariants hts⟩

theorem NormalVariants.flatMap_unionParts {variants : List Ty} (h : NormalVariants variants) :
    variants.flatMap unionParts = variants := by
  rw [List.flatMap_congr fun v hv => unionParts_eq_self (h.flat v hv)]
  simp

/-- Variants in normal form are distinct as they are. -/
theorem NormalVariants.distinctVariants_eq {variants : List Ty} (h : NormalVariants variants) :
    distinctVariants variants = variants := by
  have fold : ∀ ts found : List Ty,
      ((found ++ ts).Pairwise fun s t => s.unwrapAlias.equals t.unwrapAlias = false) →
      ts.foldl addVariant found = found ++ ts := by
    intro ts
    induction ts with
    | nil => simp
    | cons t ts ih =>
        intro found hpair
        have hnew : addVariant found t = found ++ [t] := by
          have hlate := (List.pairwise_append.mp hpair).2.2
          rw [addVariant, if_neg]
          simpa using fun s hs => hlate s hs t List.mem_cons_self
        rw [List.foldl_cons, hnew, ih _ (by simpa using hpair)]
        simp
  rw [distinctVariants, h.flatMap_unionParts]
  exact fold variants [] h.distinct

theorem unionOf_eq_union {ts : List Ty} (h : 2 ≤ (distinctVariants ts).length) :
    unionOf ts = .union (distinctVariants ts) := by
  unfold unionOf
  match distinctVariants ts, h with
  | _ :: _ :: _, _ => rfl

/-- A union is well formed if its variants are and it is what is made of them. -/
theorem wellFormed_union_iff {variants : List Ty} :
    (union variants).WellFormed ↔
      (∀ v ∈ variants, v.WellFormed) ∧ unionOf variants = .union variants := by
  constructor
  · intro h
    obtain ⟨hnormal, hvariants⟩ := wellFormed_union.mp h
    have hdistinct := hnormal.distinctVariants_eq
    refine ⟨hvariants, ?_⟩
    rw [unionOf_eq_union (by rw [hdistinct]; exact hnormal.several), hdistinct]
  · rintro ⟨hvariants, heq⟩
    exact heq ▸ stable_wellFormed.unionOf hvariants

/-- Whatever the rules for types make of well-formed types is well formed. -/
theorem wellFormed_results {s t : Ty} (hs : s.WellFormed) (ht : t.WellFormed) {ts : List Ty}
    (hts : ∀ u ∈ ts, u.WellFormed) {σ : Substitution} (hσ : σ.Binds WellFormed) (d : Decl) :
    (unionOf ts).WellFormed ∧ (nullable t).WellFormed ∧ (t.substitute σ).WellFormed ∧
      (join s t).WellFormed ∧ t.baseType.WellFormed ∧ t.unwrapAlias.WellFormed ∧
      t.unwrapInstantiation.WellFormed ∧ t.unwrapOption.WellFormed ∧
      (∀ variants fit, s = .union variants → exactVariantToFit variants t = some fit →
        fit.WellFormed) ∧
      (Inference.instantiate d t ts).WellFormed ∧ (σ.deduce s t).Binds WellFormed := by
  have h := stable_wellFormed
  refine ⟨h.unionOf hts, h.nullable ht, h.substitute ht hσ, h.join hs ht, h.baseType ht,
    h.unwrapAlias ht, h.unwrapInstantiation ht, h.unwrapOption ht, ?_, h.instantiate d ht hts,
    h.deduce hσ hs ht⟩
  rintro variants fit rfl hfit
  exact h.of_exactVariantToFit hs hfit

/-- A type parameter beside `int` is replaced by an alias of a union with `int`. -/
theorem wellFormed_results_overlap :
    (union [.null, .typeParam ⟨"T", none⟩ none]).WellFormed ∧
      (union [.typeParam ⟨"T", none⟩ none, .int]).WellFormed ∧
      (∀ u ∈ [Ty.alias ⟨"N", none⟩ (.union [.null, .int]), .int], u.WellFormed) ∧
      (Substitution.ofList [("T", .alias ⟨"N", none⟩ (.union [.null, .int]))]).Binds WellFormed ∧
      (unionOf [.alias ⟨"N", none⟩ (.union [.null, .int]), .int]).WellFormed ∧
      ((union [.typeParam ⟨"T", none⟩ none, .int]).substitute
        (Substitution.ofList [("T", .alias ⟨"N", none⟩ (.union [.null, .int]))])).WellFormed ∧
      ((Substitution.ofList [("T", .alias ⟨"N", none⟩ (.union [.null, .int]))]).deduce
        (union [.null, .typeParam ⟨"T", none⟩ none])
        (union [.typeParam ⟨"T", none⟩ none, .int])).Binds WellFormed := by
  have hs : (union [.null, .typeParam ⟨"T", none⟩ none]).WellFormed :=
    wellFormed_union.mpr ⟨⟨by simp, by simp [baseType], by simp [unwrapAlias, equals, stripAliases]⟩,
      by simp [WellFormed]⟩
  have ht : (union [.typeParam ⟨"T", none⟩ none, .int]).WellFormed :=
    wellFormed_union.mpr ⟨⟨by simp, by simp [baseType], by simp [unwrapAlias, equals, stripAliases]⟩,
      by simp [WellFormed]⟩
  have hoption : (union [.null, .int]).WellFormed :=
    wellFormed_union.mpr ⟨⟨by simp, by simp [baseType], by simp [unwrapAlias, equals, stripAliases]⟩,
      by simp [WellFormed]⟩
  have hσ : (Substitution.ofList [("T", .alias ⟨"N", none⟩ (.union [.null, .int]))]).Binds
      WellFormed :=
    Substitution.binds_ofList (by simpa [WellFormed] using hoption)
  have hts : ∀ u ∈ [Ty.alias ⟨"N", none⟩ (.union [.null, .int]), .int], u.WellFormed := by
    simpa [WellFormed] using hoption
  have h := wellFormed_results hs ht hts hσ ⟨.struct, (parse 0 0 "").tree.rootNode⟩
  exact ⟨hs, ht, hts, hσ, h.1, h.2.2.1, h.2.2.2.2.2.2.2.2.2.2⟩

end Ty

end TolkAnalysis
