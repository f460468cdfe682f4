import TolkAnalysis.Proofs.Ty.Join
import TolkAnalysis.Proofs.Ty.Substitution

/-!
# One substitution after another

`Substitution.andThen` is the substitution that does in one step what two substitutions do one
after the other. A union may lose variants at each of the two, and at other ones than in one
step. What counts is which variants a type has up to equality, `Ty.HasVariant`: a union has those
of its parts (`Ty.hasVariant_unionOf`), and what a substitution makes of a type has those that it
makes of the variants of the type (`Ty.Regular.hasVariant_replaceParams`).

This takes types in which nothing but structs and builtins is applied, for which a variant is
never hidden behind an alias or an instantiation. `Ty.substitute_andThen` puts the laws together.
-/

namespace TolkAnalysis

namespace Substitution

/-- Binds what the first substitution binds, to types in which the second is put in place, and
what the second alone binds. -/
def andThen (σ τ : Substitution) : Substitution :=
  ⟨τ.bindings ∪ σ.bindings.map fun _ t => t.substitute τ⟩

theorem get?_andThen (σ τ : Substitution) (name : String) :
    (σ.andThen τ).get? name = ((σ.get? name).map (·.substitute τ)).or (τ.get? name) := by
  simp [get?, andThen, Std.HashMap.getElem?_union, Std.HashMap.getElem?_map]

end Substitution

namespace Ty

/-! ### Overt types -/

/-- Neither an alias nor an instantiation of anything but a struct or a builtin. -/
def isOvert (t : Ty) : Bool := !t.isAlias && t.appliesNominal

/-- No alias occurs in the type, and nothing but structs and builtins is applied in it. -/
def Overt (t : Ty) : Prop := t.Throughout fun s => s.isOvert = true

variable {σ τ : Substitution} {s t v : Ty} {xs ys : List Ty}

theorem isAlias_of_isOvert (h : t.isOvert = true) : t.isAlias = false := by
  cases t <;> first | rfl | cases h

namespace Overt

theorem unaliased (h : t.Overt) : t.Unaliased := h.mono fun _ => isAlias_of_isOvert

theorem eq_of_stripAliases (h : t.Overt) (ht : t.stripAliases = s) : t = s :=
  (stripAliases_eq_self h.unaliased.here).symm.trans ht

theorem unwrapAlias_eq (h : t.Overt) : t.unwrapAlias = t := by
  have hovert := h.here
  unfold Ty.unwrapAlias
  split <;> first | rfl | cases hovert

theorem duplicates_iff (hs : s.Overt) (ht : t.Overt) : s.Duplicates t ↔ s.equals t = true := by
  rw [Duplicates, hs.unwrapAlias_eq, ht.unwrapAlias_eq]

theorem equals_trans {u : Ty} (hs : s.Overt) (hst : s.equals t = true) (htu : t.equals u = true) :
    s.equals u = true :=
  hs.unaliased.equals_trans hst htu

theorem uniform (h : ∀ t ∈ xs, t.Overt) : Uniform xs where
  equals s hs t ht hst := ((h s hs).duplicates_iff (h t ht)).mp hst
  trans s hs t ht u hu hst htu := by
    rw [(h s hs).duplicates_iff (h t ht)] at hst
    rw [(h t ht).duplicates_iff (h u hu)] at htu
    exact ((h s hs).duplicates_iff (h u hu)).mpr ((h s hs).equals_trans hst htu)

/-- No variants are hidden behind an instantiation. -/
theorem eq_of_baseType (h : t.Overt) {variants : List Ty} (ht : t.baseType = .union variants) :
    t = .union variants := by
  have hovert := h.here
  cases t <;> first | cases hovert; done | exact ht | skip
  rename_i inner args
  cases inner <;> first | cases hovert; done | cases ht

/-- An overt type is a union as it stands, or it is its only part. -/
theorem union_or_unionParts_eq (h : t.Overt) :
    (∃ variants, t = .union variants) ∨ (∀ variants, t ≠ .union variants) ∧ t.unionParts = [t] := by
  by_cases hunion : ∃ variants, t = .union variants
  · exact .inl hunion
  · refine .inr ⟨fun variants heq => hunion ⟨variants, heq⟩, unionParts_eq_self ?_⟩
    exact fun variants hvariants => hunion ⟨variants, h.eq_of_baseType hvariants⟩

theorem unionParts (h : t.Overt) : ∀ v ∈ t.unionParts, v.Overt := by
  obtain ⟨variants, rfl⟩ | ⟨-, hparts⟩ := h.union_or_unionParts_eq
  · exact fun v hv => h.of_mem hv
  · rw [hparts]
    exact List.forall_mem_singleton.mpr h

theorem flatMap_unionParts (h : ∀ t ∈ xs, t.Overt) : ∀ v ∈ xs.flatMap Ty.unionParts, v.Overt := by
  intro v hv
  obtain ⟨t, ht, hvt⟩ := List.mem_flatMap.mp hv
  exact (h t ht).unionParts v hvt

theorem distinctVariants (h : ∀ t ∈ xs, t.Overt) : ∀ v ∈ distinctVariants xs, v.Overt :=
  fun v hv => flatMap_unionParts h v (mem_flatMap_of_mem_distinctVariants hv)

theorem unionOf (h : ∀ t ∈ xs, t.Overt) : (unionOf xs).Overt := by
  have hvariants := distinctVariants h
  unfold Ty.unionOf
  split
  · exact .intro rfl fun s hs => nomatch hs
  · rename_i s hone
    exact hvariants s (hone ▸ List.mem_singleton_self s)
  · exact .intro rfl hvariants

theorem replaceParams (hσ : σ.Binds Overt) (h : t.Overt) : (t.replaceParams σ).Overt := by
  have all {ts : List Ty} (ih : ∀ t ∈ ts, t.Overt → (t.replaceParams σ).Overt)
      (hts : ∀ t ∈ ts, t.Overt) : ∀ t ∈ replaceAll σ ts, t.Overt := by
    simpa [replaceAll_eq_map] using fun t ht => ih t ht (hts t ht)
  induction t using inductionOnParts with
  | primitive t hprimitive =>
      rw [replaceParams_of_isPrimitive hprimitive]
      exact h
  | builtin n | enum n => exact h
  | struct n fields ih => exact .intro rfl (all ih fun _ => h.of_mem)
  | aliasOf n inner => cases h.here
  | typeParam n default =>
      rw [Ty.replaceParams]
      cases hget : σ.get? n.name with
      | none => exact h
      | some s => exact hσ _ _ hget
  | tensor ts ih | tuple ts ih => exact .intro rfl (all ih fun _ => h.of_mem)
  | union ts ih => exact unionOf (all ih fun _ => h.of_mem)
  | function params result ihparams ihresult =>
      obtain ⟨hresult, hparams⟩ := List.forall_mem_cons.mp fun _ => h.of_mem
      exact .intro rfl (List.forall_mem_cons.mpr ⟨ihresult hresult, all ihparams hparams⟩)
  | instantiation inner args ihinner ihargs =>
      obtain ⟨hinner, hargs⟩ := List.forall_mem_cons.mp fun _ => h.of_mem
      refine .intro ?_ (List.forall_mem_cons.mpr ⟨ihinner hinner, all ihargs hargs⟩)
      have hovert := h.here
      cases inner <;> first | rfl | cases hovert

end Overt

/-! ### The variants of a type -/

/-- The type, seen as a union, has a variant that equals `v`. -/
def HasVariant (t v : Ty) : Prop := ∃ p ∈ t.unionParts, v.equals p = true

/-- Equal types have the same variants. -/
theorem HasVariant.of_equals (hs : s.Overt) (ht : t.Overt) (hv : v.Overt)
    (hst : s.equals t = true) (h : s.HasVariant v) : t.HasVariant v := by
  obtain ⟨p, hp, hvp⟩ := h
  obtain ⟨ss, rfl⟩ | ⟨hunion, hparts⟩ := hs.union_or_unionParts_eq
  · obtain ⟨ts, hts, -, hleft, -⟩ := equals_union.mp hst
    obtain rfl := ht.eq_of_stripAliases hts
    obtain ⟨q, hq, hpq⟩ := hleft p hp
    exact ⟨q, hq, hv.equals_trans hvp hpq⟩
  · rw [hparts] at hp
    obtain rfl := List.mem_singleton.mp hp
    obtain ⟨ts, rfl⟩ | ⟨-, hparts'⟩ := ht.union_or_unionParts_eq
    · obtain ⟨ss, hss, -⟩ := equals_union.mp (equals_symm hst)
      exact (hunion ss (hs.eq_of_stripAliases hss)).elim
    · exact ⟨t, hparts' ▸ List.mem_singleton_self t, hv.equals_trans hvp hst⟩

/-- Leaving out duplicates leaves a type with `Q` among the parts if there was one. -/
theorem exists_mem_distinctVariants_iff (hxs : ∀ x ∈ xs, x.Overt) {Q : Ty → Prop}
    (hQ : ∀ p q, p.Overt → q.Overt → p.equals q = true → Q p → Q q) :
    (∃ p ∈ distinctVariants xs, Q p) ↔ ∃ x ∈ xs, ∃ p ∈ x.unionParts, Q p := by
  constructor
  · rintro ⟨p, hp, hQp⟩
    obtain ⟨x, hx, hpx⟩ := exists_of_mem_distinctVariants hp
    exact ⟨x, hx, p, hpx, hQp⟩
  · rintro ⟨x, hx, p, hpx, hQp⟩
    obtain ⟨v, hv, hvp⟩ : ∃ v ∈ distinctVariants xs, v.Duplicates p :=
      exists_duplicates_of_mem (List.mem_flatMap.mpr ⟨x, hx, hpx⟩)
    have hvovert := Overt.distinctVariants hxs v hv
    have hpovert := (hxs x hx).unionParts p hpx
    exact ⟨v, hv, hQ p v hpovert hvovert
      (equals_symm ((hvovert.duplicates_iff hpovert).mp hvp)) hQp⟩

/-- Unions of types that have the same variants together are equal. -/
theorem equals_unionOf_of_hasVariant (hxs : ∀ x ∈ xs, x.Overt) (hys : ∀ y ∈ ys, y.Overt)
    (h : ∀ v : Ty, v.Overt → ((∃ x ∈ xs, x.HasVariant v) ↔ ∃ y ∈ ys, y.HasVariant v)) :
    (unionOf xs).equals (unionOf ys) = true := by
  have cover {xs ys : List Ty} (hxs : ∀ x ∈ xs, x.Overt) (hys : ∀ y ∈ ys, y.Overt)
      (h : ∀ v : Ty, v.Overt → (∃ x ∈ xs, x.HasVariant v) → ∃ y ∈ ys, y.HasVariant v) :
      ∀ p ∈ xs.flatMap unionParts, ∃ q ∈ ys.flatMap unionParts, p.Duplicates q := by
    intro p hp
    have hovert := Overt.flatMap_unionParts hxs p hp
    obtain ⟨x, hx, hpx⟩ := List.mem_flatMap.mp hp
    obtain ⟨y, hy, q, hq, hpq⟩ := h p hovert ⟨x, hx, p, hpx, equals_refl p⟩
    exact ⟨q, List.mem_flatMap.mpr ⟨y, hy, hq⟩,
      (hovert.duplicates_iff ((hys y hy).unionParts q hq)).mpr hpq⟩
  exact equals_unionOf
    (Overt.uniform (List.forall_mem_append.mpr
      ⟨Overt.flatMap_unionParts hxs, Overt.flatMap_unionParts hys⟩))
    (cover hxs hys fun v hv => (h v hv).mp) (cover hys hxs fun v hv => (h v hv).mpr)

/-- Unions of equal types are equal, in any order and any number. -/
theorem equals_unionOf_of_equals (hxs : ∀ x ∈ xs, x.Overt) (hys : ∀ y ∈ ys, y.Overt)
    (hleft : ∀ x ∈ xs, ∃ y ∈ ys, x.equals y = true)
    (hright : ∀ y ∈ ys, ∃ x ∈ xs, x.equals y = true) :
    (unionOf xs).equals (unionOf ys) = true := by
  refine equals_unionOf_of_hasVariant hxs hys fun v hv => ⟨?_, ?_⟩
  · rintro ⟨x, hx, hvariant⟩
    obtain ⟨y, hy, hxy⟩ := hleft x hx
    exact ⟨y, hy, hvariant.of_equals (hxs x hx) (hys y hy) hv hxy⟩
  · rintro ⟨y, hy, hvariant⟩
    obtain ⟨x, hx, hxy⟩ := hright y hy
    exact ⟨x, hx, hvariant.of_equals (hys y hy) (hxs x hx) hv (equals_symm hxy)⟩

/-- Equal types stay equal when a substitution is put in place in both. -/
theorem Overt.equals_replaceParams (hσ : σ.Binds Overt) (hs : s.Overt) (ht : t.Overt)
    (h : s.equals t = true) : (s.replaceParams σ).equals (t.replaceParams σ) = true := by
  have all {ss ts : List Ty}
      (ih : ∀ s ∈ ss, ∀ {t : Ty}, s.Overt → t.Overt → s.equals t = true →
        (s.replaceParams σ).equals (t.replaceParams σ) = true)
      (hss : ∀ s ∈ ss, s.Overt) (hts : ∀ t ∈ ts, t.Overt)
      (h : List.Forall₂ (fun s t => s.equals t = true) ss ts) :
      List.Forall₂ (fun s t => s.equals t = true) (replaceAll σ ss) (replaceAll σ ts) := by
    induction h with
    | nil => exact .nil
    | cons hst _ ih' =>
        rw [List.forall_mem_cons] at ih hss hts
        exact .cons (ih.1 hss.1 hts.1 hst) (ih' ih.2 hss.2 hts.2)
  induction s using inductionOnParts generalizing t with
  | primitive s hprimitive =>
      rw [ht.eq_of_stripAliases ((equals_primitive hprimitive).mp h)]
      exact equals_refl _
  | builtin n =>
      obtain ⟨m, hm, hname⟩ := equals_builtin.mp h
      obtain rfl := ht.eq_of_stripAliases hm
      exact equals_builtin.mpr ⟨m, rfl, hname⟩
  | struct n fields =>
      obtain ⟨m, others, hm, hname⟩ := equals_struct.mp h
      obtain rfl := ht.eq_of_stripAliases hm
      exact equals_struct.mpr ⟨m, _, rfl, hname⟩
  | enum n =>
      obtain ⟨m, hm, hname⟩ := equals_enum.mp h
      obtain rfl := ht.eq_of_stripAliases hm
      exact equals_enum.mpr ⟨m, rfl, hname⟩
  | aliasOf n inner => cases hs.here
  | typeParam n default =>
      obtain ⟨m, other, hm, hname⟩ := equals_typeParam.mp h
      obtain rfl := ht.eq_of_stripAliases hm
      rw [Ty.replaceParams, Ty.replaceParams, hname]
      cases σ.get? m.name with
      | none => exact h
      | some u => exact equals_refl u
  | tensor ss ih =>
      obtain ⟨ts, hts, hall⟩ := equals_tensor.mp h
      obtain rfl := ht.eq_of_stripAliases hts
      exact equals_tensor.mpr ⟨_, rfl, all @ih (fun _ => hs.of_mem) (fun _ => ht.of_mem) hall⟩
  | tuple ss ih =>
      obtain ⟨ts, hts, hall⟩ := equals_tuple.mp h
      obtain rfl := ht.eq_of_stripAliases hts
      exact equals_tuple.mpr ⟨_, rfl, all @ih (fun _ => hs.of_mem) (fun _ => ht.of_mem) hall⟩
  | union ss ih =>
      obtain ⟨ts, hts, -, hleft, hright⟩ := equals_union.mp h
      obtain rfl := ht.eq_of_stripAliases hts
      have hmap {us : List Ty} (hus : ∀ u ∈ us, u.Overt) :
          ∀ u ∈ us.map (Ty.replaceParams σ), u.Overt :=
        List.forall_mem_map.mpr fun u hu => (hus u hu).replaceParams hσ
      simp only [Ty.replaceParams, replaceAll_eq_map]
      refine equals_unionOf_of_equals (hmap fun _ => hs.of_mem) (hmap fun _ => ht.of_mem)
        (List.forall_mem_map.mpr fun s hmem => ?_) (List.forall_mem_map.mpr fun t hmem' => ?_)
      · obtain ⟨t, hmem', hst⟩ := hleft s hmem
        exact ⟨_, List.mem_map_of_mem hmem', ih s hmem (hs.of_mem hmem) (ht.of_mem hmem') hst⟩
      · obtain ⟨s, hmem, hst⟩ := hright t hmem'
        exact ⟨_, List.mem_map_of_mem hmem, ih s hmem (hs.of_mem hmem) (ht.of_mem hmem') hst⟩
  | function params result ihparams ihresult =>
      obtain ⟨others, other, hform, hall, hresult⟩ := equals_function.mp h
      obtain rfl := ht.eq_of_stripAliases hform
      obtain ⟨hs, hss⟩ := List.forall_mem_cons.mp fun _ => hs.of_mem
      obtain ⟨ht, hts⟩ := List.forall_mem_cons.mp fun _ => ht.of_mem
      exact equals_function.mpr ⟨_, _, rfl, all @ihparams hss hts hall, ihresult hs ht hresult⟩
  | instantiation inner args ihinner ihargs =>
      obtain ⟨other, others, hform, hinner, hall⟩ := equals_instantiation.mp h
      obtain rfl := ht.eq_of_stripAliases hform
      obtain ⟨hs, hss⟩ := List.forall_mem_cons.mp fun _ => hs.of_mem
      obtain ⟨ht, hts⟩ := List.forall_mem_cons.mp fun _ => ht.of_mem
      exact equals_instantiation.mpr ⟨_, _, rfl, ihinner hs ht hinner, all @ihargs hss hts hall⟩

/-! ### Unions in place of type parameters -/

/-- An overt type in which every union is in normal form. -/
structure Regular (t : Ty) : Prop where
  overt : t.Overt
  wellFormed : t.WellFormed

/-- A union has the variants of its parts. -/
theorem hasVariant_unionOf (hxs : ∀ x ∈ xs, x.Regular) (hne : xs ≠ []) (hv : v.Overt) :
    (unionOf xs).HasVariant v ↔ ∃ x ∈ xs, x.HasVariant v := by
  rw [HasVariant, unionParts_unionOf (fun x hx => (hxs x hx).wellFormed) hne,
    exists_mem_distinctVariants_iff fun x hx => (hxs x hx).overt]
  · rfl
  · exact fun p q _ _ hpq hvp => hv.equals_trans hvp hpq

theorem unionOf_singleton (ht : t.Regular) : unionOf [t] = t := by
  obtain ⟨variants, rfl⟩ | ⟨-, hparts⟩ := ht.overt.union_or_unionParts_eq
  · have hparts : [union variants].flatMap unionParts = variants.flatMap unionParts := by
      rw [(wellFormed_union.mp ht.wellFormed).1.flatMap_unionParts]
      exact List.append_nil variants
    calc unionOf [union variants]
        = unionOf variants := by
          rw [unionOf, distinctVariants, hparts, unionOf, distinctVariants]
      _ = union variants := (wellFormed_union_iff.mp ht.wellFormed).2
  · simp [unionOf, distinctVariants, hparts, addVariant]

namespace Regular

theorem of_mem (h : t.Regular) (hs : s ∈ t.components) : s.Regular where
  overt := h.overt.of_mem hs
  wellFormed := hereditary_wellFormed.of_mem_parts h.wellFormed (t.components_subset_parts hs)

theorem variants_ne_nil (h : (union xs).Regular) : xs ≠ [] := by
  rintro rfl
  simpa using (wellFormed_union.mp h.wellFormed).1.several

theorem replaceParams (hσ : σ.Binds Regular) (h : t.Regular) : (t.replaceParams σ).Regular where
  overt := h.overt.replaceParams fun name s hs => (hσ name s hs).overt
  wellFormed := stable_wellFormed.replaceParams (fun name s hs => (hσ name s hs).wellFormed)
    h.wellFormed

theorem substitute (hσ : σ.Binds Regular) (h : t.Regular) : (t.substitute σ).Regular := by
  rw [h.wellFormed.substitute_eq]
  exact h.replaceParams hσ

theorem unionOf (h : ∀ x ∈ xs, x.Regular) : (unionOf xs).Regular where
  overt := Overt.unionOf fun x hx => (h x hx).overt
  wellFormed := stable_wellFormed.unionOf fun x hx => (h x hx).wellFormed

/-- What a substitution makes of a type has the variants that it makes of the variants of the
type. -/
theorem hasVariant_replaceParams (hσ : σ.Binds Regular) (ht : t.Regular) (hv : v.Overt) :
    (t.replaceParams σ).HasVariant v ↔ ∃ p ∈ t.unionParts, (p.replaceParams σ).HasVariant v := by
  obtain ⟨variants, rfl⟩ | ⟨-, hparts⟩ := ht.overt.union_or_unionParts_eq
  · rw [Ty.replaceParams, replaceAll_eq_map,
      hasVariant_unionOf _ (by simpa using ht.variants_ne_nil) hv]
    · simp only [List.mem_map, exists_exists_and_eq_and]
      rfl
    · exact List.forall_mem_map.mpr fun p hp => (ht.of_mem hp).replaceParams hσ
  · simp [hparts]

/-- A substitution may be put in place before or after the types are made a union. -/
theorem equals_replaceParams_unionOf (hσ : σ.Binds Regular) (hxs : ∀ x ∈ xs, x.Regular)
    (hne : xs ≠ []) : ((Ty.unionOf xs).replaceParams σ).equals
      (Ty.unionOf (xs.map (Ty.replaceParams σ))) = true := by
  have hσovert : σ.Binds Overt := fun name s hs => (hσ name s hs).overt
  have hunion := unionOf hxs
  have hmap : ∀ y ∈ xs.map (Ty.replaceParams σ), y.Regular :=
    List.forall_mem_map.mpr fun x hx => (hxs x hx).replaceParams hσ
  rw [← unionOf_singleton (hunion.replaceParams hσ)]
  refine equals_unionOf_of_hasVariant
    (List.forall_mem_singleton.mpr (hunion.replaceParams hσ).overt)
    (fun y hy => (hmap y hy).overt) fun v hv => ?_
  have hstep (p q : Ty) (hp : p.Overt) (hq : q.Overt) (hpq : p.equals q = true)
      (h : (p.replaceParams σ).HasVariant v) : (q.replaceParams σ).HasVariant v :=
    h.of_equals (hp.replaceParams hσovert) (hq.replaceParams hσovert) hv
      (hp.equals_replaceParams hσovert hq hpq)
  calc (∃ x ∈ [(Ty.unionOf xs).replaceParams σ], x.HasVariant v)
      ↔ ((Ty.unionOf xs).replaceParams σ).HasVariant v := by simp
    _ ↔ ∃ p ∈ distinctVariants xs, (p.replaceParams σ).HasVariant v := by
        rw [hunion.hasVariant_replaceParams hσ hv,
          unionParts_unionOf (fun x hx => (hxs x hx).wellFormed) hne]
    _ ↔ ∃ x ∈ xs, ∃ p ∈ x.unionParts, (p.replaceParams σ).HasVariant v :=
        exists_mem_distinctVariants_iff (fun x hx => (hxs x hx).overt) hstep
    _ ↔ ∃ x ∈ xs, (x.replaceParams σ).HasVariant v :=
        exists_congr fun x => and_congr_right fun hx =>
          ((hxs x hx).hasVariant_replaceParams hσ hv).symm
    _ ↔ ∃ y ∈ xs.map (Ty.replaceParams σ), y.HasVariant v := by
        simp only [List.mem_map, exists_exists_and_eq_and]

end Regular

theorem Regular.binds_andThen (hσ : σ.Binds Regular) (hτ : τ.Binds Regular) :
    (σ.andThen τ).Binds Regular := by
  intro name t ht
  rw [Substitution.get?_andThen] at ht
  cases hget : σ.get? name with
  | none =>
      rw [hget] at ht
      exact hτ name t ht
  | some s =>
      rw [hget] at ht
      cases ht
      exact (hσ name s hget).substitute hτ

/-- Putting one substitution in place after another does what the two do in one step. -/
theorem Regular.equals_replaceParams_andThen (hσ : σ.Binds Regular) (hτ : τ.Binds Regular)
    (ht : t.Regular) :
    ((t.replaceParams σ).replaceParams τ).equals (t.replaceParams (σ.andThen τ)) = true := by
  have all {ts : List Ty}
      (ih : ∀ t ∈ ts, t.Regular →
        ((t.replaceParams σ).replaceParams τ).equals (t.replaceParams (σ.andThen τ)) = true)
      (hts : ∀ t ∈ ts, t.Regular) :
      List.Forall₂ (fun s t => s.equals t = true) (replaceAll τ (replaceAll σ ts))
        (replaceAll (σ.andThen τ) ts) := by
    simp only [replaceAll_eq_map, List.map_map, List.forall₂_map_left_iff,
      List.forall₂_map_right_iff, List.forall₂_same]
    exact fun t hmem => ih t hmem (hts t hmem)
  induction t using inductionOnParts with
  | primitive t hprimitive =>
      simp only [replaceParams_of_isPrimitive hprimitive]
      exact equals_refl t
  | builtin n | enum n => exact equals_refl _
  | struct n fields => exact equals_struct.mpr ⟨n, _, rfl, rfl⟩
  | aliasOf n inner => cases ht.overt.here
  | typeParam n default =>
      simp only [Ty.replaceParams, Substitution.get?_andThen]
      cases hget : σ.get? n.name with
      | none => exact equals_refl _
      | some s =>
          have hs := (hσ n.name s hget).wellFormed
          simpa [hs.substitute_eq] using equals_refl _
  | tensor ts ih => exact equals_tensor.mpr ⟨_, rfl, all ih fun _ => ht.of_mem⟩
  | tuple ts ih => exact equals_tuple.mpr ⟨_, rfl, all ih fun _ => ht.of_mem⟩
  | union ts ih =>
      have hts : ∀ t ∈ ts, t.Regular := fun _ => ht.of_mem
      have hfirst : ∀ t ∈ ts.map (Ty.replaceParams σ), t.Regular :=
        List.forall_mem_map.mpr fun t hmem => (hts t hmem).replaceParams hσ
      have hboth : ∀ t ∈ (ts.map (Ty.replaceParams σ)).map (Ty.replaceParams τ), t.Regular :=
        List.forall_mem_map.mpr fun t hmem => (hfirst t hmem).replaceParams hτ
      have honce : ∀ t ∈ ts.map (Ty.replaceParams (σ.andThen τ)), t.Regular :=
        List.forall_mem_map.mpr fun t hmem => (hts t hmem).replaceParams (binds_andThen hσ hτ)
      simp only [Ty.replaceParams, replaceAll_eq_map]
      -- The second substitution goes into the union first, and then variant by variant.
      refine ((unionOf hfirst).replaceParams hτ).overt.equals_trans
        (equals_replaceParams_unionOf hτ hfirst (by simpa using ht.variants_ne_nil))
        (equals_unionOf_of_equals (fun t hmem => (hboth t hmem).overt)
          (fun t hmem => (honce t hmem).overt) ?_ ?_)
      · simp only [List.forall_mem_map]
        exact fun t hmem => ⟨_, List.mem_map_of_mem hmem, ih t hmem (hts t hmem)⟩
      · refine List.forall_mem_map.mpr fun t hmem => ⟨_, ?_, ih t hmem (hts t hmem)⟩
        exact List.mem_map_of_mem (List.mem_map_of_mem hmem)
  | function params result ihparams ihresult =>
      obtain ⟨hresult, hparams⟩ := List.forall_mem_cons.mp fun _ => ht.of_mem
      exact equals_function.mpr ⟨_, _, rfl, all ihparams hparams, ihresult hresult⟩
  | instantiation inner args ihinner ihargs =>
      obtain ⟨hinner, hargs⟩ := List.forall_mem_cons.mp fun _ => ht.of_mem
      exact equals_instantiation.mpr ⟨_, _, rfl, ihinner hinner, all ihargs hargs⟩

/-- Substitutions compose, for types in which nothing but structs and builtins is applied, and
equal types stay equal under substitution. -/
theorem substitute_andThen {a b : Ty} (hσ : σ.Binds Regular) (hτ : τ.Binds Regular)
    (ht : t.Regular) (ha : a.Regular) (hb : b.Regular) :
    ((t.substitute σ).substitute τ).equals (t.substitute (σ.andThen τ)) = true ∧
      (∀ name, (σ.andThen τ).get? name =
        ((σ.get? name).map (·.substitute τ)).or (τ.get? name)) ∧
      (a.equals b = true → (a.substitute σ).equals (b.substitute σ) = true) := by
  have hovert : σ.Binds Overt := fun name s hs => (hσ name s hs).overt
  refine ⟨?_, Substitution.get?_andThen σ τ, fun hab => ?_⟩
  · rw [ht.wellFormed.substitute_eq, ht.wellFormed.substitute_eq,
      (ht.replaceParams hσ).wellFormed.substitute_eq]
    exact ht.equals_replaceParams_andThen hσ hτ
  · rw [ha.wellFormed.substitute_eq, hb.wellFormed.substitute_eq]
    exact ha.overt.equals_replaceParams hovert hb.overt hab

/-- Brings in a union. -/
def unionForT : Substitution := .ofList [("T", .union [.int, bareParam "V"])]

/-- Makes variants equal. -/
def intForU : Substitution := .ofList [("V", .bool), ("U", .int)]

/-- The first substitution brings in a union, and the second makes two of its variants one. -/
theorem substitute_andThen_overlap :
    unionForT.Binds Regular ∧ intForU.Binds Regular ∧
      (union [bareParam "T", bareParam "U"]).Regular ∧
      (union [bareParam "U", bareParam "T"]).Regular ∧
      (union [bareParam "T", bareParam "U"]).equals (.union [bareParam "U", bareParam "T"]) = true ∧
      (((union [bareParam "T", bareParam "U"]).substitute unionForT).substitute intForU).equals
        ((union [bareParam "T", bareParam "U"]).substitute (unionForT.andThen intForU)) = true ∧
      ((union [bareParam "T", bareParam "U"]).substitute unionForT).equals
        ((union [bareParam "U", bareParam "T"]).substitute unionForT) = true := by
  have hleaf (t : Ty) (hovert : t.isOvert = true) (hwf : t.WellFormed)
      (hparts : t.components = []) : t.Regular := ⟨.intro hovert (by simp [hparts]), hwf⟩
  have hparam (name : String) : (bareParam name).Regular := hleaf _ rfl trivial rfl
  have hpair (s t : Ty) (hs : s.Regular) (ht : t.Regular) (h : NormalVariants [s, t]) :
      (union [s, t]).Regular :=
    ⟨.intro rfl (by simpa [components, parts] using ⟨hs.overt, ht.overt⟩),
      wellFormed_union.mpr ⟨h, by simpa using ⟨hs.wellFormed, ht.wellFormed⟩⟩⟩
  have hσ : unionForT.Binds Regular :=
    Substitution.binds_ofList (List.forall_mem_singleton.mpr
      (hpair _ _ (hleaf int rfl trivial rfl) (hparam "V")
        ⟨by simp, by simp [baseType, bareParam], by
          simp [unwrapAlias, equals, stripAliases, bareParam]⟩))
  have hτ : intForU.Binds Regular :=
    Substitution.binds_ofList (by
      simpa using ⟨hleaf bool rfl trivial rfl, hleaf int rfl trivial rfl⟩)
  have ha := hpair _ _ (hparam "T") (hparam "U")
    ⟨by simp, by simp [baseType, bareParam], by simp [unwrapAlias, equals, stripAliases, bareParam]⟩
  have hb := hpair _ _ (hparam "U") (hparam "T")
    ⟨by simp, by simp [baseType, bareParam], by simp [unwrapAlias, equals, stripAliases, bareParam]⟩
  have hab : (union [bareParam "T", bareParam "U"]).equals
      (.union [bareParam "U", bareParam "T"]) = true := by
    simp [equals, stripAliases, allAmong, anyEqual, bareParam]
  obtain ⟨hcomposed, -, hequal⟩ := substitute_andThen hσ hτ ha ha hb
  exact ⟨hσ, hτ, ha, hb, hab, hcomposed, hequal hab⟩

end Ty

end TolkAnalysis
