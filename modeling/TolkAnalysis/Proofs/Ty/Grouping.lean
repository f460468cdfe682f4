import Mathlib.Data.List.Perm.Subperm
import TolkAnalysis.Proofs.Ty.Erasure
import TolkAnalysis.Proofs.Ty.Normal

/-!
# Unions of the same types

`Ty.unionOf` leaves out a variant that is a duplicate of an earlier one: once aliases are
removed from both, the two are equal. Where duplicates are equal as they are, and duplicates of
one variant are duplicates of each other, the union of some types depends only on which variants
they have (`equals_unionOf`). Aliases can break both conditions, and without them duplicates are
just equal types, so neither the order of the types matters nor how they are grouped into
unions: `unionOf_order_grouping`.
-/

namespace TolkAnalysis

namespace Ty

/-! ### Duplicates -/

/-- In a union, the later of the two types is left out beside the earlier. -/
def Duplicates (s t : Ty) : Prop := s.unwrapAlias.equals t.unwrapAlias = true

theorem duplicates_refl (t : Ty) : t.Duplicates t := equals_refl _

theorem Duplicates.symm {s t : Ty} (h : s.Duplicates t) : t.Duplicates s := equals_symm h

/-- Duplicates among the types are equal, and those of one type are duplicates of each other. -/
structure Uniform (ts : List Ty) : Prop where
  equals : ∀ s ∈ ts, ∀ t ∈ ts, s.Duplicates t → s.equals t = true
  trans : ∀ s ∈ ts, ∀ t ∈ ts, ∀ u ∈ ts, s.Duplicates t → t.Duplicates u → s.Duplicates u

theorem Uniform.subset {ss ts : List Ty} (h : Uniform ts) (hsub : ss ⊆ ts) : Uniform ss where
  equals s hs t ht := h.equals s (hsub hs) t (hsub ht)
  trans s hs t ht u hu := h.trans s (hsub hs) t (hsub ht) u (hsub hu)

theorem Uniform.swap {ss ts : List Ty} (h : Uniform (ss ++ ts)) : Uniform (ts ++ ss) :=
  h.subset (List.append_subset.mpr ⟨List.subset_append_right ss ts, List.subset_append_left ss ts⟩)

/-! ### The variants that stay -/

theorem addVariant_eq_self {found : List Ty} {v p : Ty} (hv : v ∈ found) (hvp : v.Duplicates p) :
    addVariant found p = found :=
  have hany : found.any (fun s => s.unwrapAlias.equals p.unwrapAlias) = true :=
    List.any_eq_true.mpr ⟨v, hv, hvp⟩
  if_pos hany

theorem addVariant_eq_append {found : List Ty} {p : Ty} (h : ∀ v ∈ found, ¬ v.Duplicates p) :
    addVariant found p = found ++ [p] :=
  if_neg fun hany =>
    have ⟨v, hv, hvp⟩ := List.any_eq_true.mp hany
    h v hv hvp

theorem subset_foldl_addVariant (parts found : List Ty) :
    found ⊆ parts.foldl addVariant found := by
  induction parts generalizing found with
  | nil => exact List.Subset.refl found
  | cons p parts ih =>
      refine List.Subset.trans ?_ (ih (addVariant found p))
      unfold addVariant
      split
      · exact List.Subset.refl found
      · exact List.subset_append_left found [p]

/-- A variant is left out only for a duplicate that stays. -/
theorem exists_duplicates_of_mem {parts found : List Ty} {p : Ty} (hp : p ∈ parts) :
    ∃ v ∈ parts.foldl addVariant found, v.Duplicates p := by
  induction parts generalizing found with
  | nil => cases hp
  | cons q parts ih =>
      obtain rfl | hp := List.mem_cons.mp hp
      · suffices h : ∃ v ∈ addVariant found p, v.Duplicates p by
          obtain ⟨v, hv, hvp⟩ := h
          exact ⟨v, subset_foldl_addVariant parts _ hv, hvp⟩
        by_cases h : ∃ v ∈ found, v.Duplicates p
        · obtain ⟨v, hv, hvp⟩ := h
          exact ⟨v, (addVariant_eq_self hv hvp).symm ▸ hv, hvp⟩
        · rw [addVariant_eq_append fun v hv hvp => h ⟨v, hv, hvp⟩]
          exact ⟨p, by simp, duplicates_refl p⟩
      · exact ih hp

theorem mem_flatMap_of_mem_distinctVariants {ts : List Ty} {s : Ty}
    (hs : s ∈ distinctVariants ts) : s ∈ ts.flatMap unionParts :=
  List.mem_flatMap.mpr (exists_of_mem_distinctVariants hs)

theorem pairwise_not_duplicates {ts : List Ty}
    (h : ts.Pairwise fun s t => s.unwrapAlias.equals t.unwrapAlias = false) :
    ts.Pairwise fun s t => ¬ s.Duplicates t :=
  h.imp fun h hdup => by simp [Duplicates, h] at hdup

/-- Distinct types with duplicates in another list are not more than the types there. -/
theorem length_le_of_duplicates {ss ts : List Ty} (hss : ss.Pairwise fun s t => ¬ s.Duplicates t)
    (huniform : Uniform (ss ++ ts)) (hcover : ∀ s ∈ ss, ∃ t ∈ ts, s.Duplicates t) :
    ss.length ≤ ts.length := by
  choose! f hf hdup using hcover
  have hnodup : (ss.map f).Nodup := by
    refine List.pairwise_map.mpr (hss.imp_of_mem fun {s s'} hs hs' hne heq => hne ?_)
    exact huniform.trans s (by simp [hs]) (f s) (by simp [hf s hs]) s' (by simp [hs'])
      (hdup s hs) (heq ▸ (hdup s' hs').symm)
  have hsub : ss.map f ⊆ ts := by simpa [List.subset_def] using hf
  simpa using (List.subperm_of_subset hnodup hsub).length_le

/-- Distinct types, each with a duplicate on the other side, are equal in pairs. -/
theorem equals_of_duplicates {ss ts : List Ty} (hss : ss.Pairwise fun s t => ¬ s.Duplicates t)
    (hts : ts.Pairwise fun s t => ¬ s.Duplicates t) (huniform : Uniform (ss ++ ts))
    (hcover : ∀ s ∈ ss, ∃ t ∈ ts, s.Duplicates t) (hcover' : ∀ t ∈ ts, ∃ s ∈ ss, t.Duplicates s) :
    ss.length = ts.length ∧ (∀ s ∈ ss, ∃ t ∈ ts, s.equals t = true) ∧
      ∀ t ∈ ts, ∃ s ∈ ss, s.equals t = true := by
  refine ⟨Nat.le_antisymm (length_le_of_duplicates hss huniform hcover)
    (length_le_of_duplicates hts huniform.swap hcover'), fun s hs => ?_, fun t ht => ?_⟩
  · obtain ⟨t, ht, hdup⟩ := hcover s hs
    exact ⟨t, ht, huniform.equals s (by simp [hs]) t (by simp [ht]) hdup⟩
  · obtain ⟨s, hs, hdup⟩ := hcover' t ht
    exact ⟨s, hs, huniform.equals s (by simp [hs]) t (by simp [ht]) hdup.symm⟩

variable {xs ys : List Ty}

theorem exists_duplicates_distinctVariants
    (huniform : Uniform (xs.flatMap unionParts ++ ys.flatMap unionParts))
    (hcover : ∀ x ∈ xs.flatMap unionParts, ∃ y ∈ ys.flatMap unionParts, x.Duplicates y) :
    ∀ s ∈ distinctVariants xs, ∃ t ∈ distinctVariants ys, s.Duplicates t := by
  intro s hs
  replace hs := mem_flatMap_of_mem_distinctVariants hs
  obtain ⟨y, hy, hsy⟩ := hcover s hs
  obtain ⟨t, ht, hty⟩ : ∃ t ∈ distinctVariants ys, t.Duplicates y := exists_duplicates_of_mem hy
  refine ⟨t, ht, huniform.trans s ?_ y ?_ t ?_ hsy hty.symm⟩ <;> rw [List.mem_append]
  · exact .inl hs
  · exact .inr hy
  · exact .inr (mem_flatMap_of_mem_distinctVariants ht)

/-- Types with the same variants up to duplicates have equal unions, if duplicates among the
variants can stand for each other. -/
theorem equals_unionOf (huniform : Uniform (xs.flatMap unionParts ++ ys.flatMap unionParts))
    (hxs : ∀ x ∈ xs.flatMap unionParts, ∃ y ∈ ys.flatMap unionParts, x.Duplicates y)
    (hys : ∀ y ∈ ys.flatMap unionParts, ∃ x ∈ xs.flatMap unionParts, y.Duplicates x) :
    (unionOf xs).equals (unionOf ys) = true := by
  have hvariants : Uniform (distinctVariants xs ++ distinctVariants ys) :=
    huniform.subset fun t ht => (List.mem_append.mp ht).elim
      (fun h => List.mem_append_left _ (mem_flatMap_of_mem_distinctVariants h))
      (fun h => List.mem_append_right _ (mem_flatMap_of_mem_distinctVariants h))
  obtain ⟨hlength, hequal, hequal'⟩ := equals_of_duplicates
    (pairwise_not_duplicates (pairwise_distinctVariants xs))
    (pairwise_not_duplicates (pairwise_distinctVariants ys)) hvariants
    (exists_duplicates_distinctVariants huniform hxs)
    (exists_duplicates_distinctVariants huniform.swap hys)
  unfold unionOf
  match hs : distinctVariants xs, ht : distinctVariants ys with
  | [], [] => exact equals_refl _
  | [s], [t] => simpa [hs, ht] using hequal
  | s :: s' :: ss, t :: t' :: ts =>
      rw [hs, ht] at hlength hequal hequal'
      exact equals_union.mpr ⟨_, rfl, hlength, hequal, hequal'⟩
  | [], _ :: _ | [_], [] | [_], _ :: _ :: _ | _ :: _ :: _, [] | _ :: _ :: _, [_] =>
      simp [hs, ht] at hlength

/-! ### Types without aliases -/

namespace AliasFree

variable {s t : Ty}

theorem unwrapAlias_eq (h : t.AliasFree) : t.unwrapAlias = t := by
  unfold unwrapAlias
  split
  · cases h.isAlias
  · cases (h.of_mem List.mem_cons_self).isAlias
  · cases (h.of_mem List.mem_cons_self).isAlias
  · rfl

theorem duplicates_iff (hs : s.AliasFree) (ht : t.AliasFree) :
    s.Duplicates t ↔ s.equals t = true := by
  rw [Duplicates, hs.unwrapAlias_eq, ht.unwrapAlias_eq]

theorem baseType (h : t.AliasFree) : t.baseType.AliasFree := by
  fun_induction Ty.baseType t with
  | case1 n inner ih => exact ih (h.of_mem List.mem_cons_self)
  | case2 inner args ih => exact ih (h.of_mem List.mem_cons_self)
  | case3 t => exact h

theorem unionParts (h : t.AliasFree) : ∀ v ∈ t.unionParts, v.AliasFree := by
  have hbase := h.baseType
  unfold Ty.unionParts
  split
  · rename_i variants heq
    rw [heq] at hbase
    exact fun v hv => hbase.of_mem hv
  · simpa using h

theorem flatMap_unionParts {ts : List Ty} (h : ∀ t ∈ ts, t.AliasFree) :
    ∀ v ∈ ts.flatMap Ty.unionParts, v.AliasFree := by
  intro v hv
  obtain ⟨t, ht, hvt⟩ := List.mem_flatMap.mp hv
  exact (h t ht).unionParts v hvt

theorem uniform {ts : List Ty} (h : ∀ t ∈ ts, t.AliasFree) : Uniform ts where
  equals s hs t ht hst := ((h s hs).duplicates_iff (h t ht)).mp hst
  trans s hs t ht u hu hst htu := by
    rw [(h s hs).duplicates_iff (h t ht)] at hst
    rw [(h t ht).duplicates_iff (h u hu)] at htu
    exact ((h s hs).duplicates_iff (h u hu)).mpr ((h s hs).equals_trans hst htu)

end AliasFree

/-- No type equals all variants of a union in normal form. -/
theorem NormalVariants.exists_not_equals {variants : List Ty} (h : NormalVariants variants)
    (hfree : ∀ v ∈ variants, v.AliasFree) (t : Ty) : ∃ v ∈ variants, t.equals v = false := by
  match variants, h.several, h.distinct with
  | a :: b :: rest, _, hdistinct =>
      have hab : a.unwrapAlias.equals b.unwrapAlias = false :=
        List.rel_of_pairwise_cons hdistinct List.mem_cons_self
      have ha : a.AliasFree := hfree a (by simp)
      have hb : b.AliasFree := hfree b (by simp)
      rw [ha.unwrapAlias_eq, hb.unwrapAlias_eq] at hab
      by_contra hall
      simp only [not_exists, not_and, Bool.not_eq_false] at hall
      rw [ha.equals_trans (equals_symm (hall a (by simp))) (hall b (by simp))] at hab
      cases hab

/-- A type that adds no more than one variant to a union is that variant. -/
theorem equals_of_unionParts {t v : Ty} (hfree : t.AliasFree) (hwf : t.WellFormed)
    (hall : ∀ p ∈ t.unionParts, v.equals p = true) : v.equals t = true := by
  by_cases hunion : ∃ variants, t.baseType = .union variants
  · obtain ⟨variants, hvariants⟩ := hunion
    have hnormal := (wellFormed_union.mp (hvariants ▸ hereditary_wellFormed.baseType hwf)).1
    have hparts : t.unionParts = variants := by rw [unionParts, hvariants]
    obtain ⟨p, hp, hvp⟩ :=
      hnormal.exists_not_equals (fun p hp => hfree.unionParts p (hparts ▸ hp)) v
    rw [hall p (hparts ▸ hp)] at hvp
    cases hvp
  · exact hall t (by simp [unionParts_eq_self fun variants heq => hunion ⟨variants, heq⟩])

/-! ### Unions of unions -/

/-- Duplicates may be left out before the variants are added to others: what is left out for an
earlier variant is left out again for whatever that one becomes. -/
theorem foldl_addVariant_foldl {parts : List Ty} (hparts : ∀ p ∈ parts, p.AliasFree)
    (acc found : List Ty) :
    (parts.foldl addVariant acc).foldl addVariant found =
      (acc ++ parts).foldl addVariant found := by
  induction parts generalizing acc with
  | nil => simp
  | cons p parts ih =>
      obtain ⟨hp, hparts⟩ := List.forall_mem_cons.mp hparts
      rw [List.foldl_cons, ih hparts]
      by_cases h : ∃ s ∈ acc, s.Duplicates p
      · obtain ⟨s, hs, hsp⟩ := h
        obtain ⟨v, hv, hvs⟩ : ∃ v ∈ acc.foldl addVariant found, v.Duplicates s :=
          exists_duplicates_of_mem hs
        have hvp : v.Duplicates p := by
          rw [Duplicates, hp.unwrapAlias_eq] at hsp ⊢
          exact equals_symm (hp.equals_trans (equals_symm hsp) hvs.symm)
        rw [addVariant_eq_self hs hsp, List.foldl_append, List.foldl_append, List.foldl_cons,
          addVariant_eq_self hv hvp]
      · rw [addVariant_eq_append fun v hv hvp => h ⟨v, hv, hvp⟩, List.append_assoc,
          List.singleton_append]

theorem WellFormed.unionParts_ne_nil {t : Ty} (ht : t.WellFormed) : t.unionParts ≠ [] := by
  have hbase := hereditary_wellFormed.baseType ht
  unfold unionParts
  split
  · rename_i variants heq
    rw [heq] at hbase
    have hseveral := (wellFormed_union.mp hbase).1.several
    rintro rfl
    simp at hseveral
  · simp

/-- The variants that a union of well-formed types adds to another are its own. -/
theorem unionParts_unionOf {ts : List Ty} (hts : ∀ t ∈ ts, t.WellFormed) (hne : ts ≠ []) :
    (unionOf ts).unionParts = distinctVariants ts := by
  obtain ⟨t, ht⟩ := List.exists_mem_of_ne_nil ts hne
  obtain ⟨p, hp⟩ := List.exists_mem_of_ne_nil _ (hts t ht).unionParts_ne_nil
  obtain ⟨v, hv, -⟩ : ∃ v ∈ distinctVariants ts, v.Duplicates p :=
    exists_duplicates_of_mem (List.mem_flatMap.mpr ⟨t, ht, hp⟩)
  unfold unionOf
  split
  · rename_i hnil
    rw [hnil] at hv
    cases hv
  · rename_i s hone
    obtain ⟨u, hu, hs⟩ := exists_of_mem_distinctVariants (hone ▸ List.mem_singleton_self s)
    have hflat := (hts u hu).flat_of_mem_unionParts s hs
    rw [hone, unionParts]
    split
    · rename_i variants heq
      exact (hflat variants heq).elim
    · rfl
  · rfl

theorem distinctVariants_map_unionOf {tss : List (List Ty)}
    (htss : ∀ ts ∈ tss, ts ≠ [] ∧ ∀ t ∈ ts, t.AliasFree ∧ t.WellFormed) :
    distinctVariants (tss.map unionOf) = distinctVariants tss.flatten := by
  -- Adding the variants list by list, to whatever has been found so far.
  suffices h : ∀ found : List Ty, ((tss.map unionOf).flatMap unionParts).foldl addVariant found =
      (tss.flatten.flatMap unionParts).foldl addVariant found from h []
  induction tss with
  | nil => exact fun _ => rfl
  | cons ts tss ih =>
      obtain ⟨⟨hne, hts⟩, htss⟩ := List.forall_mem_cons.mp htss
      intro found
      have hfree := AliasFree.flatMap_unionParts fun t ht => (hts t ht).1
      rw [List.map_cons, List.flatMap_cons, unionParts_unionOf (fun t ht => (hts t ht).2) hne,
        List.flatten_cons, List.flatMap_append, List.foldl_append, List.foldl_append, ih htss,
        distinctVariants, foldl_addVariant_foldl hfree, List.nil_append]

/-- The order of alias-free types does not matter for their union, nor does it matter which of
them are made unions first: then even the variants come in the same order. -/
theorem unionOf_order_grouping {xs ys : List Ty} (hxs : ∀ t ∈ xs, t.AliasFree)
    (hperm : xs.Perm ys) {tss : List (List Ty)}
    (htss : ∀ ts ∈ tss, ts ≠ [] ∧ ∀ t ∈ ts, t.AliasFree ∧ t.WellFormed) :
    (unionOf xs).equals (unionOf ys) = true ∧ unionOf (tss.map unionOf) = unionOf tss.flatten := by
  have hparts : (xs.flatMap unionParts).Perm (ys.flatMap unionParts) := hperm.flatMap_right _
  constructor
  · refine equals_unionOf (AliasFree.uniform (List.forall_mem_append.mpr
      ⟨AliasFree.flatMap_unionParts hxs, AliasFree.flatMap_unionParts fun t ht =>
        hxs t (hperm.mem_iff.mpr ht)⟩)) ?_ ?_
    · exact fun x hx => ⟨x, hparts.mem_iff.mp hx, duplicates_refl x⟩
    · exact fun y hy => ⟨y, hparts.mem_iff.mpr hy, duplicates_refl y⟩
  · rw [unionOf, unionOf, distinctVariants_map_unionOf htss]

/-- A type and an option that has it, in two orders, and two unions that have a type in common. -/
theorem unionOf_order_grouping_options :
    (∀ t ∈ [int, .union [.bool, .int], .null], t.AliasFree) ∧
      [int, .union [.bool, .int], .null].Perm [.null, .union [.bool, .int], .int] ∧
      (∀ ts ∈ [[int, .bool], [.bool, .null]], ts ≠ [] ∧ ∀ t ∈ ts, t.AliasFree ∧ t.WellFormed) ∧
      (unionOf [int, .union [.bool, .int], .null]).equals
        (unionOf [.null, .union [.bool, .int], .int]) = true ∧
      unionOf ([[int, .bool], [.bool, .null]].map unionOf) =
        unionOf [[int, .bool], [.bool, .null]].flatten := by
  have hint : int.AliasFree := .of_isPrimitive rfl
  have hbool : bool.AliasFree := .of_isPrimitive rfl
  have hnull : null.AliasFree := .of_isPrimitive rfl
  have hunion : (union [.bool, .int]).AliasFree :=
    .intro rfl (by simpa [parts] using ⟨hbool, hint⟩)
  have hxs : ∀ t ∈ [int, .union [.bool, .int], .null], t.AliasFree := by
    simpa using ⟨hint, hunion, hnull⟩
  have hperm : [int, .union [.bool, .int], .null].Perm [.null, .union [.bool, .int], .int] :=
    (List.reverse_perm _).symm
  have htss : ∀ ts ∈ [[int, .bool], [.bool, .null]],
      ts ≠ [] ∧ ∀ t ∈ ts, t.AliasFree ∧ t.WellFormed := by
    simpa [WellFormed] using ⟨⟨hint, hbool⟩, hbool, hnull⟩
  exact ⟨hxs, hperm, htss, unionOf_order_grouping hxs hperm htss⟩

end Ty

end TolkAnalysis
