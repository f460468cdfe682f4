import TolkAnalysis.Proofs.Ty.Assignable
import TolkAnalysis.Proofs.Ty.Grouping

/-!
# Joins in either order

`Ty.join` looks at its sides in turn, so swapping them may change what it makes of them. The rules
of the first section say what it does with each form. A join comes to a pair of types
(`Ty.Meets`) if it is the pair itself or stands at one position of two tensors or tuples. Where no
pair that it comes to is unbalanced, the two joins are equal: `Ty.join_swap`. A pair may be
unbalanced in four ways, each of which `Ty.Balanced` rules out: `unknown` wins from the right only,
null leaves an alias of `never` nullable, one of two aliases that cross has to be chosen, and the
variants of a union may be spelled through different aliases. Three of them need an alias, so
without aliases `unknown` alone is in the way: `Ty.AliasFree.join_swap`.
-/

namespace TolkAnalysis

namespace Ty

/-! ### The rules for joins -/

section Rules

variable {s t : Ty} {n : Nominal}

theorem join_of_equals (h : s.equals t = true) : join s t = s := by
  rw [join.eq_def, if_pos h]

theorem join_unknown_right (h : s.equals .unknown = false) : join s .unknown = .unknown := by
  rw [join.eq_def, if_neg (by simp [h])]

theorem join_never_right (s : Ty) : join s .never = s := by
  rw [join.eq_def]
  split <;> rfl

theorem join_never_left (h : never.equals t = false) : join .never t = t := by
  rw [join.eq_def, if_neg (by simp [h])]
  split <;> first | rfl | simp_all

theorem join_null_right (h : s.equals .null = false) (hs : s ≠ .never) :
    join s .null = nullable s := by
  rw [join.eq_def, if_neg (by simp [h])]
  split <;> first | rfl | simp_all

theorem join_alias_left (h : (Ty.alias n s).equals t = false) (hunknown : t ≠ .unknown)
    (hnever : t ≠ .never) (hnull : t ≠ .null) : join (.alias n s) t = join s t := by
  rw [join.eq_def, if_neg (by simp [h])]
  split <;> simp_all

theorem join_alias_right (h : s.equals (.alias n t) = false) (hs : s.isAlias = false)
    (hnever : s ≠ .never) : join s (.alias n t) = join s t := by
  rw [join.eq_def, if_neg (by simp [h])]
  split <;> simp_all [isAlias]

/-- Two tensors, or two tuples, with equally many elements. -/
inductive InStep : Ty → Ty → List Ty → List Ty → Prop
  | tensor {ss ts : List Ty} : ss.length = ts.length → InStep (.tensor ss) (.tensor ts) ss ts
  | tuple {ss ts : List Ty} : ss.length = ts.length → InStep (.tuple ss) (.tuple ts) ss ts

theorem join_eq_unionOf (h : s.equals t = false) (hs : s.isAlias = false) (ht : t.isAlias = false)
    (hsnever : s ≠ .never) (htnever : t ≠ .never) (hunknown : t ≠ .unknown)
    (hstep : ∀ ss ts, ¬ InStep s t ss ts) : join s t = unionOf [s, t] := by
  rw [join.eq_def, if_neg (by simp [h])]
  split
  · exact (hunknown rfl).elim
  · exact (htnever rfl).elim
  · exact (hsnever rfl).elim
  · rfl
  · exact if_neg fun hlength => hstep _ _ (.tensor hlength)
  · exact if_neg fun hlength => hstep _ _ (.tuple hlength)
  · cases hs
  · cases ht
  · rfl

theorem join_tensor {ss ts : List Ty} (h : (tensor ss).equals (.tensor ts) = false)
    (hlength : ss.length = ts.length) :
    join (.tensor ss) (.tensor ts) = .tensor (joinAll ss ts) := by
  rw [join.eq_def, if_neg (by simp [h])]
  exact if_pos hlength

theorem join_tuple {ss ts : List Ty} (h : (tuple ss).equals (.tuple ts) = false)
    (hlength : ss.length = ts.length) :
    join (.tuple ss) (.tuple ts) = .tuple (joinAll ss ts) := by
  rw [join.eq_def, if_neg (by simp [h])]
  exact if_pos hlength

theorem joinAll_eq_zipWith (ss ts : List Ty) : joinAll ss ts = List.zipWith join ss ts := by
  induction ss generalizing ts with
  | nil => cases ts <;> simp [joinAll]
  | cons s ss ih => cases ts <;> simp [joinAll, ih]

end Rules

namespace InStep

variable {s t : Ty} {ss ts : List Ty}

theorem symm (h : InStep s t ss ts) : InStep t s ts ss := by
  cases h with
  | tensor h => exact .tensor h.symm
  | tuple h => exact .tuple h.symm

theorem length_eq (h : InStep s t ss ts) : ss.length = ts.length := by
  cases h <;> assumption

theorem right_ne_null (h : InStep s t ss ts) : t ≠ .null := by
  cases h <;> nofun

theorem sizeOf_lt (h : InStep s t ss ts) : sizeOf ss < sizeOf s := by
  cases h with
  | tensor => simp only [tensor.sizeOf_spec]; omega
  | tuple => simp only [tuple.sizeOf_spec]; omega

end InStep

/-! ### Pairs that a join comes to -/

/-- The names of the aliases around a type, from the outside. -/
def aliasNames : Ty → List String
  | .alias n t => n.name :: t.aliasNames
  | _ => []

/-- The types are two aliases, and each stands for an alias with the name of the other. -/
def Crossed : Ty → Ty → Prop
  | .alias n s, .alias m t => m.name ∈ s.aliasNames ∧ n.name ∈ t.aliasNames
  | _, _ => False

theorem not_crossed {s t : Ty} (hs : s.isAlias = false) : ¬ Crossed s t := by
  cases s <;> first | cases hs; done | simp [Crossed]

/-- The join of `s` and `t` comes to the join of `u` and `v`, which differ. -/
inductive Meets : Ty → Ty → Ty → Ty → Prop
  | here {s t : Ty} : s.equals t = false → Meets s t s t
  | within {s t a b u v : Ty} {ss ts : List Ty} :
      s.stripAliases.equals t.stripAliases = false →
      InStep s.stripAliases t.stripAliases ss ts → (a, b) ∈ ss.zip ts → Meets a b u v →
      Meets s t u v

/-- It makes no difference whether `u` stands on the left of `v` or on the right. -/
structure Balanced (u v : Ty) : Prop where
  /-- `unknown` stands beside `never` only. -/
  known : u.stripAliases = .unknown → v.stripAliases = .never
  /-- No alias of `never` stands beside null. -/
  never : v = .null → u.stripAliases = .never → u = .never
  uncrossed : ¬ Crossed u v
  /-- If a union is made of the two, then duplicates among its variants can stand for each other. -/
  uniform : (∀ ss ts, ¬ InStep u.stripAliases v.stripAliases ss ts) →
    Uniform (u.stripAliases.unionParts ++ v.stripAliases.unionParts)

/-- With no alias below the outermost ones, only `unknown`, `never` and crossed aliases count. -/
theorem Balanced.of_aliasFree {u v : Ty} (hu : u.stripAliases.AliasFree)
    (hv : v.stripAliases.AliasFree) (hknown : u.stripAliases ≠ .unknown)
    (hnever : u.stripAliases = .never → u = .never) (huncrossed : ¬ Crossed u v) :
    Balanced u v where
  known h := (hknown h).elim
  never _ := hnever
  uncrossed := huncrossed
  uniform _ := AliasFree.uniform (List.forall_mem_append.mpr ⟨hu.unionParts, hv.unionParts⟩)

/-! ### Types that are equal behind their aliases -/

theorem ne_of_stripAliases_ne {s t : Ty} (ht : t.isAlias = false) (h : s.stripAliases ≠ t) :
    s ≠ t := by
  rintro rfl
  exact h (stripAliases_eq_self ht)

theorem primitive_equals_eq_false {s t : Ty} (hs : s.isPrimitive = true)
    (h : t.stripAliases ≠ s) : s.equals t = false := by
  rwa [← Bool.not_eq_true, equals_primitive hs]

theorem equals_eq_false {s t : Ty} (h : s.stripAliases.equals t.stripAliases = false) :
    s.equals t = false := by
  rw [← Bool.not_eq_true] at h ⊢
  exact fun heq => h (equals_stripAliases heq)

/-- Only two aliases can differ and be equal behind their aliases. -/
theorem isAlias_of_equals_stripAliases {s t : Ty}
    (h : s.stripAliases.equals t.stripAliases = true) (hne : s.equals t = false) :
    s.isAlias = true ∧ t.isAlias = true := by
  constructor
  · by_contra hs
    rw [Bool.not_eq_true] at hs
    rw [stripAliases_eq_self hs, equals_stripAliases_right hs, hne] at h
    cases h
  · by_contra ht
    rw [Bool.not_eq_true] at ht
    rw [stripAliases_eq_self ht, equals_stripAliases_left ht, hne] at h
    cases h

/-- The second type is left of the first once some of the aliases around it are off. -/
inductive Unwraps : Ty → Ty → Prop
  | refl (t : Ty) : Unwraps t t
  | step {n : Nominal} {t u : Ty} : Unwraps t u → Unwraps (.alias n t) u

theorem Unwraps.stripAliases_eq {s t : Ty} (h : Unwraps s t) : t.stripAliases = s.stripAliases := by
  induction h with
  | refl => rfl
  | step _ ih => exact ih

theorem Unwraps.name_mem {s t : Ty} {n : Nominal} (h : Unwraps s (.alias n t)) :
    n.name ∈ s.aliasNames := by
  generalize hu : Ty.alias n t = u at h
  induction h with
  | refl u => exact hu ▸ List.mem_cons_self
  | step _ ih => exact List.mem_cons_of_mem _ (ih hu)

/-- The join of types that are equal behind their aliases is the left one, from the first alias
on that equals the right one. -/
theorem unwraps_join {s t : Ty} (h : s.stripAliases.equals t.stripAliases = true) :
    Unwraps s (join s t) ∧ (join s t).equals t = true := by
  cases heq : s.equals t with
  | true =>
      rw [join_of_equals heq]
      exact ⟨.refl _, heq⟩
  | false =>
      obtain ⟨hs, ht⟩ := isAlias_of_equals_stripAliases h heq
      obtain ⟨n, s, rfl⟩ := exists_of_isAlias hs
      obtain ⟨m, t, rfl⟩ := exists_of_isAlias ht
      rw [join_alias_left heq nofun nofun nofun]
      have ih := unwraps_join (s := s) h
      exact ⟨.step ih.1, ih.2⟩
termination_by s

theorem join_swap_of_equals_stripAliases {s t : Ty}
    (h : s.stripAliases.equals t.stripAliases = true) (hcrossed : ¬ Crossed s t) :
    (join s t).equals (join t s) = true := by
  obtain ⟨hleft, hleft'⟩ := unwraps_join h
  obtain ⟨hright, hright'⟩ := unwraps_join (equals_symm h)
  cases heq : s.equals t with
  | true => rwa [join_of_equals heq, join_of_equals (equals_symm heq)]
  | false =>
      generalize join s t = u, join t s = v at *
      cases hu : u.isAlias with
      | false =>
          rw [← equals_stripAliases_right hu] at hleft' ⊢
          rwa [hright.stripAliases_eq]
      | true =>
          cases hv : v.isAlias with
          | false =>
              rw [← equals_stripAliases_right hv] at hright'
              rw [← equals_stripAliases_left hv, hleft.stripAliases_eq]
              exact equals_symm hright'
          | true =>
              -- Each of the two has the name of an alias around the other type.
              obtain ⟨k, u, rfl⟩ := exists_of_isAlias hu
              obtain ⟨l, v, rfl⟩ := exists_of_isAlias hv
              obtain ⟨hs, ht⟩ := isAlias_of_equals_stripAliases h heq
              obtain ⟨n, s, rfl⟩ := exists_of_isAlias hs
              obtain ⟨m, t, rfl⟩ := exists_of_isAlias ht
              have hk : k.name = m.name := (equals_alias_alias.mp hleft').1
              have hl : l.name = n.name := (equals_alias_alias.mp hright').1
              refine (hcrossed ⟨?_, ?_⟩).elim
              · cases hleft with
                | refl => rw [hleft'] at heq; cases heq
                | step hleft => exact hk ▸ hleft.name_mem
              · cases hright with
                | refl => rw [equals_symm hright'] at heq; cases heq
                | step hright => exact hl ▸ hright.name_mem

/-! ### Types that differ behind their aliases -/

section Distinct

variable {s t : Ty} {ss ts : List Ty}

theorem join_stripAliases_left (h : s.stripAliases.equals t.stripAliases = false)
    (hunknown : t ≠ .unknown) (hnever : t ≠ .never) (hnull : t ≠ .null) :
    join s t = join s.stripAliases t := by
  fun_induction stripAliases s with
  | case1 n s ih => exact (join_alias_left (equals_eq_false h) hunknown hnever hnull).trans (ih h)
  | case2 s => rfl

theorem join_stripAliases_right (h : s.stripAliases.equals t.stripAliases = false)
    (hs : s.isAlias = false) (hnever : s ≠ .never) : join s t = join s t.stripAliases := by
  fun_induction stripAliases t with
  | case1 n t ih => exact (join_alias_right (equals_eq_false h) hs hnever).trans (ih h)
  | case2 t => rfl

theorem join_stripAliases (h : s.stripAliases.equals t.stripAliases = false)
    (hs : s.stripAliases ≠ .never) (hunknown : t ≠ .unknown) (hnever : t ≠ .never)
    (hnull : t ≠ .null) : join s t = join s.stripAliases t.stripAliases := by
  rw [join_stripAliases_left h hunknown hnever hnull]
  exact join_stripAliases_right (by rwa [stripAliases_stripAliases]) (isAlias_stripAliases s) hs

/-- `never` gives way to any type that differs from it, whatever aliases stand around it. -/
theorem join_swap_of_never (hs : s.stripAliases = .never) (ht : t.stripAliases ≠ .never)
    (hnull : t = .null → s = .never) : (join s t).equals (join t s) = true := by
  have hdistinct : t.stripAliases.equals s.stripAliases = false := by
    rw [hs, equals_comm]
    exact primitive_equals_eq_false rfl (by rwa [stripAliases_stripAliases])
  have hdistinct' : s.stripAliases.equals t.stripAliases = false :=
    (equals_comm _ _).trans hdistinct
  by_cases hnever : s = .never
  · subst hnever
    rw [join_never_right, join_never_left (equals_eq_false hdistinct')]
    exact equals_refl t
  have hleft : join s t = t := by
    by_cases hunknown : t = .unknown
    · subst hunknown
      exact join_unknown_right (equals_eq_false hdistinct')
    · rw [join_stripAliases_left hdistinct' hunknown (by rintro rfl; exact ht rfl)
        fun h => hnever (hnull h), hs, join_never_left]
      rwa [hs, equals_stripAliases_right rfl] at hdistinct'
  have hright : join t s = t.stripAliases := by
    rw [join_stripAliases hdistinct ht (by rintro rfl; cases hs) hnever
      (by rintro rfl; cases hs), hs, join_never_right]
  rw [hleft, hright]
  exact equals_symm (stripAliases_equals (equals_refl t))

theorem unionOf_swap (h : Uniform (s.unionParts ++ t.unionParts)) :
    (unionOf [s, t]).equals (unionOf [t, s]) = true := by
  have hparts : ∀ u, u ∈ [s, t].flatMap unionParts ↔ u ∈ [t, s].flatMap unionParts := by
    simp [or_comm]
  refine equals_unionOf (h.subset fun u hu => ?_)
    (fun u hu => ⟨u, (hparts u).mp hu, duplicates_refl u⟩)
    (fun u hu => ⟨u, (hparts u).mpr hu, duplicates_refl u⟩)
  rw [List.mem_append, ← hparts, or_self] at hu
  simpa using hu

theorem unionOf_pair (hs : s.unionParts = [s]) (ht : t.unionParts = [t]) (h : ¬ s.Duplicates t) :
    unionOf [s, t] = .union [s, t] := by
  have hlast : addVariant [s] t = [s, t] := addVariant_eq_append (by simpa using h)
  have hvariants : distinctVariants [s, t] = [s, t] := by
    rw [distinctVariants, List.flatMap_cons, List.flatMap_cons, hs, ht]
    exact hlast
  rw [unionOf, hvariants]

/-- Aliases may stay around a type that is made nullable. -/
theorem nullable_equals (hs : s.stripAliases.equals .null = false)
    (huniform : Uniform (s.stripAliases.unionParts ++ [.null])) :
    (nullable s).equals (unionOf [.null, s.stripAliases]) = true := by
  by_cases hunion : ∃ variants, s.baseType = .union variants
  · obtain ⟨variants, hvariants⟩ := hunion
    have hparts : s.unionParts = s.stripAliases.unionParts := by
      rw [unionParts, unionParts, baseType_stripAliases, hvariants]
    have hnullable : nullable s = nullable s.stripAliases := by
      simp only [nullable, unionOf, distinctVariants, List.flatMap_cons, hparts]
    rw [hnullable]
    exact unionOf_swap huniform
  · have hflat : ∀ variants, s.baseType ≠ .union variants :=
      fun variants heq => hunion ⟨variants, heq⟩
    have hparts : s.unionParts = [s] := unionParts_eq_self hflat
    have hparts' : s.stripAliases.unionParts = [s.stripAliases] :=
      unionParts_eq_self (baseType_stripAliases s ▸ hflat)
    have hdup : ¬ s.stripAliases.Duplicates .null := by
      intro h
      rw [huniform.equals _ (by simp [hparts']) _ (by simp) h] at hs
      cases hs
    have hdup' : ¬ s.Duplicates .null := by
      rwa [Duplicates, ← unwrapAlias_stripAliases]
    rw [nullable, unionOf_pair hparts rfl hdup', unionOf_pair rfl hparts' fun h => hdup h.symm]
    refine equals_union.mpr ⟨_, rfl, rfl, ?_, ?_⟩
    · simpa using ⟨.inr (equals_stripAliases_self s), .inl (equals_refl null)⟩
    · simpa using ⟨.inr (equals_refl null), .inl (equals_stripAliases_self s)⟩

/-- One of the types is null behind its aliases, and the other is neither that nor `never` nor
`unknown`. -/
theorem join_swap_of_null (ht : t.stripAliases = .null) (hs : s.stripAliases ≠ .null)
    (hunknown : s.stripAliases ≠ .unknown) (hnever : s.stripAliases ≠ .never)
    (huniform : Uniform (s.stripAliases.unionParts ++ t.stripAliases.unionParts)) :
    (join s t).equals (join t s) = true := by
  replace huniform : Uniform (s.stripAliases.unionParts ++ [.null]) := by rwa [ht] at huniform
  have hnull : s.stripAliases.equals .null = false := by
    rw [equals_comm]
    exact primitive_equals_eq_false rfl (by rwa [stripAliases_stripAliases])
  have hright : join t s = unionOf [.null, s.stripAliases] := by
    rw [join_stripAliases (by rw [ht, equals_comm, hnull]) (by rw [ht]; nofun)
      (ne_of_stripAliases_ne rfl hunknown) (ne_of_stripAliases_ne rfl hnever)
      (ne_of_stripAliases_ne rfl hs), ht]
    exact join_eq_unionOf (by rw [equals_comm, hnull]) rfl (isAlias_stripAliases s) nofun hnever
      hunknown nofun
  rw [hright]
  by_cases hplain : t = .null
  · subst hplain
    rw [join_null_right (equals_eq_false hnull) (ne_of_stripAliases_ne rfl hnever)]
    exact nullable_equals hnull huniform
  · have hleft : join s t = nullable s.stripAliases := by
      rw [join_stripAliases (by rw [ht, hnull]) hnever (by rintro rfl; cases ht)
        (by rintro rfl; cases ht) hplain, ht, join_null_right hnull hnever]
    rw [hleft]
    exact unionOf_swap huniform

theorem join_swap_of_inStep (h : InStep s t ss ts) (hne : s.equals t = false)
    (hjoins : List.Forall₂ (fun u v => u.equals v = true) (joinAll ss ts) (joinAll ts ss)) :
    (join s t).equals (join t s) = true := by
  cases h with
  | tensor hlength =>
      rw [join_tensor hne hlength, join_tensor ((equals_comm _ _).trans hne) hlength.symm]
      exact equals_tensor.mpr ⟨_, rfl, hjoins⟩
  | tuple hlength =>
      rw [join_tuple hne hlength, join_tuple ((equals_comm _ _).trans hne) hlength.symm]
      exact equals_tuple.mpr ⟨_, rfl, hjoins⟩

theorem forall₂_joinAll (hlength : ss.length = ts.length)
    (h : ∀ a b, (a, b) ∈ ss.zip ts → (join a b).equals (join b a) = true) :
    List.Forall₂ (fun u v => u.equals v = true) (joinAll ss ts) (joinAll ts ss) := by
  induction ss generalizing ts with
  | nil => cases ts <;> simp_all [joinAll]
  | cons a ss ih =>
      cases ts with
      | nil => cases hlength
      | cons b ts =>
          rw [joinAll, joinAll]
          refine .cons (h a b (by simp)) (ih (Nat.succ.inj hlength) fun c d hmem => h c d ?_)
          exact List.mem_cons_of_mem _ hmem

end Distinct

/-! ### Swapping the sides of a join -/

theorem join_swap {s t : Ty} (h : ∀ u v, Meets s t u v → Balanced u v ∧ Balanced v u) :
    (join s t).equals (join t s) = true := by
  cases heq : s.equals t with
  | true => rwa [join_of_equals heq, join_of_equals (equals_symm heq)]
  | false =>
    obtain ⟨hst, hts⟩ := h s t (.here heq)
    cases hdistinct : s.stripAliases.equals t.stripAliases with
    | true => exact join_swap_of_equals_stripAliases hdistinct hst.uncrossed
    | false =>
      have hdistinct' : t.stripAliases.equals s.stripAliases = false :=
        (equals_comm _ _).trans hdistinct
      by_cases hsnever : s.stripAliases = .never
      · refine join_swap_of_never hsnever (fun htnever => ?_) fun hnull => hst.never hnull hsnever
        rw [hsnever, htnever, equals_refl] at hdistinct
        cases hdistinct
      by_cases htnever : t.stripAliases = .never
      · exact equals_symm (join_swap_of_never htnever hsnever fun hnull => hts.never hnull htnever)
      have hsunknown : s.stripAliases ≠ .unknown := fun hs => htnever (hst.known hs)
      have htunknown : t.stripAliases ≠ .unknown := fun ht => hsnever (hts.known ht)
      by_cases htnull : t.stripAliases = .null
      · refine join_swap_of_null htnull (fun hsnull => ?_) hsunknown hsnever
          (hst.uniform fun _ _ hstep => hstep.right_ne_null htnull)
        rw [hsnull, htnull, equals_refl] at hdistinct
        cases hdistinct
      by_cases hsnull : s.stripAliases = .null
      · exact equals_symm (join_swap_of_null hsnull htnull htunknown htnever
          (hts.uniform fun _ _ hstep => hstep.right_ne_null hsnull))
      rw [join_stripAliases hdistinct hsnever (ne_of_stripAliases_ne rfl htunknown)
        (ne_of_stripAliases_ne rfl htnever) (ne_of_stripAliases_ne rfl htnull),
        join_stripAliases hdistinct' htnever (ne_of_stripAliases_ne rfl hsunknown)
        (ne_of_stripAliases_ne rfl hsnever) (ne_of_stripAliases_ne rfl hsnull)]
      by_cases hstep : ∃ ss ts, InStep s.stripAliases t.stripAliases ss ts
      · obtain ⟨ss, ts, hstep⟩ := hstep
        refine join_swap_of_inStep hstep hdistinct
          (forall₂_joinAll hstep.length_eq fun a b hmem => ?_)
        exact join_swap fun u v huv => h u v (.within hdistinct hstep hmem huv)
      · have hstep' : ∀ ss ts, ¬ InStep s.stripAliases t.stripAliases ss ts :=
          fun ss ts h => hstep ⟨ss, ts, h⟩
        rw [join_eq_unionOf hdistinct (isAlias_stripAliases s) (isAlias_stripAliases t) hsnever
          htnever htunknown hstep', join_eq_unionOf hdistinct' (isAlias_stripAliases t)
          (isAlias_stripAliases s) htnever hsnever hsunknown fun ss ts h => hstep' ts ss h.symm]
        exact unionOf_swap (hst.uniform hstep')
termination_by sizeOf s
decreasing_by
  have := List.sizeOf_lt_of_mem (List.of_mem_zip hmem).1
  have := hstep.sizeOf_lt
  have := sizeOf_stripAliases_le s
  omega

theorem InStep.mem_parts {s t a b : Ty} {ss ts : List Ty} (h : InStep s t ss ts)
    (hmem : (a, b) ∈ ss.zip ts) : a ∈ s.parts ∧ b ∈ t.parts := by
  cases h <;> exact List.of_mem_zip hmem

/-- Without aliases it is enough that `unknown` occurs nowhere. -/
theorem AliasFree.join_swap {s t : Ty} (hs : s.AliasFree) (ht : t.AliasFree)
    (hs' : s.Everywhere (· ≠ .unknown)) (ht' : t.Everywhere (· ≠ .unknown)) :
    (join s t).equals (join t s) = true := by
  have balanced {u v : Ty} (hu : u.AliasFree) (hv : v.AliasFree)
      (hu' : u.Everywhere (· ≠ .unknown)) : Balanced u v := by
    have hstrip := stripAliases_eq_self hu.isAlias
    exact .of_aliasFree (hstrip.symm ▸ hu) ((stripAliases_eq_self hv.isAlias).symm ▸ hv)
      (hstrip.symm ▸ hu'.here) (fun h => hstrip.symm.trans h) (not_crossed hu.isAlias)
  refine Ty.join_swap fun u v h => ?_
  induction h with
  | here => exact ⟨balanced hs ht hs', balanced ht hs ht'⟩
  | within _ hstep hmem _ ih =>
      rw [stripAliases_eq_self hs.isAlias, stripAliases_eq_self ht.isAlias] at hstep
      obtain ⟨ha, hb⟩ := hstep.mem_parts hmem
      exact ih (hs.of_mem ha) (ht.of_mem hb) (hs'.of_mem ha) (ht'.of_mem hb)

end Ty

end TolkAnalysis
