import TolkAnalysis.Proofs.Ty.Equality

/-!
# Equality and aliases

`Ty.Everywhere P` says that `P` holds at every depth of a type, and a type is alias-free if it
is an alias nowhere. `Ty.Throughout P` passes over the defaults of type parameters, which are not
compared. `Ty.eraseAliases` replaces every alias by what it stands for.

Aliases are the one reason why equality is not transitive: two aliases of one type differ, but
each equals the type. A chain of equal types is closed as soon as one end of it is alias-free
(`AliasFree.equals_trans`), and equal types stay equal once their aliases are erased
(`equals_eraseAliases`). `equals_coherent` puts the laws together.
-/

namespace TolkAnalysis

namespace Ty

/-! ### Properties at every depth -/

/-- The types that a type is made of. -/
def parts : Ty → List Ty
  | .struct _ fields => fields
  | .alias _ inner => [inner]
  | .typeParam _ default => default.toList
  | .tensor elements => elements
  | .tuple elements => elements
  | .union variants => variants
  | .function params result => result :: params
  | .instantiation inner args => inner :: args
  | _ => []

theorem parts_of_isPrimitive {t : Ty} (h : t.isPrimitive = true) : t.parts = [] := by
  cases t <;> first | rfl | cases h

/-- A hereditary property passes to the types that a type is made of. -/
theorem Hereditary.of_mem_parts {N : Nominal → Prop} {Q : Ty → Prop} (h : Hereditary N Q) {s t : Ty}
    (ht : Q t) (hs : s ∈ t.parts) : Q s := by
  cases t using inductionOnParts with
  | primitive t hprimitive =>
      rw [parts_of_isPrimitive hprimitive] at hs
      cases hs
  | builtin | enum => cases hs
  | struct n fields => exact (h.struct.mp ht).2 s hs
  | aliasOf n inner => exact List.mem_singleton.mp hs ▸ (h.aliasOf.mp ht).2
  | typeParam n default => exact h.default ht s (Option.mem_toList.mp hs)
  | tensor ts => exact h.tensor.mp ht s hs
  | tuple ts => exact h.tuple.mp ht s hs
  | union ts => exact h.variants ht s hs
  | function params result =>
      obtain rfl | hs := List.mem_cons.mp hs
      · exact (h.function.mp ht).2
      · exact (h.function.mp ht).1 s hs
  | instantiation inner args =>
      obtain rfl | hs := List.mem_cons.mp hs
      · exact (h.instantiation.mp ht).1
      · exact (h.instantiation.mp ht).2 s hs

/-- `P` holds of the type and everywhere in the types that it is made of. -/
inductive Everywhere (P : Ty → Prop) : Ty → Prop
  | intro {t : Ty} (here : P t) (below : ∀ s ∈ t.parts, Everywhere P s) : Everywhere P t

namespace Everywhere

variable {P : Ty → Prop} {s t : Ty}

theorem here (h : t.Everywhere P) : P t := by
  cases h with
  | intro here _ => exact here

theorem of_mem (h : t.Everywhere P) (hs : s ∈ t.parts) : s.Everywhere P := by
  cases h with
  | intro _ below => exact below s hs

end Everywhere

theorem everywhere_of_isPrimitive {P : Ty → Prop} {t : Ty} (h : t.isPrimitive = true)
    (ht : P t) : t.Everywhere P :=
  .intro ht (by simp [parts_of_isPrimitive h])

/-- No alias occurs in the type. -/
def AliasFree (t : Ty) : Prop := t.Everywhere fun s => s.isAlias = false

namespace AliasFree

variable {s t : Ty}

theorem isAlias (h : t.AliasFree) : t.isAlias = false := Everywhere.here h

theorem of_isPrimitive (h : t.isPrimitive = true) : t.AliasFree :=
  everywhere_of_isPrimitive h (isAlias_of_isPrimitive h)

theorem of_mem (h : t.AliasFree) (hs : s ∈ t.parts) : s.AliasFree := Everywhere.of_mem h hs

end AliasFree

/-! ### Without the defaults of type parameters -/

/-- The types that a type is made of. The default of a type parameter is left out. -/
def components : Ty → List Ty
  | .typeParam .. => []
  | t => t.parts

/-- `P` holds of the type and throughout the types that it is made of, whatever the defaults of
type parameters are. -/
inductive Throughout (P : Ty → Prop) : Ty → Prop
  | intro {t : Ty} (here : P t) (below : ∀ s ∈ t.components, Throughout P s) : Throughout P t

namespace Throughout

variable {P Q : Ty → Prop} {s t : Ty}

theorem here (h : t.Throughout P) : P t := by
  cases h with
  | intro here _ => exact here

theorem of_mem (h : t.Throughout P) (hs : s ∈ t.components) : s.Throughout P := by
  cases h with
  | intro _ below => exact below s hs

theorem mono (hPQ : ∀ s, P s → Q s) (h : t.Throughout P) : t.Throughout Q := by
  induction h with
  | intro here _ ih => exact .intro (hPQ _ here) ih

end Throughout

theorem components_subset_parts (t : Ty) : t.components ⊆ t.parts := by
  unfold components
  split
  · exact List.nil_subset _
  · exact List.Subset.refl _

/-- A hereditary property that implies `P` does so throughout. -/
theorem Hereditary.throughout {N : Nominal → Prop} {P Q : Ty → Prop} (h : Hereditary N Q)
    (hP : ∀ t, Q t → P t) {t : Ty} (ht : Q t) : t.Throughout P := by
  have step {t : Ty} (ih : ∀ s ∈ t.components, Q s → s.Throughout P) (ht : Q t) :
      t.Throughout P :=
    .intro (hP t ht) fun s hs => ih s hs (h.of_mem_parts ht (t.components_subset_parts hs))
  induction t using inductionOnParts with
  | primitive t hprimitive =>
      have hparts : t.components ⊆ [] := parts_of_isPrimitive hprimitive ▸ t.components_subset_parts
      exact step (fun s hs => nomatch hparts hs) ht
  | builtin n | enum n | typeParam n default => exact step (fun s hs => nomatch hs) ht
  | struct n fields ih | tensor ts ih | tuple ts ih | union ts ih => exact step ih ht
  | aliasOf n inner ih => exact step (List.forall_mem_singleton.mpr ih) ht
  | function params result ihparams ihresult =>
      exact step (List.forall_mem_cons.mpr ⟨ihresult, ihparams⟩) ht
  | instantiation inner args ihinner ihargs =>
      exact step (List.forall_mem_cons.mpr ⟨ihinner, ihargs⟩) ht

/-- No alias occurs in the type, other than in the defaults of type parameters. -/
def Unaliased (t : Ty) : Prop := t.Throughout fun s => s.isAlias = false

theorem AliasFree.unaliased {t : Ty} (h : t.AliasFree) : t.Unaliased := by
  induction h with
  | @intro t here _ ih => exact .intro here fun s hs => ih s (t.components_subset_parts hs)

/-! ### Erasing aliases -/

mutual

/-- The type with every alias in it replaced by what it stands for. -/
def eraseAliases : Ty → Ty
  | .struct n fields => .struct n (eraseAll fields)
  | .alias _ inner => inner.eraseAliases
  | .typeParam n (some default) => .typeParam n (some default.eraseAliases)
  | .tensor elements => .tensor (eraseAll elements)
  | .tuple elements => .tuple (eraseAll elements)
  | .union variants => .union (eraseAll variants)
  | .function params result => .function (eraseAll params) result.eraseAliases
  | .instantiation inner args => .instantiation inner.eraseAliases (eraseAll args)
  | t => t

/-- The types of a list with their aliases replaced. -/
def eraseAll : List Ty → List Ty
  | [] => []
  | t :: ts => t.eraseAliases :: eraseAll ts

end

theorem eraseAll_eq_map (ts : List Ty) : eraseAll ts = ts.map eraseAliases := by
  induction ts with
  | nil => rfl
  | cons t ts ih => rw [eraseAll, ih, List.map_cons]

theorem eraseAliases_of_isPrimitive {t : Ty} (h : t.isPrimitive = true) : t.eraseAliases = t := by
  cases t <;> first | rfl | cases h

theorem eraseAliases_stripAliases (t : Ty) : t.stripAliases.eraseAliases = t.eraseAliases := by
  fun_induction stripAliases t with
  | case1 n inner ih => exact ih
  | case2 t => rfl

theorem aliasFree_eraseAliases (t : Ty) : t.eraseAliases.AliasFree := by
  have all {ts : List Ty} (h : ∀ t ∈ ts, t.eraseAliases.AliasFree) :
      ∀ t ∈ eraseAll ts, t.AliasFree := by
    simpa [eraseAll_eq_map] using h
  induction t using inductionOnParts with
  | primitive t h =>
      rw [eraseAliases_of_isPrimitive h]
      exact .of_isPrimitive h
  | builtin n => exact .intro rfl (by simp [parts, eraseAliases])
  | struct n fields ih => exact .intro rfl (all ih)
  | enum n => exact .intro rfl (by simp [parts, eraseAliases])
  | aliasOf n inner ih => exact ih
  | typeParam n default ih =>
      cases default with
      | none => exact .intro rfl (by simp [parts, eraseAliases])
      | some d => exact .intro rfl (List.forall_mem_singleton.mpr (ih d rfl))
  | tensor ts ih => exact .intro rfl (all ih)
  | tuple ts ih => exact .intro rfl (all ih)
  | union ts ih => exact .intro rfl (all ih)
  | function params result ihparams ihresult =>
      exact .intro rfl (List.forall_mem_cons.mpr ⟨ihresult, all ihparams⟩)
  | instantiation inner args ihinner ihargs =>
      exact .intro rfl (List.forall_mem_cons.mpr ⟨ihinner, all ihargs⟩)

/-! ### Laws -/

/-- A type equals what it equals also without the aliases around it. -/
theorem stripAliases_equals {s t : Ty} (h : s.equals t = true) :
    s.stripAliases.equals t = true := by
  fun_induction stripAliases s generalizing t with
  | case1 n s ih =>
      cases ht : t.isAlias with
      | false => exact ih ((equals_alias_left ht).symm.trans h)
      | true =>
          obtain ⟨m, t, rfl⟩ := exists_of_isAlias ht
          rw [equals_alias_right (isAlias_stripAliases s)]
          exact ih (equals_alias_alias.mp h).2
  | case2 s => exact h

theorem equals_stripAliases_self (t : Ty) : t.equals t.stripAliases = true :=
  equals_symm (stripAliases_equals (equals_refl t))

theorem equals_stripAliases {s t : Ty} (h : s.equals t = true) :
    s.stripAliases.equals t.stripAliases = true := by
  rw [equals_stripAliases_right (isAlias_stripAliases s)]
  exact stripAliases_equals h

/-- Equal types are equal once their aliases are erased. -/
theorem equals_eraseAliases {s t : Ty} (h : s.equals t = true) :
    s.eraseAliases.equals t.eraseAliases = true := by
  -- The aliases around the second type go away with the others.
  have strip {t u : Ty} (hu : t.stripAliases = u) : t.eraseAliases = u.eraseAliases := by
    rw [← hu, eraseAliases_stripAliases]
  have all {ss ts : List Ty}
      (hss : ∀ s ∈ ss, ∀ {t : Ty}, s.equals t = true → s.eraseAliases.equals t.eraseAliases = true)
      (h : List.Forall₂ (fun s t => s.equals t = true) ss ts) :
      List.Forall₂ (fun s t => s.equals t = true) (eraseAll ss) (eraseAll ts) := by
    induction h with
    | nil => exact .nil
    | cons hst _ ih =>
        rw [List.forall_mem_cons] at hss
        exact .cons (hss.1 hst) (ih hss.2)
  induction s using inductionOnParts generalizing t with
  | primitive s hs =>
      rw [strip ((equals_primitive hs).mp h)]
      exact equals_refl _
  | builtin n =>
      obtain ⟨m, hm, hname⟩ := equals_builtin.mp h
      rw [strip hm]
      exact equals_builtin.mpr ⟨m, rfl, hname⟩
  | struct n fields =>
      obtain ⟨m, others, hm, hname⟩ := equals_struct.mp h
      rw [strip hm]
      exact equals_struct.mpr ⟨m, eraseAll others, rfl, hname⟩
  | enum n =>
      obtain ⟨m, hm, hname⟩ := equals_enum.mp h
      rw [strip hm]
      exact equals_enum.mpr ⟨m, rfl, hname⟩
  | aliasOf n s ih =>
      cases ht : t.isAlias with
      | false => exact ih ((equals_alias_left ht).symm.trans h)
      | true =>
          obtain ⟨m, t, rfl⟩ := exists_of_isAlias ht
          have hinner : s.eraseAliases.equals t.eraseAliases = true :=
            ih (equals_alias_alias.mp h).2
          exact hinner
  | typeParam n default =>
      obtain ⟨m, other, hm, hname⟩ := equals_typeParam.mp h
      rw [strip hm]
      cases default <;> cases other <;> exact equals_typeParam.mpr ⟨m, _, rfl, hname⟩
  | tensor ss ih =>
      obtain ⟨ts, hts, hall⟩ := equals_tensor.mp h
      rw [strip hts]
      exact equals_tensor.mpr ⟨eraseAll ts, rfl, all @ih hall⟩
  | tuple ss ih =>
      obtain ⟨ts, hts, hall⟩ := equals_tuple.mp h
      rw [strip hts]
      exact equals_tuple.mpr ⟨eraseAll ts, rfl, all @ih hall⟩
  | union ss ih =>
      obtain ⟨ts, hts, hlength, hleft, hright⟩ := equals_union.mp h
      rw [strip hts]
      rw [eraseAliases, eraseAliases, eraseAll_eq_map, eraseAll_eq_map]
      refine equals_union.mpr ⟨ts.map eraseAliases, rfl, by simpa using hlength,
        List.forall_mem_map.mpr fun s hs => ?_, List.forall_mem_map.mpr fun t ht => ?_⟩
      · obtain ⟨t, ht, hst⟩ := hleft s hs
        exact ⟨t.eraseAliases, List.mem_map_of_mem ht, ih s hs hst⟩
      · obtain ⟨s, hs, hst⟩ := hright t ht
        exact ⟨s.eraseAliases, List.mem_map_of_mem hs, ih s hs hst⟩
  | function params result ihparams ihresult =>
      obtain ⟨params', result', ht, hparams, hresult⟩ := equals_function.mp h
      rw [strip ht]
      exact equals_function.mpr ⟨eraseAll params', result'.eraseAliases, rfl,
        all @ihparams hparams, ihresult hresult⟩
  | instantiation inner args ihinner ihargs =>
      obtain ⟨inner', args', ht, hinner, hargs⟩ := equals_instantiation.mp h
      rw [strip ht]
      exact equals_instantiation.mpr ⟨inner'.eraseAliases, eraseAll args', rfl,
        ihinner hinner, all @ihargs hargs⟩

/-- Of three types in a row, each equal to the next, the first equals the last if no alias occurs
in it. -/
theorem Unaliased.equals_trans {s t u : Ty} (hs : s.Unaliased) (hst : s.equals t = true)
    (htu : t.equals u = true) : s.equals u = true := by
  have all {ss ts us : List Ty}
      (hss : ∀ s ∈ ss, ∀ t u : Ty, s.equals t = true → t.equals u = true → s.equals u = true)
      (hst : List.Forall₂ (fun s t => s.equals t = true) ss ts)
      (htu : List.Forall₂ (fun s t => s.equals t = true) ts us) :
      List.Forall₂ (fun s t => s.equals t = true) ss us := by
    induction hst generalizing us with
    | nil => exact htu
    | cons hst _ ih =>
        obtain _ | ⟨htu, htus⟩ := htu
        rw [List.forall_mem_cons] at hss
        exact .cons (hss.1 _ _ hst htu) (ih hss.2 htus)
  -- The form of the first type is that of the second, up to the aliases around it, and this
  -- leaves the form of the third.
  have next {t u v : Ty} (hv : t.stripAliases = v) (htu : t.equals u = true) :
      v.equals u = true :=
    hv ▸ stripAliases_equals htu
  induction s using inductionOnParts generalizing t u with
  | primitive s h => exact next ((equals_primitive h).mp hst) htu
  | builtin n =>
      obtain ⟨m, hm, hname⟩ := equals_builtin.mp hst
      obtain ⟨k, hk, hname'⟩ := equals_builtin.mp (next hm htu)
      exact equals_builtin.mpr ⟨k, hk, hname.trans hname'⟩
  | struct n fields =>
      obtain ⟨m, others, hm, hname⟩ := equals_struct.mp hst
      obtain ⟨k, others', hk, hname'⟩ := equals_struct.mp (next hm htu)
      exact equals_struct.mpr ⟨k, others', hk, hname.trans hname'⟩
  | enum n =>
      obtain ⟨m, hm, hname⟩ := equals_enum.mp hst
      obtain ⟨k, hk, hname'⟩ := equals_enum.mp (next hm htu)
      exact equals_enum.mpr ⟨k, hk, hname.trans hname'⟩
  | aliasOf n s => cases hs.here
  | typeParam n default =>
      obtain ⟨m, other, hm, hname⟩ := equals_typeParam.mp hst
      obtain ⟨k, other', hk, hname'⟩ := equals_typeParam.mp (next hm htu)
      exact equals_typeParam.mpr ⟨k, other', hk, hname.trans hname'⟩
  | tensor ss ih =>
      obtain ⟨ts, hts, hall⟩ := equals_tensor.mp hst
      obtain ⟨us, hus, hall'⟩ := equals_tensor.mp (next hts htu)
      exact equals_tensor.mpr
        ⟨us, hus, all (fun s hmem _ _ => ih s hmem (hs.of_mem hmem)) hall hall'⟩
  | tuple ss ih =>
      obtain ⟨ts, hts, hall⟩ := equals_tuple.mp hst
      obtain ⟨us, hus, hall'⟩ := equals_tuple.mp (next hts htu)
      exact equals_tuple.mpr
        ⟨us, hus, all (fun s hmem _ _ => ih s hmem (hs.of_mem hmem)) hall hall'⟩
  | union ss ih =>
      obtain ⟨ts, hts, hlength, hleft, hright⟩ := equals_union.mp hst
      obtain ⟨us, hus, hlength', hleft', hright'⟩ := equals_union.mp (next hts htu)
      refine equals_union.mpr ⟨us, hus, hlength.trans hlength', fun s hmem => ?_, fun u hu => ?_⟩
      · obtain ⟨t, ht, hst⟩ := hleft s hmem
        obtain ⟨u, hu, htu⟩ := hleft' t ht
        exact ⟨u, hu, ih s hmem (hs.of_mem hmem) hst htu⟩
      · obtain ⟨t, ht, htu⟩ := hright' u hu
        obtain ⟨s, hmem, hst⟩ := hright t ht
        exact ⟨s, hmem, ih s hmem (hs.of_mem hmem) hst htu⟩
  | function params result ihparams ihresult =>
      obtain ⟨params', result', ht, hparams, hresult⟩ := equals_function.mp hst
      obtain ⟨params'', result'', hu, hparams', hresult'⟩ := equals_function.mp (next ht htu)
      exact equals_function.mpr ⟨params'', result'', hu,
        all (fun s hmem _ _ => ihparams s hmem (hs.of_mem (List.mem_cons_of_mem _ hmem)))
          hparams hparams',
        ihresult (hs.of_mem List.mem_cons_self) hresult hresult'⟩
  | instantiation inner args ihinner ihargs =>
      obtain ⟨inner', args', ht, hinner, hargs⟩ := equals_instantiation.mp hst
      obtain ⟨inner'', args'', hu, hinner', hargs'⟩ := equals_instantiation.mp (next ht htu)
      exact equals_instantiation.mpr ⟨inner'', args'', hu,
        ihinner (hs.of_mem List.mem_cons_self) hinner hinner',
        all (fun s hmem _ _ => ihargs s hmem (hs.of_mem (List.mem_cons_of_mem _ hmem)))
          hargs hargs'⟩

theorem AliasFree.equals_trans {s t u : Ty} (hs : s.AliasFree) (hst : s.equals t = true)
    (htu : t.equals u = true) : s.equals u = true :=
  hs.unaliased.equals_trans hst htu

/-- Equality is reflexive and symmetric, equal types are equal with their aliases erased, and on
alias-free types equality is transitive. For the last it is enough that the first type is
alias-free. -/
theorem equals_coherent (s t u : Ty) :
    s.equals s = true ∧ (s.equals t = true → t.equals s = true) ∧
      (s.equals t = true → s.eraseAliases.equals t.eraseAliases = true) ∧
      (s.AliasFree → s.equals t = true → t.equals u = true → s.equals u = true) :=
  ⟨equals_refl s, equals_symm, equals_eraseAliases, AliasFree.equals_trans⟩

/-- Unions with their variants in another order, one of them behind an alias. -/
theorem equals_coherent_swapped :
    (union [.int, .bool]).equals (.union [.bool, .alias ⟨"Id", none⟩ .int]) = true ∧
      (union [.int, .bool]).AliasFree ∧
      (union [.bool, .alias ⟨"Id", none⟩ .int]).equals
        (.union [.alias ⟨"Id", none⟩ .int, .bool]) = true ∧
      (union [.bool, .alias ⟨"Id", none⟩ .int]).equals (.union [.int, .bool]) = true ∧
      (union [.int, .bool]).eraseAliases.equals
        (union [.bool, .alias ⟨"Id", none⟩ .int]).eraseAliases = true ∧
      (union [.int, .bool]).equals (.union [.alias ⟨"Id", none⟩ .int, .bool]) = true := by
  have hst : (union [.int, .bool]).equals (.union [.bool, .alias ⟨"Id", none⟩ .int]) = true := by
    simp [equals, stripAliases, allAmong, anyEqual]
  have htu : (union [.bool, .alias ⟨"Id", none⟩ .int]).equals
      (.union [.alias ⟨"Id", none⟩ .int, .bool]) = true := by
    simp [equals, stripAliases, allAmong, anyEqual]
  have hs : (union [.int, .bool]).AliasFree :=
    .intro rfl (by simpa [parts] using ⟨AliasFree.of_isPrimitive rfl, AliasFree.of_isPrimitive rfl⟩)
  obtain ⟨-, hsymm, herase, htrans⟩ := equals_coherent (union [.int, .bool])
    (.union [.bool, .alias ⟨"Id", none⟩ .int]) (.union [.alias ⟨"Id", none⟩ .int, .bool])
  exact ⟨hst, hs, htu, hsymm hst, herase hst, htrans hs hst htu⟩

end Ty

end TolkAnalysis
