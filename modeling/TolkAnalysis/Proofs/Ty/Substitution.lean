import TolkAnalysis.Proofs.Ty.Form

/-!
# What a substitution leaves as it is

A substitution builds the unions of a type anew, unless it binds nothing. This is no exception
for a type whose unions stay what they are when rebuilt (`Ty.Rebuilt.substitute_eq`), as they do in
well-formed types. What a substitution makes of a type depends, up to equality, on what it binds
the type parameters of the form to (`Ty.sameForm_replaceParams`). So a type stays equal to itself
if none of them is bound, and a type without generics has none but those in the bases of its
instantiations: `Ty.substitute_equals_self`.
-/

namespace TolkAnalysis

namespace Substitution

@[simp] theorem get?_empty (name : String) : empty.get? name = none := by
  simp [get?, empty]

theorem get?_insert (σ : Substitution) (bound name : String) (t : Ty) :
    (σ.insert bound t).get? name = if bound = name then some t else σ.get? name := by
  simp [get?, insert, Std.HashMap.getElem?_insert]

end Substitution

namespace Ty

variable {σ τ : Substitution} {s t : Ty} {ts : List Ty}

theorem replaceAll_eq_map (σ : Substitution) (ts : List Ty) :
    replaceAll σ ts = ts.map (replaceParams σ) := by
  induction ts with
  | nil => rfl
  | cons t ts ih => rw [replaceAll, ih, List.map_cons]

theorem replaceParams_of_isPrimitive (h : t.isPrimitive = true) : t.replaceParams σ = t := by
  cases t <;> first | rfl | cases h

/-! ### Types that are left as they are -/

/-- Every union in the type, other than in the defaults of type parameters, is what `unionOf`
makes of its variants. -/
def Rebuilt (t : Ty) : Prop :=
  t.Throughout fun s => ∀ variants, s = .union variants → unionOf variants = .union variants

theorem WellFormed.rebuilt (ht : t.WellFormed) : t.Rebuilt :=
  hereditary_wellFormed.throughout (fun s hs variants heq => by
    subst heq
    exact (wellFormed_union_iff.mp hs).2) ht

namespace Rebuilt

theorem of_mem (h : t.Rebuilt) (hs : s ∈ t.components) : s.Rebuilt := Throughout.of_mem h hs

/-- Nothing changes in a type that has none of the type parameters that are bound. -/
theorem replaceParams_eq_self (ht : t.Rebuilt) (h : ∀ name ∈ t.paramNames, σ.get? name = none) :
    t.replaceParams σ = t := by
  have all {ts : List Ty}
      (ih : ∀ t ∈ ts, t.Rebuilt → (∀ name ∈ t.paramNames, σ.get? name = none) →
        t.replaceParams σ = t)
      (hts : ∀ t ∈ ts, t.Rebuilt) (h : ∀ name ∈ paramNamesOf ts, σ.get? name = none) :
      replaceAll σ ts = ts := by
    rw [replaceAll_eq_map]
    exact (List.map_congr_left fun t ht => ih t ht (hts t ht) fun name hname =>
      h name (mem_paramNamesOf.mpr ⟨t, ht, hname⟩)).trans (List.map_id ts)
  induction t using inductionOnParts with
  | primitive t hprimitive => exact replaceParams_of_isPrimitive hprimitive
  | builtin n | enum n => rfl
  | struct n fields ih => rw [replaceParams, all ih (fun _ => ht.of_mem) h]
  | aliasOf n inner ih => rw [replaceParams, ih (ht.of_mem (List.mem_singleton_self _)) h]
  | typeParam n default => rw [replaceParams, h n.name List.mem_cons_self, Option.getD_none]
  | tensor ts ih | tuple ts ih => rw [replaceParams, all ih (fun _ => ht.of_mem) h]
  | union ts ih => rw [replaceParams, all ih (fun _ => ht.of_mem) h, ht.here ts rfl]
  | function params result ihparams ihresult =>
      obtain ⟨hresult, hparams⟩ := List.forall_mem_cons.mp fun _ => ht.of_mem
      obtain ⟨hnames, hname⟩ := List.forall_mem_append.mp h
      rw [replaceParams, all ihparams hparams hnames, ihresult hresult hname]
  | instantiation inner args ihinner ihargs =>
      obtain ⟨hinner, hargs⟩ := List.forall_mem_cons.mp fun _ => ht.of_mem
      obtain ⟨hname, hnames⟩ := List.forall_mem_append.mp h
      rw [replaceParams, ihinner hinner hname, all ihargs hargs hnames]

/-- A substitution that binds nothing is no exception. -/
theorem substitute_eq (ht : t.Rebuilt) : t.substitute σ = t.replaceParams σ := by
  unfold substitute
  split
  · rename_i hempty
    exact (ht.replaceParams_eq_self fun name _ => Substitution.get?_of_isEmpty hempty name).symm
  · rfl

end Rebuilt

theorem WellFormed.substitute_eq (ht : t.WellFormed) : t.substitute σ = t.replaceParams σ :=
  ht.rebuilt.substitute_eq

/-! ### Types of one form -/

/-- Substitutions that agree on the type parameters of the form make types of one form. -/
theorem sameForm_replaceParams {applied : Bool}
    (h : ∀ u ∈ t.paramUses applied, σ.get? u.name = τ.get? u.name) :
    SameForm Eq (t.replaceParams σ) (t.replaceParams τ) := by
  have all {ts : List Ty} {applied : Bool}
      (ih : ∀ t ∈ ts, ∀ {applied}, (∀ u ∈ t.paramUses applied, σ.get? u.name = τ.get? u.name) →
        SameForm Eq (t.replaceParams σ) (t.replaceParams τ))
      (h : ∀ u ∈ paramUsesOf applied ts, σ.get? u.name = τ.get? u.name) :
      List.Forall₂ (SameForm Eq) (replaceAll σ ts) (replaceAll τ ts) := by
    rw [replaceAll_eq_map, replaceAll_eq_map, List.forall₂_map_left_iff,
      List.forall₂_map_right_iff, List.forall₂_same]
    exact fun t ht => ih t ht fun u hu => h u (mem_paramUsesOf.mpr ⟨t, ht, hu⟩)
  induction t using inductionOnParts generalizing applied with
  | primitive t hprimitive =>
      rw [replaceParams_of_isPrimitive hprimitive, replaceParams_of_isPrimitive hprimitive]
      exact .primitive hprimitive
  | builtin n => exact .builtin n
  | struct n fields => exact .struct n _ _
  | enum n => exact .enum n
  | aliasOf n inner ih => exact .aliasOf n (ih h)
  | typeParam n default =>
      rw [replaceParams, replaceParams, ← h _ List.mem_cons_self]
      exact .of_paramUses fun u (_ : u ∈ paramUses applied _) => rfl
  | tensor ts ih => exact .tensor (all @ih h)
  | tuple ts ih => exact .tuple (all @ih h)
  | union ts ih => exact .unionOf SameForm.biUnique_eq (all @ih h)
  | function params result ihparams ihresult =>
      obtain ⟨hparams, hresult⟩ := List.forall_mem_append.mp h
      exact .function (all @ihparams hparams) (ihresult hresult)
  | instantiation inner args ihinner ihargs =>
      obtain ⟨hinner, hargs⟩ := List.forall_mem_append.mp h
      exact .instantiation (ihinner hinner) (all @ihargs hargs)

namespace Rebuilt

/-- Substitutions that agree on the type parameters of the form make equal types. -/
theorem substitute_equals_substitute (ht : t.Rebuilt)
    (h : ∀ u ∈ t.paramUses false, σ.get? u.name = τ.get? u.name) :
    (t.substitute σ).equals (t.substitute τ) = true := by
  rw [ht.substitute_eq, ht.substitute_eq]
  exact (sameForm_replaceParams h).equals

/-- The type equals what a substitution makes of it that binds none of the type parameters of its
form. -/
theorem substitute_equals (ht : t.Rebuilt)
    (h : ∀ u ∈ t.paramUses false, σ.get? u.name = none) : (t.substitute σ).equals t = true := by
  have hself : t.substitute .empty = t := by
    rw [ht.substitute_eq, ht.replaceParams_eq_self fun name _ => Substitution.get?_empty name]
  have hequals : (t.substitute σ).equals (t.substitute .empty) = true :=
    ht.substitute_equals_substitute fun u hu => by rw [h u hu, Substitution.get?_empty]
  rwa [hself] at hequals

end Rebuilt

/-- A well-formed type without generics equals what a substitution makes of it, if it binds no
parameter that the base of an instantiation was given no argument for. -/
theorem substitute_equals_self (ht : t.WellFormed) (hgenerics : t.hasGenerics = false)
    (hbase : ∀ name ∈ t.baseParams, σ.get? name = none) : (t.substitute σ).equals t = true :=
  ht.rebuilt.substitute_equals fun _ hu => hbase _ (mem_baseParams_of_mem_paramUses hgenerics hu)

/-- A type parameter without a default. -/
def bareParam (name : String) : Ty := .typeParam ⟨name, none⟩ none

/-- A generic alias with two parameters that was given one argument. -/
def halfApplied : Ty :=
  .instantiation (.alias ⟨"Pair", none⟩ (.tensor [.int, bareParam "B"])) [.int]

/-- A generic struct and a generic alias, each applied to one argument. -/
def boxOrPair : Ty :=
  .union [.instantiation (.struct ⟨"Box", none⟩ [bareParam "T"]) [.int], halfApplied]

/-- The member of the struct changes, and the parameter without an argument is not bound. -/
theorem substitute_equals_self_of_box :
    boxOrPair.WellFormed ∧ boxOrPair.hasGenerics = false ∧
      (∀ name ∈ boxOrPair.baseParams, (Substitution.ofList [("T", .bool)]).get? name = none) ∧
      (boxOrPair.substitute (.ofList [("T", .bool)])).equals boxOrPair = true := by
  have ht : boxOrPair.WellFormed :=
    wellFormed_union.mpr ⟨⟨by simp, by simp [baseType, halfApplied, bareParam],
      by simp [unwrapAlias, halfApplied, equals, stripAliases]⟩,
      by simp [WellFormed, AllWellFormed, halfApplied, bareParam]⟩
  have hbase : ∀ name ∈ boxOrPair.baseParams,
      (Substitution.ofList [("T", .bool)]).get? name = none := by
    simp [baseParams, paramUses, paramUsesOf, boxOrPair, halfApplied, bareParam,
      Substitution.ofList, Substitution.get?_insert]
  exact ⟨ht, rfl, hbase, substitute_equals_self ht rfl hbase⟩

/-- A parameter that was given no argument is replaced like any other, though the type has no
generics. -/
theorem not_substitute_equals_self :
    ¬ ∀ (t : Ty) (σ : Substitution), t.WellFormed → t.hasGenerics = false →
      (t.substitute σ).equals t = true := by
  intro h
  have hwf : halfApplied.WellFormed := by simp [halfApplied, bareParam, WellFormed, AllWellFormed]
  have hequals := h halfApplied (.ofList [("B", .bool)]) hwf rfl
  rw [hwf.substitute_eq] at hequals
  simp [halfApplied, bareParam, replaceParams, replaceAll, Substitution.ofList,
    Substitution.get?_insert, equals, allEqual, stripAliases] at hequals

end Ty

end TolkAnalysis
