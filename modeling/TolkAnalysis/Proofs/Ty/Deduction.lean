import TolkAnalysis.Proofs.Ty.Composition
import TolkAnalysis.Proofs.Ty.Pairing

/-!
# Deduction and substitution

A substitution leaves the form of a rigid type as it is: no union is built anew, and no alias comes
off. So the type, laid over what the substitution makes of it, has each of its outer type
parameters beside what that is bound to, and nothing else (`Ty.Rigid.recovers`). The deduction
then learns the substitution back, as far as the type tells: `Ty.deduce_substitute`.
-/

namespace TolkAnalysis

namespace Ty

/-! ### Rigid types -/

/-- An overt type other than a union. -/
def isRigid : Ty → Bool
  | .union _ => false
  | t => t.isOvert

/-- No alias and no union occurs in the type, and nothing but structs and builtins is applied in
it. -/
def Rigid (t : Ty) : Prop := t.Throughout fun s => s.isRigid = true

/-- The pairs are about the type parameters at the uses, each beside what the substitution makes of
it. -/
structure Recovers (σ : Substitution) (uses : List ParamUse) (bs : List ParamArg) : Prop where
  paired : ∀ u ∈ uses, ∃ b ∈ bs, b.nominal.name = u.name
  arg : ∀ b ∈ bs, b.arg = (typeParam b.nominal b.default).replaceParams σ

variable {σ : Substitution} {p : Ty} {name : String}

namespace Recovers

variable {us us' : List ParamUse} {bs bs' : List ParamArg}

theorem nil : Recovers σ [] [] := ⟨by simp, by simp⟩

theorem append (h : Recovers σ us bs) (h' : Recovers σ us' bs') :
    Recovers σ (us ++ us') (bs ++ bs') where
  paired u hu := by
    rcases List.mem_append.mp hu with hu | hu
    · obtain ⟨b, hb, hname⟩ := h.paired u hu
      exact ⟨b, List.mem_append_left _ hb, hname⟩
    · obtain ⟨b, hb, hname⟩ := h'.paired u hu
      exact ⟨b, List.mem_append_right _ hb, hname⟩
  arg b hb := (List.mem_append.mp hb).elim (h.arg b) (h'.arg b)

theorem mono (h : Recovers σ us bs) (hus : us' ⊆ us) : Recovers σ us' bs :=
  ⟨fun u hu => h.paired u (hus hu), h.arg⟩

end Recovers

namespace Rigid

theorem of_mem {s : Ty} (h : p.Rigid) (hs : s ∈ p.components) : s.Rigid := Throughout.of_mem h hs

theorem rebuilt (h : p.Rigid) : p.Rebuilt :=
  h.mono fun s hs variants heq => by
    subst heq
    cases hs

/-- What a rigid type has beside its type parameters in what a substitution makes of it. -/
theorem recovers (σ : Substitution) (h : p.Rigid) :
    Recovers σ (p.paramUses false) (pairings p (p.replaceParams σ)) := by
  have all {ps : List Ty}
      (ih : ∀ p ∈ ps, p.Rigid → Recovers σ (p.paramUses false) (pairings p (p.replaceParams σ)))
      (hps : ∀ p ∈ ps, p.Rigid) :
      Recovers σ (paramUsesOf false ps) (pairAll ps (replaceAll σ ps)) := by
    induction ps with
    | nil => exact .nil
    | cons p ps ih' =>
        rw [List.forall_mem_cons] at ih hps
        rw [paramUsesOf, replaceAll, pairAll]
        exact (ih.1 hps.1).append (ih' ih.2 hps.2)
  have hlength (ps : List Ty) : ps.length = (replaceAll σ ps).length := by
    simp [replaceAll_eq_map]
  induction p using inductionOnParts with
  | primitive p hprimitive =>
      cases p <;> first | cases hprimitive; done | exact .nil
  | builtin n | struct n fields | enum n => exact .nil
  | aliasOf n inner => cases h.here
  | typeParam n default =>
      rw [pairings]
      exact ⟨by simp [paramUses], by simp⟩
  | tensor ps ih | tuple ps ih =>
      rw [replaceParams, pairings, if_pos (hlength ps)]
      exact all ih fun _ => h.of_mem
  | union ps => cases h.here
  | function ps p ihparams ihresult =>
      obtain ⟨hresult, hparams⟩ := List.forall_mem_cons.mp fun _ => h.of_mem
      rw [replaceParams, pairings]
      exact (all ihparams hparams).append (ihresult hresult)
  | instantiation inner ps _ ihargs =>
      obtain ⟨-, hargs⟩ := List.forall_mem_cons.mp fun _ => h.of_mem
      have hall := all ihargs hargs
      -- The arguments are paired twice, and the base has no type parameter of the form.
      have hrigid := h.here
      cases inner <;> first | cases hrigid; done | skip
      all_goals
        simp only [replaceParams, pairings, unwrapAlias]
        exact (hall.append hall).mono (List.subset_append_left _ _)

/-- All the type parameters of the form are outer ones. -/
theorem mem_outerParams (h : p.Rigid) {u : ParamUse} (hu : u ∈ p.paramUses false) :
    u.name ∈ p.outerParams := by
  obtain ⟨b, hb, hname⟩ := (h.recovers .empty).paired u hu
  exact Ty.mem_outerParams.mpr (hname ▸ (names_of_mem_pairings hb).1)

end Rigid

/-! ### Learning a substitution back -/

namespace Rigid

/-- What is learned of a type parameter is what it was bound to. -/
theorem get?_deduce_substitute (h : p.Rigid)
    (hσ : ∀ name ∈ p.outerParams, ∃ t, σ.get? name = some t ∧ t.Closed) (name : String) :
    (Substitution.empty.deduce p (p.substitute σ)).get? name =
      if name ∈ p.outerParams then σ.get? name else none := by
  have hrecovers := h.recovers σ
  rw [h.rebuilt.substitute_eq, Substitution.get?_deduce, Substitution.get?_empty]
  split
  · rename_i hname
    obtain ⟨t, ht, hclosed⟩ := hσ name hname
    have hvalues : ∀ v ∈ ParamArg.values name (pairings p (p.replaceParams σ)), v = t := by
      intro v hv
      obtain ⟨b, hb, rfl, rfl⟩ := ParamArg.mem_values.mp hv
      have harg : b.arg = t := by
        rw [hrecovers.arg b hb, replaceParams, ht, Option.getD_some]
      rw [ParamArg.value_of_closed (harg ▸ hclosed), harg]
    have hne : ParamArg.values name (pairings p (p.replaceParams σ)) ≠ [] := by
      obtain ⟨b, hb, hbname⟩ := hrecovers.paired _ (Ty.mem_outerParams.mp hname)
      exact List.ne_nil_of_mem (ParamArg.mem_values.mpr ⟨b, hb, hbname, rfl⟩)
    rw [ht]
    exact Substitution.foldl_settle_eq hvalues (.inr ⟨rfl, hne⟩)
  · rename_i hname
    have hvalues : ParamArg.values name (pairings p (p.replaceParams σ)) = [] := by
      refine List.eq_nil_iff_forall_not_mem.mpr fun v hv => hname ?_
      obtain ⟨b, hb, rfl, -⟩ := ParamArg.mem_values.mp hv
      exact Ty.mem_outerParams.mpr (names_of_mem_pairings hb).1
    rw [hvalues, List.foldl_nil]

/-- What is learned is enough to make the type that it was learned from. -/
theorem substitute_deduce_equals (h : p.Rigid)
    (hσ : ∀ name ∈ p.outerParams, ∃ t, σ.get? name = some t ∧ t.Closed) :
    (p.substitute (Substitution.empty.deduce p (p.substitute σ))).equals (p.substitute σ) = true :=
  h.rebuilt.substitute_equals_substitute fun u hu => by
    rw [h.get?_deduce_substitute hσ, if_pos (h.mem_outerParams hu)]

end Rigid

/-- Deduction inverts substitution. A rigid type, laid over what a substitution makes of it that
binds its type parameters to closed types, tells what each of its outer type parameters is bound to
and nothing else, and with this it is the same type again. -/
theorem deduce_substitute (hp : p.Rigid)
    (hσ : ∀ name ∈ p.paramNames, ∃ t, σ.get? name = some t ∧ t.Closed) :
    (∀ name, (Substitution.empty.deduce p (p.substitute σ)).get? name =
      if name ∈ p.outerParams then σ.get? name else none) ∧
      (p.substitute (Substitution.empty.deduce p (p.substitute σ))).equals
        (p.substitute σ) = true := by
  have houter : ∀ name ∈ p.outerParams, ∃ t, σ.get? name = some t ∧ t.Closed := fun name hname =>
    hσ name (mem_paramNames_of_mem_paramUses (Ty.mem_outerParams.mp hname))
  exact ⟨hp.get?_deduce_substitute houter, hp.substitute_deduce_equals houter⟩

/-- A function type with a type parameter in an argument of a generic struct and once more, and
another one, with a default, as the result. -/
def fromBox : Ty :=
  .function [.instantiation (.struct ⟨"Box", none⟩ [bareParam "V"])
      [.tensor [bareParam "T", .typeParam ⟨"U", none⟩ (some .int)]], bareParam "T"]
    (.typeParam ⟨"U", none⟩ (some .int))

/-- Types for the type parameters of `fromBox`, one of them a type that may still be replaced. -/
def fromBoxTypes : Substitution :=
  .ofList [("T", .never), ("U", .union [.bool, .null]), ("V", .bool)]

/-- The type parameter in the member of the struct is not learned. -/
theorem deduce_substitute_fromBox :
    fromBox.Rigid ∧
      (∀ name ∈ fromBox.paramNames, ∃ t, fromBoxTypes.get? name = some t ∧ t.Closed) ∧
      (Substitution.empty.deduce fromBox (fromBox.substitute fromBoxTypes)).get? "T" =
        some .never ∧
      (Substitution.empty.deduce fromBox (fromBox.substitute fromBoxTypes)).get? "U" =
        some (.union [.bool, .null]) ∧
      (Substitution.empty.deduce fromBox (fromBox.substitute fromBoxTypes)).get? "V" = none ∧
      (fromBox.substitute (Substitution.empty.deduce fromBox
        (fromBox.substitute fromBoxTypes))).equals (fromBox.substitute fromBoxTypes) = true := by
  have hparam (n : Nominal) (default : Option Ty) : (typeParam n default).Rigid :=
    .intro rfl (fun s hs => nomatch hs)
  have hbox : (struct ⟨"Box", none⟩ [bareParam "V"]).Rigid :=
    .intro rfl (List.forall_mem_singleton.mpr (hparam _ _))
  have hpair : (tensor [bareParam "T", .typeParam ⟨"U", none⟩ (some .int)]).Rigid :=
    .intro rfl (by simpa [components, parts] using ⟨hparam _ _, hparam _ _⟩)
  have harg : (instantiation (.struct ⟨"Box", none⟩ [bareParam "V"])
      [.tensor [bareParam "T", .typeParam ⟨"U", none⟩ (some .int)]]).Rigid :=
    .intro rfl (by simpa [components, parts] using ⟨hbox, hpair⟩)
  have hp : fromBox.Rigid :=
    .intro rfl (by simpa [components, parts, fromBox] using ⟨hparam _ _, harg, hparam _ _⟩)
  have hσ : ∀ name ∈ fromBox.paramNames, ∃ t, fromBoxTypes.get? name = some t ∧ t.Closed := by
    simp [fromBox, bareParam, paramNames, paramNamesOf, fromBoxTypes, Substitution.ofList,
      Substitution.get?_insert, Closed, AllClosed]
  obtain ⟨hlearned, hequals⟩ := deduce_substitute hp hσ
  refine ⟨hp, hσ, ?_, ?_, ?_, hequals⟩
  all_goals
    rw [hlearned]
    simp [fromBox, bareParam, outerParams, paramUses, paramUsesOf, fromBoxTypes, Substitution.ofList,
      Substitution.get?_insert]

end Ty

end TolkAnalysis
