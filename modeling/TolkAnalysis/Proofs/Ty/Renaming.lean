import TolkAnalysis.Proofs.Ty.Form

/-!
# Renaming type parameters

`Ty.rename f` gives the type parameters of a type other names. The type keeps its form
(`Ty.sameForm_rename`), and what is taken off it or put together of it does not depend on names.
If `f` is one-to-one, this holds for unions as well: `Ty.unionOf_map_rename`.
-/

namespace TolkAnalysis

namespace Ty

mutual

/-- The type with other names for its type parameters, also in their defaults. -/
def rename (f : String → String) : Ty → Ty
  | .struct n fields => .struct n (renameAll f fields)
  | .alias n inner => .alias n (inner.rename f)
  | .typeParam n none => .typeParam ⟨f n.name, n.anchor⟩ none
  | .typeParam n (some default) => .typeParam ⟨f n.name, n.anchor⟩ (some (default.rename f))
  | .tensor elements => .tensor (renameAll f elements)
  | .tuple elements => .tuple (renameAll f elements)
  | .union variants => .union (renameAll f variants)
  | .function params result => .function (renameAll f params) (result.rename f)
  | .instantiation inner args => .instantiation (inner.rename f) (renameAll f args)
  | t => t

/-- The types of a list with other names for their type parameters. -/
def renameAll (f : String → String) : List Ty → List Ty
  | [] => []
  | t :: ts => t.rename f :: renameAll f ts

end

variable {f : String → String} {R : String → String → Prop} {a p s t v : Ty}
  {ts variants args : List Ty}

@[simp] theorem renameAll_eq_map (ts : List Ty) : renameAll f ts = ts.map (rename f) := by
  induction ts with
  | nil => rfl
  | cons t ts ih => rw [renameAll, ih, List.map_cons]

theorem rename_of_isPrimitive (h : t.isPrimitive = true) : t.rename f = t := by
  cases t <;> first | rfl | cases h

theorem rename_typeParam (n : Nominal) (default : Option Ty) :
    (typeParam n default).rename f = .typeParam ⟨f n.name, n.anchor⟩ (default.map (rename f)) := by
  cases default <;> rfl

/-! ### What does not depend on names -/

/-- A renamed type is of the form of the type. -/
theorem sameForm_rename (h : ∀ name ∈ t.paramNames, R name (f name)) :
    SameForm R t (t.rename f) := by
  have all {ts : List Ty}
      (ih : ∀ t ∈ ts, (∀ name ∈ t.paramNames, R name (f name)) → SameForm R t (t.rename f))
      (h : ∀ name ∈ paramNamesOf ts, R name (f name)) :
      List.Forall₂ (SameForm R) ts (renameAll f ts) := by
    rw [renameAll_eq_map, List.forall₂_map_right_iff, List.forall₂_same]
    exact fun t ht => ih t ht fun name hname => h name (mem_paramNamesOf.mpr ⟨t, ht, hname⟩)
  induction t using inductionOnParts with
  | primitive t hprimitive =>
      rw [rename_of_isPrimitive hprimitive]
      exact .primitive hprimitive
  | builtin n => exact .builtin n
  | struct n fields => exact .struct n fields _
  | enum n => exact .enum n
  | aliasOf n inner ih => exact .aliasOf n (ih h)
  | typeParam n default =>
      rw [rename_typeParam]
      exact .typeParam _ _ (h n.name List.mem_cons_self)
  | tensor ts ih => exact .tensor (all ih h)
  | tuple ts ih => exact .tuple (all ih h)
  | union ts ih => exact .union (all ih h)
  | function params result ihparams ihresult =>
      obtain ⟨hparams, hresult⟩ := List.forall_mem_append.mp h
      exact .function (all ihparams hparams) (ihresult hresult)
  | instantiation inner args ihinner ihargs =>
      obtain ⟨hinner, hargs⟩ := List.forall_mem_append.mp h
      exact .instantiation (ihinner hinner) (all ihargs hargs)

theorem isOpen_rename : Substitution.isOpen (t.rename f) = Substitution.isOpen t := by
  cases t with
  | typeParam n default =>
      rw [rename_typeParam]
      rfl
  | _ => rfl

theorem exists_union_of_rename (h : t.rename f = .union ts) : ∃ variants, t = .union variants := by
  have hform : SameForm (fun _ _ => True) t (t.rename f) := sameForm_rename fun _ _ => trivial
  obtain ⟨variants, hvariants, -⟩ := (h ▸ hform).swap.exists_of_union
  exact ⟨variants, hvariants⟩

theorem exists_typeParam_of_rename {n : Nominal} {d : Option Ty} (h : t.rename f = .typeParam n d) :
    ∃ m e, t = .typeParam m e ∧ n.name = f m.name := by
  have hform : SameForm (fun name name' => name' = f name) t (t.rename f) :=
    sameForm_rename fun _ _ => rfl
  exact (h ▸ hform).swap.exists_of_typeParam

theorem baseType_rename : (t.rename f).baseType = t.baseType.rename f := by
  fun_induction baseType t with
  | case1 n inner ih => exact ih
  | case2 inner args ih => exact ih
  | case3 t halias hinst =>
      cases t <;> first
        | rfl
        | exact (halias _ _ rfl).elim
        | exact (hinst _ _ rfl).elim
        | simp [rename_typeParam, baseType]

theorem unwrapAlias_rename : (t.rename f).unwrapAlias = t.unwrapAlias.rename f := by
  fun_induction unwrapAlias t with
  | case1 n inner ih => exact ih
  | case2 n variants args => rfl
  | case3 n body args hbody ih =>
      rw [rename, rename, unwrapAlias.eq_3, ih, rename]
      intro variants heq
      obtain ⟨ts, rfl⟩ := exists_union_of_rename heq
      exact hbody ts rfl
  | case4 t halias hunion hinst =>
      cases t
      case instantiation inner args =>
        cases inner <;> first
          | rfl
          | exact (hinst _ _ _ rfl).elim
          | simp [rename, rename_typeParam, unwrapAlias]
      all_goals
        first
        | rfl
        | exact (halias _ _ rfl).elim
        | simp [rename_typeParam, unwrapAlias]

theorem unionParts_rename : (t.rename f).unionParts = t.unionParts.map (rename f) := by
  by_cases hunion : ∃ variants, t.baseType = .union variants
  · obtain ⟨variants, hvariants⟩ := hunion
    rw [unionParts, unionParts, baseType_rename, hvariants, rename, renameAll_eq_map]
  · rw [unionParts_eq_self fun variants hvariants => hunion ⟨variants, hvariants⟩,
      unionParts_eq_self, List.map_singleton]
    rw [baseType_rename]
    exact fun variants hvariants => hunion (exists_union_of_rename hvariants)

/-! ### Unions of renamed types -/

/-- The same variants stay. -/
theorem distinctVariants_map_rename (hR : Relator.BiUnique R)
    (h : ∀ t ∈ ts, ∀ name ∈ t.paramNames, R name (f name)) :
    distinctVariants (ts.map (rename f)) = (distinctVariants ts).map (rename f) := by
  have hvariants : List.Forall₂
      (fun s t => (∀ name ∈ s.paramNames, R name (f name)) ∧ s.rename f = t)
      (distinctVariants ts) (distinctVariants (ts.map (rename f))) := by
    refine forall₂_distinctVariants ?_ ?_ ?_
    · rintro s _ t _ ⟨hs, rfl⟩ ⟨ht, rfl⟩
      exact SameForm.duplicates_iff hR (sameForm_rename hs) (sameForm_rename ht)
    · rintro t _ ⟨ht, rfl⟩
      rw [unionParts_rename, List.forall₂_map_right_iff, List.forall₂_same]
      exact fun s hs => ⟨fun name hname => ht name (mem_paramNames_of_mem_unionParts hs hname), rfl⟩
    · rw [List.forall₂_map_right_iff, List.forall₂_same]
      exact fun t ht => ⟨h t ht, rfl⟩
  have heq := List.forall₂_map_left_iff.mpr (hvariants.imp fun _ _ h => h.2)
  rw [List.forall₂_eq_eq_eq] at heq
  exact heq.symm

theorem unionOf_map_rename (hR : Relator.BiUnique R)
    (h : ∀ t ∈ ts, ∀ name ∈ t.paramNames, R name (f name)) :
    unionOf (ts.map (rename f)) = (unionOf ts).rename f := by
  unfold unionOf
  rw [distinctVariants_map_rename hR h]
  match distinctVariants ts with
  | [] => rfl
  | [t] => rfl
  | s :: t :: rest => simp [rename]

end Ty

end TolkAnalysis
