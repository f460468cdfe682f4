import Mathlib.Data.List.Forall2
import TolkAnalysis.Proofs.Ty.Hereditary

/-!
# Equality of types is reflexive and symmetric

Equality looks at the form of its first argument and removes the aliases around its second,
so for each form there is a lemma that says what is left of the second argument. Lists are
compared by `List.Forall₂` and unions by their variants.
-/

namespace TolkAnalysis

namespace Ty

/-- The type is an alias. -/
def isAlias : Ty → Bool
  | .alias .. => true
  | _ => false

theorem exists_of_isAlias {t : Ty} (h : t.isAlias = true) : ∃ n inner, t = .alias n inner := by
  cases t <;> first | cases h; done | exact ⟨_, _, rfl⟩

theorem isAlias_of_isPrimitive {t : Ty} (h : t.isPrimitive = true) : t.isAlias = false := by
  cases t <;> first | rfl | cases h

theorem stripAliases_eq_self {t : Ty} (h : t.isAlias = false) : t.stripAliases = t := by
  cases t <;> first | rfl | cases h

@[simp] theorem isAlias_stripAliases (t : Ty) : t.stripAliases.isAlias = false := by
  fun_induction stripAliases t with
  | case1 n inner ih => exact ih
  | case2 t h =>
      cases t <;> first | rfl | exact (h _ _ rfl).elim

theorem unwrapAlias_stripAliases (t : Ty) : t.stripAliases.unwrapAlias = t.unwrapAlias := by
  fun_induction stripAliases t with
  | case1 n inner ih => exact ih
  | case2 t => rfl

@[simp] theorem stripAliases_stripAliases (t : Ty) : t.stripAliases.stripAliases = t.stripAliases :=
  stripAliases_eq_self (isAlias_stripAliases t)

/-! ### What equals a type of a given form -/

attribute [grind =] equals allEqual allAmong anyEqual

theorem allEqual_iff {ss ts : List Ty} :
    allEqual ss ts = true ↔ List.Forall₂ (fun s t => s.equals t = true) ss ts := by
  induction ss generalizing ts with
  | nil => cases ts <;> simp [allEqual]
  | cons s ss ih => cases ts <;> simp [allEqual, ih]

theorem allAmong_iff {ss ts : List Ty} :
    allAmong ss ts = true ↔ ∀ s ∈ ss, ∃ t ∈ ts, s.equals t = true := by
  induction ss with
  | nil => simp [allAmong]
  | cons s ss ih => simp [allAmong, ih]

theorem anyEqual_iff {ss : List Ty} {t : Ty} :
    anyEqual ss t = true ↔ ∃ s ∈ ss, s.equals t = true := by
  induction ss with
  | nil => simp [anyEqual]
  | cons s ss ih => simp [anyEqual, ih]

theorem equals_primitive {s t : Ty} (h : s.isPrimitive = true) :
    s.equals t = true ↔ t.stripAliases = s := by
  cases s <;> cases h <;> rw [equals] <;> split <;> grind

theorem equals_builtin {n : Nominal} {t : Ty} :
    (builtin n).equals t = true ↔ ∃ m, t.stripAliases = .builtin m ∧ n.name = m.name := by
  rw [equals]
  split <;> simp_all

theorem equals_struct {n : Nominal} {fields : List Ty} {t : Ty} :
    (struct n fields).equals t = true ↔
      ∃ m others, t.stripAliases = .struct m others ∧ n.name = m.name := by
  rw [equals]
  split <;> simp_all

theorem equals_enum {n : Nominal} {t : Ty} :
    (enum n).equals t = true ↔ ∃ m, t.stripAliases = .enum m ∧ n.name = m.name := by
  rw [equals]
  split <;> simp_all

theorem equals_typeParam {n : Nominal} {default : Option Ty} {t : Ty} :
    (typeParam n default).equals t = true ↔
      ∃ m other, t.stripAliases = .typeParam m other ∧ n.name = m.name := by
  rw [equals]
  split <;> simp_all

theorem equals_tensor {ss : List Ty} {t : Ty} :
    (tensor ss).equals t = true ↔
      ∃ ts, t.stripAliases = .tensor ts ∧ List.Forall₂ (fun s t => s.equals t = true) ss ts := by
  rw [equals]
  split <;> simp_all [allEqual_iff]

theorem equals_tuple {ss : List Ty} {t : Ty} :
    (tuple ss).equals t = true ↔
      ∃ ts, t.stripAliases = .tuple ts ∧ List.Forall₂ (fun s t => s.equals t = true) ss ts := by
  rw [equals]
  split <;> simp_all [allEqual_iff]

theorem equals_union {ss : List Ty} {t : Ty} :
    (union ss).equals t = true ↔
      ∃ ts, t.stripAliases = .union ts ∧ ss.length = ts.length ∧
        (∀ s ∈ ss, ∃ t ∈ ts, s.equals t = true) ∧ ∀ t ∈ ts, ∃ s ∈ ss, s.equals t = true := by
  rw [equals]
  split <;> simp_all [allAmong_iff, anyEqual_iff, and_assoc]

theorem equals_function {params : List Ty} {result t : Ty} :
    (function params result).equals t = true ↔
      ∃ params' result', t.stripAliases = .function params' result' ∧
        List.Forall₂ (fun s t => s.equals t = true) params params' ∧
        result.equals result' = true := by
  rw [equals]
  split <;> simp_all [allEqual_iff]

theorem equals_instantiation {inner : Ty} {args : List Ty} {t : Ty} :
    (instantiation inner args).equals t = true ↔
      ∃ inner' args', t.stripAliases = .instantiation inner' args' ∧
        inner.equals inner' = true ∧ List.Forall₂ (fun s t => s.equals t = true) args args' := by
  rw [equals]
  split <;> simp_all [allEqual_iff]

theorem equals_alias_alias {n m : Nominal} {s t : Ty} :
    (Ty.alias n s).equals (.alias m t) = true ↔ n.name = m.name ∧ s.equals t = true := by
  simp [equals]

theorem equals_alias_left {n : Nominal} {s t : Ty} (ht : t.isAlias = false) :
    (Ty.alias n s).equals t = s.equals t := by
  rw [equals]
  rintro m inner rfl
  cases ht

/-- A type that is not an alias is compared with what aliases stand for. -/
theorem equals_stripAliases_right {s t : Ty} (hs : s.isAlias = false) :
    s.equals t.stripAliases = s.equals t := by
  cases s <;> first | cases hs; done | simp only [equals, stripAliases_stripAliases]

theorem equals_alias_right {n : Nominal} {s t : Ty} (hs : s.isAlias = false) :
    s.equals (Ty.alias n t) = s.equals t := by
  rw [← equals_stripAliases_right hs, stripAliases, equals_stripAliases_right hs]

theorem equals_stripAliases_left {s t : Ty} (ht : t.isAlias = false) :
    s.stripAliases.equals t = s.equals t := by
  fun_induction stripAliases s with
  | case1 n inner ih => rw [ih, equals_alias_left ht]
  | case2 s => rfl

/-! ### Laws -/

theorem equals_symm {s t : Ty} (h : s.equals t = true) : t.equals s = true := by
  -- A type that is not an alias on the left leaves a form on the right, up to aliases.
  have strip {s t u : Ty} (hs : s.isAlias = false) (hu : t.stripAliases = u)
      (h : u.equals s = true) : t.equals s = true := by
    rw [← equals_stripAliases_left hs, hu]
    exact h
  have flip {ss ts : List Ty} (hss : ∀ s ∈ ss, ∀ {t : Ty}, s.equals t = true → t.equals s = true)
      (h : List.Forall₂ (fun s t => s.equals t = true) ss ts) :
      List.Forall₂ (fun s t => s.equals t = true) ts ss := by
    induction h with
    | nil => exact .nil
    | cons hst _ ih =>
        rw [List.forall_mem_cons] at hss
        exact .cons (hss.1 hst) (ih hss.2)
  induction s using inductionOnParts generalizing t with
  | primitive s hs =>
      have halias := isAlias_of_isPrimitive hs
      exact strip halias ((equals_primitive hs).mp h)
        ((equals_primitive hs).mpr (stripAliases_eq_self halias))
  | builtin n =>
      obtain ⟨m, hm, hname⟩ := equals_builtin.mp h
      exact strip rfl hm (equals_builtin.mpr ⟨n, rfl, hname.symm⟩)
  | struct n fields =>
      obtain ⟨m, others, hm, hname⟩ := equals_struct.mp h
      exact strip rfl hm (equals_struct.mpr ⟨n, fields, rfl, hname.symm⟩)
  | enum n =>
      obtain ⟨m, hm, hname⟩ := equals_enum.mp h
      exact strip rfl hm (equals_enum.mpr ⟨n, rfl, hname.symm⟩)
  | aliasOf n s ih =>
      cases ht : t.isAlias with
      | false =>
          rw [equals_alias_left ht] at h
          rw [equals_alias_right ht]
          exact ih h
      | true =>
          obtain ⟨m, t, rfl⟩ := exists_of_isAlias ht
          obtain ⟨hname, hinner⟩ := equals_alias_alias.mp h
          exact equals_alias_alias.mpr ⟨hname.symm, ih hinner⟩
  | typeParam n default =>
      obtain ⟨m, other, hm, hname⟩ := equals_typeParam.mp h
      exact strip rfl hm (equals_typeParam.mpr ⟨n, default, rfl, hname.symm⟩)
  | tensor ss ih =>
      obtain ⟨ts, hts, hall⟩ := equals_tensor.mp h
      exact strip rfl hts (equals_tensor.mpr ⟨ss, rfl, flip @ih hall⟩)
  | tuple ss ih =>
      obtain ⟨ts, hts, hall⟩ := equals_tuple.mp h
      exact strip rfl hts (equals_tuple.mpr ⟨ss, rfl, flip @ih hall⟩)
  | union ss ih =>
      obtain ⟨ts, hts, hlength, hleft, hright⟩ := equals_union.mp h
      refine strip rfl hts (equals_union.mpr ⟨ss, rfl, hlength.symm, fun t ht => ?_, fun s hs => ?_⟩)
      · obtain ⟨s, hs, hst⟩ := hright t ht
        exact ⟨s, hs, ih s hs hst⟩
      · obtain ⟨t, ht, hst⟩ := hleft s hs
        exact ⟨t, ht, ih s hs hst⟩
  | function params result ihparams ihresult =>
      obtain ⟨params', result', ht, hparams, hresult⟩ := equals_function.mp h
      exact strip rfl ht (equals_function.mpr
        ⟨params, result, rfl, flip @ihparams hparams, ihresult hresult⟩)
  | instantiation inner args ihinner ihargs =>
      obtain ⟨inner', args', ht, hinner, hargs⟩ := equals_instantiation.mp h
      exact strip rfl ht (equals_instantiation.mpr
        ⟨inner, args, rfl, ihinner hinner, flip @ihargs hargs⟩)

theorem forall₂_equals_symm {ss ts : List Ty}
    (h : List.Forall₂ (fun s t => s.equals t = true) ss ts) :
    List.Forall₂ (fun s t => s.equals t = true) ts ss :=
  List.Forall₂.flip (h.imp fun _ _ => equals_symm)

theorem equals_comm (s t : Ty) : s.equals t = t.equals s :=
  Bool.eq_iff_iff.mpr ⟨equals_symm, equals_symm⟩

theorem equals_refl (t : Ty) : t.equals t = true := by
  have same {ts : List Ty} (h : ∀ t ∈ ts, t.equals t = true) :
      List.Forall₂ (fun s t => s.equals t = true) ts ts :=
    List.forall₂_same.mpr h
  induction t using inductionOnParts with
  | primitive t ht =>
      exact (equals_primitive ht).mpr (stripAliases_eq_self (isAlias_of_isPrimitive ht))
  | builtin n => exact equals_builtin.mpr ⟨n, rfl, rfl⟩
  | struct n fields => exact equals_struct.mpr ⟨n, fields, rfl, rfl⟩
  | enum n => exact equals_enum.mpr ⟨n, rfl, rfl⟩
  | aliasOf n t ih => exact equals_alias_alias.mpr ⟨rfl, ih⟩
  | typeParam n default => exact equals_typeParam.mpr ⟨n, default, rfl, rfl⟩
  | tensor ts ih => exact equals_tensor.mpr ⟨ts, rfl, same ih⟩
  | tuple ts ih => exact equals_tuple.mpr ⟨ts, rfl, same ih⟩
  | union ts ih =>
      exact equals_union.mpr ⟨ts, rfl, rfl, fun t ht => ⟨t, ht, ih t ht⟩, fun t ht => ⟨t, ht, ih t ht⟩⟩
  | function params result ihparams ihresult =>
      exact equals_function.mpr ⟨params, result, rfl, same ihparams, ihresult⟩
  | instantiation inner args ihinner ihargs =>
      exact equals_instantiation.mpr ⟨inner, args, rfl, ihinner, same ihargs⟩

end Ty

end TolkAnalysis
