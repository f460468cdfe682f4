import TolkAnalysis.Inference.Expression
import TolkAnalysis.Proofs.Ty.JoinOrder
import TolkAnalysis.Proofs.Ty.Pairing
import TolkAnalysis.Proofs.Ty.Substitution
import TolkAnalysis.Resolution.Member

/-!
# Types that come from other declarations

A named type may carry the declaration that it comes from. `Ty.reanchor f` replaces each declaration
in a type by what `f` makes of it and leaves all names. Types are compared by names, so whatever the
rules for types make of types that come from other declarations comes from these: parts, unions,
joins, substitutions and learned bindings.
-/

namespace TolkAnalysis

variable {f : Decl → Decl}

/-- The name with another declaration. -/
def Nominal.reanchor (f : Decl → Decl) (n : Nominal) : Nominal := ⟨n.name, n.anchor.map f⟩

@[simp] theorem Nominal.name_reanchor (f : Decl → Decl) (n : Nominal) :
    (n.reanchor f).name = n.name := rfl

@[simp] theorem Nominal.anchor_reanchor (f : Decl → Decl) (n : Nominal) :
    (n.reanchor f).anchor = n.anchor.map f := rfl

namespace Ty

mutual

/-- The type with other declarations, at every depth. -/
def reanchor (f : Decl → Decl) : Ty → Ty
  | .builtin n => .builtin (n.reanchor f)
  | .struct n fields => .struct (n.reanchor f) (reanchorAll f fields)
  | .enum n => .enum (n.reanchor f)
  | .alias n inner => .alias (n.reanchor f) (inner.reanchor f)
  | .typeParam n none => .typeParam (n.reanchor f) none
  | .typeParam n (some default) => .typeParam (n.reanchor f) (some (default.reanchor f))
  | .tensor elements => .tensor (reanchorAll f elements)
  | .tuple elements => .tuple (reanchorAll f elements)
  | .union variants => .union (reanchorAll f variants)
  | .function params result => .function (reanchorAll f params) (result.reanchor f)
  | .instantiation inner args => .instantiation (inner.reanchor f) (reanchorAll f args)
  | t => t

/-- The types of a list with other declarations. -/
def reanchorAll (f : Decl → Decl) : List Ty → List Ty
  | [] => []
  | t :: ts => t.reanchor f :: reanchorAll f ts

end

@[simp] theorem reanchorAll_eq_map (ts : List Ty) : reanchorAll f ts = ts.map (reanchor f) := by
  induction ts with
  | nil => rfl
  | cons t ts ih => rw [reanchorAll, ih, List.map_cons]

theorem length_reanchorAll (ts : List Ty) : (reanchorAll f ts).length = ts.length := by
  rw [reanchorAll_eq_map, List.length_map]

theorem reanchor_typeParam (n : Nominal) (default : Option Ty) :
    (typeParam n default).reanchor f = .typeParam (n.reanchor f) (default.map (reanchor f)) := by
  cases default <;> rfl

theorem reanchor_tensor (ts : List Ty) : (tensor ts).reanchor f = .tensor (reanchorAll f ts) := rfl

theorem reanchor_tuple (ts : List Ty) : (tuple ts).reanchor f = .tuple (reanchorAll f ts) := rfl

theorem reanchor_of_isPrimitive {t : Ty} (h : t.isPrimitive = true) : t.reanchor f = t := by
  cases t <;> first | rfl | cases h

theorem reanchor_eq_iff_of_isPrimitive {s t : Ty} (h : s.isPrimitive = true) :
    t.reanchor f = s ↔ t = s := by
  constructor
  · rintro rfl
    cases t <;> first | rfl | cases h | (rw [reanchor_typeParam] at h; cases h)
  · rintro rfl
    exact reanchor_of_isPrimitive h

theorem nullableInner?_map_reanchor (ts : List Ty) :
    nullableInner? (ts.map (reanchor f)) = (nullableInner? ts).map (reanchor f) := by
  match ts with
  | [] | [_] | _ :: _ :: _ :: _ => simp [nullableInner?]
  | [s, t] =>
      by_cases hs : s = .null
      · subst hs
        rfl
      · by_cases ht : t = .null
        · subst ht
          cases s <;> first
            | rfl
            | exact absurd rfl hs
            | simp [reanchor_typeParam, nullableInner?, reanchor]
        · cases s <;> cases t <;>
            first
            | rfl
            | exact absurd rfl hs
            | exact absurd rfl ht
            | simp [reanchor_typeParam, nullableInner?, reanchor]

/-! ### Names -/

theorem name_union (variants : List Ty) : (union variants).name =
    match nullableInner? variants with
    | some t => t.name ++ "?"
    | none => String.intercalate " | " (names variants) := by
  match variants with
  | [] | [_] | _ :: _ :: _ :: _ => simp [name, nullableInner?]
  | [s, t] => cases s <;> cases t <;> simp [name, nullableInner?]

mutual

@[simp] theorem name_reanchor : ∀ t : Ty, (t.reanchor f).name = t.name
  | .union variants => by
      rw [reanchor, name_union, name_union, reanchorAll_eq_map, nullableInner?_map_reanchor,
        ← reanchorAll_eq_map, names_reanchor variants]
      cases hinner : nullableInner? variants with
      | none => rfl
      | some t =>
          have := List.sizeOf_lt_of_mem (mem_of_nullableInner? hinner)
          exact congrArg (· ++ "?") (name_reanchor t)
  | .tensor ts => by rw [reanchor, name, names_reanchor ts, name]
  | .tuple ts => by rw [reanchor, name, names_reanchor ts, name]
  | .function params result => by
      rw [reanchor, name, names_reanchor params, name_reanchor result, name]
  | .instantiation inner args => by
      rw [reanchor, name, names_reanchor args, name_reanchor inner, name]
  | .typeParam n default => by
      rw [reanchor_typeParam]
      rfl
  | .builtin _ | .struct .. | .enum _ | .alias .. => rfl
  | .int | .intN .. | .varIntN .. | .coins | .bool | .bitsN _ | .bytesN _ | .null | .void | .never
  | .unknown => rfl

theorem names_reanchor : ∀ ts : List Ty, names (reanchorAll f ts) = names ts
  | [] => rfl
  | t :: ts => by rw [reanchorAll, names, name_reanchor t, names_reanchor ts, names]

end

@[simp] theorem nominal?_reanchor (t : Ty) :
    (t.reanchor f).nominal? = t.nominal?.map (Nominal.reanchor f) := by
  cases t with
  | typeParam n default =>
      rw [reanchor_typeParam]
      rfl
  | _ => rfl

@[simp] theorem anchor?_reanchor (t : Ty) : (t.reanchor f).anchor? = t.anchor?.map f := by
  rw [anchor?, nominal?_reanchor, anchor?]
  cases t.nominal? <;> rfl

/-! ### Equality -/

theorem stripAliases_reanchor (t : Ty) : (t.reanchor f).stripAliases = t.stripAliases.reanchor f := by
  fun_induction stripAliases t with
  | case1 n inner ih => exact ih
  | case2 t halias =>
      cases t with
      | «alias» n inner => exact absurd rfl (halias n inner)
      | typeParam n default =>
          rw [reanchor_typeParam]
          rfl
      | _ => rfl

theorem equals_reanchor_of_isPrimitive {s : Ty} (h : s.isPrimitive = true) (t : Ty) :
    (s.reanchor f).equals (t.reanchor f) = s.equals t := by
  rw [Bool.eq_iff_iff, reanchor_of_isPrimitive h, equals_primitive h, equals_primitive h,
    stripAliases_reanchor, reanchor_eq_iff_of_isPrimitive h]

theorem isAlias_reanchor (t : Ty) : (t.reanchor f).isAlias = t.isAlias := by
  cases t with
  | typeParam n default =>
      rw [reanchor_typeParam]
      rfl
  | _ => rfl

mutual

@[simp] theorem equals_reanchor : ∀ s t : Ty, (s.reanchor f).equals (t.reanchor f) = s.equals t
  | .alias n s, t => by
      cases ht : t.isAlias with
      | false =>
          rw [reanchor, equals_alias_left (isAlias_reanchor t ▸ ht), equals_alias_left ht,
            equals_reanchor s t]
      | true =>
          obtain ⟨m, t, rfl⟩ := exists_of_isAlias ht
          rw [reanchor, reanchor, equals, equals, equals_reanchor s t]
          rfl
  | .typeParam n default, t => by
      rw [reanchor_typeParam, equals, stripAliases_reanchor, equals]
      cases t.stripAliases with
      | typeParam m other =>
          rw [reanchor_typeParam]
          rfl
      | _ => rfl
  | .union ss, t => by
      have hunion (ts : List Ty) : ((reanchorAll f ss).length == (reanchorAll f ts).length &&
          allAmong (reanchorAll f ss) (reanchorAll f ts) &&
          (reanchorAll f ts).all (anyEqual (reanchorAll f ss))) =
            (ss.length == ts.length && allAmong ss ts && ts.all (anyEqual ss)) := by
        rw [allAmong_reanchor ss ts]
        simp only [reanchorAll_eq_map, List.length_map, List.all_map]
        simp only [← reanchorAll_eq_map, Function.comp_def, anyEqual_reanchor ss]
      rw [reanchor, equals, stripAliases_reanchor, equals]
      cases t.stripAliases with
      | union ts => exact hunion ts
      | typeParam m other =>
          rw [reanchor_typeParam]
      | _ => rfl
  | .tensor ss, t => by
      rw [reanchor, equals, stripAliases_reanchor, equals]
      cases t.stripAliases with
      | tensor ts => exact allEqual_reanchor ss ts
      | typeParam m other => rw [reanchor_typeParam]
      | _ => rfl
  | .tuple ss, t => by
      rw [reanchor, equals, stripAliases_reanchor, equals]
      cases t.stripAliases with
      | tuple ts => exact allEqual_reanchor ss ts
      | typeParam m other => rw [reanchor_typeParam]
      | _ => rfl
  | .function ps r, t => by
      have hr := equals_reanchor r
      rw [reanchor, equals, stripAliases_reanchor, equals]
      cases t.stripAliases with
      | function ps' r' => exact congrArg₂ (· && ·) (allEqual_reanchor ps ps') (hr r')
      | typeParam m other => rw [reanchor_typeParam]
      | _ => rfl
  | .instantiation s args, t => by
      have hs := equals_reanchor s
      rw [reanchor, equals, stripAliases_reanchor, equals]
      cases t.stripAliases with
      | instantiation s' args' => exact congrArg₂ (· && ·) (hs s') (allEqual_reanchor args args')
      | typeParam m other => rw [reanchor_typeParam]
      | _ => rfl
  | .builtin _, t | .struct .., t | .enum _, t => by
      rw [reanchor, equals, stripAliases_reanchor, equals]
      cases t.stripAliases with
      | typeParam m other => rw [reanchor_typeParam]
      | _ => rfl
  | .int, t | .intN .., t | .varIntN .., t | .coins, t | .bool, t | .bitsN _, t | .bytesN _, t
  | .null, t | .void, t | .never, t | .unknown, t => equals_reanchor_of_isPrimitive rfl t

theorem allEqual_reanchor : ∀ ss ts : List Ty,
    allEqual (reanchorAll f ss) (reanchorAll f ts) = allEqual ss ts
  | [], [] | [], _ :: _ | _ :: _, [] => by simp [allEqual]
  | s :: ss, t :: ts => by
      rw [reanchorAll, reanchorAll, allEqual, equals_reanchor s t, allEqual_reanchor ss ts, allEqual]

theorem allAmong_reanchor : ∀ ss ts : List Ty,
    allAmong (reanchorAll f ss) (reanchorAll f ts) = allAmong ss ts
  | [], _ => by rw [reanchorAll, allAmong, allAmong]
  | s :: ss, ts => by
      have hs := equals_reanchor s
      rw [reanchorAll, allAmong, allAmong_reanchor ss ts, reanchorAll_eq_map, List.any_map, allAmong]
      simp only [Function.comp_def, hs]

theorem anyEqual_reanchor : ∀ (ss : List Ty) (t : Ty),
    anyEqual (reanchorAll f ss) (t.reanchor f) = anyEqual ss t
  | [], _ => by rw [reanchorAll, anyEqual, anyEqual]
  | s :: ss, t => by
      rw [reanchorAll, anyEqual, equals_reanchor s t, anyEqual_reanchor ss t, anyEqual]

end

/-! ### What is taken off a type -/

mutual

@[simp] theorem hasGenerics_reanchor : ∀ t : Ty, (t.reanchor f).hasGenerics = t.hasGenerics
  | .alias _ inner => by rw [reanchor, hasGenerics, hasGenerics_reanchor inner, hasGenerics]
  | .typeParam n default => by
      rw [reanchor_typeParam]
      rfl
  | .tensor ts | .tuple ts | .union ts => by
      rw [reanchor, hasGenerics, anyHasGenerics_reanchor ts, hasGenerics]
  | .function params result => by
      rw [reanchor, hasGenerics, anyHasGenerics_reanchor params, hasGenerics_reanchor result,
        hasGenerics]
  | .instantiation inner args => by
      rw [reanchor, hasGenerics, anyHasGenerics_reanchor args, hasGenerics]
  | .builtin _ | .struct .. | .enum _ => rfl
  | .int | .intN .. | .varIntN .. | .coins | .bool | .bitsN _ | .bytesN _ | .null | .void | .never
  | .unknown => rfl

theorem anyHasGenerics_reanchor : ∀ ts : List Ty,
    anyHasGenerics (reanchorAll f ts) = anyHasGenerics ts
  | [] => rfl
  | t :: ts => by
      rw [reanchorAll, anyHasGenerics, hasGenerics_reanchor t, anyHasGenerics_reanchor ts,
        anyHasGenerics]

end

@[simp] theorem baseType_reanchor (t : Ty) : (t.reanchor f).baseType = t.baseType.reanchor f := by
  fun_induction baseType t with
  | case1 n inner ih => exact ih
  | case2 inner args ih => exact ih
  | case3 t halias hinst =>
      cases t <;> first
        | rfl
        | exact (halias _ _ rfl).elim
        | exact (hinst _ _ rfl).elim
        | (rw [reanchor_typeParam]; rfl)

@[simp] theorem unwrapInstantiation_reanchor (t : Ty) :
    (t.reanchor f).unwrapInstantiation = t.unwrapInstantiation.reanchor f := by
  fun_induction unwrapInstantiation t with
  | case1 inner args ih => exact ih
  | case2 t hinst =>
      cases t <;> first
        | rfl
        | exact (hinst _ _ rfl).elim
        | (rw [reanchor_typeParam]; rfl)

theorem exists_union_of_reanchor {t : Ty} {ts : List Ty} (h : t.reanchor f = .union ts) :
    ∃ variants, t = .union variants := by
  cases t <;> first | exact ⟨_, rfl⟩ | cases h | (rw [reanchor_typeParam] at h; cases h)

@[simp] theorem unwrapAlias_reanchor (t : Ty) :
    (t.reanchor f).unwrapAlias = t.unwrapAlias.reanchor f := by
  fun_induction unwrapAlias t with
  | case1 n inner ih => exact ih
  | case2 n variants args => rfl
  | case3 n body args hbody ih =>
      rw [reanchor, reanchor, unwrapAlias.eq_3, ih, reanchor]
      intro variants heq
      obtain ⟨ts, rfl⟩ := exists_union_of_reanchor heq
      exact hbody ts rfl
  | case4 t halias hunion hinst =>
      cases t
      case instantiation inner args =>
        cases inner <;> first
          | rfl
          | exact (hinst _ _ _ rfl).elim
          | simp [reanchor, reanchor_typeParam, unwrapAlias]
      all_goals
        first
        | rfl
        | exact (halias _ _ rfl).elim
        | simp [reanchor_typeParam, unwrapAlias]

@[simp] theorem unwrapOption_reanchor (t : Ty) :
    (t.reanchor f).unwrapOption = t.unwrapOption.reanchor f := by
  unfold unwrapOption
  rw [unwrapAlias_reanchor]
  cases t.unwrapAlias with
  | union variants =>
      rw [reanchor, reanchorAll_eq_map]
      dsimp only
      rw [nullableInner?_map_reanchor]
      cases nullableInner? variants <;> rfl
  | typeParam n default => rw [reanchor_typeParam]
  | _ => rfl

@[simp] theorem elements?_reanchor (t : Ty) :
    (t.reanchor f).elements? = t.elements?.map (List.map (reanchor f)) := by
  unfold elements?
  rw [unwrapAlias_reanchor]
  cases t.unwrapAlias with
  | tensor ts => exact congrArg some (reanchorAll_eq_map ts)
  | tuple ts => exact congrArg some (reanchorAll_eq_map ts)
  | typeParam n default => rw [reanchor_typeParam]; rfl
  | _ => rfl

theorem typeArgs_reanchor (t : Ty) : (t.reanchor f).typeArgs = reanchorAll f t.typeArgs := by
  cases t with
  | typeParam n default => rw [reanchor_typeParam]; rfl
  | _ => rfl

/-! ### Unions and joins -/

theorem unionParts_reanchor (t : Ty) : (t.reanchor f).unionParts = t.unionParts.map (reanchor f) := by
  unfold unionParts
  rw [baseType_reanchor]
  cases t.baseType with
  | union variants => exact reanchorAll_eq_map variants
  | typeParam n default => rw [reanchor_typeParam]; rfl
  | _ => rfl

theorem addVariant_reanchor (found : List Ty) (t : Ty) :
    addVariant (found.map (reanchor f)) (t.reanchor f) = (addVariant found t).map (reanchor f) := by
  unfold addVariant
  rw [List.any_map]
  simp only [Function.comp_def, unwrapAlias_reanchor, equals_reanchor]
  split
  · rfl
  · rw [List.map_append, List.map_singleton]

theorem distinctVariants_reanchor (ts : List Ty) :
    distinctVariants (ts.map (reanchor f)) = (distinctVariants ts).map (reanchor f) := by
  have fold (parts found : List Ty) :
      (parts.map (reanchor f)).foldl addVariant (found.map (reanchor f)) =
        (parts.foldl addVariant found).map (reanchor f) := by
    induction parts generalizing found with
    | nil => rfl
    | cons t parts ih => rw [List.map_cons, List.foldl_cons, addVariant_reanchor, ih, List.foldl_cons]
  unfold distinctVariants
  rw [List.flatMap_map]
  simp only [unionParts_reanchor, ← List.map_flatMap]
  exact fold _ []

@[simp] theorem unionOf_reanchor (ts : List Ty) :
    unionOf (ts.map (reanchor f)) = (unionOf ts).reanchor f := by
  unfold unionOf
  rw [distinctVariants_reanchor]
  match distinctVariants ts with
  | [] => rfl
  | [t] => rfl
  | s :: t :: rest => simp [reanchor]

@[simp] theorem nullable_reanchor (t : Ty) : nullable (t.reanchor f) = (nullable t).reanchor f :=
  unionOf_reanchor [t, .null]

/-- Two tensors, or two tuples, come from two such. -/
theorem exists_inStep_of_reanchor {s t : Ty} {ss ts : List Ty}
    (h : InStep (s.reanchor f) (t.reanchor f) ss ts) : ∃ ss' ts', InStep s t ss' ts' := by
  have htensor {u : Ty} {us : List Ty} (h : u.reanchor f = .tensor us) :
      ∃ us', u = .tensor us' ∧ us'.length = us.length := by
    cases u <;> first
      | exact ⟨_, rfl, by rw [← Ty.tensor.inj h, reanchorAll_eq_map, List.length_map]⟩
      | cases h
      | (rw [reanchor_typeParam] at h; cases h)
  have htuple {u : Ty} {us : List Ty} (h : u.reanchor f = .tuple us) :
      ∃ us', u = .tuple us' ∧ us'.length = us.length := by
    cases u <;> first
      | exact ⟨_, rfl, by rw [← Ty.tuple.inj h, reanchorAll_eq_map, List.length_map]⟩
      | cases h
      | (rw [reanchor_typeParam] at h; cases h)
  generalize hs : s.reanchor f = s' at h
  generalize ht : t.reanchor f = t' at h
  cases h with
  | tensor hlength =>
      obtain ⟨ss', rfl, hss⟩ := htensor hs
      obtain ⟨ts', rfl, hts⟩ := htensor ht
      exact ⟨ss', ts', .tensor (hss.trans (hlength.trans hts.symm))⟩
  | tuple hlength =>
      obtain ⟨ss', rfl, hss⟩ := htuple hs
      obtain ⟨ts', rfl, hts⟩ := htuple ht
      exact ⟨ss', ts', .tuple (hss.trans (hlength.trans hts.symm))⟩

mutual

@[simp] theorem join_reanchor (s t : Ty) :
    join (s.reanchor f) (t.reanchor f) = (join s t).reanchor f := by
  have hne {p : Ty} (hp : p.isPrimitive = true) {u : Ty} (hu : u ≠ p) : u.reanchor f ≠ p :=
    fun heq => hu ((reanchor_eq_iff_of_isPrimitive hp).mp heq)
  cases hst : s.equals t with
  | true => rw [join_of_equals (equals_reanchor s t ▸ hst), join_of_equals hst]
  | false =>
      have hst' : (s.reanchor f).equals (t.reanchor f) = false := (equals_reanchor s t).trans hst
      by_cases hunknown : t = .unknown
      · subst hunknown
        exact (join_unknown_right hst').trans (congrArg (reanchor f) (join_unknown_right hst)).symm
      by_cases hnever : t = .never
      · subst hnever
        exact (join_never_right _).trans (congrArg (reanchor f) (join_never_right s)).symm
      by_cases hsnever : s = .never
      · subst hsnever
        exact (join_never_left hst').trans (congrArg (reanchor f) (join_never_left hst)).symm
      by_cases hnull : t = .null
      · subst hnull
        rw [join_null_right hst hsnever, ← nullable_reanchor]
        exact join_null_right hst' (hne rfl hsnever)
      cases hs : s.isAlias with
      | true =>
          obtain ⟨n, s, rfl⟩ := exists_of_isAlias hs
          rw [join_alias_left hst hunknown hnever hnull, ← join_reanchor s t]
          exact join_alias_left hst' (hne rfl hunknown) (hne rfl hnever) (hne rfl hnull)
      | false =>
          have hs' := (isAlias_reanchor (f := f) s).trans hs
          cases ht : t.isAlias with
          | true =>
              obtain ⟨n, t, rfl⟩ := exists_of_isAlias ht
              rw [join_alias_right hst hs hsnever, ← join_reanchor s t]
              exact join_alias_right hst' hs' (hne rfl hsnever)
          | false =>
              by_cases hstep : ∃ ss ts, InStep s t ss ts
              · obtain ⟨ss, ts, hstep⟩ := hstep
                cases hstep with
                | tensor hlength =>
                    rw [join_tensor hst hlength, reanchor_tensor (joinAll ss ts),
                      ← joinAll_reanchor ss ts]
                    exact join_tensor hst' (by simpa using hlength)
                | tuple hlength =>
                    rw [join_tuple hst hlength, reanchor_tuple (joinAll ss ts),
                      ← joinAll_reanchor ss ts]
                    exact join_tuple hst' (by simpa using hlength)
              · rw [join_eq_unionOf hst hs ht hsnever hnever hunknown
                  fun ss ts h => hstep ⟨ss, ts, h⟩, ← unionOf_reanchor]
                exact join_eq_unionOf hst' hs' ((isAlias_reanchor t).trans ht) (hne rfl hsnever)
                  (hne rfl hnever) (hne rfl hunknown)
                  fun ss ts h => hstep (exists_inStep_of_reanchor h)
termination_by sizeOf s + sizeOf t

theorem joinAll_reanchor (ss ts : List Ty) :
    joinAll (reanchorAll f ss) (reanchorAll f ts) = reanchorAll f (joinAll ss ts) := by
  match ss, ts with
  | s :: ss, t :: ts =>
      rw [reanchorAll, reanchorAll, joinAll, join_reanchor s t, joinAll_reanchor ss ts, joinAll,
        reanchorAll]
  | [], _ => simp [joinAll]
  | _ :: _, [] => simp [joinAll]
termination_by sizeOf ss + sizeOf ts

end

theorem joinList?_reanchor (ts : List Ty) :
    joinList? (ts.map (reanchor f)) = (joinList? ts).map (reanchor f) := by
  cases ts with
  | nil => rfl
  | cons t ts =>
      refine congrArg some ?_
      induction ts generalizing t with
      | nil => rfl
      | cons s ts ih => rw [List.map_cons, List.foldl_cons, join_reanchor, ih, List.foldl_cons]

end Ty

/-! ### Substitutions -/

namespace Substitution

open Ty

/-- The second substitution binds the names to the types with other declarations. -/
def Reanchors (f : Decl → Decl) (σ σ' : Substitution) : Prop :=
  ∀ name, σ'.get? name = (σ.get? name).map (reanchor f)

variable {σ σ' : Substitution}

theorem reanchors_empty : Reanchors f empty empty := fun name => by rw [get?_empty, Option.map_none]

theorem Reanchors.insert (h : Reanchors f σ σ') (name : String) (t : Ty) :
    Reanchors f (σ.insert name t) (σ'.insert name (t.reanchor f)) := fun other => by
  rw [get?_insert, get?_insert, h other]
  split <;> rfl

theorem reanchors_ofList (bindings : List (String × Ty)) :
    Reanchors f (ofList bindings) (ofList (bindings.map fun b => (b.1, b.2.reanchor f))) := by
  have fold (bindings : List (String × Ty)) {σ σ' : Substitution} (h : Reanchors f σ σ') :
      Reanchors f (bindings.foldl (fun σ b => σ.insert b.1 b.2) σ)
        ((bindings.map fun b => (b.1, b.2.reanchor f)).foldl (fun σ b => σ.insert b.1 b.2) σ') := by
    induction bindings generalizing σ σ' with
    | nil => exact h
    | cons b bindings ih => exact ih (h.insert b.1 b.2)
  exact fold bindings reanchors_empty

theorem reanchors_ofParams (params args : List Ty) :
    Reanchors f (ofParams params args)
      (ofParams (params.map (reanchor f)) (args.map (reanchor f))) := by
  unfold ofParams
  rw [List.zip_map, List.filterMap_map]
  refine cast (congrArg (fun bindings => Reanchors f _ (ofList bindings)) ?_) (reanchors_ofList _)
  rw [List.map_filterMap]
  refine List.filterMap_congr fun b _ => ?_
  simp only [Function.comp_apply, Prod.map, nominal?_reanchor, Option.map_map]
  rfl

theorem Reanchors.isEmpty_eq (h : Reanchors f σ σ') : σ'.isEmpty = σ.isEmpty := by
  have isEmpty_iff (τ : Substitution) : τ.isEmpty = true ↔ ∀ name, τ.get? name = none := by
    refine Std.HashMap.isEmpty_iff_forall_not_mem.trans (forall_congr' fun name => ?_)
    rw [Std.HashMap.mem_iff_isSome_getElem?, Bool.not_eq_true, Option.isSome_eq_false_iff,
      Option.isNone_iff_eq_none, get?]
  rw [Bool.eq_iff_iff, isEmpty_iff, isEmpty_iff]
  exact forall_congr' fun name => by rw [h name, Option.map_eq_none_iff]

end Substitution

namespace Ty

open Substitution

variable {σ σ' : Substitution}

mutual

theorem replaceParams_reanchor (h : Reanchors f σ σ') : ∀ t : Ty,
    (t.reanchor f).replaceParams σ' = (t.replaceParams σ).reanchor f
  | .typeParam n default => by
      rw [reanchor_typeParam, replaceParams, replaceParams, Nominal.name_reanchor, h n.name]
      cases σ.get? n.name with
      | none => exact (reanchor_typeParam n default).symm
      | some t => rfl
  | .struct n fields => congrArg _ (replaceAll_reanchor h fields)
  | .alias n inner => congrArg _ (replaceParams_reanchor h inner)
  | .tensor ts => congrArg _ (replaceAll_reanchor h ts)
  | .tuple ts => congrArg _ (replaceAll_reanchor h ts)
  | .union ts => by
      rw [reanchor, replaceParams, replaceAll_reanchor h ts, reanchorAll_eq_map, unionOf_reanchor,
        replaceParams]
  | .function params result =>
      congrArg₂ _ (replaceAll_reanchor h params) (replaceParams_reanchor h result)
  | .instantiation inner args =>
      congrArg₂ _ (replaceParams_reanchor h inner) (replaceAll_reanchor h args)
  | .builtin _ | .enum _ => rfl
  | .int | .intN .. | .varIntN .. | .coins | .bool | .bitsN _ | .bytesN _ | .null | .void | .never
  | .unknown => rfl

theorem replaceAll_reanchor (h : Reanchors f σ σ') : ∀ ts : List Ty,
    replaceAll σ' (reanchorAll f ts) = reanchorAll f (replaceAll σ ts)
  | [] => rfl
  | t :: ts => congrArg₂ List.cons (replaceParams_reanchor h t) (replaceAll_reanchor h ts)

end

theorem substitute_reanchor (h : Reanchors f σ σ') (t : Ty) :
    (t.reanchor f).substitute σ' = (t.substitute σ).reanchor f := by
  rw [substitute, h.isEmpty_eq, replaceParams_reanchor h, substitute]
  split <;> rfl

end Ty

namespace Substitution

open Ty

variable {σ σ' : Substitution}

theorem isOpen_reanchor (t : Ty) : isOpen (t.reanchor f) = isOpen t := by
  cases t with
  | typeParam n default => rw [reanchor_typeParam]; rfl
  | _ => rfl

theorem Reanchors.bind (h : Reanchors f σ σ') (n : Nominal) (default : Option Ty) (arg : Ty) :
    Reanchors f (σ.bind n default arg)
      (σ'.bind (n.reanchor f) (default.map (reanchor f)) (arg.reanchor f)) := by
  have hopen : ((σ.get? n.name).map (reanchor f)).all isOpen = (σ.get? n.name).all isOpen := by
    rw [Option.all_map]
    exact congrArg (Option.all · _) (funext isOpen_reanchor)
  unfold Substitution.bind
  rw [Nominal.name_reanchor, h n.name, hopen]
  split
  · have hinsert := h.insert n.name arg
    cases arg with
    | typeParam m other =>
        rw [reanchor_typeParam] at hinsert ⊢
        cases default with
        | none => exact hinsert
        | some d =>
            dsimp only [Option.map_some]
            rw [Nominal.name_reanchor]
            split
            · exact h.insert n.name d
            · exact hinsert
    | _ => exact hinsert
  · exact h

theorem leftOver?_reanchor (variants args : List Ty) :
    leftOver? (variants.map (reanchor f)) (args.map (reanchor f)) =
      (leftOver? variants args).map (List.map (reanchor f)) := by
  unfold leftOver?
  rw [List.filter_map]
  simp only [Function.comp_def, hasGenerics_reanchor]
  generalize variants.filter (!·.hasGenerics) = vs
  induction vs generalizing args with
  | nil => rfl
  | cons v vs ih =>
      rw [List.map_cons, List.foldlM_cons, List.foldlM_cons, List.any_map]
      simp only [Function.comp_def, equals_reanchor, List.filter_map]
      split
      · exact ih _
      · rfl

theorem variantArgs?_reanchor (variants args : List Ty) :
    variantArgs? (variants.map (reanchor f)) (args.map (reanchor f)) =
      (variantArgs? variants args).map (List.map (reanchor f)) := by
  unfold variantArgs?
  rw [leftOver?_reanchor, List.filter_map]
  simp only [Function.comp_def, hasGenerics_reanchor, List.length_map]
  cases leftOver? variants args with
  | none => rfl
  | some rest =>
      simp only [Option.map_some, Option.bind_eq_bind, Option.bind_some, List.length_map]
      split
      · exact congrArg (fun t => some [t]) (unionOf_reanchor rest)
      · split <;> rfl

mutual

theorem deduce_reanchor : ∀ (p a : Ty) {σ σ' : Substitution}, Reanchors f σ σ' →
    Reanchors f (σ.deduce p a) (σ'.deduce (p.reanchor f) (a.reanchor f))
  | .instantiation _ params, a, _, _, h => by
      rw [reanchor, deduce_instantiation, deduce_instantiation, unwrapAlias_reanchor,
        typeArgs_reanchor, typeArgs_reanchor]
      exact deduceAll_reanchor params _ (deduceAll_reanchor params _ h)
  | .function params result, a, _, _, h => by
      rw [reanchor]
      cases a with
      | function params' result' =>
          rw [reanchor, deduce, deduce]
          exact deduce_reanchor result result' (deduceAll_reanchor params params' h)
      | typeParam n default => simpa only [reanchor_typeParam, deduce] using h
      | _ => simpa only [reanchor, deduce] using h
  | .tensor params, a, _, _, h => by
      rw [reanchor]
      cases a with
      | tensor args =>
          rw [reanchor, deduce, deduce, length_reanchorAll, length_reanchorAll]
          split
          · exact deduceAll_reanchor params args h
          · exact h
      | typeParam n default => simpa only [reanchor_typeParam, deduce] using h
      | _ => simpa only [reanchor, deduce] using h
  | .tuple params, a, _, _, h => by
      rw [reanchor]
      cases a with
      | tuple args =>
          rw [reanchor, deduce, deduce, length_reanchorAll, length_reanchorAll]
          split
          · exact deduceAll_reanchor params args h
          · exact h
      | typeParam n default => simpa only [reanchor_typeParam, deduce] using h
      | _ => simpa only [reanchor, deduce] using h
  | .union variants, a, _, _, h => by
      have heach := deduceEach_reanchor variants a h
      rw [reanchor]
      cases a with
      | union args =>
          rw [reanchor, deduce, deduce, reanchorAll_eq_map args, reanchorAll_eq_map variants,
            variantArgs?_reanchor, ← reanchorAll_eq_map variants]
          cases variantArgs? variants args with
          | none => exact h
          | some rest =>
              rw [Option.map_some, ← reanchorAll_eq_map rest]
              exact deduceOpen_reanchor variants rest h
      | typeParam n default => simpa only [reanchor_typeParam, deduce] using heach
      | _ => simpa only [reanchor, deduce] using heach
  | .typeParam n default, a, _, _, h => by
      rw [reanchor_typeParam, deduce, deduce]
      exact h.bind n default a
  | .struct .., _, _, _, h | .alias .., _, _, _, h | .builtin _, _, _, _, h | .enum _, _, _, _, h
  | .int, _, _, _, h | .intN .., _, _, _, h | .varIntN .., _, _, _, h | .coins, _, _, _, h
  | .bool, _, _, _, h | .bitsN _, _, _, _, h | .bytesN _, _, _, _, h | .null, _, _, _, h
  | .void, _, _, _, h | .never, _, _, _, h | .unknown, _, _, _, h => by
      simpa only [reanchor, deduce] using h
termination_by structural p => p

theorem deduceAll_reanchor : ∀ (ps as : List Ty) {σ σ' : Substitution}, Reanchors f σ σ' →
    Reanchors f (σ.deduceAll ps as) (σ'.deduceAll (reanchorAll f ps) (reanchorAll f as))
  | p :: ps, a :: as, _, _, h => by
      rw [reanchorAll, reanchorAll, deduceAll, deduceAll]
      exact deduceAll_reanchor ps as (deduce_reanchor p a h)
  | [], _, _, _, h => by simpa only [reanchorAll, deduceAll] using h
  | _ :: _, [], _, _, h => by simpa only [reanchorAll, deduceAll] using h
termination_by structural ps => ps

theorem deduceEach_reanchor : ∀ (ps : List Ty) (a : Ty) {σ σ' : Substitution}, Reanchors f σ σ' →
    Reanchors f (σ.deduceEach ps a) (σ'.deduceEach (reanchorAll f ps) (a.reanchor f))
  | p :: ps, a, _, _, h => by
      rw [reanchorAll, deduceEach, deduceEach]
      exact deduceEach_reanchor ps a (deduce_reanchor p a h)
  | [], _, _, _, h => by simpa only [reanchorAll, deduceEach] using h
termination_by structural ps => ps

theorem deduceOpen_reanchor : ∀ (ps as : List Ty) {σ σ' : Substitution}, Reanchors f σ σ' →
    Reanchors f (σ.deduceOpen ps as) (σ'.deduceOpen (reanchorAll f ps) (reanchorAll f as))
  | p :: ps, as, _, _, h => by
      rw [reanchorAll, deduceOpen.eq_def, deduceOpen.eq_def]
      dsimp only
      rw [hasGenerics_reanchor]
      split
      · cases as with
        | nil => exact h
        | cons a as => exact deduceOpen_reanchor ps as (deduce_reanchor p a h)
      · exact deduceOpen_reanchor ps as h
  | [], _, _, _, h => by simpa only [reanchorAll, deduceOpen] using h
termination_by structural ps => ps

end

end Substitution

/-! ### What the rules take off a type -/

@[simp] theorem Lookup.nullableInner?_reanchor (t : Ty) :
    Lookup.nullableInner? (t.reanchor f) = (Lookup.nullableInner? t).map (Ty.reanchor f) := by
  cases t with
  | union variants =>
      rw [Ty.reanchor, Ty.reanchorAll_eq_map]
      exact Ty.nullableInner?_map_reanchor variants
  | typeParam n default => rw [Ty.reanchor_typeParam]; rfl
  | _ => rfl

namespace Inference

@[simp] theorem isTypeParam_reanchor (t : Ty) : isTypeParam (t.reanchor f) = isTypeParam t := by
  cases t with
  | typeParam n default => rw [Ty.reanchor_typeParam]; rfl
  | _ => rfl

theorem boundParams_reanchor (names : List String) (args params : List Ty) :
    boundParams names (args.map (Ty.reanchor f)) (params.map (Ty.reanchor f)) =
      (boundParams names args params).map fun b => (b.1, b.2.reanchor f) := by
  unfold boundParams
  rw [List.map_filterMap]
  refine List.filterMap_congr fun b _ => ?_
  simp only [List.getElem?_map]
  cases args[b.2]? with
  | some arg => rfl
  | none =>
      cases params[b.2]? with
      | none => rfl
      | some t =>
          cases t with
          | typeParam n default =>
              simp only [Option.map_none, Option.map_some, Ty.reanchor_typeParam]
              cases default <;> rfl
          | _ => rfl

end Inference

end TolkAnalysis
