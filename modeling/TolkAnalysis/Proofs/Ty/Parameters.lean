import TolkAnalysis.Proofs.Size.Afresh

/-!
# Type parameters that are left

`Ty.paramNames` lists the names of the type parameters in a type. What `Ty.substitute` leaves of
them either was in the type and is not bound, or is brought in by a binding
(`Ty.mem_paramNames_substitute`). So nothing is left of the type parameters of a declaration once
each is bound to an argument without type parameters (`Ty.not_mem_paramNames_substitute`).
-/

namespace TolkAnalysis

namespace Substitution

/-- A name that is bound once stays bound. -/
theorem isSome_get?_ofList {bindings : List (String × Ty)} {b : String × Ty} (h : b ∈ bindings) :
    ((ofList bindings).get? b.1).isSome = true := by
  have fold : ∀ (bs : List (String × Ty)) (σ : Substitution),
      (σ.get? b.1).isSome = true ∨ b ∈ bs →
        ((bs.foldl (fun σ b => σ.insert b.1 b.2) σ).get? b.1).isSome = true := by
    intro bs
    induction bs with
    | nil => exact fun σ hσ => hσ.resolve_right (List.not_mem_nil)
    | cons c bs ih =>
        intro σ hσ
        refine ih _ ?_
        simp only [get?, Substitution.insert, Std.HashMap.getElem?_insert]
        split
        · exact .inl rfl
        · rename_i hne
          refine hσ.imp id fun hb => (List.mem_cons.mp hb).resolve_left fun heq => hne ?_
          rw [heq]
          exact beq_self_eq_true _
  exact fold bindings empty (.inr h)

theorem get?_of_isEmpty {σ : Substitution} (h : σ.isEmpty = true) (name : String) :
    σ.get? name = none := Std.HashMap.getElem?_of_isEmpty h

end Substitution

namespace Ty

mutual

/-- The names of the type parameters in a type, also in the members of a struct and in what an
instantiation applies. The default of a type parameter is not a part of the type. -/
def paramNames : Ty → List String
  | .typeParam nominal _ => [nominal.name]
  | .struct _ fields => paramNamesOf fields
  | .alias _ inner => inner.paramNames
  | .tensor elements => paramNamesOf elements
  | .tuple elements => paramNamesOf elements
  | .union variants => paramNamesOf variants
  | .function params result => paramNamesOf params ++ result.paramNames
  | .instantiation inner args => inner.paramNames ++ paramNamesOf args
  | _ => []

/-- The names of the type parameters in the types of a list. -/
def paramNamesOf : List Ty → List String
  | [] => []
  | t :: ts => t.paramNames ++ paramNamesOf ts

end

variable {name : String} {t : Ty} {ts : List Ty} {σ : Substitution}

theorem mem_paramNamesOf : name ∈ paramNamesOf ts ↔ ∃ t ∈ ts, name ∈ t.paramNames := by
  induction ts with
  | nil => simp [paramNamesOf]
  | cons t ts ih => simp [paramNamesOf, ih]

mutual

theorem Closed.paramNames_eq : ∀ {t : Ty}, t.Closed → t.paramNames = []
  | .typeParam .., h => h.elim
  | .struct _ _, h => AllClosed.paramNamesOf_eq h
  | .alias _ inner, h => Closed.paramNames_eq (t := inner) h
  | .tensor _, h => AllClosed.paramNamesOf_eq h
  | .tuple _, h => AllClosed.paramNamesOf_eq h
  | .union _, h => AllClosed.paramNamesOf_eq h
  | .function _ _, h => List.append_eq_nil_iff.mpr
      ⟨AllClosed.paramNamesOf_eq h.1, Closed.paramNames_eq h.2⟩
  | .instantiation _ _, h => List.append_eq_nil_iff.mpr
      ⟨Closed.paramNames_eq h.1, AllClosed.paramNamesOf_eq h.2⟩
  | .builtin _, _ | .enum _, _ | .int, _ | .intN .., _ | .varIntN .., _ | .coins, _ | .bool, _
  | .bitsN _, _ | .bytesN _, _ | .null, _ | .void, _ | .never, _ | .unknown, _ => rfl

theorem AllClosed.paramNamesOf_eq : ∀ {ts : List Ty}, AllClosed ts → paramNamesOf ts = []
  | [], _ => rfl
  | _ :: _, h => List.append_eq_nil_iff.mpr
      ⟨Closed.paramNames_eq h.1, AllClosed.paramNamesOf_eq h.2⟩

end

/-! ### Unions -/

theorem mem_paramNames_of_baseType (h : name ∈ t.baseType.paramNames) : name ∈ t.paramNames := by
  fun_induction baseType t with
  | case1 n inner ih => exact ih h
  | case2 inner args ih => exact List.mem_append_left _ (ih h)
  | case3 t => exact h

theorem mem_paramNames_of_mem_unionParts {s : Ty} (hs : s ∈ t.unionParts)
    (h : name ∈ s.paramNames) : name ∈ t.paramNames := by
  unfold unionParts at hs
  split at hs
  · rename_i variants heq
    refine mem_paramNames_of_baseType ?_
    rw [heq]
    exact mem_paramNamesOf.mpr ⟨s, hs, h⟩
  · rw [← List.mem_singleton.mp hs]
    exact h

/-- A union has no type parameters but those of its parts. -/
theorem mem_paramNames_unionOf (h : name ∈ (unionOf ts).paramNames) :
    ∃ t ∈ ts, name ∈ t.paramNames := by
  have variant : ∀ s ∈ distinctVariants ts, name ∈ s.paramNames →
      ∃ t ∈ ts, name ∈ t.paramNames := by
    intro s hs hname
    obtain ⟨t, ht, hst⟩ := exists_of_mem_distinctVariants hs
    exact ⟨t, ht, mem_paramNames_of_mem_unionParts hst hname⟩
  unfold unionOf at h
  split at h
  · cases h
  · rename_i s heq
    exact variant s (heq ▸ List.mem_singleton_self s) h
  · obtain ⟨s, hs, hname⟩ := mem_paramNamesOf.mp h
    exact variant s hs hname

/-! ### Substitutions -/

/-- A name is left where it is not bound, or comes with a binding. -/
def Leaves (σ : Substitution) (names : List String) (name : String) : Prop :=
  (name ∈ names ∧ σ.get? name = none) ∨ ∃ bound t, σ.get? bound = some t ∧ name ∈ t.paramNames

theorem Leaves.mono {names names' : List String} (h : Leaves σ names name)
    (hnames : names ⊆ names') : Leaves σ names' name :=
  h.imp_left fun h => ⟨hnames h.1, h.2⟩

mutual

theorem mem_paramNames_replaceParams : ∀ (t : Ty), name ∈ (t.replaceParams σ).paramNames →
    Leaves σ t.paramNames name
  | .typeParam n default, h => by
      rw [replaceParams] at h
      cases hget : σ.get? n.name with
      | none =>
          rw [hget] at h
          obtain rfl := List.mem_singleton.mp h
          exact .inl ⟨h, hget⟩
      | some s =>
          rw [hget] at h
          exact .inr ⟨n.name, s, hget, h⟩
  | .struct _ fields, h => mem_paramNamesOf_replaceAll fields h
  | .alias _ inner, h => mem_paramNames_replaceParams inner h
  | .tensor ts, h => mem_paramNamesOf_replaceAll ts h
  | .tuple ts, h => mem_paramNamesOf_replaceAll ts h
  | .union ts, h => mem_paramNamesOf_replaceAll ts
      (mem_paramNamesOf.mpr (mem_paramNames_unionOf h))
  | .function params result, h => by
      rcases List.mem_append.mp h with h | h
      · exact (mem_paramNamesOf_replaceAll params h).mono (List.subset_append_left ..)
      · exact (mem_paramNames_replaceParams result h).mono (List.subset_append_right ..)
  | .instantiation inner args, h => by
      rcases List.mem_append.mp h with h | h
      · exact (mem_paramNames_replaceParams inner h).mono (List.subset_append_left ..)
      · exact (mem_paramNamesOf_replaceAll args h).mono (List.subset_append_right ..)
  | .builtin _, h | .enum _, h => nomatch h
  | .int, h | .intN .., h | .varIntN .., h | .coins, h | .bool, h | .bitsN _, h | .bytesN _, h
  | .null, h | .void, h | .never, h | .unknown, h => nomatch h

theorem mem_paramNamesOf_replaceAll : ∀ (ts : List Ty), name ∈ paramNamesOf (replaceAll σ ts) →
    Leaves σ (paramNamesOf ts) name
  | [], h => nomatch h
  | t :: ts, h => by
      rcases List.mem_append.mp h with h | h
      · exact (mem_paramNames_replaceParams t h).mono (List.subset_append_left ..)
      · exact (mem_paramNamesOf_replaceAll ts h).mono (List.subset_append_right ..)

end

/-- A type parameter that a substitution leaves was there and is not bound, or comes with a
binding. -/
theorem mem_paramNames_substitute (h : name ∈ (t.substitute σ).paramNames) :
    Leaves σ t.paramNames name := by
  unfold substitute at h
  split at h
  · rename_i hempty
    exact .inl ⟨h, Substitution.get?_of_isEmpty hempty name⟩
  · exact mem_paramNames_replaceParams t h

/-- Nothing is left of type parameters that are bound to arguments without type parameters. -/
theorem not_mem_paramNames_substitute {names : List String} {args : List Ty}
    (hlength : names.length ≤ args.length) (hargs : ∀ a ∈ args, a.Closed) (t : Ty)
    (hname : name ∈ names) :
    name ∉ (t.substitute (Substitution.ofList (names.zip args))).paramNames := by
  intro h
  rcases mem_paramNames_substitute h with ⟨-, hget⟩ | ⟨bound, s, hget, hs⟩
  · obtain ⟨b, hb, rfl⟩ : ∃ b ∈ names.zip args, b.1 = name := by
      rw [← List.map_fst_zip hlength] at hname
      exact List.mem_map.mp hname
    have hbound := Substitution.isSome_get?_ofList hb
    rw [hget] at hbound
    cases hbound
  · have hclosed : s.Closed :=
      Substitution.binds_ofList (fun b hb => hargs b.2 (List.of_mem_zip hb).2) bound s hget
    rw [hclosed.paramNames_eq] at hs
    cases hs

end Ty

end TolkAnalysis
