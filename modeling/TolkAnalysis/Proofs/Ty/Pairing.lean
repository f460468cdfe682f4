import TolkAnalysis.Proofs.Ty.Substitution

/-!
# Deduction as a run of bindings

A declared type laid over an actual one pairs type parameters with parts of the actual type.
`Ty.pairings` lists the pairs in the order in which they are met. What has been learned so far has
no say in which they are, so a deduction binds them one after another
(`Substitution.deduce_eq_foldl`), and what becomes of a name is settled by the pairs of that name
alone (`Substitution.get?_deduce`).
-/

namespace TolkAnalysis

/-- A type parameter of a declared type beside a part of an actual type. -/
structure ParamArg where
  nominal : Nominal
  default : Option Ty
  arg : Ty

/-- What the type parameter may be bound to: its default if it is given itself, and otherwise
what it is given. -/
def ParamArg.value (b : ParamArg) : Ty :=
  match b.arg, b.default with
  | .typeParam n _, some d => if n.name == b.nominal.name then d else b.arg
  | _, _ => b.arg

theorem ParamArg.value_of_closed {b : ParamArg} (h : b.arg.Closed) : b.value = b.arg := by
  unfold value
  split
  · rename_i heq _
    rw [heq] at h
    exact h.elim
  · rfl

namespace Ty

open Substitution (variantArgs?)

/-- The arguments that a type is applied to. -/
def typeArgs : Ty → List Ty
  | .instantiation _ args => args
  | _ => []

mutual

/-- The type parameters of a declared type beside what an actual type has at their places. -/
def pairings : Ty → Ty → List ParamArg
  | .instantiation _ params, arg =>
      pairAll params arg.unwrapAlias.typeArgs ++ pairAll params arg.typeArgs
  | .function params result, arg =>
      match arg with
      | .function params' result' => pairAll params params' ++ pairings result result'
      | _ => []
  | .tensor params, arg =>
      match arg with
      | .tensor args => if params.length = args.length then pairAll params args else []
      | _ => []
  | .tuple params, arg =>
      match arg with
      | .tuple args => if params.length = args.length then pairAll params args else []
      | _ => []
  | .union variants, arg =>
      match arg with
      | .union args =>
          match variantArgs? variants args with
          | some rest => pairOpen variants rest
          | none => []
      | _ => pairEach variants arg
  | .typeParam nominal default, arg => [⟨nominal, default, arg⟩]
  | _, _ => []
termination_by structural p => p

/-- Pairs the types at equal positions. -/
def pairAll : List Ty → List Ty → List ParamArg
  | p :: ps, a :: as => pairings p a ++ pairAll ps as
  | _, _ => []
termination_by structural ps => ps

/-- Pairs each of the declared types with one argument. -/
def pairEach : List Ty → Ty → List ParamArg
  | [], _ => []
  | p :: ps, a => pairings p a ++ pairEach ps a
termination_by structural ps => ps

/-- Pairs the declared types that have type parameters with the arguments. -/
def pairOpen : List Ty → List Ty → List ParamArg
  | p :: ps, args =>
      if p.hasGenerics then
        match args with
        | a :: as => pairings p a ++ pairOpen ps as
        | [] => []
      else pairOpen ps args
  | [], _ => []
termination_by structural ps => ps

end

/-! ### Where the pairs come from -/

section Sources

variable {b : ParamArg} {a p t : Ty} {ps as variants args rest : List Ty} {name : String}

theorem exists_of_mem_pairAll (h : b ∈ pairAll ps as) :
    ∃ p ∈ ps, ∃ a ∈ as, b ∈ pairings p a := by
  induction ps generalizing as with
  | nil => simp [pairAll] at h
  | cons p ps ih =>
      cases as with
      | nil => simp [pairAll] at h
      | cons a as =>
          rw [pairAll] at h
          rcases List.mem_append.mp h with h | h
          · exact ⟨p, List.mem_cons_self, a, List.mem_cons_self, h⟩
          · obtain ⟨q, hq, c, hc, h⟩ := ih h
            exact ⟨q, List.mem_cons_of_mem p hq, c, List.mem_cons_of_mem a hc, h⟩

theorem exists_of_mem_pairEach (h : b ∈ pairEach ps a) : ∃ p ∈ ps, b ∈ pairings p a := by
  induction ps with
  | nil => simp [pairEach] at h
  | cons p ps ih =>
      rw [pairEach] at h
      simpa using (List.mem_append.mp h).imp_right ih

theorem exists_of_mem_pairOpen (h : b ∈ pairOpen ps as) :
    ∃ p ∈ ps, ∃ a ∈ as, b ∈ pairings p a := by
  induction ps generalizing as with
  | nil => simp [pairOpen] at h
  | cons p ps ih =>
      rw [pairOpen.eq_def] at h
      dsimp only at h
      split at h
      · cases as with
        | nil => cases h
        | cons a as =>
            rcases List.mem_append.mp h with h | h
            · exact ⟨p, List.mem_cons_self, a, List.mem_cons_self, h⟩
            · obtain ⟨q, hq, c, hc, h⟩ := ih h
              exact ⟨q, List.mem_cons_of_mem p hq, c, List.mem_cons_of_mem a hc, h⟩
      · obtain ⟨q, hq, c, hc, h⟩ := ih h
        exact ⟨q, List.mem_cons_of_mem p hq, c, hc, h⟩

theorem mem_paramNames_of_unwrapAlias (h : name ∈ t.unwrapAlias.paramNames) :
    name ∈ t.paramNames := by
  fun_induction unwrapAlias t with
  | case1 n inner ih => exact ih h
  | case2 n variants args => exact List.mem_append_left _ h
  | case3 n body args _ ih => exact List.mem_append.mpr ((List.mem_append.mp h).imp_left ih)
  | case4 t => exact h

theorem paramNamesOf_typeArgs_subset : paramNamesOf t.typeArgs ⊆ t.paramNames := by
  cases t <;> first | exact List.nil_subset _ | exact List.subset_append_right _ _

/-- What is left of an argument has no type parameters but those of its variants. -/
theorem mem_paramNames_of_variantArgs? (hrest : variantArgs? variants args = some rest)
    (ht : t ∈ rest) (hname : name ∈ t.paramNames) : name ∈ paramNamesOf args := by
  obtain ⟨left, hleft, hrest⟩ := Option.bind_eq_some_iff.mp hrest
  have hmem : ∃ s ∈ left, name ∈ s.paramNames := by
    simp only at hrest
    split at hrest
    · cases hrest
      rw [List.mem_singleton.mp ht] at hname
      exact mem_paramNames_unionOf hname
    · split at hrest <;> cases hrest
      exact ⟨t, ht, hname⟩
  obtain ⟨s, hs, hname⟩ := hmem
  exact mem_paramNamesOf.mpr ⟨s, Substitution.mem_of_leftOver? hleft s hs, hname⟩

/-- Only outer type parameters are paired, and with types that have no type parameters but those
of the argument. -/
theorem names_of_mem_pairings (h : b ∈ pairings p a) :
    ⟨b.nominal.name, false⟩ ∈ p.paramUses false ∧ b.arg.paramNames ⊆ a.paramNames := by
  have among {ps : List Ty} {a : Ty}
      (ih : ∀ p ∈ ps, ∀ {a}, b ∈ pairings p a →
        ⟨b.nominal.name, false⟩ ∈ p.paramUses false ∧ b.arg.paramNames ⊆ a.paramNames)
      (h : ∃ p ∈ ps, ∃ c, c.paramNames ⊆ a.paramNames ∧ b ∈ pairings p c) :
      ⟨b.nominal.name, false⟩ ∈ paramUsesOf false ps ∧ b.arg.paramNames ⊆ a.paramNames := by
    obtain ⟨p, hp, c, hc, h⟩ := h
    obtain ⟨huse, hnames⟩ := ih p hp h
    exact ⟨mem_paramUsesOf.mpr ⟨p, hp, huse⟩, List.Subset.trans hnames hc⟩
  have all {ps as : List Ty} {a : Ty} (h : b ∈ pairAll ps as)
      (has : paramNamesOf as ⊆ a.paramNames) :
      ∃ p ∈ ps, ∃ c, c.paramNames ⊆ a.paramNames ∧ b ∈ pairings p c := by
    obtain ⟨p, hp, c, hc, h⟩ := exists_of_mem_pairAll h
    exact ⟨p, hp, c, fun name hname => has (mem_paramNamesOf.mpr ⟨c, hc, hname⟩), h⟩
  induction p using inductionOnParts generalizing a with
  | primitive p hprimitive =>
      cases p <;> first | cases hprimitive; done | simp [pairings] at h
  | builtin n | struct n fields | enum n | aliasOf n inner => simp [pairings] at h
  | typeParam n default =>
      rw [pairings] at h
      obtain rfl := List.mem_singleton.mp h
      exact ⟨List.mem_cons_self, List.Subset.refl _⟩
  | tensor ps ih =>
      cases a with
      | tensor as =>
          simp only [pairings] at h
          split at h
          · exact among @ih (all h (List.Subset.refl _))
          · cases h
      | _ => simp [pairings] at h
  | tuple ps ih =>
      cases a with
      | tuple as =>
          simp only [pairings] at h
          split at h
          · exact among @ih (all h (List.Subset.refl _))
          · cases h
      | _ => simp [pairings] at h
  | union ps ih =>
      by_cases hunion : ∃ as, a = .union as
      · obtain ⟨as, rfl⟩ := hunion
        simp only [pairings] at h
        split at h
        · rename_i rest hrest
          obtain ⟨p, hp, c, hc, h⟩ := exists_of_mem_pairOpen h
          exact among @ih
            ⟨p, hp, c, fun name hname => mem_paramNames_of_variantArgs? hrest hc hname, h⟩
        · cases h
      · rw [pairings] at h
        · obtain ⟨p, hp, h⟩ := exists_of_mem_pairEach h
          exact among @ih ⟨p, hp, a, List.Subset.refl _, h⟩
        · exact fun as heq => hunion ⟨as, heq⟩
  | function ps p ihparams ihresult =>
      cases a with
      | function as r =>
          rw [pairings] at h
          rcases List.mem_append.mp h with h | h
          · exact (among @ihparams (all h (List.subset_append_left _ _))).imp_left
              (List.mem_append_left _)
          · exact (ihresult h).imp (List.mem_append_right _)
              fun hnames => List.Subset.trans hnames (List.subset_append_right _ _)
      | _ => simp [pairings] at h
  | instantiation inner ps _ ihargs =>
      have applied {u : Ty} (hu : u.paramNames ⊆ a.paramNames) (h : b ∈ pairAll ps u.typeArgs) :
          ⟨b.nominal.name, false⟩ ∈ paramUsesOf false ps ∧ b.arg.paramNames ⊆ a.paramNames :=
        among @ihargs (all h (List.Subset.trans paramNamesOf_typeArgs_subset hu))
      rw [pairings] at h
      have hargs := (List.mem_append.mp h).elim
        (applied fun name hname => mem_paramNames_of_unwrapAlias hname)
        (applied (List.Subset.refl _))
      exact hargs.imp_left (List.mem_append_right _)

end Sources

end Ty

namespace Substitution

open Ty (pairings pairAll pairEach pairOpen)

/-- Binds a type parameter to what it stands beside, unless its name is bound for good. -/
def learn (σ : Substitution) (b : ParamArg) : Substitution := σ.bind b.nominal b.default b.arg

theorem deduceAll_nil (σ : Substitution) (ps : List Ty) : σ.deduceAll ps [] = σ := by
  cases ps <;> simp only [deduceAll]

theorem deduceAll_typeArgs (σ : Substitution) (ps : List Ty) (a : Ty) :
    σ.deduceAll ps a.typeArgs =
      match a with
      | .instantiation _ args => σ.deduceAll ps args
      | _ => σ := by
  cases a with
  | instantiation inner args => rfl
  | _ => exact deduceAll_nil σ ps

theorem deduce_instantiation (σ : Substitution) (inner : Ty) (ps : List Ty) (a : Ty) :
    σ.deduce (.instantiation inner ps) a =
      (σ.deduceAll ps a.unwrapAlias.typeArgs).deduceAll ps a.typeArgs := by
  simp only [deduceAll_typeArgs]
  exact deduce.eq_def σ (.instantiation inner ps) a

mutual

/-- A deduction binds the pairs one after another. -/
theorem deduce_eq_foldl : ∀ (p a : Ty) (σ : Substitution),
    σ.deduce p a = (pairings p a).foldl learn σ
  | .instantiation _ params, a, σ => by
      rw [deduce_instantiation, pairings, List.foldl_append, deduceAll_eq_foldl,
        deduceAll_eq_foldl]
  | .function params result, a, σ => by
      cases a with
      | function params' result' =>
          rw [deduce, pairings, List.foldl_append, deduce_eq_foldl, deduceAll_eq_foldl]
      | _ => simp only [deduce, pairings, List.foldl_nil]
  | .tensor params, a, σ => by
      cases a with
      | tensor args =>
          rw [deduce, pairings]
          split
          · exact deduceAll_eq_foldl params args σ
          · rfl
      | _ => simp only [deduce, pairings, List.foldl_nil]
  | .tuple params, a, σ => by
      cases a with
      | tuple args =>
          rw [deduce, pairings]
          split
          · exact deduceAll_eq_foldl params args σ
          · rfl
      | _ => simp only [deduce, pairings, List.foldl_nil]
  | .union variants, a, σ => by
      cases a with
      | union args =>
          simp only [deduce, pairings]
          cases variantArgs? variants args with
          | some rest => exact deduceOpen_eq_foldl variants rest σ
          | none => rfl
      | _ => simpa only [deduce, pairings] using deduceEach_eq_foldl variants _ σ
  | .typeParam n default, a, σ => by
      simp only [deduce, pairings, List.foldl_cons, List.foldl_nil, learn]
  | .struct .., _, _ | .alias .., _, _ | .builtin _, _, _ | .enum _, _, _ | .int, _, _
  | .intN .., _, _ | .varIntN .., _, _ | .coins, _, _ | .bool, _, _ | .bitsN _, _, _
  | .bytesN _, _, _ | .null, _, _ | .void, _, _ | .never, _, _ | .unknown, _, _ => by
      simp only [deduce, pairings, List.foldl_nil]
termination_by structural p => p

theorem deduceAll_eq_foldl : ∀ (ps as : List Ty) (σ : Substitution),
    σ.deduceAll ps as = (pairAll ps as).foldl learn σ
  | p :: ps, a :: as, σ => by
      rw [deduceAll, pairAll, deduceAll_eq_foldl, deduce_eq_foldl, List.foldl_append]
  | [], _, _ => by simp only [deduceAll, pairAll, List.foldl_nil]
  | _ :: _, [], _ => by simp only [deduceAll, pairAll, List.foldl_nil]
termination_by structural ps => ps

theorem deduceEach_eq_foldl : ∀ (ps : List Ty) (a : Ty) (σ : Substitution),
    σ.deduceEach ps a = (pairEach ps a).foldl learn σ
  | p :: ps, a, σ => by
      rw [deduceEach, pairEach, deduceEach_eq_foldl, deduce_eq_foldl, List.foldl_append]
  | [], _, _ => by simp only [deduceEach, pairEach, List.foldl_nil]
termination_by structural ps => ps

theorem deduceOpen_eq_foldl : ∀ (ps as : List Ty) (σ : Substitution),
    σ.deduceOpen ps as = (pairOpen ps as).foldl learn σ
  | p :: ps, as, σ => by
      rw [deduceOpen.eq_def, Ty.pairOpen.eq_def]
      dsimp only
      split
      · split
        · rw [deduceOpen_eq_foldl, deduce_eq_foldl, List.foldl_append]
        · rfl
      · exact deduceOpen_eq_foldl ps as σ
  | [], _, _ => by simp only [deduceOpen, pairOpen, List.foldl_nil]
termination_by structural ps => ps

end

/-! ### What becomes of a name -/

/-- A name that is not bound for good is bound to the next type for it. -/
def settle (bound : Option Ty) (value : Ty) : Option Ty :=
  if bound.all isOpen then some value else bound

theorem learn_eq (σ : Substitution) (b : ParamArg) :
    σ.learn b =
      if (σ.get? b.nominal.name).all isOpen then σ.insert b.nominal.name b.value else σ := by
  unfold learn bind ParamArg.value
  cases b.arg <;> cases b.default <;> simp

theorem get?_learn (σ : Substitution) (b : ParamArg) (name : String) :
    (σ.learn b).get? name =
      if b.nominal.name = name then settle (σ.get? name) b.value else σ.get? name := by
  rw [learn_eq, settle]
  split
  · rename_i hbound
    rw [get?_insert]
    split
    · rename_i hname
      rw [← hname, if_pos hbound]
    · rfl
  · rename_i hbound
    split
    · rename_i hname
      rw [← hname, if_neg hbound]
    · rfl

end Substitution

/-- The types for a name among the pairs. -/
def ParamArg.values (name : String) (bs : List ParamArg) : List Ty :=
  (bs.filter (·.nominal.name = name)).map value

theorem ParamArg.mem_values {name : String} {bs : List ParamArg} {v : Ty} :
    v ∈ values name bs ↔ ∃ b ∈ bs, b.nominal.name = name ∧ b.value = v := by
  simp [values, and_assoc]

namespace Substitution

/-- A name is bound if there is a type for it. -/
theorem isSome_foldl_settle (vs : List Ty) (bound : Option Ty) :
    (vs.foldl settle bound).isSome = (bound.isSome || !vs.isEmpty) := by
  induction vs generalizing bound with
  | nil => simp
  | cons v vs ih =>
      have hsettle : (settle bound v).isSome = true := by
        cases bound <;> grind [settle]
      simp [ih, hsettle]

/-- A name that is always bound to one type is bound to it. -/
theorem foldl_settle_eq {vs : List Ty} {t : Ty} (h : ∀ v ∈ vs, v = t) {bound : Option Ty}
    (hbound : bound = some t ∨ bound = none ∧ vs ≠ []) : vs.foldl settle bound = some t := by
  induction vs generalizing bound with
  | nil => simpa using hbound
  | cons v vs ih =>
      rw [List.forall_mem_cons] at h
      refine ih h.2 (.inl ?_)
      rw [h.1]
      obtain rfl | ⟨rfl, -⟩ := hbound
      · exact ite_self _
      · rfl

theorem get?_foldl_learn (bs : List ParamArg) (σ : Substitution) (name : String) :
    (bs.foldl learn σ).get? name = (ParamArg.values name bs).foldl settle (σ.get? name) := by
  induction bs generalizing σ with
  | nil => rfl
  | cons b bs ih =>
      rw [List.foldl_cons, ih, get?_learn]
      by_cases hname : b.nominal.name = name <;> simp [ParamArg.values, hname]

open Ty (pairings) in
/-- What a deduction binds a name to is settled by the pairs of that name. -/
theorem get?_deduce (σ : Substitution) (p a : Ty) (name : String) :
    (σ.deduce p a).get? name =
      (ParamArg.values name (pairings p a)).foldl settle (σ.get? name) := by
  rw [deduce_eq_foldl, get?_foldl_learn]

end Substitution

end TolkAnalysis
