import TolkAnalysis.Proofs.Ty.Pairing
import TolkAnalysis.Proofs.Ty.Renaming

/-!
# Hygiene

A declared type is paired with the renamed parts of an argument where it is paired with the parts
(`Ty.pairings_rename`), so the names of an argument's type parameters have no say in a deduction.
There are two exceptions. Variants of an argument are compared with variants of the declared type,
and these may have type parameters, though no generics (`Ty.comparedParams`). And a type
parameter that has a default takes it if it is given itself (`Ty.MeetsItself`).
`Ty.deduce_rename` puts this together.
-/

namespace TolkAnalysis

/-! ### Arguments for variants -/

namespace Substitution

variable {g : Ty → Ty} {variants args : List Ty}

/-- The variants that are left over are at the same places in other arguments that equal the same
variants. -/
theorem leftOver?_map
    (h : ∀ v ∈ variants, v.hasGenerics = false → ∀ s ∈ args, (g s).equals v = s.equals v) :
    leftOver? variants (args.map g) = (leftOver? variants args).map (List.map g) := by
  unfold leftOver?
  have hclosed : ∀ v ∈ variants.filter (!·.hasGenerics), ∀ s ∈ args,
      (g s).equals v = s.equals v := by
    simpa using h
  generalize variants.filter (!·.hasGenerics) = closed at hclosed
  clear h
  induction closed generalizing args with
  | nil => rfl
  | cons v closed ih =>
      rw [List.forall_mem_cons] at hclosed
      have hany : (args.map g).any (·.equals v) = args.any (·.equals v) := by
        rw [List.any_map, Bool.eq_iff_iff]
        simp only [List.any_eq_true, Function.comp_apply]
        exact exists_congr fun s => and_congr_right fun hs => by rw [hclosed.1 s hs]
      have hfilter : (args.map g).filter (!·.equals v) = (args.filter (!·.equals v)).map g := by
        rw [List.filter_map]
        exact congrArg _ (List.filter_congr fun s hs => by simp [hclosed.1 s hs])
      rw [List.foldlM_cons, List.foldlM_cons, hany, hfilter]
      split
      · exact ih fun w hw s hs => hclosed.2 w hw s (List.mem_filter.mp hs).1
      · rfl

theorem variantArgs?_map
    (h : ∀ v ∈ variants, v.hasGenerics = false → ∀ s ∈ args, (g s).equals v = s.equals v)
    (hunion : ∀ rest ⊆ args, Ty.unionOf (rest.map g) = g (Ty.unionOf rest)) :
    variantArgs? variants (args.map g) = (variantArgs? variants args).map (List.map g) := by
  unfold variantArgs?
  rw [leftOver?_map h]
  cases hrest : leftOver? variants args with
  | none => rfl
  | some rest =>
      have hunion := hunion rest (mem_of_leftOver? hrest)
      simp only [Option.map_some, Option.bind_eq_bind, Option.bind_some, List.length_map]
      split
      · rw [hunion]
        rfl
      · split <;> rfl

end Substitution

/-! ### Pairs of a renamed argument -/

namespace Ty

mutual

/-- The names of the type parameters in what deduction compares with the variants of an argument:
the variants without generics of the unions in a declared type. -/
def comparedParams : Ty → List String
  | .tensor elements => comparedParamsOf elements
  | .tuple elements => comparedParamsOf elements
  | .union variants =>
      comparedParamsOf variants ++ (variants.filter (!·.hasGenerics)).flatMap baseParams
  | .function params result => comparedParamsOf params ++ result.comparedParams
  | .instantiation _ args => comparedParamsOf args
  | _ => []

/-- The names in what is compared for the types of a list. -/
def comparedParamsOf : List Ty → List String
  | [] => []
  | t :: ts => t.comparedParams ++ comparedParamsOf ts

end

variable {name : String} {p t : Ty} {ts : List Ty}

theorem mem_comparedParamsOf :
    name ∈ comparedParamsOf ts ↔ ∃ t ∈ ts, name ∈ t.comparedParams := by
  induction ts with
  | nil => simp [comparedParamsOf]
  | cons t ts ih => simp [comparedParamsOf, ih]

theorem mem_paramNames_of_mem_comparedParams (h : name ∈ p.comparedParams) :
    name ∈ p.paramNames := by
  have all {ts : List Ty} (ih : ∀ t ∈ ts, name ∈ t.comparedParams → name ∈ t.paramNames)
      (h : name ∈ comparedParamsOf ts) : name ∈ paramNamesOf ts := by
    obtain ⟨t, ht, h⟩ := mem_comparedParamsOf.mp h
    exact mem_paramNamesOf.mpr ⟨t, ht, ih t ht h⟩
  induction p using inductionOnParts with
  | primitive p hprimitive => cases p <;> first | cases hprimitive; done | cases h
  | builtin n | struct n fields | enum n | aliasOf n inner | typeParam n default => cases h
  | tensor ts ih | tuple ts ih => exact all ih h
  | union ts ih =>
      refine (List.mem_append.mp h).elim (all ih) fun h => ?_
      obtain ⟨t, ht, h⟩ := List.mem_flatMap.mp h
      exact mem_paramNamesOf.mpr
        ⟨t, (List.mem_filter.mp ht).1, mem_paramNames_of_mem_paramUses (mem_baseParams.mp h)⟩
  | function params result ihparams ihresult =>
      exact List.mem_append.mpr ((List.mem_append.mp h).imp (all ihparams) ihresult)
  | instantiation inner args _ ihargs => exact List.mem_append_right _ (all ihargs h)

end Ty

/-- The type parameter beside the renamed type. -/
def ParamArg.rename (f : String → String) (b : ParamArg) : ParamArg := { b with arg := b.arg.rename f }

namespace Ty

open Substitution (variantArgs?)

variable {g : Ty → Ty} {k : ParamArg → ParamArg} {a : Ty} {ps as : List Ty}

theorem pairAll_map (h : ∀ p ∈ ps, ∀ a ∈ as, pairings p (g a) = (pairings p a).map k) :
    pairAll ps (as.map g) = (pairAll ps as).map k := by
  induction ps generalizing as with
  | nil => rfl
  | cons p ps ih =>
      cases as with
      | nil => rfl
      | cons a as =>
          rw [List.forall_mem_cons] at h
          rw [List.map_cons, pairAll, pairAll, h.1 a List.mem_cons_self, List.map_append,
            ih fun p hp a ha => h.2 p hp a (List.mem_cons_of_mem _ ha)]

theorem pairEach_map (h : ∀ p ∈ ps, pairings p (g a) = (pairings p a).map k) :
    pairEach ps (g a) = (pairEach ps a).map k := by
  induction ps with
  | nil => rfl
  | cons p ps ih =>
      rw [List.forall_mem_cons] at h
      rw [pairEach, pairEach, h.1, ih h.2, List.map_append]

theorem pairOpen_map (h : ∀ p ∈ ps, ∀ a ∈ as, pairings p (g a) = (pairings p a).map k) :
    pairOpen ps (as.map g) = (pairOpen ps as).map k := by
  induction ps generalizing as with
  | nil => rfl
  | cons p ps ih =>
      rw [List.forall_mem_cons] at h
      rw [pairOpen.eq_def, pairOpen.eq_def]
      dsimp only
      split
      · cases as with
        | nil => rfl
        | cons a as =>
            rw [List.map_cons]
            dsimp only
            rw [h.1 a List.mem_cons_self, List.map_append,
              ih fun p hp a ha => h.2 p hp a (List.mem_cons_of_mem _ ha)]
      · exact ih h.2

variable {f : String → String} {R : String → String → Prop} {p : Ty}

theorem typeArgs_rename : (a.rename f).typeArgs = a.typeArgs.map (rename f) := by
  cases a with
  | instantiation inner args => exact renameAll_eq_map args
  | typeParam n default => cases default <;> rfl
  | _ => rfl

/-- Whatever the names of an argument's type parameters are, the same pairs are met. -/
theorem pairings_rename (hR : Relator.BiUnique R)
    (hp : ∀ name ∈ p.comparedParams, R name name) (ha : ∀ name ∈ a.paramNames, R name (f name)) :
    pairings p (a.rename f) = (pairings p a).map (ParamArg.rename f) := by
  have all {ps as : List Ty}
      (ih : ∀ p ∈ ps, ∀ {a}, (∀ name ∈ p.comparedParams, R name name) →
        (∀ name ∈ a.paramNames, R name (f name)) →
        pairings p (a.rename f) = (pairings p a).map (ParamArg.rename f))
      (hps : ∀ name ∈ comparedParamsOf ps, R name name)
      (has : ∀ a ∈ as, ∀ name ∈ a.paramNames, R name (f name)) :
      ∀ p ∈ ps, ∀ a ∈ as, pairings p (a.rename f) = (pairings p a).map (ParamArg.rename f) :=
    fun p hp a ha =>
      ih p hp (fun name hname => hps name (mem_comparedParamsOf.mpr ⟨p, hp, hname⟩)) (has a ha)
  have of_all {as : List Ty} (h : ∀ name ∈ paramNamesOf as, R name (f name)) :
      ∀ a ∈ as, ∀ name ∈ a.paramNames, R name (f name) :=
    fun a ha name hname => h name (mem_paramNamesOf.mpr ⟨a, ha, hname⟩)
  induction p using inductionOnParts generalizing a with
  | primitive p hprimitive => cases p <;> first | cases hprimitive; done | rfl
  | builtin n | struct n fields | enum n | aliasOf n inner | typeParam n default => rfl
  | tensor ps ih =>
      cases a with
      | tensor as =>
          rw [rename, renameAll_eq_map, pairings, pairings, List.length_map]
          split
          · exact pairAll_map (all @ih hp (of_all ha))
          · rfl
      | typeParam n default => cases default <;> rfl
      | _ => rfl
  | tuple ps ih =>
      cases a with
      | tuple as =>
          rw [rename, renameAll_eq_map, pairings, pairings, List.length_map]
          split
          · exact pairAll_map (all @ih hp (of_all ha))
          · rfl
      | typeParam n default => cases default <;> rfl
      | _ => rfl
  | union ps ih =>
      obtain ⟨hp, hclosed⟩ := List.forall_mem_append.mp hp
      have heach : pairEach ps (a.rename f) = (pairEach ps a).map (ParamArg.rename f) :=
        pairEach_map fun p hmem =>
          all @ih hp (List.forall_mem_singleton.mpr ha) p hmem a (List.mem_singleton_self a)
      -- The names in a variant that is compared with others stay.
      have hform : ∀ v ∈ ps, v.hasGenerics = false → SameForm R v v := fun v hv hgenerics =>
        .of_paramUses fun u hu => hclosed u.name (List.mem_flatMap.mpr
          ⟨v, List.mem_filter.mpr ⟨hv, by rw [hgenerics]; rfl⟩,
            mem_baseParams_of_mem_paramUses hgenerics hu⟩)
      cases a with
      | union as =>
          have hequals : ∀ v ∈ ps, v.hasGenerics = false → ∀ s ∈ as,
              (s.rename f).equals v = s.equals v := fun v hv hgenerics s hs =>
            (SameForm.equals_eq hR (sameForm_rename (of_all ha s hs)) (hform v hv hgenerics)).symm
          have hunion : ∀ rest ⊆ as, unionOf (rest.map (rename f)) = (unionOf rest).rename f :=
            fun rest hrest => unionOf_map_rename hR fun t ht => of_all ha t (hrest ht)
          rw [rename, renameAll_eq_map, pairings, pairings,
            Substitution.variantArgs?_map hequals hunion]
          cases hrest : variantArgs? ps as with
          | none => rfl
          | some rest =>
              exact pairOpen_map (all @ih hp fun t ht name hname =>
                ha name (mem_paramNames_of_variantArgs? hrest ht hname))
      | typeParam n default => cases default <;> exact heach
      | _ => exact heach
  | function ps p ihparams ihresult =>
      obtain ⟨hps, hp⟩ := List.forall_mem_append.mp hp
      cases a with
      | function as r =>
          obtain ⟨has, hr⟩ := List.forall_mem_append.mp ha
          rw [rename, renameAll_eq_map, pairings, pairings, List.map_append, ihresult hp hr,
            pairAll_map (all @ihparams hps (of_all has))]
      | typeParam n default => cases default <;> rfl
      | _ => rfl
  | instantiation inner ps _ ihargs =>
      have applied {u : Ty} (hu : ∀ name ∈ u.paramNames, R name (f name)) :
          pairAll ps (u.rename f).typeArgs = (pairAll ps u.typeArgs).map (ParamArg.rename f) := by
        rw [typeArgs_rename]
        exact pairAll_map (all @ihargs hp (of_all fun name hname =>
          hu name (paramNamesOf_typeArgs_subset hname)))
      rw [pairings, pairings, unwrapAlias_rename, List.map_append, applied ha,
        applied fun name hname => ha name (mem_paramNames_of_unwrapAlias hname)]

end Ty

/-! ### Deduction from a renamed argument -/

namespace ParamArg

variable {f : String → String} {b : ParamArg} {bs : List ParamArg} {name : String}

/-- The type parameter has a default and stands beside a type parameter of its name. -/
def IsItself (b : ParamArg) : Prop :=
  b.default.isSome = true ∧ ∃ n d, b.arg = .typeParam n d ∧ n.name = b.nominal.name

theorem value_eq_arg (h : ¬ b.IsItself) : b.value = b.arg := by
  unfold value
  split
  · rename_i n d default harg hdefault
    refine if_neg fun hname => h ⟨?_, n, d, harg, beq_iff_eq.mp hname⟩
    rw [hdefault]
    rfl
  · rfl

/-- With other names a type parameter is not given itself. -/
theorem value_rename (h : ¬ b.IsItself)
    (hfresh : ∀ name ∈ b.arg.paramNames, f name ≠ b.nominal.name) :
    (b.rename f).value = b.value.rename f := by
  rw [value_eq_arg h, value_eq_arg, ParamArg.rename]
  rintro ⟨-, n, d, harg, hname⟩
  obtain ⟨m, e, hparam, hm⟩ := Ty.exists_typeParam_of_rename harg
  refine hfresh m.name ?_ (hm.symm.trans hname)
  rw [hparam]
  exact List.mem_cons_self

theorem values_rename
    (h : ∀ b ∈ bs, b.nominal.name = name → (b.rename f).value = b.value.rename f) :
    values name (bs.map (rename f)) = (values name bs).map (Ty.rename f) := by
  rw [values, values, List.filter_map, List.map_map, List.map_map]
  refine List.map_congr_left fun b hb => ?_
  obtain ⟨hb, hname⟩ := List.mem_filter.mp hb
  exact h b hb (of_decide_eq_true hname)

theorem isEmpty_values_rename :
    (values name (bs.map (rename f))).isEmpty = (values name bs).isEmpty := by
  rw [values, values, List.filter_map]
  simp only [List.isEmpty_map]
  rfl

end ParamArg

namespace Substitution

variable {f : String → String}

theorem settle_rename (bound : Option Ty) (value : Ty) :
    settle (bound.map (Ty.rename f)) (value.rename f) = (settle bound value).map (Ty.rename f) := by
  cases bound with
  | none => rfl
  | some t =>
      simp only [settle, Option.map_some, Option.all_some, Ty.isOpen_rename]
      split <;> rfl

theorem foldl_settle_rename (vs : List Ty) (bound : Option Ty) :
    (vs.map (Ty.rename f)).foldl settle (bound.map (Ty.rename f)) =
      (vs.foldl settle bound).map (Ty.rename f) := by
  induction vs generalizing bound with
  | nil => rfl
  | cons v vs ih => rw [List.map_cons, List.foldl_cons, settle_rename, ih, List.foldl_cons]

end Substitution

namespace Ty

variable {f : String → String} {p a : Ty}

/-- A type parameter of `p` that has a default stands beside a type parameter of its own name in
`a`. -/
def MeetsItself (p a : Ty) (name : String) : Prop :=
  ∃ b ∈ pairings p a, b.nominal.name = name ∧ b.IsItself

/-- How names are matched if the type parameters of `a` get other names: these are matched with
the new names, and the names in what is compared with themselves. -/
def Matched (f : String → String) (p a : Ty) (name name' : String) : Prop :=
  (name ∈ a.paramNames ∧ name' = f name) ∨ (name ∈ p.comparedParams ∧ name' = name)

theorem biUnique_matched (hf : ∀ m ∈ a.paramNames, ∀ n ∈ a.paramNames, f m = f n → m = n)
    (hfresh : ∀ name ∈ a.paramNames, f name ∉ p.paramNames)
    (hcompared : ∀ name ∈ a.paramNames, name ∉ p.comparedParams) :
    Relator.BiUnique (Matched f p a) := by
  have hkept : ∀ name ∈ p.comparedParams, name ∈ p.paramNames := fun _ =>
    mem_paramNames_of_mem_comparedParams
  constructor
  · rintro x y z (⟨hx, rfl⟩ | ⟨hx, rfl⟩) (⟨hy, heq⟩ | ⟨hy, heq⟩)
    · exact hf x hx y hy heq
    · exact (hfresh x hx (heq ▸ hkept y hy)).elim
    · exact (hfresh y hy (heq ▸ hkept _ hx)).elim
    · exact heq
  · rintro x y z (⟨hx, rfl⟩ | ⟨hx, rfl⟩) (⟨hx', rfl⟩ | ⟨hx', rfl⟩)
    · rfl
    · exact (hcompared _ hx hx').elim
    · exact (hcompared _ hx' hx).elim
    · rfl

/-- Deduction is hygienic. If the type parameters of an argument get other names, one-to-one and
none of the declared type, and none of them is in what is compared with variants of the argument,
the same names are bound, and to the same types with the new names. A type parameter that has a
default and is given itself is an exception, since it takes the default. -/
theorem deduce_rename (hf : ∀ m ∈ a.paramNames, ∀ n ∈ a.paramNames, f m = f n → m = n)
    (hfresh : ∀ name ∈ a.paramNames, f name ∉ p.paramNames)
    (hcompared : ∀ name ∈ a.paramNames, name ∉ p.comparedParams) (name : String) :
    ((Substitution.empty.deduce p (a.rename f)).get? name).isSome =
        ((Substitution.empty.deduce p a).get? name).isSome ∧
      (¬ MeetsItself p a name → (Substitution.empty.deduce p (a.rename f)).get? name =
        ((Substitution.empty.deduce p a).get? name).map (rename f)) := by
  have hpairings : pairings p (a.rename f) = (pairings p a).map (ParamArg.rename f) :=
    pairings_rename (biUnique_matched hf hfresh hcompared) (fun name hname => .inr ⟨hname, rfl⟩)
      fun name hname => .inl ⟨hname, rfl⟩
  rw [Substitution.get?_deduce, Substitution.get?_deduce, hpairings, Substitution.get?_empty]
  constructor
  · rw [Substitution.isSome_foldl_settle, Substitution.isSome_foldl_settle,
      ParamArg.isEmpty_values_rename]
  · intro hitself
    rw [← Substitution.foldl_settle_rename, ParamArg.values_rename]
    · rfl
    · intro b hb hname
      obtain ⟨houter, hnames⟩ := names_of_mem_pairings hb
      refine ParamArg.value_rename (fun h => hitself ⟨b, hb, hname, h⟩) fun m hm heq => ?_
      exact hfresh m (hnames hm) (heq ▸ mem_paramNames_of_mem_paramUses houter)

/-- A union of null, a generic struct applied to `T`, which has a default, and `U`. -/
def boxOrParam : Ty :=
  .union [.null, .instantiation (.struct ⟨"Box", none⟩ []) [.typeParam ⟨"T", none⟩ (some .int)],
    bareParam "U"]

/-- An argument for `boxOrParam` with type parameters of the same names. -/
def boxOfPair : Ty :=
  .union [.instantiation (.struct ⟨"Box", none⟩ []) [.tensor [bareParam "U", bareParam "T"]],
    bareParam "T", .null]

/-- Other names for `T` and `U`. -/
def otherName (name : String) : String := if name = "T" then "X" else "Y"

/-- What the type parameter with a default is bound to has a type parameter of its name, but is not
one. -/
theorem deduce_rename_boxOfPair :
    (∀ m ∈ boxOfPair.paramNames, ∀ n ∈ boxOfPair.paramNames, otherName m = otherName n → m = n) ∧
      (∀ name ∈ boxOfPair.paramNames, otherName name ∉ boxOrParam.paramNames) ∧
      (∀ name ∈ boxOfPair.paramNames, name ∉ boxOrParam.comparedParams) ∧
      ¬ MeetsItself boxOrParam boxOfPair "T" ∧
      (Substitution.empty.deduce boxOrParam boxOfPair).get? "T" =
        some (.tensor [bareParam "U", bareParam "T"]) ∧
      (Substitution.empty.deduce boxOrParam (boxOfPair.rename otherName)).get? "T" =
        some (.tensor [bareParam "Y", bareParam "X"]) := by
  have hpairs : pairings boxOrParam boxOfPair =
      [⟨⟨"T", none⟩, some .int, .tensor [bareParam "U", bareParam "T"]⟩,
        ⟨⟨"T", none⟩, some .int, .tensor [bareParam "U", bareParam "T"]⟩,
        ⟨⟨"U", none⟩, none, bareParam "T"⟩] := by
    simp [pairings, Substitution.variantArgs?, Substitution.leftOver?, boxOrParam, boxOfPair,
      bareParam, List.filter_cons, hasGenerics, anyHasGenerics, equals, stripAliases, unwrapAlias,
      typeArgs, pairAll, pairOpen]
  have hlearned : (Substitution.empty.deduce boxOrParam boxOfPair).get? "T" =
      some (.tensor [bareParam "U", bareParam "T"]) := by
    simp [Substitution.get?_deduce, hpairs, ParamArg.values, ParamArg.value, Substitution.settle]
  have hf : ∀ m ∈ boxOfPair.paramNames, ∀ n ∈ boxOfPair.paramNames,
      otherName m = otherName n → m = n := by
    simp [boxOfPair, bareParam, paramNames, paramNamesOf, otherName]
  have hfresh : ∀ name ∈ boxOfPair.paramNames, otherName name ∉ boxOrParam.paramNames := by
    simp [boxOfPair, boxOrParam, bareParam, paramNames, paramNamesOf, otherName]
  have hcompared : ∀ name ∈ boxOfPair.paramNames, name ∉ boxOrParam.comparedParams := by
    simp [boxOfPair, boxOrParam, bareParam, paramNames, paramNamesOf, comparedParams,
      comparedParamsOf, hasGenerics, anyHasGenerics, baseParams, paramUses]
  have hitself : ¬ MeetsItself boxOrParam boxOfPair "T" := by
    simp [MeetsItself, hpairs, ParamArg.IsItself]
  refine ⟨hf, hfresh, hcompared, hitself, hlearned, ?_⟩
  rw [(deduce_rename hf hfresh hcompared "T").2 hitself, hlearned]
  simp [rename, bareParam, otherName]

/-- Neither exception can be left out. A type parameter with a default that is given itself takes
the default, and with another name for a parameter that was given no argument a variant is no longer
that of the declared type. -/
theorem not_deduce_rename :
    (¬ ∀ (f : String → String) (p a : Ty),
      (∀ m ∈ a.paramNames, ∀ n ∈ a.paramNames, f m = f n → m = n) →
      (∀ name ∈ a.paramNames, f name ∉ p.paramNames ∧ f name ∉ a.paramNames) →
      (∀ name ∈ a.paramNames, name ∉ p.comparedParams) →
      ∀ name, (Substitution.empty.deduce p (a.rename f)).get? name =
        ((Substitution.empty.deduce p a).get? name).map (rename f)) ∧
    (¬ ∀ (f : String → String) (p a : Ty),
      (∀ m ∈ a.paramNames, ∀ n ∈ a.paramNames, f m = f n → m = n) →
      (∀ name ∈ a.paramNames, f name ∉ p.paramNames ∧ f name ∉ a.paramNames) →
      (∀ name, ¬ MeetsItself p a name) →
      ∀ name, (Substitution.empty.deduce p (a.rename f)).get? name =
        ((Substitution.empty.deduce p a).get? name).map (rename f)) := by
  constructor
  · intro h
    have heq := h (fun _ => "U") (.typeParam ⟨"T", none⟩ (some .int)) (bareParam "T")
      (by simp [paramNames, bareParam]) (by simp [paramNames, bareParam])
      (by simp [comparedParams]) "T"
    simp [Substitution.get?_deduce, pairings, ParamArg.values, ParamArg.value, rename, bareParam,
      Substitution.settle] at heq
  · intro h
    have hpairs : pairings (.union [halfApplied, bareParam "U"]) (.union [halfApplied, .bool]) =
        [⟨⟨"U", none⟩, none, .bool⟩] := by
      simp [pairings, Substitution.variantArgs?, Substitution.leftOver?, List.filter_cons,
        halfApplied, bareParam, hasGenerics, anyHasGenerics, equals, allEqual, stripAliases,
        pairOpen]
    have hrenamed : pairings (.union [halfApplied, bareParam "U"])
        ((union [halfApplied, .bool]).rename fun _ => "C") = [] := by
      simp [pairings, Substitution.variantArgs?, Substitution.leftOver?, halfApplied, bareParam,
        rename, hasGenerics, anyHasGenerics, equals, allEqual, stripAliases]
    have heq := h (fun _ => "C") (.union [halfApplied, bareParam "U"])
      (.union [halfApplied, .bool]) (by simp [paramNames, paramNamesOf, halfApplied, bareParam])
      (by simp [paramNames, paramNamesOf, halfApplied, bareParam])
      (by simp [MeetsItself, hpairs, ParamArg.IsItself]) "U"
    rw [Substitution.get?_deduce, Substitution.get?_deduce, hrenamed, hpairs] at heq
    simp [ParamArg.values, ParamArg.value, Substitution.settle] at heq

end Ty

end TolkAnalysis
