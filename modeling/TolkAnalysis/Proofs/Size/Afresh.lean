import TolkAnalysis.Proofs.Ty.Hereditary
import TolkAnalysis.Size.Estimate

/-!
# Sizes without a memo

`Sizing.afresh` finds the size of a type by the rules alone: the size of each part is
calculated again wherever it is needed. As with `Sizing.calculated`, the steps down are
bounded and there is no answer beyond the bound, but more steps keep an answer, so a type
has at most one size (`Ty.HasSize`). A type without type parameters has one, since it takes
no more steps down than it has parts (`Ty.Closed.exists_hasSize`).

`Sizing.calculate_rel` follows the rules for two ways of finding the sizes of parts at once:
whatever relates the two ways, and is kept by doing one thing after another, relates the
sizes that the rules find with them.
-/

namespace TolkAnalysis

namespace Ty

/-- The types whose sizes the size of a type is found from. -/
def sizeParts : Ty → List Ty
  | .struct _ fields => fields
  | .alias _ inner => [inner]
  | .tensor elements => elements
  | .tuple elements => elements
  | .union variants => variants
  | _ => []

/-- The body of an applied struct or alias, whose size is that of the whole. -/
def appliedBody? : Ty → Option Ty
  | .instantiation inner args =>
      match inner.nominal? with
      | none => none
      | some nominal =>
          if nominal.name = "Cell" ∨ nominal.name = "map" then none
          else
            match inner with
            | .struct .. | .alias .. => some (Sizing.instantiatedBody inner nominal args)
            | _ => none
  | _ => none

end Ty

namespace Sizing

/-! ### Two ways to find sizes -/

/-- A relation between computations is kept by doing one thing after another. -/
structure Sequential (R : {α : Type} → Sizing α → Sizing α → Prop) : Prop where
  pure : ∀ {α : Type} (a : α), R (pure a) (pure a)
  bind : ∀ {α β : Type} {c c' : Sizing α} {f f' : α → Sizing β}, R c c' →
    (∀ a, R (f a) (f' a)) → R (c >>= f) (c' >>= f')

section

variable {R : {α : Type} → Sizing α → Sizing α → Prop} (h : Sequential R)
  {estimate estimate' again again' : Ty → TagMode → Sizing CellSize}
include h

theorem sizes_rel {ts : List Ty} (hts : ∀ t ∈ ts, ∀ mode, R (estimate t mode) (estimate' t mode))
    (mode : TagMode) : R (sizes estimate mode ts) (sizes estimate' mode ts) := by
  induction ts with
  | nil => exact h.pure []
  | cons t ts ih =>
      rw [List.forall_mem_cons] at hts
      exact h.bind (hts.1 mode) fun s => h.bind (ih hts.2) fun ss => h.pure (s :: ss)

theorem sumAll_rel {ts : List Ty}
    (hts : ∀ t ∈ ts, ∀ mode, R (estimate t mode) (estimate' t mode)) :
    R (sumAll estimate ts) (sumAll estimate' ts) :=
  h.bind (sizes_rel h hts .counted) fun _ => h.pure _

theorem taggedSize_rel {ts : List Ty}
    (hts : ∀ t ∈ ts, ∀ mode, R (estimate t mode) (estimate' t mode)) :
    R (taggedSize estimate ts) (taggedSize estimate' ts) := by
  unfold taggedSize
  split
  · exact h.pure _
  · refine h.bind (sizes_rel h hts .alreadyCounted) fun found => ?_
    split <;> exact h.pure _

theorem unionSize_rel {ts : List Ty}
    (hts : ∀ t ∈ ts, ∀ mode, R (estimate t mode) (estimate' t mode)) :
    R (unionSize estimate ts) (unionSize estimate' ts) := by
  unfold unionSize
  split
  · rename_i inner hinner
    exact h.bind (hts inner (Ty.mem_of_nullableInner? hinner) .counted) fun _ => h.pure _
  · split
    · rename_i left right _
      split
      · exact h.bind (hts left (by simp) .counted) fun _ =>
          h.bind (hts right (by simp) .counted) fun _ => h.pure _
      · exact taggedSize_rel h hts
    · exact taggedSize_rel h hts

/-- Two ways to find the sizes of parts that are related give related sizes. -/
theorem calculate_rel {t : Ty} (mode : TagMode)
    (hparts : ∀ s ∈ t.sizeParts, ∀ mode, R (estimate s mode) (estimate' s mode))
    (hbody : ∀ s ∈ t.appliedBody?, R (again s mode) (again' s mode)) :
    R (calculate estimate again t mode) (calculate estimate' again' t mode) := by
  cases t using Ty.inductionOnParts with
  | primitive t ht => cases t <;> cases ht <;> exact h.pure _
  | builtin | enum | typeParam | function => exact h.pure _
  | struct n fields => exact h.bind (sumAll_rel h hparts) fun _ => h.pure _
  | aliasOf n inner => exact hparts inner (by simp [Ty.sizeParts]) .counted
  | tensor elements => exact sumAll_rel h hparts
  | tuple elements => exact sumAll_rel h hparts
  | union variants => exact unionSize_rel h hparts
  | instantiation inner args =>
      rw [calculate, calculate]
      split
      · exact h.pure _
      · rename_i nominal hnominal
        split
        · exact h.pure _
        · rename_i hcell
          split
          · exact h.pure _
          · rename_i hmap
            split
            · exact hbody _ (by simp [Ty.appliedBody?, hnominal, hcell, hmap])
            · exact hbody _ (by simp [Ty.appliedBody?, hnominal, hcell, hmap])
            · exact h.pure _

end

/-- An applied struct or alias is sized by its body. -/
theorem calculate_of_appliedBody? {estimate again : Ty → TagMode → Sizing CellSize} {t body : Ty}
    (h : t.appliedBody? = some body) (mode : TagMode) :
    calculate estimate again t mode = again body mode := by
  unfold Ty.appliedBody? at h
  split at h
  · rename_i inner args
    split at h
    · cases h
    · rename_i n hn
      split at h
      · cases h
      · rename_i hname
        rw [not_or] at hname
        rw [calculate, hn]
        dsimp only
        rw [if_neg hname.1, if_neg hname.2]
        split at h <;> cases h <;> rfl
  · cases h

/-- A property of computations is kept by doing one thing after another. -/
structure Kept (P : {α : Type} → Sizing α → Prop) : Prop where
  pure : ∀ {α : Type} (a : α), P (pure a)
  bind : ∀ {α β : Type} {c : Sizing α} {f : α → Sizing β}, P c → (∀ a, P (f a)) → P (c >>= f)

theorem calculate_keeps {P : {α : Type} → Sizing α → Prop} (h : Kept P)
    {estimate again : Ty → TagMode → Sizing CellSize} {t : Ty} (mode : TagMode)
    (hparts : ∀ s ∈ t.sizeParts, ∀ mode, P (estimate s mode))
    (hbody : ∀ s ∈ t.appliedBody?, P (again s mode)) : P (calculate estimate again t mode) :=
  @calculate_rel (fun c _ => P c) ⟨h.pure, fun hc hf => h.bind hc hf⟩ estimate estimate again again
    t mode hparts hbody

/-- The size of a type, in at most `depth` steps down and without a memo. -/
def afresh : Nat → Ty → TagMode → Sizing CellSize
  | 0, _, _ => failure
  | depth + 1, t, mode => calculate (afresh depth) (afresh depth) t mode

/-! ### More steps down -/

/-- What the first computation finds, the second finds as well. -/
def Refines {α : Type} (c c' : Sizing α) : Prop :=
  ∀ memo r, c.run memo = some r → c'.run memo = some r

theorem sequential_refines : Sequential Refines where
  pure a _ _ h := h
  bind {α β c c' f f'} hc hf memo r h := by
    obtain ⟨⟨a, memo'⟩, ha, hr⟩ := Option.bind_eq_some_iff.mp h
    exact Option.bind_eq_some_iff.mpr ⟨(a, memo'), hc memo _ ha, hf a memo' r hr⟩

theorem refines_remembered {calculate calculate' : Ty → TagMode → Sizing CellSize} {t : Ty}
    {mode : TagMode} (h : Refines (calculate t mode) (calculate' t mode)) :
    Refines (remembered calculate t mode) (remembered calculate' t mode) := by
  refine sequential_refines.bind (fun _ _ h => h) fun memo => ?_
  split
  · exact sequential_refines.pure _
  · exact sequential_refines.bind h fun _ _ _ h => h

theorem refines_calculated {depth depth' : Nat} (h : depth ≤ depth') (t : Ty) (mode : TagMode) :
    Refines (calculated depth t mode) (calculated depth' t mode) := by
  induction depth generalizing depth' t mode with
  | zero => exact fun _ _ h => nomatch h
  | succ depth ih =>
      obtain ⟨d, rfl⟩ := Nat.exists_eq_add_of_le' (Nat.zero_lt_of_lt h)
      have hd := Nat.le_of_add_le_add_right h
      exact calculate_rel sequential_refines mode
        (fun s _ mode => refines_remembered (ih hd s mode)) fun s _ => ih hd s mode

theorem refines_afresh {depth depth' : Nat} (h : depth ≤ depth') (t : Ty) (mode : TagMode) :
    Refines (afresh depth t mode) (afresh depth' t mode) := by
  induction depth generalizing depth' t mode with
  | zero => exact fun _ _ h => nomatch h
  | succ depth ih =>
      obtain ⟨d, rfl⟩ := Nat.exists_eq_add_of_le' (Nat.zero_lt_of_lt h)
      have hd := Nat.le_of_add_le_add_right h
      exact calculate_rel sequential_refines mode (fun s _ mode => ih hd s mode)
        fun s _ => ih hd s mode

/-! ### The memo is left alone -/

/-- The computation neither reads nor changes the memo. -/
def Untouched {α : Type} (c : Sizing α) : Prop :=
  ∀ memo, c.run memo = ((c.run ∅).map (·.1)).map (·, memo)

theorem kept_untouched : Kept Untouched where
  pure a _ := rfl
  bind {α β c f} hc hf memo := by
    have hempty := hc ∅
    change (c.run memo).bind (fun p => (f p.1).run p.2) =
      (((c.run ∅).bind fun p => (f p.1).run p.2).map (·.1)).map (·, memo)
    rw [hc memo, hempty]
    cases c.run ∅ with
    | none => rfl
    | some p => exact hf p.1 memo

/-! ### Steps enough -/

/-- The computation finds something, whatever is remembered. -/
def Total {α : Type} (c : Sizing α) : Prop := ∀ memo, (c.run memo).isSome

theorem kept_total : Kept Total where
  pure a _ := rfl
  bind {α β c f} hc hf memo := by
    obtain ⟨⟨a, memo'⟩, ha⟩ := Option.isSome_iff_exists.mp (hc memo)
    change ((c.run memo).bind fun p => (f p.1).run p.2).isSome
    rw [ha]
    exact hf a memo'

theorem total_remembered {calculate : Ty → TagMode → Sizing CellSize} {t : Ty} {mode : TagMode}
    (h : Total (calculate t mode)) : Total (remembered calculate t mode) := by
  refine kept_total.bind (fun _ => rfl) fun memo => ?_
  split
  · exact kept_total.pure _
  · exact kept_total.bind h fun _ _ => rfl

end Sizing

namespace Ty

/-- The size of a type, found in at most `depth` steps down and without a memo. -/
def sizeWithin (depth : Nat) (t : Ty) (mode : TagMode) : Option CellSize :=
  ((Sizing.afresh depth t mode).run ∅).map (·.1)

/-- The size that the rules find for a type without a memo. -/
def HasSize (t : Ty) (mode : TagMode) (size : CellSize) : Prop :=
  ∃ depth, t.sizeWithin depth mode = some size

theorem sizeWithin_mono {depth depth' : Nat} (h : depth ≤ depth') {t : Ty} {mode : TagMode}
    {size : CellSize} (hs : t.sizeWithin depth mode = some size) :
    t.sizeWithin depth' mode = some size := by
  obtain ⟨r, hr, rfl⟩ := Option.map_eq_some_iff.mp hs
  exact Option.map_eq_some_iff.mpr ⟨r, Sizing.refines_afresh h t mode ∅ r hr, rfl⟩

/-- A type has at most one size. -/
theorem HasSize.unique {t : Ty} {mode : TagMode} {size size' : CellSize}
    (h : t.HasSize mode size) (h' : t.HasSize mode size') : size = size' := by
  obtain ⟨depth, h⟩ := h
  obtain ⟨depth', h'⟩ := h'
  have hl := sizeWithin_mono (Nat.le_max_left depth depth') h
  have hr := sizeWithin_mono (Nat.le_max_right depth depth') h'
  exact Option.some.inj (hl.symm.trans hr)

/-! ### Types without type parameters -/

mutual

/-- No type parameter occurs in the type, at any depth. -/
def Closed : Ty → Prop
  | .struct _ fields => AllClosed fields
  | .alias _ inner => inner.Closed
  | .typeParam .. => False
  | .tensor elements => AllClosed elements
  | .tuple elements => AllClosed elements
  | .union variants => AllClosed variants
  | .function params result => AllClosed params ∧ result.Closed
  | .instantiation inner args => inner.Closed ∧ AllClosed args
  | _ => True

/-- No type parameter occurs in the types of a list. -/
def AllClosed : List Ty → Prop
  | [] => True
  | t :: ts => t.Closed ∧ AllClosed ts

end

theorem allClosed_iff {ts : List Ty} : AllClosed ts ↔ ∀ t ∈ ts, t.Closed := by
  induction ts with
  | nil => simp [AllClosed]
  | cons t ts ih => simp [AllClosed, ih]

theorem hereditary_closed : Hereditary (fun _ => True) Closed where
  primitive {t} ht := by cases t <;> first | cases ht; done | trivial
  struct := by simp [Closed, allClosed_iff]
  aliasOf := by simp [Closed]
  default h := h.elim
  tensor := by simp [Closed, allClosed_iff]
  tuple := by simp [Closed, allClosed_iff]
  function := by simp [Closed, allClosed_iff]
  instantiation := by simp [Closed, allClosed_iff]
  variants h := allClosed_iff.mp h

theorem stable_closed : Stable (fun _ => True) Closed :=
  hereditary_closed.stable fun hts _ => allClosed_iff.mpr (hereditary_closed.distinctVariants hts)

/-! ### Fewer parts -/

theorem weights_append (ts us : List Ty) : weights (ts ++ us) = weights ts + weights us := by
  induction ts with
  | nil => simp [weights]
  | cons t ts ih => simp [weights, ih, Nat.add_assoc]

theorem weight_pos (t : Ty) : 0 < t.weight := by
  cases t <;> simp only [weight] <;> omega

theorem weight_le_weights {t : Ty} {ts : List Ty} (h : t ∈ ts) : t.weight ≤ weights ts := by
  induction h with
  | head ts => simp [weights]
  | tail s _ ih => simp only [weights]; omega

theorem weight_baseType_le (t : Ty) : t.baseType.weight ≤ t.weight := by
  fun_induction baseType t with
  | case1 n inner ih => simp only [weight]; omega
  | case2 inner args ih => simp only [weight]; omega
  | case3 t => exact Nat.le_refl _

theorem weights_unionParts_le (t : Ty) : weights t.unionParts ≤ t.weight := by
  have hbase := weight_baseType_le t
  unfold unionParts
  split
  · rename_i variants heq
    rw [heq, weight] at hbase
    omega
  · simp [weights]

theorem weights_addVariant_le (ts : List Ty) (t : Ty) :
    weights (addVariant ts t) ≤ weights ts + t.weight := by
  unfold addVariant
  split
  · exact Nat.le_add_right ..
  · simp [weights_append, weights]

theorem weights_distinctVariants_le (ts : List Ty) : weights (distinctVariants ts) ≤ weights ts := by
  have fold : ∀ parts found : List Ty,
      weights (parts.foldl addVariant found) ≤ weights found + weights parts := by
    intro parts
    induction parts with
    | nil => simp [weights]
    | cons p parts ih =>
        intro found
        have := ih (addVariant found p)
        have := weights_addVariant_le found p
        simp only [List.foldl_cons, weights]
        omega
  have parts : ∀ ts : List Ty, weights (ts.flatMap unionParts) ≤ weights ts := by
    intro ts
    induction ts with
    | nil => simp [weights]
    | cons t ts ih =>
        have := weights_unionParts_le t
        simp only [List.flatMap_cons, weights_append, weights]
        omega
  have h := fold (ts.flatMap unionParts) []
  have := parts ts
  simp only [distinctVariants, weights] at h ⊢
  omega

theorem weight_unionOf_le (ts : List Ty) : (unionOf ts).weight ≤ 1 + weights ts := by
  have h := weights_distinctVariants_le ts
  unfold unionOf
  split
  · simp [weight]
  · rename_i t heq
    simp only [heq, weights] at h
    omega
  · simp only [weight]
    omega

mutual

/-- Putting bindings in place adds nothing to a type without type parameters. -/
theorem Closed.weight_replaceParams_le (σ : Substitution) :
    ∀ {t : Ty}, t.Closed → (t.replaceParams σ).weight ≤ t.weight
  | .typeParam .., h => h.elim
  | .struct n fields, h => by
      have := AllClosed.weights_replaceAll_le σ h
      simp only [replaceParams, weight]; omega
  | .alias n inner, h => by
      have := Closed.weight_replaceParams_le σ (show inner.Closed from h)
      simp only [replaceParams, weight]; omega
  | .tensor ts, h => by
      have := AllClosed.weights_replaceAll_le σ h
      simp only [replaceParams, weight]; omega
  | .tuple ts, h => by
      have := AllClosed.weights_replaceAll_le σ h
      simp only [replaceParams, weight]; omega
  | .union ts, h => by
      have := AllClosed.weights_replaceAll_le σ h
      have := weight_unionOf_le (replaceAll σ ts)
      simp only [replaceParams, weight]; omega
  | .function params result, h => by
      have := AllClosed.weights_replaceAll_le σ h.1
      have := Closed.weight_replaceParams_le σ h.2
      simp only [replaceParams, weight]; omega
  | .instantiation inner args, h => by
      have := AllClosed.weights_replaceAll_le σ h.2
      have := Closed.weight_replaceParams_le σ h.1
      simp only [replaceParams, weight]; omega
  | .builtin _, _ | .enum _, _ | .int, _ | .intN .., _ | .varIntN .., _ | .coins, _ | .bool, _
  | .bitsN _, _ | .bytesN _, _ | .null, _ | .void, _ | .never, _ | .unknown, _ => Nat.le_refl _

theorem AllClosed.weights_replaceAll_le (σ : Substitution) :
    ∀ {ts : List Ty}, AllClosed ts → weights (replaceAll σ ts) ≤ weights ts
  | [], _ => Nat.le_refl _
  | t :: ts, h => by
      have := Closed.weight_replaceParams_le σ h.1
      have := AllClosed.weights_replaceAll_le σ h.2
      simp only [replaceAll, weights]; omega

end

theorem Closed.weight_substitute_le {t : Ty} (h : t.Closed) (σ : Substitution) :
    (t.substitute σ).weight ≤ t.weight := by
  unfold substitute
  split
  · exact Nat.le_refl _
  · exact h.weight_replaceParams_le σ

/-! ### A size for every type without type parameters -/

theorem exists_of_appliedBody? {t body : Ty} (h : t.appliedBody? = some body) :
    ∃ inner args n, t = .instantiation inner args ∧
      body = Sizing.instantiatedBody inner n args := by
  unfold appliedBody? at h
  split at h
  · rename_i inner args
    split at h
    · cases h
    · rename_i n hn
      split at h
      · cases h
      · split at h <;> cases h <;> exact ⟨_, args, n, rfl, rfl⟩
  · cases h

/-- The body of an applied type is not applied in turn. -/
theorem appliedBody?_of_appliedBody? {t body : Ty} (h : t.appliedBody? = some body) :
    body.appliedBody? = none := by
  obtain ⟨inner, args, n, rfl, rfl⟩ := exists_of_appliedBody? h
  unfold Sizing.instantiatedBody
  cases inner using inductionOnParts with
  | struct m fields => rw [substitute]; split <;> rfl
  | aliasOf m inner => rw [substitute]; split <;> rfl
  | primitive _ hinner => cases inner <;> cases hinner <;> simp [appliedBody?, nominal?] at h
  | _ => simp [appliedBody?, nominal?] at h

theorem Closed.sizeParts {t : Ty} (h : t.Closed) :
    ∀ s ∈ t.sizeParts, s.Closed ∧ s.weight < t.weight := by
  have list {ts : List Ty} (hts : AllClosed ts) : ∀ s ∈ ts, s.Closed ∧ s.weight < 1 + weights ts :=
    fun s hs => ⟨allClosed_iff.mp hts s hs, by have := weight_le_weights hs; omega⟩
  cases t using inductionOnParts with
  | struct n fields => exact list h
  | tensor ts => exact list h
  | tuple ts => exact list h
  | union ts => exact list h
  | aliasOf n inner =>
      intro s hs
      rw [Ty.sizeParts, List.mem_singleton] at hs
      subst hs
      exact ⟨h, by simp [weight]⟩
  | primitive t ht => cases t <;> cases ht <;> simp [Ty.sizeParts]
  | builtin | enum | typeParam | function | instantiation => simp [Ty.sizeParts]

theorem Closed.appliedBody {t body : Ty} (h : t.Closed) (hbody : t.appliedBody? = some body) :
    body.Closed ∧ body.weight < t.weight := by
  obtain ⟨inner, args, n, rfl, rfl⟩ := exists_of_appliedBody? hbody
  obtain ⟨hinner, hargs⟩ := hereditary_closed.instantiation.mp h
  constructor
  · refine stable_closed.substitute hinner (Substitution.binds_ofList fun b hb => ?_)
    exact hargs _ (List.of_mem_zip hb).2
  · have := hinner.weight_substitute_le (Substitution.ofList
      (((n.anchor.map (·.typeParameterNames)).getD []).zip args))
    simp only [Sizing.instantiatedBody, weight]
    omega

/-- Whichever way the sizes of parts are found, as long as that adds no failure, a type
without type parameters takes no more steps down than it has parts. -/
theorem Closed.total {find part : Nat → Ty → TagMode → Sizing CellSize}
    (hpart : ∀ depth t mode, Sizing.Total (find depth t mode) → Sizing.Total (part depth t mode))
    (hfind : ∀ depth t mode, find (depth + 1) t mode =
      Sizing.calculate (part depth) (find depth) t mode)
    {t : Ty} (h : t.Closed) {depth : Nat} (hdepth : t.weight ≤ depth) (mode : TagMode) :
    Sizing.Total (find depth t mode) := by
  induction depth generalizing t mode with
  | zero => exact absurd hdepth (Nat.not_le.mpr t.weight_pos)
  | succ depth ih =>
      rw [hfind]
      refine Sizing.calculate_keeps Sizing.kept_total mode (fun s hs mode => ?_) fun s hs => ?_
      · obtain ⟨hclosed, hlt⟩ := h.sizeParts s hs
        exact hpart depth s mode (ih hclosed (by omega) mode)
      · obtain ⟨hclosed, hlt⟩ := h.appliedBody hs
        exact ih hclosed (by omega) mode

theorem Closed.total_afresh {t : Ty} (h : t.Closed) (mode : TagMode) :
    Sizing.Total (Sizing.afresh t.weight t mode) :=
  h.total (fun _ _ _ h => h) (fun _ _ _ => rfl) (Nat.le_refl _) mode

theorem Closed.total_calculated {t : Ty} (h : t.Closed) (mode : TagMode) :
    Sizing.Total (Sizing.calculated t.weight t mode) :=
  have hpart : ∀ depth s mode, Sizing.Total (Sizing.calculated depth s mode) →
      Sizing.Total (Sizing.remembered (Sizing.calculated depth) s mode) :=
    fun _ _ _ => Sizing.total_remembered
  h.total hpart (fun _ _ _ => rfl) (Nat.le_refl _) mode

theorem Closed.exists_sizeWithin_weight {t : Ty} (h : t.Closed) (mode : TagMode) :
    ∃ size, t.sizeWithin t.weight mode = some size := by
  obtain ⟨r, hr⟩ := Option.isSome_iff_exists.mp (h.total_afresh mode ∅)
  exact ⟨r.1, Option.map_eq_some_iff.mpr ⟨r, hr, rfl⟩⟩

theorem Closed.exists_hasSize {t : Ty} (h : t.Closed) (mode : TagMode) :
    ∃ size, t.HasSize mode size := by
  obtain ⟨size, hsize⟩ := h.exists_sizeWithin_weight mode
  exact ⟨size, t.weight, hsize⟩

end Ty

end TolkAnalysis
