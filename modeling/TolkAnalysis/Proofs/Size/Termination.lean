import TolkAnalysis.Proofs.Size.Memo

/-!
# Sizes are found

An applied struct or alias has the size of its body, into which the arguments have just been
put and whose unions have just been built anew: the body need not be a part of the type. In a
type without type parameters there is nowhere to put an argument, and a union that is built
anew has no more parts than the old one, so the body has fewer parts than the type. Hence a
chain of types, each sized for the one before it, ends (`Ty.Closed.acc`), and as many steps
down as a type has parts are enough, whatever is remembered (`Ty.Closed.estimate_ends`). The
bound on the steps then plays no part: sizes are found from sizes found without it
(`Ty.Closed.estimate_eq`, `Ty.Closed.settled_eq`).

With type parameters the body may contain the very type it is the body of.
`Ty.selfApplied` is such a type, and no number of steps is enough for it.
-/

namespace TolkAnalysis

namespace Ty

/-- The size of the second type is found from that of the first. -/
def SizedFor (s t : Ty) : Prop := s ∈ t.sizeParts ∨ s ∈ t.appliedBody?

theorem Closed.sizedFor {s t : Ty} (h : t.Closed) (hs : s.SizedFor t) :
    s.Closed ∧ s.weight < t.weight :=
  hs.elim (h.sizeParts s) h.appliedBody

/-- There is no endless chain of types that starts with one without type parameters and goes
on with what its size is found from. -/
theorem Closed.acc {t : Ty} (h : t.Closed) : Acc SizedFor t := by
  induction hweight : t.weight using Nat.strongRecOn generalizing t with
  | ind weight ih =>
      refine .intro t fun s hs => ?_
      obtain ⟨hclosed, hlt⟩ := h.sizedFor hs
      exact ih s.weight (hweight ▸ hlt) hclosed rfl

end Ty

namespace Sizing

theorem sequential_eq : Sequential (fun c c' => c = c') where
  pure _ := rfl
  bind hc hf := by rw [hc, funext hf]

/-- Nothing can be added to a computation that finds something whatever is remembered. -/
theorem Refines.eq_of_total {α : Type} {c c' : Sizing α} (h : Refines c c') (hc : Total c) :
    c' = c := by
  funext memo
  obtain ⟨r, hr⟩ := Option.isSome_iff_exists.mp (hc memo)
  exact (h memo r hr).trans hr.symm

theorem remembered_congr {calculate calculate' : Ty → TagMode → Sizing CellSize} {t : Ty}
    {mode : TagMode} (h : calculate t mode = calculate' t mode) :
    remembered calculate t mode = remembered calculate' t mode := by
  rw [remembered, remembered, h]

/-- The calculated size of a type, in as many steps down as it has parts. -/
def settled (t : Ty) (mode : TagMode) : Sizing CellSize := calculated t.weight t mode

end Sizing

namespace Ty

open Sizing

variable {t : Ty}

/-- More steps down than there are parts make no difference. -/
theorem Closed.calculated_eq (h : t.Closed) {depth : Nat} (hdepth : t.weight ≤ depth)
    (mode : TagMode) : calculated depth t mode = settled t mode :=
  (refines_calculated hdepth t mode).eq_of_total (h.total_calculated mode)

/-- The settled size of a type is calculated from remembered or settled sizes of other types. -/
theorem Closed.settled_eq (h : t.Closed) (mode : TagMode) :
    settled t mode = calculate (remembered settled) settled t mode := by
  obtain ⟨depth, hdepth⟩ := Nat.exists_eq_add_of_le' t.weight_pos
  rw [settled, hdepth]
  refine calculate_rel sequential_eq mode (fun s hs mode => ?_) fun s hs => ?_
  · obtain ⟨hclosed, hlt⟩ := h.sizedFor (.inl hs)
    exact remembered_congr (hclosed.calculated_eq (by omega) mode)
  · obtain ⟨hclosed, hlt⟩ := h.sizedFor (.inr hs)
    exact hclosed.calculated_eq (by omega) mode

/-- Whichever number of steps is tried first, the estimate is the remembered or settled size. -/
theorem Closed.estimate_eq (h : t.Closed) (mode : TagMode) :
    Sizing.estimate t mode = remembered settled t mode := by
  have husual : Refines (calculated usualDepth t mode) (settled t mode) := by
    rw [← h.calculated_eq (Nat.le_max_right usualDepth t.weight) mode]
    exact refines_calculated (Nat.le_max_left ..) t mode
  funext memo
  change (Sizing.estimate t mode).run memo = (remembered settled t mode).run memo
  rw [run_estimate]
  cases hrun : (remembered (calculated usualDepth) t mode).run memo with
  | none => exact Option.none_or
  | some r => exact (refines_remembered husual memo r hrun).symm

/-- The size of a type without type parameters is found, whatever is remembered: no chain of
types sized for one another is endless, and from as many steps down as there are parts on,
every bound gives the answer of the estimator. -/
theorem Closed.estimate_ends (h : t.Closed) (mode : TagMode) (memo : SizeMemo) :
    Acc SizedFor t ∧
      ∃ answer, (∀ depth, t.weight ≤ depth →
          (remembered (calculated depth) t mode).run memo = some answer) ∧
        memo.estimate t mode = answer := by
  have htotal : Total (settled t mode) := h.total_calculated mode
  obtain ⟨answer, hanswer⟩ := Option.isSome_iff_exists.mp (total_remembered htotal memo)
  refine ⟨h.acc, answer, fun depth hdepth => ?_, ?_⟩
  · rw [remembered_congr (h.calculated_eq hdepth mode)]
    exact hanswer
  · rw [SizeMemo.estimate, h.estimate_eq mode, hanswer]
    rfl

/-- The size of a struct with an optional member, applied to an argument it has no use for, is
found although its name is not remembered and that of the member is. -/
theorem estimate_ends_applied :
    let member : Ty := .union [.coins, .null]
    let t : Ty := .instantiation (.struct ⟨"Note", none⟩ [member]) [.bool]
    let memo : SizeMemo := (∅ : SizeMemo).insert (member.name, .counted) (.bits 8)
    Acc SizedFor t ∧
      ∃ answer, (∀ depth, t.weight ≤ depth →
          (remembered (calculated depth) t .alreadyCounted).run memo = some answer) ∧
        memo.estimate t .alreadyCounted = answer :=
  Closed.estimate_ends (by simp [Closed, AllClosed]) .alreadyCounted _

/-! ### A type parameter that is applied to itself -/

/-- A generic struct, applied to itself, whose only member is its type parameter applied to
itself. -/
def selfApplied (n : Nominal) (p : String) : Ty :=
  let param : Ty := .typeParam ⟨p, none⟩ none
  let box : Ty := .struct n [.instantiation param [param]]
  .instantiation box [box]

section

variable {n : Nominal} {p : String} (hcell : n.name ≠ "Cell") (hmap : n.name ≠ "map")
  (hparams : n.anchor.map (·.typeParameterNames) = some [p])
include hcell hmap hparams

/-- Putting the struct in place of the parameter restores the type. -/
theorem appliedBody?_selfApplied :
    (selfApplied n p).appliedBody? = some (.struct n [selfApplied n p]) := by
  simp [selfApplied, appliedBody?, nominal?, hcell, hmap, instantiatedBody, hparams, substitute,
    Substitution.ofList, Substitution.isEmpty, Substitution.insert, Substitution.get?,
    replaceParams, replaceAll]

/-- The size of the type is not found in any number of steps, unless it is remembered. -/
theorem run_calculated_selfApplied {memo : SizeMemo}
    (hmemo : memo[((selfApplied n p).name, TagMode.counted)]? = none) (depth : Nat)
    (mode : TagMode) : (calculated depth (selfApplied n p) mode).run memo = none := by
  induction depth using Nat.strongRecOn generalizing mode with
  | ind depth ih =>
      have hbody := appliedBody?_selfApplied hcell hmap hparams
      match depth with
      | 0 => rfl
      | 1 => rw [calculated, calculate_of_appliedBody? hbody]; rfl
      | depth + 2 =>
          have hmember := ih depth (by omega) .counted
          rw [calculated, calculate_of_appliedBody? hbody, calculated, calculate]
          simp [sumAll, sizes, remembered, hmemo, hmember]

end

-- A struct that may be applied to itself like this, since it declares one type parameter.
example : (parse 0 0 "struct Box<T> {}").tree.rootNode.children.map
    (fun n => (Decl.mk .struct n).typeParameterNames) = [["T"]] := by
  decide +kernel

end Ty

end TolkAnalysis
