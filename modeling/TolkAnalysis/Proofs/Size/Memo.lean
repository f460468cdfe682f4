import Mathlib.Data.List.Forall2
import TolkAnalysis.Proofs.Size.Afresh

/-!
# The memo of an estimator

An estimator remembers sizes by the shown name of a type, not by the type. So it answers
every request as if it remembered nothing exactly where names determine sizes: take any
family of types without type parameters that contains, with each type, the types that are
looked up on the way to its size. `SizeMemo.answers_iff` says that all sequences of requests
about the family are answered with the sizes found afresh if and only if types of the family
with one name have one size.

Names do not always determine sizes. Structs of different files may share a name, and an
optional function is shown like a function with an optional result
(`SizeMemo.answers_optional_function`).
-/

namespace TolkAnalysis

namespace Ty

/-- The types that are looked up by name when the size of a type is calculated. -/
def lookups (t : Ty) : List Ty :=
  match t.appliedBody? with
  | some body => body.sizeParts
  | none => t.sizeParts

/-- The family contains what is looked up for its types. -/
def LookupClosed (P : Ty → Prop) : Prop := ∀ t, P t → ∀ s ∈ t.lookups, P s

/-- Types of the family with one name have one size. -/
def NamesFixSizes (P : Ty → Prop) : Prop :=
  ∀ s t, P s → P t → s.name = t.name →
    ∀ mode size, s.HasSize mode size → t.HasSize mode size

theorem mem_lookups_of_mem_sizeParts {t s : Ty} (h : s ∈ t.sizeParts) : s ∈ t.lookups := by
  unfold lookups
  split
  · rename_i body hbody
    obtain ⟨inner, args, n, rfl, -⟩ := exists_of_appliedBody? hbody
    cases h
  · exact h

theorem lookups_of_appliedBody? {t body : Ty} (h : t.appliedBody? = some body) :
    body.lookups = t.lookups := by
  rw [lookups, lookups, h, appliedBody?_of_appliedBody? h]

end Ty

/-- What is remembered under the name of a type of the family is the size of the type. -/
def SizeMemo.Correct (P : Ty → Prop) (memo : SizeMemo) : Prop :=
  ∀ t, P t → ∀ mode size, memo[(t.name, mode)]? = some size → t.HasSize mode size

theorem SizeMemo.correct_empty (P : Ty → Prop) : SizeMemo.Correct P ∅ := by
  intro t _ mode size h
  simp at h

theorem SizeMemo.Correct.insert {P : Ty → Prop} (hnames : Ty.NamesFixSizes P) {memo : SizeMemo}
    (h : memo.Correct P) {t : Ty} (ht : P t) {mode : TagMode} {size : CellSize}
    (hsize : t.HasSize mode size) : SizeMemo.Correct P (memo.insert (t.name, mode) size) := by
  intro s hs mode' size' hget
  rw [Std.HashMap.getElem?_insert] at hget
  split at hget
  · rename_i heq
    obtain ⟨hname, hmode⟩ := Prod.mk.inj (eq_of_beq heq)
    cases hget
    exact hmode ▸ hnames t s ht hs hname mode size hsize
  · exact h s hs mode' size' hget

namespace Sizing

variable {P : Ty → Prop}

/-- Whatever correct memo the first computation starts with, it finds what the second finds
without one, and leaves a correct memo. -/
structure Simulates {α : Type} (P : Ty → Prop) (c c' : Sizing α) : Prop where
  untouched : Untouched c'
  finds : ∀ memo, SizeMemo.Correct P memo → ∀ a, (c'.run ∅).map (·.1) = some a →
    ∃ memo', SizeMemo.Correct P memo' ∧ c.run memo = some (a, memo')

theorem sequential_simulates (P : Ty → Prop) : Sequential (Simulates P) where
  pure a := ⟨kept_untouched.pure a, fun memo h b hb => by cases hb; exact ⟨memo, h, rfl⟩⟩
  bind {α β c c' f f'} hc hf := by
    refine ⟨kept_untouched.bind hc.untouched fun a => (hf a).untouched, fun memo h b hb => ?_⟩
    obtain ⟨⟨b, memo'⟩, hrun, rfl⟩ := Option.map_eq_some_iff.mp hb
    obtain ⟨⟨a, memo₁⟩, ha : c'.run ∅ = _, hrun⟩ := Option.bind_eq_some_iff.mp hrun
    -- The second computation has not touched the memo when it goes on.
    have hempty := hc.untouched ∅
    rw [ha] at hempty
    obtain rfl : memo₁ = ∅ := (Prod.mk.inj (Option.some.inj hempty)).2
    obtain ⟨memo₂, h₂, hrun₂⟩ := hc.finds memo h a (by rw [ha]; rfl)
    obtain ⟨memo₃, h₃, hrun₃⟩ := (hf a).finds memo₂ h₂ b (Option.map_eq_some_iff.mpr ⟨_, hrun, rfl⟩)
    exact ⟨memo₃, h₃, Option.bind_eq_some_iff.mpr ⟨_, hrun₂, hrun₃⟩⟩

theorem simulates_remembered (hnames : Ty.NamesFixSizes P) {depth : Nat} {t : Ty} (ht : P t)
    {mode : TagMode} (h : Simulates P (calculated depth t mode) (afresh depth t mode)) :
    Simulates P (remembered (calculated depth) t mode) (afresh depth t mode) where
  untouched := h.untouched
  finds memo hmemo size hsize := by
    have hhas : t.HasSize mode size := ⟨depth, hsize⟩
    cases hget : memo[(t.name, mode)]? with
    | some size' =>
        have heq := (hmemo t ht mode size' hget).unique hhas
        refine ⟨memo, hmemo, ?_⟩
        simp [remembered, hget, heq]
    | none =>
        obtain ⟨memo', hmemo', hrun⟩ := h.finds memo hmemo size hsize
        refine ⟨memo'.insert (t.name, mode) size, hmemo'.insert hnames ht hhas, ?_⟩
        simp [remembered, hget, hrun]

theorem simulates_calculated (hP : Ty.LookupClosed P) (hnames : Ty.NamesFixSizes P) {t : Ty}
    (ht : ∀ s ∈ t.lookups, P s) (depth : Nat) (mode : TagMode) :
    Simulates P (calculated depth t mode) (afresh depth t mode) := by
  induction depth generalizing t mode with
  | zero => exact ⟨fun _ => rfl, fun _ _ _ h => nomatch h⟩
  | succ depth ih =>
      refine calculate_rel (sequential_simulates P) mode (fun s hs mode => ?_) fun s hs => ?_
      · have hPs := ht s (Ty.mem_lookups_of_mem_sizeParts hs)
        exact simulates_remembered hnames hPs (ih (hP s hPs) mode)
      · exact ih (Ty.lookups_of_appliedBody? hs ▸ ht) mode

theorem run_remembered {calculate : Ty → TagMode → Sizing CellSize} {t : Ty} {mode : TagMode}
    {memo memo' : SizeMemo} {size : CellSize}
    (h : (remembered calculate t mode).run memo = some (size, memo')) :
    memo'[(t.name, mode)]? = some size := by
  cases hget : memo[(t.name, mode)]? with
  | some s =>
      simp only [remembered, StateT.run_bind, StateT.run_get, Option.pure_def, Option.bind_eq_bind,
        Option.bind_some, hget, StateT.run_pure, Option.some.injEq, Prod.mk.injEq] at h
      obtain ⟨rfl, rfl⟩ := h
      exact hget
  | none =>
      cases hrun : (calculate t mode).run memo with
      | none => simp [remembered, hget, hrun] at h
      | some r =>
          simp [remembered, hget, hrun] at h
          obtain ⟨rfl, rfl⟩ := h
          simp

theorem run_estimate (t : Ty) (mode : TagMode) (memo : SizeMemo) :
    (estimate t mode).run memo =
      ((remembered (calculated usualDepth) t mode).run memo).or
        ((remembered (calculated t.weight) t mode).run memo) := by
  exact Option.orElse_eq_or

end Sizing

namespace SizeMemo

variable {P : Ty → Prop}

theorem Correct.estimate (hP : Ty.LookupClosed P) (hclosed : ∀ t, P t → t.Closed)
    (hnames : Ty.NamesFixSizes P) {memo : SizeMemo} (h : memo.Correct P) {t : Ty} (ht : P t)
    (mode : TagMode) :
    t.HasSize mode (memo.estimate t mode).1 ∧ (memo.estimate t mode).2.Correct P := by
  have simulates (depth : Nat) : Sizing.Simulates P
      (Sizing.remembered (Sizing.calculated depth) t mode) (Sizing.afresh depth t mode) :=
    Sizing.simulates_remembered hnames ht
      (Sizing.simulates_calculated hP hnames (hP t ht) depth mode)
  obtain ⟨size, hsize⟩ := (hclosed t ht).exists_sizeWithin_weight mode
  obtain ⟨memo', hmemo', hrun⟩ := (simulates t.weight).finds memo h size hsize
  -- Whichever of the two bounds is used, it finds what the larger one does.
  have refines {depth : Nat} (hle : depth ≤ max Sizing.usualDepth t.weight) :=
    Sizing.refines_remembered (Sizing.refines_calculated hle t mode) memo
  have hestimate : (Sizing.estimate t mode).run memo = some (size, memo') := by
    cases husual : (Sizing.remembered (Sizing.calculated Sizing.usualDepth) t mode).run memo with
    | none => rw [Sizing.run_estimate, husual, hrun, Option.none_or]
    | some r =>
        have hr := refines (Nat.le_max_left ..) r husual
        rw [refines (Nat.le_max_right ..) _ hrun] at hr
        rw [Sizing.run_estimate, husual, hr, Option.some_or]
  rw [SizeMemo.estimate, hestimate]
  exact ⟨⟨_, hsize⟩, hmemo'⟩

/-- A type without type parameters is remembered once it has been asked for. -/
theorem getElem?_estimate (memo : SizeMemo) {t : Ty} (ht : t.Closed) (mode : TagMode) :
    (memo.estimate t mode).2[(t.name, mode)]? = some (memo.estimate t mode).1 := by
  obtain ⟨r, hr⟩ := Option.isSome_iff_exists.mp
    (Sizing.total_remembered (ht.total_calculated mode) memo)
  obtain ⟨r', hr'⟩ : ∃ r', (Sizing.estimate t mode).run memo = some r' := by
    rw [← Option.isSome_iff_exists, Sizing.run_estimate, Option.isSome_or, hr]
    exact Bool.or_true _
  rw [SizeMemo.estimate, hr']
  rw [Sizing.run_estimate, Option.or_eq_some_iff] at hr'
  rcases hr' with husual | ⟨-, hweight⟩
  · exact Sizing.run_remembered husual
  · exact Sizing.run_remembered hweight

/-- A type that is shown like an earlier one gets its size. -/
theorem estimate_of_getElem? {memo : SizeMemo} {t : Ty} {mode : TagMode} {size : CellSize}
    (h : memo[(t.name, mode)]? = some size) : (memo.estimate t mode).1 = size := by
  have hrun (calculate : Ty → TagMode → Sizing CellSize) :
      (Sizing.remembered calculate t mode).run memo = some (size, memo) := by
    simp [Sizing.remembered, h]
  rw [SizeMemo.estimate, Sizing.run_estimate, hrun, Option.some_or]
  rfl

/-- The answers of an estimator to requests, one after another. -/
def answers (memo : SizeMemo) : List (Ty × TagMode) → List CellSize
  | [] => []
  | (t, mode) :: requests =>
      (memo.estimate t mode).1 :: answers (memo.estimate t mode).2 requests

/-- The answers are the sizes found afresh. -/
def Transparent (requests : List (Ty × TagMode)) (sizes : List CellSize) : Prop :=
  List.Forall₂ (fun request size => request.1.HasSize request.2 size) requests sizes

theorem Correct.answers (hP : Ty.LookupClosed P) (hclosed : ∀ t, P t → t.Closed)
    (hnames : Ty.NamesFixSizes P) {memo : SizeMemo} (h : memo.Correct P)
    {requests : List (Ty × TagMode)} (hrequests : ∀ request ∈ requests, P request.1) :
    Transparent requests (memo.answers requests) := by
  induction requests generalizing memo with
  | nil => exact .nil
  | cons request requests ih =>
      rw [List.forall_mem_cons] at hrequests
      obtain ⟨hsize, hmemo⟩ := h.estimate hP hclosed hnames hrequests.1 request.2
      exact .cons hsize (ih hmemo hrequests.2)

/-- Of two types with one name, the second is answered with the size of the first. -/
theorem answers_of_name_eq {s t : Ty} (hs : s.Closed) (hname : s.name = t.name) (mode : TagMode)
    (memo : SizeMemo) :
    memo.answers [(s, mode), (t, mode)] =
      [(memo.estimate s mode).1, (memo.estimate s mode).1] := by
  have h := getElem?_estimate memo hs mode
  rw [hname] at h
  simp only [answers, estimate_of_getElem? h]

/-- A new estimator answers all requests about a family of types without type parameters as
if it remembered nothing if and only if names determine the sizes of the family. -/
theorem answers_iff (hP : Ty.LookupClosed P) (hclosed : ∀ t, P t → t.Closed) :
    (∀ requests : List (Ty × TagMode), (∀ request ∈ requests, P request.1) →
      Transparent requests (answers ∅ requests)) ↔ Ty.NamesFixSizes P := by
  constructor
  · intro h s t hs ht hname mode size hsize
    have := h [(s, mode), (t, mode)] (by simp [hs, ht])
    rw [answers_of_name_eq (hclosed s hs) hname] at this
    obtain - | ⟨hfirst, - | ⟨hsecond, -⟩⟩ := this
    exact hsize.unique hfirst ▸ hsecond
  · exact fun hnames requests => (correct_empty P).answers hP hclosed hnames

/-- A struct and the type of its only member have two names, so they are sized without
mistakes. -/
theorem answers_struct_and_member :
    Transparent [(.struct ⟨"Small", none⟩ [.intN 8 false], .counted), (.intN 8 false, .counted)]
      (answers ∅
        [(.struct ⟨"Small", none⟩ [.intN 8 false], .counted), (.intN 8 false, .counted)]) := by
  refine (answers_iff (P := (· ∈ [.intN 8 false, .struct ⟨"Small", none⟩ [.intN 8 false]]))
    (fun t ht s hs => ?_) fun t ht => ?_).mpr (fun s t hs ht hname => ?_) _ (by simp)
  · obtain rfl | rfl := List.mem_pair.mp ht
    · simp [Ty.lookups, Ty.appliedBody?, Ty.sizeParts] at hs
    · simp_all [Ty.lookups, Ty.appliedBody?, Ty.sizeParts]
  · obtain rfl | rfl := List.mem_pair.mp ht <;> simp [Ty.Closed, Ty.AllClosed]
  · obtain rfl | rfl := List.mem_pair.mp hs <;> obtain rfl | rfl := List.mem_pair.mp ht
    · exact fun _ _ h => h
    · exact absurd hname (by decide)
    · exact absurd hname (by decide)
    · exact fun _ _ h => h

/-- An optional function that returns an integer is shown like a function that returns an
optional integer. The first takes one bit for the choice; asked for after it, the second is
answered with that bit as well. -/
theorem answers_optional_function :
    ¬ ∀ requests : List (Ty × TagMode), (∀ request ∈ requests, request.1.Closed) →
      Transparent requests (answers ∅ requests) := by
  intro h
  let s : Ty := .union [.function [] .int, .null]
  let t : Ty := .function [] (.union [.int, .null])
  have hs : s.Closed := by simp [s, Ty.Closed, Ty.AllClosed]
  have ht : t.Closed := by simp [t, Ty.Closed, Ty.AllClosed]
  have hname : s.name = t.name := by decide
  have hsizes := h [(s, .counted), (t, .counted)] (by simp [hs, ht])
  rw [answers_of_name_eq hs hname] at hsizes
  obtain - | ⟨hfirst, - | ⟨hsecond, -⟩⟩ := hsizes
  have hfirst' : s.HasSize .counted (.between 1 9999 0 4) := ⟨2, rfl⟩
  have hsecond' : t.HasSize .counted (.between 0 9999 0 4) := ⟨1, rfl⟩
  exact absurd ((hfirst'.unique hfirst).trans (hsecond.unique hsecond')) (by decide)

end SizeMemo

end TolkAnalysis
