import Mathlib.Data.List.Nodup
import TolkAnalysis.Proofs.Size.Arithmetic
import TolkAnalysis.Proofs.Size.Termination

/-!
# The order of members

The rules add the sizes of the members of a struct, so it makes no difference in which order the
members stand or which of them are put together first (`Ty.hasSize_struct_perm` and
`Ty.hasSize_struct_flatten`). This follows from the arithmetic of sizes once the size of a struct is
known to be a total (`Ty.hasSize_struct_iff`).

An estimator answers with what it remembers by name. Where names determine sizes it finds the size
of the rules, whatever the order. Else the first of two members with one name gives its size to the
other, and the order makes a difference (`Ty.not_size_struct_perm`).
-/

namespace TolkAnalysis

namespace Sizing

variable {α β : Type} {ts : List Ty} {ss : List CellSize} {depth : Nat} {mode : TagMode}

/-- What a computation finds with an empty memo. -/
def value (c : Sizing α) : Option α := (c.run ∅).map (·.1)

theorem value_pure (a : α) : value (pure a) = some a := rfl

/-- What leaves the memo alone may be computed apart. -/
theorem Untouched.value_bind {c : Sizing α} (hc : Untouched c) (f : α → Sizing β) :
    value (c >>= f) = (value c).bind fun a => value (f a) := by
  have hrun := hc ∅
  change ((c.run ∅).bind fun p => (f p.1).run p.2).map (·.1) = _
  rw [hrun, value]
  cases c.run ∅ <;> rfl

theorem untouched_afresh (depth : Nat) (t : Ty) (mode : TagMode) :
    Untouched (afresh depth t mode) := by
  induction depth generalizing t mode with
  | zero => exact fun _ => rfl
  | succ depth ih =>
    exact calculate_keeps kept_untouched mode (fun s _ mode => ih s mode) fun s _ => ih s mode

theorem untouched_sizes (depth : Nat) (mode : TagMode) (ts : List Ty) :
    Untouched (sizes (afresh depth) mode ts) := by
  induction ts with
  | nil => exact kept_untouched.pure []
  | cons t ts ih =>
    exact kept_untouched.bind (untouched_afresh depth t mode) fun _ =>
      kept_untouched.bind ih fun _ => kept_untouched.pure _

/-- The sizes of types are found one by one. -/
theorem value_sizes_iff : value (sizes (afresh depth) mode ts) = some ss ↔
    List.Forall₂ (fun t s => t.sizeWithin depth mode = some s) ts ss := by
  induction ts generalizing ss with
  | nil => simp [sizes, value_pure, eq_comm]
  | cons t ts ih =>
    rw [sizes, (untouched_afresh depth t mode).value_bind]
    simp only [(untouched_sizes depth mode ts).value_bind, value_pure, Option.bind_eq_some_iff, ih,
      Option.some.injEq, List.forall₂_cons_left_iff]
    constructor
    · rintro ⟨s, hs, ss', hss, rfl⟩
      exact ⟨s, ss', hs, hss, rfl⟩
    · rintro ⟨s, ss', hs, hss, rfl⟩
      exact ⟨s, hs, ss', hss, rfl⟩

theorem untouched_sumAll (depth : Nat) (ts : List Ty) : Untouched (sumAll (afresh depth) ts) :=
  kept_untouched.bind (untouched_sizes depth .counted ts) fun _ => kept_untouched.pure _

theorem value_sumAll (depth : Nat) (ts : List Ty) : value (sumAll (afresh depth) ts) =
    (value (sizes (afresh depth) .counted ts)).map CellSize.total := by
  rw [sumAll, (untouched_sizes depth .counted ts).value_bind, Option.map_eq_bind]
  rfl

end Sizing

open CellSize Sizing

namespace Ty

variable {t : Ty} {ts fields fields' : List Ty} {ss : List CellSize} {n n' : Nominal}
  {mode : TagMode} {size : CellSize}

/-- The sizes of the types, if their tags count. -/
abbrev HaveSizes (ts : List Ty) (ss : List CellSize) : Prop :=
  List.Forall₂ (fun t s => t.HasSize .counted s) ts ss

/-- The sizes of all types are found within one bound. -/
theorem haveSizes_iff : HaveSizes ts ss ↔
    ∃ depth, List.Forall₂ (fun t s => t.sizeWithin depth .counted = some s) ts ss := by
  constructor
  · intro h
    induction h with
    | nil => exact ⟨0, .nil⟩
    | cons ht _ ih =>
      obtain ⟨depth, ht⟩ := ht
      obtain ⟨depth', hts⟩ := ih
      refine ⟨max depth depth', .cons (sizeWithin_mono (Nat.le_max_left ..) ht) ?_⟩
      exact hts.imp fun _ _ hs => sizeWithin_mono (Nat.le_max_right ..) hs
  · rintro ⟨depth, h⟩
    exact h.imp fun _ _ hs => ⟨depth, hs⟩

/-- A size that is found from the total of some types. -/
theorem hasSize_iff_of_sumAll {f : CellSize → CellSize}
    (h : ∀ depth, t.sizeWithin (depth + 1) mode = (value (sumAll (afresh depth) ts)).map f) :
    t.HasSize mode size ↔ ∃ ss, HaveSizes ts ss ∧ size = f (total ss) := by
  have hstep (depth : Nat) : t.sizeWithin (depth + 1) mode = some size ↔
      ∃ ss, List.Forall₂ (fun t s => t.sizeWithin depth .counted = some s) ts ss ∧
        size = f (total ss) := by
    simp only [h, value_sumAll, Option.map_eq_some_iff, value_sizes_iff]
    constructor
    · rintro ⟨_, ⟨ss, hss, rfl⟩, rfl⟩
      exact ⟨ss, hss, rfl⟩
    · rintro ⟨ss, hss, rfl⟩
      exact ⟨_, ⟨ss, hss, rfl⟩, rfl⟩
  constructor
  · rintro ⟨depth, hsize⟩
    cases depth with
    | zero => cases hsize
    | succ depth =>
      obtain ⟨ss, hss, hf⟩ := (hstep depth).mp hsize
      exact ⟨ss, haveSizes_iff.mpr ⟨depth, hss⟩, hf⟩
  · rintro ⟨ss, hss, hf⟩
    obtain ⟨depth, hss⟩ := haveSizes_iff.mp hss
    exact ⟨depth + 1, (hstep depth).mpr ⟨ss, hss, hf⟩⟩

/-- The size of a struct is that of its tag and its members one after another. -/
theorem hasSize_struct_iff : (Ty.struct n fields).HasSize mode size ↔
    ∃ ss, HaveSizes fields ss ∧ size = (tagSize (.struct n fields) mode).sum (total ss) := by
  refine hasSize_iff_of_sumAll (f := (tagSize (.struct n fields) mode).sum) fun depth => ?_
  change value (sumAll (afresh depth) fields >>= _) = _
  rw [(untouched_sumAll depth fields).value_bind, Option.map_eq_bind]
  rfl

/-- The size of a tensor is that of its elements one after another. -/
theorem hasSize_tensor_iff : (Ty.tensor ts).HasSize mode size ↔
    ∃ ss, HaveSizes ts ss ∧ size = total ss :=
  hasSize_iff_of_sumAll (f := id) fun depth => by
    rw [Option.map_id_fun]
    rfl

/-- Structs with the same members and tag have the same size, in whichever order the members
stand. -/
theorem hasSize_struct_perm (hfields : fields.Perm fields')
    (htag : (Ty.struct n fields).structOpcode? = (Ty.struct n' fields').structOpcode?) :
    (Ty.struct n fields).HasSize mode size ↔ (Ty.struct n' fields').HasSize mode size := by
  have htagSize : tagSize (.struct n fields) mode = tagSize (.struct n' fields') mode := by
    cases mode with
    | counted => rw [tagSize, htag, tagSize]
    | alreadyCounted => rfl
  rw [hasSize_struct_iff, hasSize_struct_iff, htagSize]
  constructor
  · rintro ⟨ss, hss, rfl⟩
    obtain ⟨ss', hss', hperm⟩ := List.perm_comp_forall₂ hfields.symm hss
    exact ⟨ss', hss', by rw [total_perm hperm]⟩
  · rintro ⟨ss, hss, rfl⟩
    obtain ⟨ss', hss', hperm⟩ := List.perm_comp_forall₂ hfields hss
    exact ⟨ss', hss', by rw [total_perm hperm]⟩

/-- The sizes of groups of types are their totals. -/
theorem haveSizes_tensors_iff {groups : List (List Ty)} : HaveSizes (groups.map .tensor) ss ↔
    ∃ sss, List.Forall₂ HaveSizes groups sss ∧ ss = sss.map total := by
  simp only [List.forall₂_map_left_iff, hasSize_tensor_iff]
  constructor
  · intro h
    induction h with
    | nil => exact ⟨[], .nil, rfl⟩
    | cons hgroup _ ih =>
      obtain ⟨ss, hss, rfl⟩ := hgroup
      obtain ⟨sss, hsss, rfl⟩ := ih
      exact ⟨ss :: sss, .cons hss hsss, rfl⟩
  · rintro ⟨sss, hsss, rfl⟩
    exact List.forall₂_map_right_iff.mpr (hsss.imp fun _ ss hss => ⟨ss, hss, rfl⟩)

/-- The sizes of all types together are those of one group after another. -/
theorem haveSizes_flatten_iff {groups : List (List Ty)} : HaveSizes groups.flatten ss ↔
    ∃ sss, List.Forall₂ HaveSizes groups sss ∧ ss = sss.flatten := by
  constructor
  · intro h
    induction groups generalizing ss with
    | nil =>
      obtain rfl := List.forall₂_nil_left_iff.mp h
      exact ⟨[], .nil, rfl⟩
    | cons ts groups ih =>
      rw [List.flatten_cons] at h
      have htake := (List.forall₂_take_append ss ts groups.flatten h.flip).flip
      obtain ⟨sss, hsss, hdrop⟩ := ih (List.forall₂_drop_append ss ts groups.flatten h.flip).flip
      refine ⟨ss.take ts.length :: sss, .cons htake hsss, ?_⟩
      rw [List.flatten_cons, ← hdrop, List.take_append_drop]
  · rintro ⟨sss, hsss, rfl⟩
    exact List.rel_flatten hsss

/-- Members may be put together in tensors. -/
theorem hasSize_struct_flatten {groups : List (List Ty)} :
    (Ty.struct n (groups.map .tensor)).HasSize mode size ↔
      (Ty.struct n groups.flatten).HasSize mode size := by
  have htagSize : tagSize (.struct n (groups.map .tensor)) mode =
      tagSize (.struct n groups.flatten) mode := rfl
  rw [hasSize_struct_iff, hasSize_struct_iff, htagSize]
  simp only [haveSizes_tensors_iff, haveSizes_flatten_iff]
  constructor
  · rintro ⟨_, ⟨sss, hsss, rfl⟩, rfl⟩
    exact ⟨_, ⟨sss, hsss, rfl⟩, by rw [total_flatten]⟩
  · rintro ⟨_, ⟨sss, hsss, rfl⟩, rfl⟩
    exact ⟨_, ⟨sss, hsss, rfl⟩, by rw [total_flatten]⟩

end Ty

/-! ### What an estimator finds -/

namespace SizeMemo

variable {P : Ty → Prop} {fields : List Ty} {n : Nominal} {mode : TagMode} {s t : Ty}
  {memo memo' : SizeMemo}

theorem run_remembered_settled (ht : t.Closed) (mode : TagMode) (memo : SizeMemo) :
    (remembered settled t mode).run memo = some (memo.estimate t mode) := by
  obtain ⟨answer, hanswer⟩ := Option.isSome_iff_exists.mp
    (total_remembered (ht.total_calculated mode) memo)
  change (remembered settled t mode).run memo = some answer at hanswer
  rw [SizeMemo.estimate, ht.estimate_eq mode, hanswer, Option.getD_some]

/-- The sizes of types are the answers to requests, one after another. -/
theorem exists_run_sizes {ts : List Ty} (hts : ∀ t ∈ ts, t.Closed) (mode : TagMode)
    (memo : SizeMemo) : ∃ memo', (sizes (remembered settled) mode ts).run memo =
      some (memo.answers (ts.map (·, mode)), memo') := by
  induction ts generalizing memo with
  | nil => exact ⟨memo, rfl⟩
  | cons t ts ih =>
    rw [List.forall_mem_cons] at hts
    obtain ⟨memo', hrest⟩ := ih hts.2 (memo.estimate t mode).2
    refine ⟨memo', ?_⟩
    simp [sizes, run_remembered_settled hts.1, hrest, answers]

/-- A struct whose name is not remembered has the size of its tag and the answers to its members,
one after another. -/
theorem estimate_struct (hclosed : (Ty.struct n fields).Closed)
    (hmemo : memo[((Ty.struct n fields).name, mode)]? = none) :
    (memo.estimate (.struct n fields) mode).1 = (tagSize (.struct n fields) mode).sum
      (total (memo.answers (fields.map (·, .counted)))) := by
  obtain ⟨memo', hsizes⟩ := exists_run_sizes (Ty.allClosed_iff.mp hclosed) .counted memo
  have hsettled := hclosed.settled_eq mode
  rw [SizeMemo.estimate, hclosed.estimate_eq]
  simp [remembered, hmemo, hsettled, calculate, sumAll, hsizes, total]

/-- Two types with the same size by the rules are answered alike where names determine sizes. -/
theorem Correct.estimate_eq (hP : Ty.LookupClosed P) (hclosed : ∀ t, P t → t.Closed)
    (hnames : Ty.NamesFixSizes P) (hmemo : memo.Correct P) (hmemo' : memo'.Correct P) (hs : P s)
    (ht : P t) (hsize : ∀ size, s.HasSize mode size ↔ t.HasSize mode size) :
    (memo.estimate s mode).1 = (memo'.estimate t mode).1 :=
  ((hsize _).mp (hmemo.estimate hP hclosed hnames hs mode).1).unique
    (hmemo'.estimate hP hclosed hnames ht mode).1

/-- Sums and choices of sizes depend neither on order nor on grouping, so neither does the total of
any sizes; the size of a struct is its tag and the total of the answers to its members, and where
names determine sizes it depends neither on the order of the members nor on which of them are put
together in tensors, whatever has been asked for before. -/
theorem estimate_order_independent (hP : Ty.LookupClosed P) (hclosed : ∀ t, P t → t.Closed)
    (hnames : Ty.NamesFixSizes P) :
    (∀ s t u : CellSize,
      s.sum t = t.sum s ∧ s.minmax t = t.minmax s ∧
      (s.sum t).sum u = s.sum (t.sum u) ∧ (s.minmax t).minmax u = s.minmax (t.minmax u) ∧
      s.sum .invalid = .invalid ∧ s.minmax .invalid = .invalid ∧ s.minmax s = s ∧
      s.sum (t.minmax u) = (s.sum t).minmax (s.sum u) ∧ ((bits 0).sum s = s ↔ s.WithinCap)) ∧
    (∀ s s' t t' : CellSize, s.AtMost s' → t.AtMost t' →
      (s.sum t).AtMost (s'.sum t') ∧ (s.minmax t).AtMost (s'.minmax t')) ∧
    (∀ ss ts : List CellSize, ss.Perm ts → total ss = total ts) ∧
    (∀ groups : List (List CellSize), total (groups.map total) = total groups.flatten) ∧
    (∀ n fields mode (memo : SizeMemo), (Ty.struct n fields).Closed →
      memo[((Ty.struct n fields).name, mode)]? = none →
      (memo.estimate (.struct n fields) mode).1 = (tagSize (.struct n fields) mode).sum
        (total (memo.answers (fields.map (·, .counted))))) ∧
    (∀ n n' fields fields' mode (memo memo' : SizeMemo), memo.Correct P → memo'.Correct P →
      P (.struct n fields) → P (.struct n' fields') → fields.Perm fields' →
      (Ty.struct n fields).structOpcode? = (Ty.struct n' fields').structOpcode? →
      (memo.estimate (.struct n fields) mode).1 = (memo'.estimate (.struct n' fields') mode).1) ∧
    ∀ n (groups : List (List Ty)) mode (memo memo' : SizeMemo), memo.Correct P → memo'.Correct P →
      P (.struct n (groups.map .tensor)) → P (.struct n groups.flatten) →
      (memo.estimate (.struct n (groups.map .tensor)) mode).1 =
        (memo'.estimate (.struct n groups.flatten) mode).1 := by
  refine ⟨fun s t u => ?_, fun s s' t t' hs ht => ⟨hs.sum ht, hs.minmax ht⟩,
    fun _ _ => total_perm, total_flatten, fun _ _ _ _ => estimate_struct, ?_, ?_⟩
  · exact ⟨s.sum_comm t, s.minmax_comm t, s.sum_assoc t u, s.minmax_assoc t u, s.sum_invalid,
      s.minmax_invalid, s.minmax_self, s.sum_minmax t u, bits_zero_sum_eq_iff⟩
  · intro n n' fields fields' mode memo memo' hmemo hmemo' hs ht hperm htag
    exact hmemo.estimate_eq hP hclosed hnames hmemo' hs ht fun _ =>
      Ty.hasSize_struct_perm hperm htag
  · intro n groups mode memo memo' hmemo hmemo' hs ht
    exact hmemo.estimate_eq hP hclosed hnames hmemo' hs ht fun _ => Ty.hasSize_struct_flatten

/-- Two structs whose two members stand in either order have the same size. -/
theorem estimate_order_independent_swap :
    (Ty.struct ⟨"Left", none⟩ [.coins, .bool]).size =
      (Ty.struct ⟨"Right", none⟩ [.bool, .coins]).size := by
  let family : List Ty := [.coins, .bool, .struct ⟨"Left", none⟩ [.coins, .bool],
    .struct ⟨"Right", none⟩ [.bool, .coins]]
  have hnodup : (family.map Ty.name).Nodup := by decide
  have hP : ∀ t ∈ family, ∀ s ∈ t.lookups, s ∈ family := by
    simp [family, Ty.lookups, Ty.appliedBody?, Ty.sizeParts]
  have hclosed : ∀ t ∈ family, t.Closed := by
    simp [family, Ty.Closed, Ty.AllClosed]
  have hnames : Ty.NamesFixSizes (· ∈ family) := by
    intro s t hs ht hname
    obtain rfl := List.inj_on_of_nodup_map hnodup hs ht hname
    exact fun _ _ h => h
  obtain ⟨-, -, -, -, -, hperm, -⟩ := estimate_order_independent hP hclosed hnames
  exact hperm _ _ _ _ .counted ∅ ∅ (correct_empty _) (correct_empty _) (by simp [family])
    (by simp [family]) (.swap ..) rfl

end SizeMemo

/-- Of two members with one name, the first gives its size to the second. -/
theorem Ty.size_struct_of_name_eq {s t : Ty} (hs : s.Closed) (ht : t.Closed)
    (hname : s.name = t.name) (name : String) :
    (Ty.struct ⟨name, none⟩ [s, t]).size = total [s.size, s.size] := by
  have hclosed : (Ty.struct ⟨name, none⟩ [s, t]).Closed := ⟨hs, ht, trivial⟩
  rw [Ty.size, SizeMemo.estimate_struct hclosed (by simp), List.map_cons, List.map_cons,
    List.map_nil, SizeMemo.answers_of_name_eq hs hname]
  exact bits_zero_sum_eq_iff.mpr (withinCap_total _)

/-- An optional function and a function with an optional result have one name, so the one that
comes first in a struct gives its size to the other. -/
theorem Ty.not_size_struct_perm :
    ¬ ∀ (n : Nominal) (fields fields' : List Ty), Ty.AllClosed fields → fields.Perm fields' →
      (Ty.struct n fields).size = (Ty.struct n fields').size := by
  intro h
  let s : Ty := .union [.function [] .int, .null]
  let t : Ty := .function [] (.union [.int, .null])
  have hs : s.Closed := by simp [s, Ty.Closed, Ty.AllClosed]
  have ht : t.Closed := by simp [t, Ty.Closed, Ty.AllClosed]
  have hname : s.name = t.name := by decide
  have husual : usualDepth = 999998 + 2 := rfl
  have hssize : s.size = .between 1 9999 0 4 := by
    simp [s, Ty.size, SizeMemo.estimate, run_estimate, husual, remembered, calculated, calculate,
      unionSize, Ty.nullableInner?]
    decide
  have htsize : t.size = .between 0 9999 0 4 := by
    simp [t, Ty.size, SizeMemo.estimate, run_estimate, husual, remembered, calculated, calculate]
    decide
  have hst := h ⟨"Pair", none⟩ [s, t] [t, s] ⟨hs, ht, trivial⟩ (.swap ..)
  rw [size_struct_of_name_eq hs ht hname, size_struct_of_name_eq ht hs hname.symm, hssize,
    htsize] at hst
  exact absurd hst (by decide)

end TolkAnalysis
