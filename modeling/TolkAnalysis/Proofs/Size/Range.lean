import TolkAnalysis.Proofs.Size.Memo

/-!
# Sizes are ranges

A size says how many bits and how many references there are at least and at most.
`CellSize.Ordered` says that the least numbers are not above the greatest ones. Sums and choices of
such sizes are such sizes, also where numbers stay at the largest one, so the rules find no others
from them (`Sizing.finds_calculate`).

An estimator remembers what it has found and answers with it again. `SizeMemo.range_of_mem_answers`
says that all its answers are ranges, whatever it was asked before.
-/

namespace TolkAnalysis

section

variable {a a' b b' : UInt32}

theorem toNat_min (a b : UInt32) : (min a b).toNat = min a.toNat b.toNat := by
  rw [UInt32.min_def, Nat.min_def]
  simp only [UInt32.le_iff_toNat_le]
  split <;> rfl

theorem toNat_max (a b : UInt32) : (max a b).toNat = max a.toNat b.toNat := by
  rw [UInt32.max_def, Nat.max_def]
  simp only [UInt32.le_iff_toNat_le]
  split <;> rfl

theorem cappedAdd_mono (h : a ≤ a') (h' : b ≤ b') : cappedAdd a b ≤ cappedAdd a' b' := by
  rw [UInt32.le_iff_toNat_le] at h h' ⊢
  rw [toNat_cappedAdd, toNat_cappedAdd]
  omega

theorem min_mono (h : a ≤ a') (h' : b ≤ b') : min a b ≤ min a' b' := by
  rw [UInt32.le_iff_toNat_le] at h h' ⊢
  rw [toNat_min, toNat_min]
  omega

/-- The lesser of two least numbers is not above the greater of the greatest ones. -/
theorem min_le_max (h : a ≤ a') : min a b ≤ max a' b' := by
  rw [UInt32.le_iff_toNat_le] at h ⊢
  rw [toNat_min, toNat_max]
  omega

end

namespace CellSize

/-- The least numbers of a size are not above the greatest ones. -/
def Ordered : CellSize → Prop
  | .invalid => True
  | .range e => e.minBits ≤ e.maxBits ∧ e.minRefs ≤ e.maxRefs

variable {s t : CellSize}

theorem ordered_between {a b c d : UInt32} (hbits : a ≤ b) (hrefs : c ≤ d) :
    (between a b c d).Ordered := ⟨hbits, hrefs⟩

theorem ordered_bits (count : UInt32) : (bits count).Ordered :=
  ordered_between (UInt32.le_refl count) (UInt32.le_refl 0)

theorem Ordered.sum (hs : s.Ordered) (ht : t.Ordered) : (s.sum t).Ordered := by
  cases s with
  | invalid => trivial
  | range e =>
    cases t with
    | invalid => trivial
    | range e' =>
      exact ⟨min_mono (cappedAdd_mono hs.1 ht.1) (UInt32.le_refl _), cappedAdd_mono hs.2 ht.2⟩

theorem Ordered.minmax (hs : s.Ordered) (ht : t.Ordered) : (s.minmax t).Ordered := by
  cases s with
  | invalid => trivial
  | range e =>
    cases t with
    | invalid => trivial
    | range e' => exact ⟨min_le_max hs.1, min_le_max hs.2⟩

/-- Null takes no references, whatever else there may be. -/
theorem Ordered.optionSize (hs : s.Ordered) : (Sizing.optionSize s).Ordered := by
  cases s with
  | invalid => trivial
  | range e => exact (ordered_bits 1).sum (ordered_between hs.1 UInt32.zero_le)

/-- Sizes are put together one after the other. -/
theorem Ordered.foldl {f : CellSize → CellSize → CellSize}
    (hf : ∀ {s t : CellSize}, s.Ordered → t.Ordered → (f s t).Ordered) {ss : List CellSize}
    (hss : ∀ s ∈ ss, s.Ordered) (hs : s.Ordered) : (ss.foldl f s).Ordered := by
  induction ss generalizing s with
  | nil => exact hs
  | cons t ss ih =>
    rw [List.forall_mem_cons] at hss
    exact ih hss.2 (hf hs hss.1)

theorem ordered_anyOf? {ss : List CellSize} (hss : ∀ s ∈ ss, s.Ordered)
    (hs : Sizing.anyOf? ss = some s) : s.Ordered := by
  cases ss with
  | nil => cases hs
  | cons t ss =>
    rw [List.forall_mem_cons] at hss
    cases hs
    exact Ordered.foldl Ordered.minmax hss.2 hss.1

theorem ordered_builtinSize (name : String) : (Sizing.builtinSize name).Ordered := by
  unfold Sizing.builtinSize
  split_ifs
  · exact ordered_between (by decide) (by decide)
  · exact ordered_between (by decide) (by decide)
  · exact ordered_between (by decide) (by decide)
  · exact ordered_bits 0

theorem ordered_tagSize (t : Ty) (mode : TagMode) : (Sizing.tagSize t mode).Ordered := by
  unfold Sizing.tagSize
  cases mode with
  | counted => cases t.structOpcode? <;> exact ordered_bits _
  | alreadyCounted => exact ordered_bits 0

end CellSize

namespace Sizing

variable {α β : Type} {I : SizeMemo → Prop} {Q : α → Prop} {R : β → Prop} {c : Sizing α}
  {f : α → Sizing β} {estimate again : Ty → TagMode → Sizing CellSize}

/-- What is found has a property, and the memo keeps one. -/
def Finds (I : SizeMemo → Prop) (Q : α → Prop) (c : Sizing α) : Prop :=
  ∀ memo, I memo → ∀ a memo', c.run memo = some (a, memo') → Q a ∧ I memo'

theorem finds_pure {a : α} (h : Q a) : Finds I Q (pure a : Sizing α) := by
  intro memo hmemo b memo' hrun
  cases hrun
  exact ⟨h, hmemo⟩

theorem Finds.bind (hc : Finds I Q c) (hf : ∀ a, Q a → Finds I R (f a)) : Finds I R (c >>= f) := by
  intro memo hmemo b memo' hrun
  obtain ⟨⟨a, memo₁⟩, ha, hb⟩ := Option.bind_eq_some_iff.mp hrun
  obtain ⟨hQ, hmemo₁⟩ := hc memo hmemo a memo₁ ha
  exact hf a hQ memo₁ hmemo₁ b memo' hb

/-! ### The rules find ranges -/

section

open CellSize

variable (h : ∀ t mode, Finds I CellSize.Ordered (estimate t mode))
include h

theorem finds_sizes (mode : TagMode) (ts : List Ty) :
    Finds I (fun ss => ∀ s ∈ ss, s.Ordered) (sizes estimate mode ts) := by
  induction ts with
  | nil => exact finds_pure fun _ hs => absurd hs List.not_mem_nil
  | cons t ts ih =>
    exact (h t mode).bind fun s hs => ih.bind fun ss hss =>
      finds_pure (List.forall_mem_cons.mpr ⟨hs, hss⟩)

theorem finds_sumAll (ts : List Ty) : Finds I CellSize.Ordered (sumAll estimate ts) :=
  (finds_sizes h .counted ts).bind fun _ hss =>
    finds_pure (Ordered.foldl Ordered.sum hss (ordered_bits 0))

theorem finds_taggedSize (ts : List Ty) : Finds I CellSize.Ordered (taggedSize estimate ts) := by
  unfold taggedSize
  split
  · exact finds_pure trivial
  · rename_i opcodes _
    refine (finds_sizes h .alreadyCounted ts).bind fun found hfound => ?_
    split
    · rename_i values tags hvalues htags
      have hlengths : ∀ s ∈ opcodes.map fun o => CellSize.bits o.length, s.Ordered := by
        simp [ordered_bits]
      exact finds_pure ((ordered_anyOf? hfound hvalues).sum (ordered_anyOf? hlengths htags))
    · exact finds_pure trivial

theorem finds_unionSize (ts : List Ty) : Finds I CellSize.Ordered (unionSize estimate ts) := by
  unfold unionSize
  split
  · rename_i inner _
    exact (h inner .counted).bind fun _ hs => finds_pure hs.optionSize
  · split
    · rename_i left right _
      split
      · exact (h left .counted).bind fun _ hl => (h right .counted).bind fun _ hr =>
          finds_pure ((ordered_bits 1).sum (hl.minmax hr))
      · exact finds_taggedSize h _
    · exact finds_taggedSize h _

/-- From ranges the rules find a range. -/
theorem finds_calculate (hagain : ∀ t mode, Finds I CellSize.Ordered (again t mode)) (t : Ty)
    (mode : TagMode) : Finds I CellSize.Ordered (calculate estimate again t mode) := by
  cases t with
  | intN | bitsN | bytesN | int | bool | null | never => exact finds_pure (ordered_bits _)
  | varIntN => exact finds_pure (by split <;> exact ordered_between (by decide) (by decide))
  | coins | typeParam | function => exact finds_pure (ordered_between (by decide) (by decide))
  | void | unknown | enum => exact finds_pure trivial
  | builtin n => exact finds_pure (ordered_builtinSize n.name)
  | struct n fields =>
    exact (finds_sumAll h fields).bind fun s hs => finds_pure ((ordered_tagSize _ mode).sum hs)
  | «alias» n inner => exact h inner .counted
  | tensor elements | tuple elements => exact finds_sumAll h elements
  | union variants => exact finds_unionSize h variants
  | instantiation inner args =>
    rw [calculate]
    split
    · exact finds_pure (ordered_between (by decide) (by decide))
    split_ifs
    · exact finds_pure (ordered_between (by decide) (by decide))
    · exact finds_pure (ordered_between (by decide) (by decide))
    · split
      · exact hagain _ mode
      · exact hagain _ mode
      · exact finds_pure (ordered_between (by decide) (by decide))

end

end Sizing

/-! ### Estimators -/

/-- All sizes that are remembered are ranges. -/
def SizeMemo.Ordered (memo : SizeMemo) : Prop :=
  ∀ (key : String × TagMode) (size : CellSize), memo[key]? = some size → size.Ordered

namespace Sizing

theorem finds_remembered {calculate : Ty → TagMode → Sizing CellSize} {t : Ty} {mode : TagMode}
    (h : Finds SizeMemo.Ordered CellSize.Ordered (calculate t mode)) :
    Finds SizeMemo.Ordered CellSize.Ordered (remembered calculate t mode) := by
  intro memo hmemo size memo' hrun
  cases hget : memo[(t.name, mode)]? with
  | some s =>
    simp [remembered, hget] at hrun
    obtain ⟨rfl, rfl⟩ := hrun
    exact ⟨hmemo _ _ hget, hmemo⟩
  | none =>
    cases hcalculate : (calculate t mode).run memo with
    | none => simp [remembered, hget, hcalculate] at hrun
    | some r =>
      simp [remembered, hget, hcalculate] at hrun
      obtain ⟨rfl, rfl⟩ := hrun
      obtain ⟨hsize, hlater⟩ := h memo hmemo _ _ hcalculate
      refine ⟨hsize, fun key s hs => ?_⟩
      rw [Std.HashMap.getElem?_insert] at hs
      split at hs
      · cases hs
        exact hsize
      · exact hlater key s hs

theorem finds_calculated (depth : Nat) (t : Ty) (mode : TagMode) :
    Finds SizeMemo.Ordered CellSize.Ordered (calculated depth t mode) := by
  induction depth generalizing t mode with
  | zero => exact fun _ _ _ _ hrun => nomatch hrun
  | succ depth ih => exact finds_calculate (fun t mode => finds_remembered (ih t mode)) ih t mode

end Sizing

namespace SizeMemo

theorem ordered_empty : SizeMemo.Ordered ∅ := by
  intro key size h
  simp at h

theorem Ordered.estimate {memo : SizeMemo} (h : memo.Ordered) (t : Ty) (mode : TagMode) :
    (memo.estimate t mode).1.Ordered ∧ (memo.estimate t mode).2.Ordered := by
  cases hrun : (Sizing.estimate t mode).run memo with
  | none =>
    rw [SizeMemo.estimate, hrun]
    exact ⟨trivial, h⟩
  | some r =>
    rw [SizeMemo.estimate, hrun]
    rw [Sizing.run_estimate, Option.or_eq_some_iff] at hrun
    rcases hrun with hrun | ⟨-, hrun⟩
    · exact Sizing.finds_remembered (Sizing.finds_calculated _ t mode) memo h _ _ hrun
    · exact Sizing.finds_remembered (Sizing.finds_calculated _ t mode) memo h _ _ hrun

theorem Ordered.answers {memo : SizeMemo} (h : memo.Ordered) (requests : List (Ty × TagMode)) :
    ∀ size ∈ memo.answers requests, size.Ordered := by
  induction requests generalizing memo with
  | nil => exact fun _ hsize => absurd hsize List.not_mem_nil
  | cons request requests ih =>
    obtain ⟨hsize, hmemo⟩ := h.estimate request.1 request.2
    exact List.forall_mem_cons.mpr ⟨hsize, ih hmemo⟩

/-- Every answer of an estimator is a range or says that there is no size, whatever it was asked
before. -/
theorem range_of_mem_answers {requests : List (Ty × TagMode)} {size : CellSize}
    (h : size ∈ answers ∅ requests) : size = .invalid ∨
      ∃ extent, size = .range extent ∧ extent.minBits ≤ extent.maxBits ∧
        extent.minRefs ≤ extent.maxRefs := by
  have hordered := ordered_empty.answers requests size h
  cases size with
  | invalid => exact .inl rfl
  | range extent => exact .inr ⟨extent, rfl, hordered⟩

/-- A choice between an amount of coins and a cell that is asked for twice. The second answer is the
one that is remembered. -/
theorem range_of_mem_answers_twice :
    let t : Ty := .union [.coins, .builtin ⟨"cell", none⟩]
    let size : CellSize := .between 1 125 0 1
    answers ∅ [(t, .counted), (t, .counted)] = [size, size] ∧ (size = .invalid ∨
      ∃ extent, size = .range extent ∧ extent.minBits ≤ extent.maxBits ∧
        extent.minRefs ≤ extent.maxRefs) := by
  intro t size
  have hsize : (SizeMemo.estimate ∅ t .counted).1 = size := by
    have husual : Sizing.usualDepth = 999998 + 2 := rfl
    simp [t, size, SizeMemo.estimate, Sizing.run_estimate, husual, Sizing.remembered,
      Sizing.calculated, Sizing.calculate, Sizing.unionSize, Ty.nullableInner?, Ty.hasDeclaredTag,
      Ty.declaredTag?, Ty.name]
    decide
  have hclosed : t.Closed := by simp [t, Ty.Closed, Ty.AllClosed]
  have hanswers : answers ∅ [(t, .counted), (t, .counted)] = [size, size] := by
    rw [answers_of_name_eq hclosed rfl, hsize]
  exact ⟨hanswers, range_of_mem_answers (hanswers ▸ List.mem_cons_self)⟩

end SizeMemo

end TolkAnalysis
