import Mathlib.Data.List.Perm.Basic
import TolkAnalysis.Proofs.Size.Range

/-!
# Arithmetic of sizes

Bits stay at `CellSize.maxBits` where they are added and references at the largest number there is,
each time a sum is taken. Still it makes no difference in which order sums are taken, since a number
that is cut off stays cut off; and an `invalid` size makes everything `invalid`, wherever it stands.
So sums and choices are commutative and associative, and sums distribute over choices.

`CellSize.total` is the size of values one after another. It depends neither on the order of their
sizes (`total_perm`) nor on which of them are added first (`total_flatten`).
-/

namespace TolkAnalysis

/-! ### Sums that are cut off -/

section

variable (cap a b c : Nat)

theorem min_add_min_add : min (min (a + b) cap + c) cap = min (a + min (b + c) cap) cap := by
  omega

theorem min_add_min : min (a + min b c) cap = min (min (a + b) cap) (min (a + c) cap) := by
  omega

theorem min_add_max : min (a + max b c) cap = max (min (a + b) cap) (min (a + c) cap) := by
  omega

end

/-- The sum of two numbers of bits. -/
def addBits (a b : UInt32) : UInt32 := min (cappedAdd a b) CellSize.maxBits

theorem toNat_addBits (a b : UInt32) : (addBits a b).toNat = min (a.toNat + b.toNat) 9999 := by
  rw [addBits, toNat_min, toNat_cappedAdd, Nat.min_assoc]
  rfl

theorem max_mono {a a' b b' : UInt32} (h : a ≤ a') (h' : b ≤ b') : max a b ≤ max a' b' := by
  rw [UInt32.le_iff_toNat_le] at h h' ⊢
  rw [toNat_max, toNat_max]
  omega

namespace CellSize

section

variable {a b c d a' b' c' d' : UInt32}

theorem eq_invalid_or_between (s : CellSize) : s = invalid ∨ ∃ a b c d, s = between a b c d := by
  rcases s with _ | ⟨a, b, c, d⟩
  · exact .inl rfl
  · exact .inr ⟨a, b, c, d, rfl⟩

theorem between_eq_iff : between a b c d = between a' b' c' d' ↔
    a.toNat = a'.toNat ∧ b.toNat = b'.toNat ∧ c.toNat = c'.toNat ∧ d.toNat = d'.toNat := by
  simp [between, UInt32.toNat_inj]

theorem between_sum : (between a b c d).sum (between a' b' c' d') =
    between (addBits a a') (addBits b b') (cappedAdd c c') (cappedAdd d d') := rfl

theorem between_minmax : (between a b c d).minmax (between a' b' c' d') =
    between (min a a') (max b b') (min c c') (max d d') := rfl

end

variable (s t u : CellSize)

/-! ### Sums and choices -/

theorem invalid_sum : invalid.sum s = invalid := rfl

theorem sum_invalid : s.sum invalid = invalid := by
  cases s <;> rfl

theorem invalid_minmax : invalid.minmax s = invalid := rfl

theorem minmax_invalid : s.minmax invalid = invalid := by
  cases s <;> rfl

theorem sum_comm : s.sum t = t.sum s := by
  rcases s.eq_invalid_or_between with rfl | ⟨a, b, c, d, rfl⟩
  · rw [invalid_sum, sum_invalid]
  rcases t.eq_invalid_or_between with rfl | ⟨a', b', c', d', rfl⟩
  · rw [invalid_sum, sum_invalid]
  simp only [between_sum, between_eq_iff, toNat_addBits, toNat_cappedAdd, Nat.add_comm, and_self]

theorem minmax_comm : s.minmax t = t.minmax s := by
  rcases s.eq_invalid_or_between with rfl | ⟨a, b, c, d, rfl⟩
  · rw [invalid_minmax, minmax_invalid]
  rcases t.eq_invalid_or_between with rfl | ⟨a', b', c', d', rfl⟩
  · rw [invalid_minmax, minmax_invalid]
  simp only [between_minmax, between_eq_iff, toNat_min, toNat_max, Nat.min_comm, Nat.max_comm,
    and_self]

theorem minmax_self : s.minmax s = s := by
  rcases s.eq_invalid_or_between with rfl | ⟨a, b, c, d, rfl⟩
  · rfl
  simp only [between_minmax, between_eq_iff, toNat_min, toNat_max, Nat.min_self, Nat.max_self,
    and_self]

/-- Three sizes are three ranges, or one of them is `invalid`. -/
theorem three_cases {P : CellSize → CellSize → CellSize → Prop}
    (hinvalid : ∀ s t u, s = invalid ∨ t = invalid ∨ u = invalid → P s t u)
    (hbetween : ∀ a b c d a' b' c' d' a'' b'' c'' d'', P (between a b c d) (between a' b' c' d')
      (between a'' b'' c'' d'')) : P s t u := by
  rcases s.eq_invalid_or_between with hs | ⟨a, b, c, d, rfl⟩
  · exact hinvalid s t u (.inl hs)
  rcases t.eq_invalid_or_between with ht | ⟨a', b', c', d', rfl⟩
  · exact hinvalid _ t u (.inr (.inl ht))
  rcases u.eq_invalid_or_between with hu | ⟨a'', b'', c'', d'', rfl⟩
  · exact hinvalid _ _ u (.inr (.inr hu))
  exact hbetween ..

theorem sum_assoc : (s.sum t).sum u = s.sum (t.sum u) := by
  induction s, t, u using three_cases with
  | hinvalid s t u h => rcases h with rfl | rfl | rfl <;> simp only [invalid_sum, sum_invalid]
  | hbetween =>
    simp only [between_sum, between_eq_iff, toNat_addBits, toNat_cappedAdd, min_add_min_add,
      and_self]

theorem minmax_assoc : (s.minmax t).minmax u = s.minmax (t.minmax u) := by
  induction s, t, u using three_cases with
  | hinvalid s t u h =>
    rcases h with rfl | rfl | rfl <;> simp only [invalid_minmax, minmax_invalid]
  | hbetween =>
    simp only [between_minmax, between_eq_iff, toNat_min, toNat_max, Nat.min_assoc, Nat.max_assoc,
      and_self]

theorem sum_minmax : s.sum (t.minmax u) = (s.sum t).minmax (s.sum u) := by
  induction s, t, u using three_cases with
  | hinvalid s t u h =>
    rcases h with rfl | rfl | rfl <;>
      simp only [invalid_sum, sum_invalid, invalid_minmax, minmax_invalid]
  | hbetween =>
    simp only [between_sum, between_minmax, between_eq_iff, toNat_min, toNat_max, toNat_addBits,
      toNat_cappedAdd, min_add_min, min_add_max, and_self]

instance : Std.Commutative sum := ⟨sum_comm⟩

instance : Std.Associative sum := ⟨sum_assoc⟩

/-! ### Larger bounds -/

/-- No bound of the first size is above that of the second, or there are none. -/
def AtMost : CellSize → CellSize → Prop
  | .range e, .range e' => e.minBits ≤ e'.minBits ∧ e.maxBits ≤ e'.maxBits ∧
      e.minRefs ≤ e'.minRefs ∧ e.maxRefs ≤ e'.maxRefs
  | .invalid, .invalid => True
  | _, _ => False

variable {s t u} {s' t' : CellSize}

theorem AtMost.sum (hs : s.AtMost s') (ht : t.AtMost t') : (s.sum t).AtMost (s'.sum t') := by
  match s, s', t, t', hs, ht with
  | .invalid, .invalid, _, _, _, _ => trivial
  | .range _, .range _, .invalid, .invalid, _, _ => trivial
  | .range _, .range _, .range _, .range _, ⟨h₁, h₂, h₃, h₄⟩, ⟨h₁', h₂', h₃', h₄'⟩ =>
    exact ⟨min_mono (cappedAdd_mono h₁ h₁') (UInt32.le_refl _),
      min_mono (cappedAdd_mono h₂ h₂') (UInt32.le_refl _), cappedAdd_mono h₃ h₃',
      cappedAdd_mono h₄ h₄'⟩

theorem AtMost.minmax (hs : s.AtMost s') (ht : t.AtMost t') :
    (s.minmax t).AtMost (s'.minmax t') := by
  match s, s', t, t', hs, ht with
  | .invalid, .invalid, _, _, _, _ => trivial
  | .range _, .range _, .invalid, .invalid, _, _ => trivial
  | .range _, .range _, .range _, .range _, ⟨h₁, h₂, h₃, h₄⟩, ⟨h₁', h₂', h₃', h₄'⟩ =>
    exact ⟨min_mono h₁ h₁', max_mono h₂ h₂', min_mono h₃ h₃', max_mono h₄ h₄'⟩

/-! ### The size of values one after another -/

/-- Both numbers of bits are counted as they are. -/
def WithinCap (s : CellSize) : Prop := s.extent.minBits ≤ maxBits ∧ s.extent.maxBits ≤ maxBits

/-- Adding nothing changes just the sizes with more bits than are counted. -/
theorem bits_zero_sum_eq_iff : (bits 0).sum s = s ↔ s.WithinCap := by
  rcases s.eq_invalid_or_between with rfl | ⟨a, b, c, d, rfl⟩
  · exact ⟨fun _ => ⟨UInt32.zero_le, UInt32.zero_le⟩, fun _ => rfl⟩
  · rw [bits, between_sum, between_eq_iff, WithinCap]
    simp only [between, extent, UInt32.le_iff_toNat_le, toNat_addBits, toNat_cappedAdd]
    have hc : c.toNat < UInt32.size := c.toNat_lt
    have hd : d.toNat < UInt32.size := d.toNat_lt
    change min (0 + a.toNat) 9999 = _ ∧ min (0 + b.toNat) 9999 = _ ∧ min (0 + c.toNat) _ = _ ∧
      min (0 + d.toNat) _ = _ ↔ a.toNat ≤ 9999 ∧ b.toNat ≤ 9999
    omega

theorem withinCap_bits_zero : (bits 0).WithinCap := ⟨UInt32.zero_le, UInt32.zero_le⟩

theorem withinCap_sum (s t : CellSize) : (s.sum t).WithinCap := by
  rcases s.eq_invalid_or_between with rfl | ⟨a, b, c, d, rfl⟩
  · exact ⟨UInt32.zero_le, UInt32.zero_le⟩
  rcases t.eq_invalid_or_between with rfl | ⟨a', b', c', d', rfl⟩
  · exact ⟨UInt32.zero_le, UInt32.zero_le⟩
  rw [between_sum, WithinCap]
  simp only [between, extent, UInt32.le_iff_toNat_le, toNat_addBits]
  exact ⟨Nat.min_le_right _ _, Nat.min_le_right _ _⟩

/-- The size of values of some sizes one after another. -/
def total (ss : List CellSize) : CellSize := ss.foldl sum (bits 0)

theorem total_nil : total [] = bits 0 := rfl

/-- What comes first may be added at the end. -/
theorem foldl_sum (hs : s.WithinCap) (ts : List CellSize) : ts.foldl sum s = s.sum (total ts) := by
  induction ts generalizing s with
  | nil => rw [List.foldl_nil, total_nil, sum_comm, bits_zero_sum_eq_iff.mpr hs]
  | cons t ts ih =>
    have hcons : total (t :: ts) = ((bits 0).sum t).sum (total ts) := ih (withinCap_sum _ t)
    calc (t :: ts).foldl sum s = (s.sum t).sum (total ts) := ih (withinCap_sum s t)
      _ = (((bits 0).sum s).sum t).sum (total ts) := by rw [bits_zero_sum_eq_iff.mpr hs]
      _ = s.sum (total (t :: ts)) := by rw [hcons, sum_comm (bits 0) s, sum_assoc s, sum_assoc s]

theorem withinCap_total (ss : List CellSize) : (total ss).WithinCap := by
  rw [total, foldl_sum withinCap_bits_zero]
  exact withinCap_sum _ _

theorem total_append (ss ts : List CellSize) : total (ss ++ ts) = (total ss).sum (total ts) := by
  rw [total, List.foldl_append]
  exact foldl_sum (withinCap_total ss) ts

theorem total_singleton (s : CellSize) : total [s] = (bits 0).sum s := rfl

/-- The order of the values makes no difference. -/
theorem total_perm {ss ts : List CellSize} (h : ss.Perm ts) : total ss = total ts :=
  h.foldl_eq (bits 0)

/-- Which values are put together first makes no difference. -/
theorem total_flatten (groups : List (List CellSize)) :
    total (groups.map total) = total groups.flatten := by
  induction groups with
  | nil => rfl
  | cons ss groups ih =>
    rw [List.map_cons, ← List.singleton_append, total_append, total_singleton, ih,
      bits_zero_sum_eq_iff.mpr (withinCap_total ss), List.flatten_cons, total_append]

end CellSize

end TolkAnalysis
