import TolkAnalysis.Proofs.Size.Arithmetic

/-!
# The cap on bits

Bits are cut off at `CellSize.maxBits` where they are added, and nowhere else. So a size has more
bits than that only if nothing is added on the way to it: behind its aliases the type is an integer
or a string of a width of its own, `Ty.HasWidth`. What holds a value of such a type and nothing else
has another size then, since something is added there (`Ty.Estimates.capped_and_boxed`).
-/

namespace TolkAnalysis

namespace CellSize

/-- Not more bits are found than are counted. -/
def Capped (s : CellSize) : Prop := s.extent.maxBits ≤ maxBits

instance (s : CellSize) : Decidable s.Capped := inferInstanceAs (Decidable (_ ≤ _))

variable {s t : CellSize}

theorem capped_sum (s t : CellSize) : (s.sum t).Capped := (withinCap_sum s t).2

theorem capped_foldl_sum (hs : s.Capped) (ss : List CellSize) : (ss.foldl sum s).Capped := by
  induction ss generalizing s with
  | nil => exact hs
  | cons t ss ih => exact ih (capped_sum s t)

theorem capped_optionSize (s : CellSize) : (Sizing.optionSize s).Capped := by
  cases s with
  | invalid => exact UInt32.zero_le
  | range e =>
    rw [Sizing.optionSize]
    exact capped_sum _ _

theorem withinCap_iff (hs : s.Ordered) : s.WithinCap ↔ s.Capped := by
  cases s with
  | invalid => exact ⟨And.right, fun _ => ⟨UInt32.zero_le, UInt32.zero_le⟩⟩
  | range e => exact ⟨And.right, fun h => ⟨UInt32.le_trans hs.1 h, h⟩⟩

/-- Adding nothing cuts a range off. -/
theorem bits_zero_sum_iff (hs : s.Ordered) : (bits 0).sum s = s ↔ s.Capped :=
  bits_zero_sum_eq_iff.trans (withinCap_iff hs)

end CellSize

namespace Ty

/-- Behind its aliases the type is an integer or a string of so many bits. -/
inductive HasWidth : Ty → UInt32 → Prop
  | intN (width : UInt32) (unsigned : Bool) : HasWidth (.intN width unsigned) width
  | bitsN (width : UInt32) : HasWidth (.bitsN width) width
  | bytesN (width : UInt32) : HasWidth (.bytesN width) (cappedMul width 8)
  | aliased {t : Ty} {count : UInt32} (n : Nominal) (h : HasWidth t count) :
      HasWidth (.alias n t) count
  | applied {t body : Ty} {count : UInt32} (hbody : t.appliedBody? = some body)
      (h : HasWidth body count) : HasWidth t count

/-- Behind its aliases the type is no integer or string of more bits than are counted. -/
def Narrow (t : Ty) : Prop := ∀ count, t.HasWidth count → count ≤ CellSize.maxBits

/-- A new estimator finds the size of a type, given enough steps down. -/
def Estimates (t : Ty) (mode : TagMode) (size : CellSize) : Prop :=
  ∃ depth, ((Sizing.calculated depth t mode).run ∅).map (·.1) = some size

end Ty

namespace Sizing

open CellSize

variable {estimate again : Ty → TagMode → Sizing CellSize} {t body : Ty} {mode : TagMode}
  {size : CellSize} {memo : SizeMemo} {count : UInt32} {depth : Nat}

/-- The first request to an estimator is not answered from its memo. -/
theorem run_remembered_empty (calculate : Ty → TagMode → Sizing CellSize) (t : Ty)
    (mode : TagMode) : (remembered calculate t mode).run ∅ =
      ((calculate t mode).run ∅).map fun r => (r.1, r.2.insert (t.name, mode) r.1) := by
  cases hrun : (calculate t mode).run ∅ <;> simp [remembered, hrun]

/-! ### Sums are cut off -/

theorem finds_any {α : Type} (c : Sizing α) : Finds (fun _ => True) (fun _ => True) c :=
  fun _ _ _ _ _ => ⟨trivial, trivial⟩

theorem finds_capped_sumAll (ts : List Ty) :
    Finds (fun _ => True) Capped (sumAll estimate ts) :=
  (finds_any _).bind fun ss _ => finds_pure (capped_foldl_sum (by decide) ss)

theorem finds_capped_taggedSize (ts : List Ty) :
    Finds (fun _ => True) Capped (taggedSize estimate ts) := by
  unfold taggedSize
  split
  · exact finds_pure UInt32.zero_le
  · refine (finds_any _).bind fun _ _ => ?_
    split
    · exact finds_pure (capped_sum _ _)
    · exact finds_pure UInt32.zero_le

theorem finds_capped_unionSize (ts : List Ty) :
    Finds (fun _ => True) Capped (unionSize estimate ts) := by
  unfold unionSize
  split
  · exact (finds_any _).bind fun s _ => finds_pure (capped_optionSize s)
  · split
    · split
      · refine (finds_any _).bind fun _ _ => (finds_any _).bind fun _ _ => ?_
        exact finds_pure (capped_sum _ _)
      · exact finds_capped_taggedSize _
    · exact finds_capped_taggedSize _

/-! ### Where nothing is added -/

theorem tagSize_of_untagged (h : t.structOpcode? = none) (mode : TagMode) :
    tagSize t mode = .bits 0 := by
  cases mode with
  | counted => rw [tagSize, h]; rfl
  | alreadyCounted => rfl

/-- An integer or a string behind aliases has just its bits. -/
theorem size_of_hasWidth (h : t.HasWidth count) {r : CellSize × SizeMemo}
    (hrun : (calculated depth t mode).run ∅ = some r) : r.1 = .bits count := by
  induction h generalizing depth mode r with
  | intN | bitsN | bytesN =>
    cases depth with
    | zero => cases hrun
    | succ depth =>
      cases hrun
      rfl
  | aliased n _ ih =>
    cases depth with
    | zero => cases hrun
    | succ depth =>
      change (remembered (calculated depth) _ .counted).run ∅ = _ at hrun
      rw [run_remembered_empty] at hrun
      obtain ⟨rest, hrest, rfl⟩ := Option.map_eq_some_iff.mp hrun
      exact ih (r := rest) hrest
  | applied hbody _ ih =>
    cases depth with
    | zero => cases hrun
    | succ depth =>
      rw [calculated, calculate_of_appliedBody? hbody] at hrun
      exact ih hrun

/-- Any other type has not more bits than are counted. -/
theorem capped_of_narrow (h : t.Narrow) {r : CellSize × SizeMemo}
    (hrun : (calculated depth t mode).run ∅ = some r) : r.1.Capped := by
  induction depth generalizing t mode r with
  | zero => cases hrun
  | succ depth ih =>
    have found {c : Sizing CellSize} (hc : Finds (fun _ => True) Capped c)
        (hrun : c.run ∅ = some r) : r.1.Capped := (hc ∅ trivial r.1 r.2 hrun).1
    cases t with
    | intN width unsigned =>
      cases hrun
      exact h width (.intN width unsigned)
    | bitsN width =>
      cases hrun
      exact h width (.bitsN width)
    | bytesN width =>
      cases hrun
      exact h _ (.bytesN width)
    | int | bool | null | never | void | unknown | enum | coins | typeParam | function =>
      cases hrun
      decide
    | varIntN width =>
      cases hrun
      dsimp only
      split <;> decide
    | builtin n =>
      cases hrun
      unfold builtinSize
      dsimp only
      split_ifs <;> decide
    | struct n fields =>
      exact found ((finds_capped_sumAll fields).bind fun _ _ => finds_pure (capped_sum _ _)) hrun
    | «alias» n inner =>
      change (remembered (calculated depth) inner .counted).run ∅ = _ at hrun
      rw [run_remembered_empty] at hrun
      obtain ⟨rest, hrest, rfl⟩ := Option.map_eq_some_iff.mp hrun
      exact ih (r := rest) (fun count hwidth => h count (.aliased n hwidth)) hrest
    | tensor elements | tuple elements => exact found (finds_capped_sumAll elements) hrun
    | union variants => exact found (finds_capped_unionSize variants) hrun
    | instantiation inner args =>
      cases hbody : (Ty.instantiation inner args).appliedBody? with
      | some body =>
        rw [calculated, calculate_of_appliedBody? hbody] at hrun
        exact ih (fun count hwidth => h count (.applied hbody hwidth)) hrun
      | none =>
        -- What is applied has no body, so the size is one of the fixed ones.
        simp only [Ty.appliedBody?] at hbody
        rw [calculated, calculate] at hrun
        split at hrun
        · cases hrun
          decide
        rename_i n hn
        split_ifs at hrun with hcell hmap
        · cases hrun
          decide
        · cases hrun
          decide
        · simp only [hn, hcell, hmap, or_self, if_false] at hbody
          cases inner <;> first | cases hbody; done | (cases hrun; decide)

end Sizing

namespace Ty

open CellSize

variable {t : Ty} {mode : TagMode} {size size' : CellSize}

theorem Estimates.unique (h : t.Estimates mode size) (h' : t.Estimates mode size') :
    size = size' := by
  obtain ⟨depth, h⟩ := h
  obtain ⟨depth', h'⟩ := h'
  obtain ⟨r, hr, rfl⟩ := Option.map_eq_some_iff.mp h
  obtain ⟨r', hr', rfl⟩ := Option.map_eq_some_iff.mp h'
  have hl := Sizing.refines_calculated (Nat.le_max_left depth depth') t mode ∅ r hr
  have hr := Sizing.refines_calculated (Nat.le_max_right depth depth') t mode ∅ r' hr'
  rw [hl] at hr
  cases hr
  rfl

theorem Estimates.ordered (h : t.Estimates mode size) : size.Ordered := by
  obtain ⟨depth, h⟩ := h
  obtain ⟨r, hr, rfl⟩ := Option.map_eq_some_iff.mp h
  exact (Sizing.finds_calculated depth t mode ∅ SizeMemo.ordered_empty r.1 r.2 hr).1

/-- A size has more bits than are counted just if nothing has been added to find it. -/
theorem Estimates.capped_iff (h : t.Estimates mode size) : size.Capped ↔ t.Narrow := by
  obtain ⟨depth, h⟩ := h
  obtain ⟨r, hr, rfl⟩ := Option.map_eq_some_iff.mp h
  refine ⟨fun hcapped count hwidth => ?_, fun hnarrow => Sizing.capped_of_narrow hnarrow hr⟩
  rwa [Sizing.size_of_hasWidth hwidth hr] at hcapped

/-- The size of a type without type parameters is what a new estimator finds. -/
theorem Closed.estimates_size (h : t.Closed) : t.Estimates .counted t.size := by
  rw [size, SizeMemo.estimate, Sizing.run_estimate, Sizing.run_remembered_empty,
    Sizing.run_remembered_empty]
  cases husual : (Sizing.calculated Sizing.usualDepth t .counted).run ∅ with
  | some r => exact ⟨Sizing.usualDepth, by rw [husual]; rfl⟩
  | none =>
    obtain ⟨r, hr⟩ := Option.isSome_iff_exists.mp (h.total_calculated .counted ∅)
    rw [hr]
    exact ⟨t.weight, by rw [hr]; rfl⟩

/-- The second type holds a value of the first one and nothing else. -/
inductive Boxes (t : Ty) : Ty → Prop
  | tensor : Boxes t (.tensor [t])
  | tuple : Boxes t (.tuple [t])
  | struct {n : Nominal} (htag : (Ty.struct n [t]).structOpcode? = none) : Boxes t (.struct n [t])

/-- What holds a value and nothing else is sized as a sum of one size. -/
theorem Estimates.boxed {box : Ty} (h : t.Estimates .counted size) (hbox : t.Boxes box)
    (mode : TagMode) : box.Estimates mode ((bits 0).sum size) := by
  have hordered := h.ordered
  obtain ⟨depth, h⟩ := h
  obtain ⟨r, hr, rfl⟩ := Option.map_eq_some_iff.mp h
  have hsum : (Sizing.sumAll (Sizing.remembered (Sizing.calculated depth)) [t]).run ∅ =
      some ((bits 0).sum r.1, r.2.insert (t.name, .counted) r.1) := by
    simp [Sizing.sumAll, Sizing.sizes, Sizing.run_remembered_empty, hr]
  refine ⟨depth + 1, ?_⟩
  cases hbox with
  | tensor | tuple =>
    rw [Sizing.calculated, Sizing.calculate, hsum]
    rfl
  | struct htag =>
    have htagSize : Sizing.tagSize _ mode = bits 0 := Sizing.tagSize_of_untagged htag mode
    have hagain := (bits_zero_sum_iff ((ordered_bits 0).sum hordered)).mpr (capped_sum _ _)
    rw [Sizing.calculated, Sizing.calculate, htagSize]
    simp [hsum, hagain]

/-- The size of a type has not more bits than are counted unless the type is, behind its aliases, an
integer or a string of more. These are the types that have another size than what holds a value of
them and nothing else; the size of that has not more bits. -/
theorem Estimates.capped_and_boxed (h : t.Estimates .counted size) :
    (t.Closed → t.size = size) ∧ (size.extent.maxBits ≤ maxBits ↔ t.Narrow) ∧
      ∀ box, t.Boxes box → ∃ boxed, box.Estimates .counted boxed ∧
        boxed.extent.maxBits ≤ maxBits ∧ (boxed = size ↔ t.Narrow) := by
  refine ⟨fun hclosed => hclosed.estimates_size.unique h, h.capped_iff,
    fun box hbox => ⟨_, h.boxed hbox .counted, capped_sum _ _, ?_⟩⟩
  rw [bits_zero_sum_iff h.ordered]
  exact h.capped_iff

/-- A string of ten thousand bits behind an alias. -/
theorem Estimates.capped_and_boxed_aliasedString :
    let t := Ty.alias ⟨"Page", none⟩ (.bitsN 10000)
    t.Estimates .counted (.bits 10000) ∧ t.size = .bits 10000 ∧ ¬ t.Narrow ∧
      ∃ boxed, (Ty.tensor [t]).Estimates .counted boxed ∧ boxed.extent.maxBits ≤ maxBits ∧
        boxed ≠ .bits 10000 := by
  intro t
  have h : t.Estimates .counted (.bits 10000) :=
    ⟨2, by simp [t, Sizing.calculated, Sizing.calculate, Sizing.remembered]⟩
  have hwide : ¬ t.Narrow := fun hnarrow =>
    absurd (hnarrow 10000 (.aliased _ (.bitsN 10000))) (by decide)
  obtain ⟨hsize, -, hboxed⟩ := capped_and_boxed h
  obtain ⟨boxed, hfound, hcapped, hsame⟩ := hboxed _ .tensor
  exact ⟨h, hsize (by simp [t, Closed]), hwide, boxed, hfound, hcapped, mt hsame.mp hwide⟩

/-- There are sizes with more bits than are counted. -/
theorem not_estimates_capped :
    ¬ ∀ t size, Estimates t .counted size → size.extent.maxBits ≤ maxBits := fun hall =>
  absurd (hall (.bitsN 10000) (.bits 10000) ⟨1, rfl⟩) (by decide)

end Ty

end TolkAnalysis
