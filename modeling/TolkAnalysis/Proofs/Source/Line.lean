import Mathlib.Data.List.Count
import TolkAnalysis.Source.Line

/-!
# Positions are exact

Where the lines of a text start can be read off its bytes: at zero and after each line feed
(`LineIndex.mem_startsAfter`). The starts are increasing, so the search for an offset ends at the
last line that starts at or before it (`LineIndex.lineAt_spec`), and everything else follows from
that. As many line feeds stand before an offset as lines start after the first one and at or before
the offset; no line feed stands between the start of the line and the offset; and a later offset
lies on a later line or further along the same one.

`LineIndex.position_exact` puts this together, for the texts whose offsets a span can hold.
-/

namespace TolkAnalysis

namespace Place

variable {xs : Array Nat} {x base size i j : Nat}

theorem getElem_lt_getElem (hsorted : xs.toList.Pairwise (· < ·)) (hij : i < j)
    (hj : j < xs.size) : xs[i] < xs[j] := by
  have h := List.pairwise_iff_getElem.mp hsorted i j (by simp; omega) (by simpa) hij
  simpa only [Array.getElem_toList] using h

theorem getElem_le_getElem (hsorted : xs.toList.Pairwise (· < ·)) (hij : i ≤ j)
    (hj : j < xs.size) : xs[i] ≤ xs[j] := by
  rcases Nat.eq_or_lt_of_le hij with rfl | hlt
  · exact Nat.le_refl _
  · exact Nat.le_of_lt (getElem_lt_getElem hsorted hlt hj)

/-- Halving ends at the first number of the range or at one that is not above `x`, and all numbers
behind it are above. -/
theorem narrow_spec (hrange : base + size ≤ xs.size) (hsorted : xs.toList.Pairwise (· < ·))
    (hsize : 0 < size) (hlater : ∀ j, (hj : j < xs.size) → base + size ≤ j → x < xs[j]) :
    ∃ last, narrow xs x base size hrange = last ∧ ∃ h : last < xs.size,
      (last = base ∨ xs[last] ≤ x) ∧ ∀ j, (hj : j < xs.size) → last < j → x < xs[j] := by
  fun_induction narrow xs x base size hrange with
  | case1 base size hrange hone =>
    exact ⟨base, rfl, by omega, .inl rfl, fun j hj hlt => hlater j hj (by omega)⟩
  | case2 base size hrange hmany hlt ih =>
    refine ih (by omega) fun j hj hle => ?_
    exact Nat.lt_of_lt_of_le hlt (getElem_le_getElem hsorted (by omega) hj)
  | case3 base size hrange hmany hge ih =>
    obtain ⟨last, hlast, h, hend, habove⟩ := ih (by omega) fun j hj hle => hlater j hj (by omega)
    refine ⟨last, hlast, h, .inr ?_, habove⟩
    rcases hend with rfl | hend
    · exact Nat.not_lt.mp hge
    · exact hend

/-- A number that is found stands at the index. -/
theorem exists_getElem_of_found (h : ofSorted xs x = .found i) :
    ∃ hi : i < xs.size, xs[i] = x := by
  unfold ofSorted at h
  dsimp only at h
  split at h
  · cases h
  · rename_i y hy
    split_ifs at h with heq
    cases h
    obtain ⟨hi, hy⟩ := Array.getElem?_eq_some_iff.mp hy
    exact ⟨hi, hy.trans heq⟩

/-- A number that is not found is above those before the index and below those from it on. -/
theorem lt_and_lt_of_absent (hsorted : xs.toList.Pairwise (· < ·))
    (h : ofSorted xs x = .absent i) : i ≤ xs.size ∧
      (∀ j, (hj : j < xs.size) → j < i → xs[j] < x) ∧
      ∀ j, (hj : j < xs.size) → i ≤ j → x < xs[j] := by
  rcases Nat.eq_zero_or_pos xs.size with hempty | hpos
  · obtain rfl : i = 0 := by
      have hnone (k : Nat) : xs[k]? = none := Array.getElem?_eq_none (by omega)
      simpa [ofSorted, hnone] using h.symm
    exact ⟨by omega, fun j hj => by omega, fun j hj => by omega⟩
  have hrange : 0 + xs.size ≤ xs.size := by omega
  obtain ⟨last, hlast, hbound, hend, habove⟩ := narrow_spec (x := x) hrange hsorted hpos
    fun j hj hle => absurd hle (by omega)
  unfold ofSorted at h
  dsimp only at h
  rw [hlast, Array.getElem?_eq_getElem hbound] at h
  dsimp only at h
  split_ifs at h with heq hlt
  · cases h
    refine ⟨by omega, fun j hj hji => ?_, fun j hj hij => habove j hj (by omega)⟩
    exact Nat.lt_of_le_of_lt (getElem_le_getElem hsorted (Nat.le_of_lt_succ hji) hbound) hlt
  · cases h
    -- The number left at the end is above `x`, so it is the first of all.
    obtain rfl : i = 0 := hend.resolve_right (by omega)
    refine ⟨by omega, fun j hj hji => by omega, fun j hj _ => ?_⟩
    have := getElem_le_getElem hsorted (Nat.zero_le j) hj
    omega

/-- The numbers that are not above `x` are those up to the last one of them. -/
theorem countP_le_eq (hsorted : xs.toList.Pairwise (· < ·)) (hi : i < xs.size) (hle : xs[i] ≤ x)
    (hlater : ∀ j, (hj : j < xs.size) → i < j → x < xs[j]) :
    xs.toList.countP (· ≤ x) = i + 1 := by
  have hupto : (xs.toList.take (i + 1)).countP (· ≤ x) = (xs.toList.take (i + 1)).length := by
    refine List.countP_eq_length.mpr fun y hy => ?_
    obtain ⟨j, hj, rfl⟩ := List.mem_take_iff_getElem.mp hy
    rw [Array.length_toList] at hj
    simp only [Array.getElem_toList, decide_eq_true_eq]
    exact Nat.le_trans (getElem_le_getElem hsorted (show j ≤ i by omega) hi) hle
  have hbehind : (xs.toList.drop (i + 1)).countP (· ≤ x) = 0 := by
    refine List.countP_eq_zero.mpr fun y hy => ?_
    obtain ⟨j, hj, rfl⟩ := List.mem_drop_iff_getElem.mp hy
    rw [Array.length_toList] at hj
    simp only [Array.getElem_toList, decide_eq_true_eq, Nat.not_le]
    exact hlater (i + 1 + j) (by omega) (by omega)
  rw [← List.take_append_drop (i + 1) xs.toList, List.countP_append, hupto, hbehind,
    List.length_take, Array.length_toList]
  omega

end Place

namespace LineIndex

/-! ### Where lines start -/

variable {bytes : List UInt8} {source : String} {base offset : Nat}

/-- Lines start after line feeds. -/
theorem mem_startsAfter (hsize : base + bytes.length ≤ Span.maxOffset) {start : Nat} :
    start ∈ startsAfter base bytes ↔ ∃ i, bytes[i]? = some 10 ∧ start = base + i + 1 := by
  induction bytes generalizing base with
  | nil => simp [startsAfter]
  | cons b bytes ih =>
    rw [List.length_cons] at hsize
    have hrest : base + 1 + bytes.length ≤ Span.maxOffset := by omega
    have htail := ih hrest
    have hsplit : (∃ i, (b :: bytes)[i]? = some 10 ∧ start = base + i + 1) ↔
        (b = 10 ∧ start = base + 1) ∨ ∃ i, bytes[i]? = some 10 ∧ start = base + 1 + i + 1 := by
      constructor
      · rintro ⟨i, hi, rfl⟩
        cases i with
        | zero => exact .inl ⟨by simpa using hi, rfl⟩
        | succ i => exact .inr ⟨i, by simpa using hi, by omega⟩
      · rintro (⟨rfl, rfl⟩ | ⟨i, hi, rfl⟩)
        · exact ⟨0, rfl, rfl⟩
        · exact ⟨i + 1, by simpa using hi, by omega⟩
    rw [hsplit, startsAfter]
    split_ifs with hb
    · rw [List.mem_cons, htail, Nat.min_eq_left (by omega)]
      simp [hb]
    · rw [htail]
      simp [hb]

/-- Lines start one behind the other. -/
theorem pairwise_startsAfter (hsize : base + bytes.length ≤ Span.maxOffset) :
    (startsAfter base bytes).Pairwise (· < ·) := by
  induction bytes generalizing base with
  | nil => exact .nil
  | cons b bytes ih =>
    rw [List.length_cons] at hsize
    have hrest : base + 1 + bytes.length ≤ Span.maxOffset := by omega
    have htail := ih hrest
    rw [startsAfter]
    split_ifs with hb
    · refine List.pairwise_cons.mpr ⟨fun start hstart => ?_, htail⟩
      obtain ⟨i, -, rfl⟩ := (mem_startsAfter (by omega)).mp hstart
      omega
    · exact htail

/-- As many lines start after a stretch of the text and at or before its end as it has line
feeds. -/
theorem countP_startsAfter (hsize : base + bytes.length ≤ Span.maxOffset) (length : Nat) :
    (startsAfter base bytes).countP (· ≤ base + length) = (bytes.take length).count 10 := by
  induction bytes generalizing base length with
  | nil => simp [startsAfter]
  | cons b bytes ih =>
    rw [List.length_cons] at hsize
    cases length with
    | zero =>
      rw [List.take_zero, List.count_nil, List.countP_eq_zero]
      intro start hstart
      obtain ⟨i, -, rfl⟩ := (mem_startsAfter (by simpa using hsize)).mp hstart
      simp only [decide_eq_true_eq]
      omega
    | succ length =>
      have hrest : base + 1 + bytes.length ≤ Span.maxOffset := by omega
      have htail := ih hrest length
      rw [show base + 1 + length = base + (length + 1) by omega] at htail
      rw [startsAfter, List.take_succ_cons]
      split_ifs with hb
      · rw [List.countP_cons_of_pos, htail, hb, List.count_cons_self]
        simp only [decide_eq_true_eq]
        omega
      · rw [htail, List.count_cons_of_ne hb]

theorem length_startsAfter (hsize : base + bytes.length ≤ Span.maxOffset) :
    (startsAfter base bytes).length = bytes.count 10 := by
  have hcount := countP_startsAfter hsize bytes.length
  rw [List.take_length] at hcount
  rw [← hcount, eq_comm, List.countP_eq_length]
  intro start hstart
  obtain ⟨i, hi, rfl⟩ := (mem_startsAfter (by simpa using hsize)).mp hstart
  have := (List.getElem?_eq_some_iff.mp hi).1
  simp only [decide_eq_true_eq]
  omega

/-- A line starts after the last line feed before an offset, or at zero if there is none. -/
structure StartsLine (bytes : List UInt8) (offset start : Nat) : Prop where
  le : start ≤ offset
  behind : start = 0 ∨ bytes[start - 1]? = some 10
  unbroken : ∀ i, start ≤ i → i < offset → bytes[i]? ≠ some 10

/-! ### The line of an offset -/

section

variable (hsize : source.utf8ByteSize ≤ Span.maxOffset)
include hsize

theorem pairwise_starts : (ofSource source).starts.toList.Pairwise (· < ·) := by
  refine List.pairwise_cons.mpr ⟨fun start hstart => ?_, ?_⟩
  · obtain ⟨i, -, rfl⟩ := (mem_startsAfter (by simpa using hsize)).mp hstart
    omega
  · exact pairwise_startsAfter (by simpa using hsize)

/-- The line of an offset is the last one that starts at or before it. -/
theorem lineAt_spec (offset : Nat) :
    ∃ h : (ofSource source).lineAt offset < (ofSource source).starts.size,
      (ofSource source).starts[(ofSource source).lineAt offset] ≤ offset ∧
      ∀ j, (hj : j < (ofSource source).starts.size) → (ofSource source).lineAt offset < j →
        offset < (ofSource source).starts[j] := by
  have hsorted := pairwise_starts hsize
  have hpos : 0 < (ofSource source).starts.size := by simp [ofSource]
  have hfirst : (ofSource source).starts[0] = 0 := by simp [ofSource]
  unfold lineAt
  split
  · rename_i line h
    obtain ⟨hline, heq⟩ := Place.exists_getElem_of_found h
    exact ⟨hline, Nat.le_of_eq heq, fun j hj hlt => heq ▸ Place.getElem_lt_getElem hsorted hlt hj⟩
  · rename_i next h
    obtain ⟨hnext, hbefore, hbehind⟩ := Place.lt_and_lt_of_absent hsorted h
    have hne : next ≠ 0 := by
      rintro rfl
      have := hbehind 0 hpos (Nat.le_refl 0)
      omega
    exact ⟨by omega, Nat.le_of_lt (hbefore _ (by omega) (by omega)),
      fun j hj hlt => hbehind j hj (by omega)⟩

/-- The line of an offset has as many line feeds before it as the offset. -/
theorem lineAt_eq_count (offset : Nat) :
    (ofSource source).lineAt offset = (source.toByteArray.data.toList.take offset).count 10 := by
  obtain ⟨hline, hle, hlater⟩ := lineAt_spec hsize offset
  have hcount := Place.countP_le_eq (pairwise_starts hsize) hline hle hlater
  have hbytes : 0 + source.toByteArray.data.toList.length ≤ Span.maxOffset := by simpa using hsize
  have hfeeds := countP_startsAfter hbytes offset
  rw [Nat.zero_add] at hfeeds
  have hfirst : (ofSource source).starts.toList.countP (· ≤ offset) =
      (startsAfter 0 source.toByteArray.data.toList).countP (· ≤ offset) + 1 :=
    List.countP_cons_of_pos (by simp)
  omega

/-- The line of an offset starts after the last line feed before it. -/
theorem startsLine_lineAt (offset : Nat) :
    ∃ h : (ofSource source).lineAt offset < (ofSource source).starts.size,
      StartsLine source.toByteArray.data.toList offset
        (ofSource source).starts[(ofSource source).lineAt offset] := by
  have hbytes : 0 + source.toByteArray.data.toList.length ≤ Span.maxOffset := by simpa using hsize
  obtain ⟨hline, hle, hlater⟩ := lineAt_spec hsize offset
  refine ⟨hline, hle, ?_, fun i hi hlt hfeed => ?_⟩
  · have hmem : (ofSource source).starts[(ofSource source).lineAt offset] ∈
        0 :: startsAfter 0 source.toByteArray.data.toList := by
      rw [← Array.getElem_toList]
      exact List.getElem_mem _
    rcases List.mem_cons.mp hmem with hzero | hmem
    · exact .inl hzero
    · obtain ⟨i, hi, heq⟩ := (mem_startsAfter hbytes).mp hmem
      refine .inr ?_
      rw [heq]
      simpa using hi
  · -- A line that started after the line feed would be a later one at or before the offset.
    have hmem : i + 1 ∈ (ofSource source).starts.toList :=
      List.mem_cons_of_mem _ ((mem_startsAfter hbytes).mpr ⟨i, hfeed, by omega⟩)
    obtain ⟨j, hj, heq⟩ := List.mem_iff_getElem.mp hmem
    rw [Array.length_toList] at hj
    rw [Array.getElem_toList] at heq
    rcases Nat.lt_or_ge ((ofSource source).lineAt offset) j with hlt' | hge
    · have := hlater j hj hlt'
      omega
    · have := Place.getElem_le_getElem (pairwise_starts hsize) hge hline
      omega

/-! ### Positions -/

/-- A position is the line of the offset and how far the offset is behind its start. -/
theorem position_eq {offset : Nat}
    (hline : (ofSource source).lineAt offset < (ofSource source).starts.size) :
    (ofSource source).position offset = ⟨(ofSource source).lineAt offset,
      offset - (ofSource source).starts[(ofSource source).lineAt offset]⟩ := by
  have hfeeds : (ofSource source).lineAt offset ≤ source.utf8ByteSize := by
    rw [lineAt_eq_count hsize]
    exact Nat.le_trans List.count_le_length (List.length_take_le' _ _)
  rw [position, Array.getElem?_eq_getElem hline, Option.getD_some, Nat.min_eq_left (by omega)]

/-- A later offset has a later position. -/
theorem order_position_of_lt {offset offset' : Nat} (h : offset < offset') :
    ((ofSource source).position offset).order ((ofSource source).position offset') = .lt := by
  obtain ⟨hline, hle, hlater⟩ := lineAt_spec hsize offset
  obtain ⟨hline', hle', hlater'⟩ := lineAt_spec hsize offset'
  rw [position_eq hsize hline, position_eq hsize hline', Position.order]
  rcases Nat.lt_trichotomy ((ofSource source).lineAt offset) ((ofSource source).lineAt offset')
    with hlt | heq | hgt
  · rw [Nat.compare_eq_lt.mpr hlt]
    rfl
  · -- On one line the columns are counted from one start.
    simp only [heq] at hle ⊢
    rw [Nat.compare_eq_eq.mpr rfl, Ordering.eq_then, Nat.compare_eq_lt]
    omega
  · have := hlater' _ hline hgt
    omega

/-- The line of an offset is the number of line feeds before it, and its column the distance from
the byte after the last of them. There is one line more than there are line feeds. Positions are
ordered as their offsets, so two offsets have two positions. -/
theorem position_exact (offset : Nat) :
    (ofSource source).lineCount = source.toByteArray.data.toList.count 10 + 1 ∧
      ((ofSource source).position offset).line =
        (source.toByteArray.data.toList.take offset).count 10 ∧
      (∃ start, StartsLine source.toByteArray.data.toList offset start ∧
        start + ((ofSource source).position offset).column = offset) ∧
      ∀ offset', (offset ≤ offset' → (((ofSource source).position offset).order
          ((ofSource source).position offset')).isLE = true) ∧
        ((ofSource source).position offset = (ofSource source).position offset' →
          offset = offset') := by
  obtain ⟨hline, hstart⟩ := startsLine_lineAt hsize offset
  have hposition := position_eq hsize hline
  have hself (p : Position) : p.order p = .eq := by simp [Position.order]
  refine ⟨?_, ?_, ⟨_, hstart, ?_⟩, fun offset' => ⟨fun hle => ?_, fun heq => ?_⟩⟩
  · rw [lineCount, ← Array.length_toList]
    exact congrArg (· + 1) (length_startsAfter (by simpa using hsize))
  · rw [hposition]
    exact lineAt_eq_count hsize offset
  · rw [hposition]
    exact Nat.add_sub_cancel' hstart.le
  · rcases Nat.eq_or_lt_of_le hle with rfl | hlt
    · rw [hself]
      rfl
    · rw [order_position_of_lt hsize hlt]
      rfl
  · rcases Nat.lt_trichotomy offset offset' with hlt | rfl | hgt
    · have := order_position_of_lt hsize hlt
      rw [← heq, hself] at this
      cases this
    · rfl
    · have := order_position_of_lt hsize hgt
      rw [← heq, hself] at this
      cases this

end

/-- The second of two empty lines, at the line feed that ends it. -/
theorem position_exact_emptyLine :
    let source := "ab\n\n\ncd"
    source.utf8ByteSize ≤ Span.maxOffset ∧ (ofSource source).lineCount = 4 ∧
      ((ofSource source).position 4).line = 2 ∧
      (∃ start, StartsLine source.toByteArray.data.toList 4 start ∧
        start + ((ofSource source).position 4).column = 4) ∧
      (((ofSource source).position 4).order ((ofSource source).position 5)).isLE = true ∧
      (ofSource source).position 4 ≠ (ofSource source).position 5 := by
  intro source
  have hsize : source.utf8ByteSize ≤ Span.maxOffset := by decide
  obtain ⟨hcount, hline, hstart, horder⟩ := position_exact hsize 4
  exact ⟨hsize, hcount, hline, hstart, (horder 5).1 (by decide), mt (horder 5).2 (by decide)⟩

end LineIndex

end TolkAnalysis
