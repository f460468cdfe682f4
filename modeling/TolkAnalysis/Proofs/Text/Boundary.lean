import Mathlib.Data.List.Basic
import TolkAnalysis.Text.Enclosed

/-!
# Character boundaries

`Text.IsBoundary text offset` says that the byte offset falls between two characters of a
text, or at one of its ends. `Text.IsSlice text start stop part` says that `part` is what
stands between two offsets. The main lemma binds the two to `Text.slice`: between two
boundaries the bytes read as text are exactly the part that stands there.
-/

namespace TolkAnalysis

namespace Text

/-- The first `offset` bytes of a text are whole characters. -/
def IsBoundary (text : String) (offset : Nat) : Prop :=
  ∃ before after : String, text = before ++ after ∧ before.utf8ByteSize = offset

/-- What stands between two byte offsets of a text is `part`. -/
def IsSlice (text : String) (start stop : Nat) (part : String) : Prop :=
  ∃ before after : String, text = before ++ part ++ after ∧
    before.utf8ByteSize = start ∧ start + part.utf8ByteSize = stop

theorem isBoundary_zero (text : String) : IsBoundary text 0 :=
  ⟨"", text, by simp, by simp⟩

theorem isBoundary_size (text : String) : IsBoundary text text.utf8ByteSize :=
  ⟨text, "", by simp, rfl⟩

theorem IsBoundary.le_size {text : String} {offset : Nat} (h : IsBoundary text offset) :
    offset ≤ text.utf8ByteSize := by
  obtain ⟨before, after, rfl, rfl⟩ := h
  rw [String.utf8ByteSize_append]
  omega

/-- Of two prefixes of a text the one with fewer bytes is a prefix of the other. -/
theorem prefix_of_size_le {a b c d : String} (h : a ++ b = c ++ d)
    (hle : a.utf8ByteSize ≤ c.utf8ByteSize) : ∃ m, c = a ++ m ∧ b = m ++ d := by
  have hlist : a.toList ++ b.toList = c.toList ++ d.toList := by
    rw [← String.toList_append, ← String.toList_append, h]
  rcases List.append_eq_append_iff.1 hlist with ⟨m, hc, hb⟩ | ⟨m, ha, hd⟩
  · refine ⟨String.ofList m, ?_, ?_⟩
    · rw [← String.toList_inj, String.toList_append, String.toList_ofList, hc]
    · rw [← String.toList_inj, String.toList_append, String.toList_ofList, hb]
  · -- The first prefix extends the second by nothing, for it is no longer.
    have hac : a = c ++ String.ofList m := by
      rw [← String.toList_inj, String.toList_append, String.toList_ofList, ha]
    have hsize : a.utf8ByteSize = c.utf8ByteSize + (String.ofList m).utf8ByteSize := by
      rw [hac, String.utf8ByteSize_append]
    have hm : String.ofList m = "" := by
      rw [← String.utf8ByteSize_eq_zero_iff]
      omega
    have hdb : d = b := by
      rw [← String.toList_inj, hd, show m = [] by simpa using hm]
      simp
    exact ⟨"", by simp [hac, hm], by simp [hdb]⟩

/-- Between two boundaries stands some part of the text. -/
theorem exists_isSlice {text : String} {start stop : Nat} (hstart : IsBoundary text start)
    (hstop : IsBoundary text stop) (hle : start ≤ stop) :
    ∃ part, IsSlice text start stop part := by
  obtain ⟨a, b, htext, rfl⟩ := hstart
  obtain ⟨c, d, htext', rfl⟩ := hstop
  obtain ⟨part, rfl, rfl⟩ := prefix_of_size_le (htext.symm.trans htext') hle
  exact ⟨part, a, d, htext', rfl, String.utf8ByteSize_append.symm⟩

theorem IsSlice.isBoundary_start {text part : String} {start stop : Nat}
    (h : IsSlice text start stop part) : IsBoundary text start := by
  obtain ⟨before, after, htext, hstart, -⟩ := h
  exact ⟨before, part ++ after, by rw [htext, String.append_assoc], hstart⟩

theorem IsSlice.isBoundary_stop {text part : String} {start stop : Nat}
    (h : IsSlice text start stop part) : IsBoundary text stop := by
  obtain ⟨before, after, htext, hstart, hstop⟩ := h
  exact ⟨before ++ part, after, htext, by rw [String.utf8ByteSize_append, hstart, hstop]⟩

/-- The bytes of a part of a text read as that part. -/
theorem IsSlice.slice_eq {text part : String} {start stop : Nat}
    (h : IsSlice text start stop part) : slice text.toByteArray start stop = part := by
  obtain ⟨before, after, rfl, rfl, rfl⟩ := h
  have hbytes : (before ++ part ++ after).toByteArray.extract before.utf8ByteSize
      (before.utf8ByteSize + part.utf8ByteSize) = part.toByteArray := by
    rw [String.append_assoc, String.toByteArray_append, String.toByteArray_append,
      ← String.size_toByteArray, ← String.size_toByteArray]
    have hskip := ByteArray.extract_append_size_add (a := before.toByteArray)
      (b := part.toByteArray ++ after.toByteArray) (i := 0) (j := part.toByteArray.size)
    rw [Nat.add_zero] at hskip
    rw [hskip, ByteArray.extract_append_eq_left rfl]
  have hbound : before.utf8ByteSize + part.utf8ByteSize ≤
      (before ++ part ++ after).toByteArray.size := by
    rw [String.size_toByteArray, String.utf8ByteSize_append, String.utf8ByteSize_append]
    omega
  have hle : before.utf8ByteSize ≤ before.utf8ByteSize + part.utf8ByteSize := by omega
  rw [slice, if_pos ⟨hle, hbound⟩, hbytes]
  simp [String.fromUTF8?, part.isValidUTF8, String.fromUTF8]

/-- Between two boundaries the bytes read as the part of the text that stands there. -/
theorem isSlice_slice {text : String} {start stop : Nat} (hstart : IsBoundary text start)
    (hstop : IsBoundary text stop) (hle : start ≤ stop) :
    IsSlice text start stop (slice text.toByteArray start stop) := by
  obtain ⟨part, h⟩ := exists_isSlice hstart hstop hle
  rw [h.slice_eq]
  exact h

end Text

end TolkAnalysis
