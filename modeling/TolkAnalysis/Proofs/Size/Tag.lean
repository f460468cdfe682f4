import Mathlib.Algebra.Group.Nat.Defs
import Mathlib.Order.Bounds.Defs
import TolkAnalysis.Proofs.Ty.Normal
import TolkAnalysis.Size.Opcode

/-!
# Made-up tags can be told apart

`Opcode.word o` is what a tag is written as, bit after bit. Two tags are apart
if neither is how the other begins (`Opcode.Apart`), so a reader that meets the
bits of a tag knows where the tag ends and which it is. `Opcode.Tells` says of
the tags of a union that they are apart, each in as few bits as their number
allows.

A union in normal form has at most one variant that is null behind aliases, and
this is what makes room for the tag of null: all other tags then begin with a
one. `Opcode.exists_tells_ofVariants?` puts this together for every union without
declared tags.
-/

namespace TolkAnalysis

namespace Opcode

/-- The bits of a tag, from the first that is written to the last. -/
def word (o : Opcode) : List Bool := (List.range o.length.toNat).reverse.map o.bits.getLsbD

/-- Neither tag is how the other begins. -/
def Apart (a b : Opcode) : Prop := ¬ a.word <+: b.word ∧ ¬ b.word <+: a.word

/-- The tag has no bits set beyond its length. -/
def Fits (o : Opcode) : Prop := o.bits.toNat < 2 ^ o.length.toNat

/-- The tag of null. -/
def ofNull : Opcode := ⟨0, 1⟩

@[simp] theorem length_word (o : Opcode) : o.word.length = o.length.toNat := by
  simp [word]

theorem Apart.symm {a b : Opcode} (h : a.Apart b) : b.Apart a := ⟨h.2, h.1⟩

theorem word_ofNull : ofNull.word = [false] := by
  decide

theorem fits_ofNull : ofNull.Fits := by
  unfold Fits
  decide

/-- A tag is known from its bits. -/
theorem Fits.bits_eq {a b : Opcode} (ha : a.Fits) (hb : b.Fits) (hlength : a.length = b.length)
    (hword : a.word = b.word) : a.bits = b.bits := by
  refine BitVec.eq_of_getLsbD_eq fun i _ => ?_
  by_cases hi : i < a.length.toNat
  · have hi' : i < b.length.toNat := hlength ▸ hi
    have hbit : ∀ j ∈ (List.range a.length.toNat).reverse, a.bits.getLsbD j = b.bits.getLsbD j := by
      unfold word at hword
      rw [← hlength] at hword
      exact List.map_inj_left.mp hword
    exact hbit i (by simpa using hi)
  · -- Beyond the length there are only zeros.
    have high : ∀ o : Opcode, o.Fits → o.length.toNat ≤ i → o.bits.getLsbD i = false :=
      fun o ho hle => Nat.testBit_lt_two_pow (Nat.lt_of_lt_of_le ho (Nat.pow_le_pow_right (by decide) hle))
    rw [high a ha (by omega), high b hb (by rw [← hlength]; omega)]

/-- Different tags of one length are apart. -/
theorem Fits.apart {a b : Opcode} (ha : a.Fits) (hb : b.Fits) (hlength : a.length = b.length)
    (hne : a.bits ≠ b.bits) : a.Apart b := by
  have hwords : a.word.length = b.word.length := by rw [length_word, length_word, hlength]
  exact ⟨fun h => hne (ha.bits_eq hb hlength (h.eq_of_length hwords)),
    fun h => hne (ha.bits_eq hb hlength (h.eq_of_length hwords.symm).symm)⟩

/-! ### Numbers of bits -/

/-- So many bits number so many things. -/
theorem bitsToCount_le_iff {n m : Nat} : bitsToCount n ≤ m ↔ n ≤ 2 ^ m := by
  have hpos : 0 < 2 ^ m := Nat.two_pow_pos m
  unfold bitsToCount
  split
  · omega
  · rw [Nat.succ_le_iff, Nat.log2_lt (by omega)]
    omega

theorem isLeast_bitsToCount (n : Nat) : IsLeast {m | n ≤ 2 ^ m} (bitsToCount n) :=
  ⟨bitsToCount_le_iff.mp (Nat.le_refl _), fun _ hm => bitsToCount_le_iff.mpr hm⟩

/-! ### Numbered tags -/

section

variable {withNull : Bool} {length index other : Nat}

theorem length_numbered (hlength : length ≤ 127) :
    (numbered withNull length index).length.toNat = length + withNull.toNat := by
  cases withNull <;> simp [numbered] <;> omega

theorem bits_numbered (hlength : length ≤ 127) (hindex : index < 2 ^ length) :
    (numbered withNull length index).bits.toNat =
      (if withNull then 2 ^ length else 0) + index := by
  have hpow : 2 ^ length ≤ 2 ^ 127 := Nat.pow_le_pow_right (by decide) hlength
  cases withNull <;> simp [numbered, Nat.shiftLeft_eq] <;> omega

theorem fits_numbered (hlength : length ≤ 127) (hindex : index < 2 ^ length) :
    (numbered withNull length index).Fits := by
  unfold Fits
  rw [length_numbered hlength, bits_numbered hlength hindex]
  cases withNull
  · simpa using hindex
  · simp only [Bool.toNat_true, if_true, Nat.pow_succ]
    omega

theorem apart_numbered (hlength : length ≤ 127) (hindex : index < 2 ^ length)
    (hother : other < 2 ^ length) (hne : index ≠ other) :
    (numbered withNull length index).Apart (numbered withNull length other) := by
  refine (fits_numbered hlength hindex).apart (fits_numbered hlength hother) ?_ fun h => ?_
  · exact UInt32.toNat_inj.mp ((length_numbered hlength).trans (length_numbered hlength).symm)
  · have := congrArg BitVec.toNat h
    rw [bits_numbered hlength hindex, bits_numbered hlength hother] at this
    omega

/-- Beside null, a numbered tag begins with a one. -/
theorem exists_word_numbered (hlength : length ≤ 127) (hindex : index < 2 ^ length) :
    ∃ rest, (numbered true length index).word = true :: rest := by
  have hbit : (numbered true length index).bits.getLsbD length = true := by
    change (numbered true length index).bits.toNat.testBit length = true
    rw [bits_numbered hlength hindex, if_pos rfl, Nat.testBit_two_pow_add_eq,
      Nat.testBit_lt_two_pow hindex]
    rfl
  refine ⟨(List.range length).reverse.map (numbered true length index).bits.getLsbD, ?_⟩
  unfold word
  rw [length_numbered hlength, Bool.toNat_true, List.range_succ, List.reverse_append,
    List.reverse_singleton, List.singleton_append, List.map_cons, hbit]

theorem apart_ofNull (hlength : length ≤ 127) (hindex : index < 2 ^ length) :
    ofNull.Apart (numbered true length index) := by
  obtain ⟨rest, hword⟩ := exists_word_numbered hlength hindex
  unfold Apart
  rw [word_ofNull, hword]
  simp

/-- The types of a list that are not null. -/
def others (ts : List Ty) : List Ty := ts.filter (!isNull ·)

/-- A tag is that of null, if there is null, or a numbered one. -/
theorem mem_number {ts : List Ty} {o : Opcode} (h : o ∈ number withNull length index ts) :
    (o = ofNull ∧ ts.any isNull = true) ∨
      ∃ j, index ≤ j ∧ j < index + (others ts).length ∧ o = numbered withNull length j := by
  induction ts generalizing index with
  | nil => cases h
  | cons t ts ih =>
      unfold number at h
      unfold others at ih ⊢
      rw [List.any_cons, List.filter_cons]
      cases hnull : isNull t with
      | true =>
          rw [hnull, if_pos rfl, List.mem_cons] at h
          rcases h with rfl | h
          · exact .inl ⟨rfl, rfl⟩
          · exact (ih h).imp_left fun h => ⟨h.1, rfl⟩
      | false =>
          rw [hnull, if_neg Bool.false_ne_true, List.mem_cons] at h
          simp only [Bool.not_false, if_true, List.length_cons, Bool.false_or]
          rcases h with rfl | h
          · exact .inr ⟨index, Nat.le_refl _, by omega, rfl⟩
          · refine (ih h).imp_right ?_
            rintro ⟨j, hle, hlt, rfl⟩
            exact ⟨j, by omega, by omega, rfl⟩

/-- Null has its own tag, and any other type one of the numbered tags. -/
theorem forall₂_number (withNull : Bool) (length index : Nat) (ts : List Ty) :
    List.Forall₂ (fun t o => if isNull t then o = ofNull else
      ∃ j < index + (others ts).length, o = numbered withNull length j)
      ts (number withNull length index ts) := by
  induction ts generalizing index with
  | nil => exact .nil
  | cons t ts ih =>
      unfold number
      unfold others at ih ⊢
      rw [List.filter_cons]
      cases hnull : isNull t with
      | true => exact .cons (by simp [hnull, ofNull]) (ih index)
      | false =>
          refine .cons (by simpa [hnull] using ⟨index, by omega, rfl⟩) ((ih (index + 1)).imp ?_)
          intro s o h
          simpa [Nat.add_assoc, Nat.add_comm 1] using h

/-- The tags are apart if there is at most one null and the numbers fit in the given bits. -/
theorem pairwise_number {ts : List Ty} (hlength : length ≤ 127)
    (hroom : index + (others ts).length ≤ 2 ^ length)
    (hsingle : ts.Pairwise fun s t => ¬ (isNull s = true ∧ isNull t = true))
    (hmark : ts.any isNull = true → withNull = true) :
    (number withNull length index ts).Pairwise Apart := by
  induction ts generalizing index with
  | nil => exact .nil
  | cons t ts ih =>
      rw [List.pairwise_cons] at hsingle
      unfold number
      unfold others at hroom
      rw [List.filter_cons] at hroom
      rw [List.any_cons] at hmark
      cases hnull : isNull t with
      | true =>
          obtain rfl : withNull = true := hmark (by rw [hnull]; rfl)
          rw [hnull] at hroom
          refine .cons (fun o ho => ?_) (ih hroom hsingle.2 fun _ => rfl)
          rcases mem_number ho with ⟨-, hany⟩ | ⟨j, -, hlt, rfl⟩
          · obtain ⟨s, hs, hsnull⟩ := List.any_eq_true.mp hany
            exact (hsingle.1 s hs ⟨hnull, hsnull⟩).elim
          · exact apart_ofNull hlength (Nat.lt_of_lt_of_le hlt hroom)
      | false =>
          rw [hnull] at hroom hmark
          simp only [Bool.not_false, if_true, List.length_cons] at hroom
          refine .cons (fun o ho => ?_) (ih (by unfold others; omega) hsingle.2 hmark)
          rcases mem_number ho with ⟨rfl, hany⟩ | ⟨j, hle, hlt, rfl⟩
          · obtain rfl := hmark hany
            exact (apart_ofNull hlength (by omega)).symm
          · unfold others at hlt
            exact apart_numbered hlength (by omega) (by omega) (by omega)

end

/-- Where at most one type is null, the others are all but that one. -/
theorem length_others {ts : List Ty}
    (h : ts.Pairwise fun s t => ¬ (isNull s = true ∧ isNull t = true)) :
    (others ts).length = ts.length - (ts.any isNull).toNat := by
  induction ts with
  | nil => rfl
  | cons t ts ih =>
      rw [List.pairwise_cons] at h
      have ih := ih h.2
      unfold others at ih ⊢
      rw [List.filter_cons, List.any_cons]
      cases hnull : isNull t with
      | true =>
          have hnone : ts.any isNull = false :=
            List.any_eq_false.mpr fun s hs hsnull => h.1 s hs ⟨hnull, hsnull⟩
          simpa [hnone] using ih
      | false =>
          have hle : (ts.any isNull).toNat ≤ ts.length := by
            cases ts with
            | nil => simp
            | cons s ts => exact Nat.le_trans (Bool.toNat_le _) (by simp)
          simp only [Bool.not_false, if_true, List.length_cons, Bool.false_or]
          omega

/-! ### The tags of a union -/

/-- Of the variants of a union in normal form, at most one is null. -/
theorem pairwise_not_null {variants : List Ty} (h : Ty.NormalVariants variants) :
    (variants.map Ty.unwrapAlias).Pairwise fun s t => ¬ (isNull s = true ∧ isNull t = true) := by
  have eq_null : ∀ t : Ty, isNull t = true → t = .null := by
    intro t ht
    unfold isNull at ht
    split at ht
    · rfl
    · cases ht
  refine List.pairwise_map.mpr (h.distinct.imp fun {s t} hne hnull => ?_)
  rw [eq_null _ hnull.1, eq_null _ hnull.2, Ty.equals_refl] at hne
  cases hne

/-- Tags from which the variants of a union can be told apart. Null has the tag of null. The others
have one length, which is the least that is enough for their number, and one more beside null. -/
structure Tells (variants : List Ty) (opcodes : List Opcode) : Prop where
  fits : ∀ o ∈ opcodes, o.Fits
  apart : opcodes.Pairwise Apart
  tagged : ∃ width, IsLeast {m | (others (variants.map Ty.unwrapAlias)).length ≤ 2 ^ m} width ∧
    List.Forall₂ (fun v o => if isNull v.unwrapAlias then o = ofNull else
      o.length.toNat = width + ((variants.map Ty.unwrapAlias).any isNull).toNat) variants opcodes

/-- The variants of a union without declared tags get tags from which they can be told apart, one
for each in their order. A tag is kept in 128 bits, which is enough for any list that can be
held. -/
theorem exists_tells_ofVariants? {types variants : List Ty} (htypes : ∀ t ∈ types, t.WellFormed)
    (hunion : Ty.unionOf types = .union variants)
    (huntagged : ∀ v ∈ variants, v.unwrapAlias.hasDeclaredTag = false)
    (hcount : variants.length ≤ 2 ^ 127) :
    ∃ opcodes, ofVariants? variants = some opcodes ∧ Tells variants opcodes := by
  have hnormal : Ty.NormalVariants variants :=
    (Ty.wellFormed_union.mp (hunion ▸ Ty.stable_wellFormed.unionOf htypes)).1
  have hsingle := pairwise_not_null hnormal
  have hseveral := hnormal.several
  have hothers := length_others hsingle
  have hleast := isLeast_bitsToCount (others (variants.map Ty.unwrapAlias)).length
  have hlength : bitsToCount (others (variants.map Ty.unwrapAlias)).length ≤ 127 := by
    rw [bitsToCount_le_iff, hothers, List.length_map]
    omega
  have hroom : 0 + (others (variants.map Ty.unwrapAlias)).length ≤
      2 ^ bitsToCount (others (variants.map Ty.unwrapAlias)).length := by
    rw [Nat.zero_add]
    exact hleast.1
  have htagged : (variants.map Ty.unwrapAlias).any Ty.hasDeclaredTag = false := by
    simpa using huntagged
  have hall : (variants.map Ty.unwrapAlias).all Ty.hasDeclaredTag = false := by
    obtain ⟨v, hv⟩ := List.exists_mem_of_length_pos (by omega : 0 < variants.length)
    refine List.all_eq_false.mpr ⟨_, List.mem_map_of_mem hv, ?_⟩
    rw [huntagged v hv]
    exact Bool.false_ne_true
  refine ⟨_, ?_, ?_, pairwise_number hlength hroom hsingle id, ?_⟩
  · unfold ofVariants?
    simp only [hall, htagged, Bool.false_eq_true, if_false]
    rw [← hothers]
  · intro o ho
    rcases mem_number ho with ⟨rfl, -⟩ | ⟨j, -, hlt, rfl⟩
    · exact fits_ofNull
    · exact fits_numbered hlength (by omega)
  · have hnumbered := forall₂_number ((variants.map Ty.unwrapAlias).any isNull)
      (bitsToCount (others (variants.map Ty.unwrapAlias)).length) 0 (variants.map Ty.unwrapAlias)
    rw [List.forall₂_map_left_iff] at hnumbered
    refine ⟨_, hleast, hnumbered.imp fun v o ho => ?_⟩
    split
    · rename_i hnull
      rwa [if_pos hnull] at ho
    · rename_i hnull
      rw [if_neg hnull] at ho
      obtain ⟨j, -, rfl⟩ := ho
      exact length_numbered hlength

/-- Three types beside an alias of null are numbered in two bits after a one. -/
theorem exists_tells_ofVariants?_aliasedNull :
    Ty.unionOf [.int, .alias ⟨"Nothing", none⟩ .null, .bool, .null, .coins] =
        .union [.int, .alias ⟨"Nothing", none⟩ .null, .bool, .coins] ∧
      ofVariants? [.int, .alias ⟨"Nothing", none⟩ .null, .bool, .coins] =
        some [⟨4, 3⟩, ofNull, ⟨5, 3⟩, ⟨6, 3⟩] ∧
      Tells [.int, .alias ⟨"Nothing", none⟩ .null, .bool, .coins]
        [⟨4, 3⟩, ofNull, ⟨5, 3⟩, ⟨6, 3⟩] := by
  have hunion : Ty.unionOf [.int, .alias ⟨"Nothing", none⟩ .null, .bool, .null, .coins] =
      .union [.int, .alias ⟨"Nothing", none⟩ .null, .bool, .coins] := by
    simp [Ty.unionOf, Ty.distinctVariants, Ty.unionParts, Ty.baseType, Ty.addVariant,
      Ty.unwrapAlias, Ty.equals, Ty.stripAliases]
  have hopcodes : ofVariants? [.int, .alias ⟨"Nothing", none⟩ .null, .bool, .coins] =
      some [⟨4, 3⟩, ofNull, ⟨5, 3⟩, ⟨6, 3⟩] := by
    decide
  obtain ⟨opcodes, heq, h⟩ := exists_tells_ofVariants? (by simp [Ty.WellFormed]) hunion
    (by simp [Ty.unwrapAlias, Ty.hasDeclaredTag, Ty.declaredTag?]) (by simp)
  exact ⟨hunion, hopcodes, Option.some_inj.mp (heq.symm.trans hopcodes) ▸ h⟩

end Opcode

end TolkAnalysis
