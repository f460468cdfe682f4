import Mathlib.Data.Nat.Digits.Lemmas
import Mathlib.Data.Nat.Size
import TolkAnalysis.Size.Opcode

/-!
# Literals of tags

A literal is a mark of its base and digits of that base, or digits of base ten without a mark
(`Opcode.Marked`). The number that it denotes is computed twice. Its low bits come from Horner's
rule on words, which wrap around. Its length in base ten comes from halving the digits until only
zeros are left, so it does not depend on the width of a word: halving the digits halves the number
(`Opcode.valueOfDigits_halve`), and a number is halved as often as it has bits
(`Opcode.halvings_eq_size`).

`Opcode.ofLiteral?_exact` says which texts are literals, and which tag they denote.
-/

namespace TolkAnalysis

namespace Opcode

/-! ### Digits -/

/-- The place of a character among the digits of base sixteen, in either case; sixteen for any
other character. -/
def numeral (c : Char) : Nat := "0123456789abcdef".toList.idxOf c.toLower

theorem numeral_of_not_ascii {c : Char} (h : 128 ≤ c.toNat) : numeral c = 16 := by
  have hlower : c.toLower = c := by
    unfold Char.toLower
    rw [dif_neg]
    rintro ⟨-, hle⟩
    have hle : c.toNat ≤ 'Z'.toNat := hle
    exact absurd (Nat.le_trans h hle) (by decide)
  have hmem : c ∉ "0123456789abcdef".toList := by
    intro hmem
    have hsmall : "0123456789abcdef".toList.all (·.toNat < 128) = true := by decide
    exact absurd (of_decide_eq_true (List.all_eq_true.mp hsmall c hmem)) (Nat.not_lt.mpr h)
  rw [numeral, hlower]
  exact List.idxOf_eq_length hmem

theorem digit?_of_not_ascii {c : Char} (h : 128 ≤ c.toNat) (radix : Nat) :
    digit? radix c = none := by
  have above : ∀ d : Char, d.toNat < 128 → ¬ c ≤ d := by
    intro d hd hle
    have hle : c.toNat ≤ d.toNat := hle
    omega
  have hdigit : c.isDigit = false := by
    rw [Bool.eq_false_iff]
    intro hdigit
    rw [Char.isDigit, Bool.and_eq_true, decide_eq_true_iff, decide_eq_true_iff] at hdigit
    exact above '9' (by decide) hdigit.2
  simp [digit?, hdigit, above 'f' (by decide), above 'F' (by decide)]

/-- The digits of a base up to sixteen are the characters with a place below the base. -/
theorem digit?_eq {radix : Nat} (hradix : radix ≤ 16) (c : Char) :
    digit? radix c = if numeral c < radix then some (numeral c) else none := by
  have narrower : digit? radix c = (digit? 16 c).filter (· < radix) := by
    have both : ∀ d : Nat, decide (d < radix) = (decide (d < 16) && decide (d < radix)) := by
      intro d
      rw [← Bool.decide_and, decide_eq_decide]
      exact ⟨fun h => ⟨Nat.lt_of_lt_of_le h hradix, h⟩, And.right⟩
    rw [digit?, digit?, Option.filter_filter]
    exact congrArg (Option.filter · _) (funext both)
  have ascii : ∀ n < 128, digit? 16 (Char.ofNat n) =
      if numeral (Char.ofNat n) < 16 then some (numeral (Char.ofNat n)) else none := by
    decide +kernel
  have wide : digit? 16 c = if numeral c < 16 then some (numeral c) else none := by
    rcases Nat.lt_or_ge c.toNat 128 with h | h
    · rw [← Char.ofNat_toNat c]
      exact ascii c.toNat h
    · rw [digit?_of_not_ascii h, numeral_of_not_ascii h]
      rfl
  rw [narrower, wide]
  by_cases hc : numeral c < radix
  · simp [hc, Nat.lt_of_lt_of_le hc hradix]
  · rw [if_neg hc]
    split
    · exact Option.filter_some_neg (by simpa using hc)
    · rfl

theorem mapM_digit? {radix : Nat} (hradix : radix ≤ 16) (cs : List Char) :
    cs.mapM (digit? radix) =
      if cs.all (numeral · < radix) then some (cs.map numeral) else none := by
  induction cs with
  | nil => rfl
  | cons c cs ih =>
      rw [List.mapM_cons, digit?_eq hradix, ih, List.all_cons]
      by_cases hc : numeral c < radix
      · rw [if_pos hc, decide_eq_true hc, Bool.true_and]
        cases cs.all (numeral · < radix) <;> rfl
      · rw [if_neg hc, decide_eq_false hc, Bool.false_and]
        rfl

theorem all_numeral_iff {radix : Nat} {cs : List Char} :
    cs.all (numeral · < radix) = true ↔ ∀ c ∈ cs, numeral c < radix := by
  simp only [List.all_eq_true, decide_eq_true_iff]

/-! ### The number that digits denote -/

theorem valueOfDigits_eq_ofDigits (radix : Nat) (digits : List Nat) :
    valueOfDigits radix digits = Nat.ofDigits radix digits.reverse := by
  rw [Nat.ofDigits_eq_foldr, List.foldr_reverse]
  simp only [valueOfDigits, Nat.cast_id, Nat.add_comm]

/-- Words that wrap around keep the low bits. -/
theorem lowBits_eq (radix : Nat) (digits : List Nat) :
    lowBits radix digits = BitVec.ofNat 128 (valueOfDigits radix digits) := by
  refine List.foldl_hom (BitVec.ofNat 128) fun n d => ?_
  rw [BitVec.ofNat_add, BitVec.ofNat_mul]

/-- Half of a number has one bit less. -/
theorem size_eq_size_half {n : Nat} (h : n ≠ 0) : n.size = (n / 2).size + 1 := by
  obtain ⟨k, hk⟩ := Nat.exists_eq_succ_of_ne_zero (mt Nat.size_eq_zero.mp h)
  have hlt : n < 2 ^ (k + 1) := Nat.size_le.mp hk.le
  have hhalf : n / 2 < 2 ^ (n / 2).size := Nat.lt_size_self (n / 2)
  refine Nat.le_antisymm (Nat.size_le.mpr ?_) (hk ▸ Nat.succ_le_succ (Nat.size_le.mpr ?_))
  · rw [Nat.pow_succ]
    omega
  · rw [Nat.pow_succ] at hlt
    omega

/-- A number is halved as often as it has bits. -/
theorem halvings_eq_size (digits : List Nat) :
    halvings digits = (valueOfDigits 10 digits).size := by
  fun_induction halvings digits with
  | case1 digits h =>
      rw [← valueOfDigits_dropWhile, h]
      rfl
  | case2 digits d ds h ih =>
      have hvalue : valueOfDigits 10 (d :: ds) = valueOfDigits 10 digits := by
        rw [← h, valueOfDigits_dropWhile]
      rw [ih, valueOfDigits_halve, hvalue, ← size_eq_size_half (valueOfDigits_pos h).ne']

/-- A number in decimal digits has at most four bits for each of them. -/
theorem halvings_le {digits : List Nat} (h : ∀ d ∈ digits, d < 10) :
    halvings digits ≤ 4 * digits.length := by
  have hlt : valueOfDigits 10 digits < 10 ^ digits.length := by
    rw [valueOfDigits_eq_ofDigits, ← List.length_reverse]
    exact Nat.ofDigits_lt_base_pow_length (by decide) fun d hd => h d (List.mem_reverse.mp hd)
  have hpow : 10 ^ digits.length ≤ 2 ^ (4 * digits.length) := by
    rw [Nat.pow_mul]
    exact Nat.pow_le_pow_left (by decide) _
  rw [halvings_eq_size, Nat.size_le]
  exact Nat.lt_of_lt_of_le hlt hpow

/-! ### Marks of a base -/

/-- The marks in front of digits, and the bases that they stand for. -/
def marks : List (List Char × Nat) :=
  [(['0', 'x'], 16), (['0', 'X'], 16), (['0', 'b'], 2), (['0', 'B'], 2)]

/-- The characters are a mark and what follows it, or begin with no mark. -/
def Marked (cs : List Char) (radix : Nat) (ds : List Char) : Prop :=
  (∃ mark, (mark, radix) ∈ marks ∧ cs = mark ++ ds) ∨
    (radix = 10 ∧ cs = ds ∧ ∀ m ∈ marks, ¬ m.1 <+: cs)

variable {cs ds : List Char} {radix : Nat}

theorem marked_splitRadix (cs : List Char) :
    Marked cs (splitRadix cs).1 (splitRadix cs).2 := by
  fun_cases splitRadix cs with
  | case1 cs => exact .inl ⟨['0', 'x'], by simp [marks], rfl⟩
  | case2 cs => exact .inl ⟨['0', 'X'], by simp [marks], rfl⟩
  | case3 cs => exact .inl ⟨['0', 'b'], by simp [marks], rfl⟩
  | case4 cs => exact .inl ⟨['0', 'B'], by simp [marks], rfl⟩
  | case5 cs hx hX hb hB =>
      refine .inr ⟨rfl, rfl, fun m hm hmark => ?_⟩
      obtain ⟨rest, rfl⟩ := hmark
      simp only [marks, List.mem_cons, List.not_mem_nil, or_false] at hm
      rcases hm with rfl | rfl | rfl | rfl
      · exact hx rest rfl
      · exact hX rest rfl
      · exact hb rest rfl
      · exact hB rest rfl

/-- Characters are split in one way. -/
theorem Marked.splitRadix_eq (h : Marked cs radix ds) : splitRadix cs = (radix, ds) := by
  rcases h with ⟨mark, hmark, rfl⟩ | ⟨rfl, rfl, hnone⟩
  · simp only [marks, List.mem_cons, List.not_mem_nil, or_false, Prod.mk.injEq] at hmark
    rcases hmark with ⟨rfl, rfl⟩ | ⟨rfl, rfl⟩ | ⟨rfl, rfl⟩ | ⟨rfl, rfl⟩ <;> rfl
  · rcases marked_splitRadix cs with ⟨mark, hmark, hcs⟩ | ⟨hradix, hcs, -⟩
    · exact absurd ⟨_, hcs.symm⟩ (hnone _ hmark)
    · exact Prod.ext hradix hcs.symm

/-! ### Literals -/

/-- The number that characters denote as digits of a base. -/
def denoted (radix : Nat) (ds : List Char) : Nat := Nat.ofDigits radix (ds.map numeral).reverse

/-- The number of bits of a tag that is written in some digits of a base. -/
def tagLength (radix : Nat) (ds : List Char) : Nat :=
  if radix = 16 then 4 * ds.length
  else if radix = 2 then ds.length
  else max 1 (denoted radix ds).size

theorem Marked.radix_eq (h : Marked cs radix ds) : radix = 16 ∨ radix = 2 ∨ radix = 10 := by
  rcases h with ⟨mark, hmark, -⟩ | ⟨rfl, -⟩
  · simp only [marks, List.mem_cons, List.not_mem_nil, or_false, Prod.mk.injEq] at hmark
    omega
  · exact .inr (.inr rfl)

theorem Marked.radix_le (h : Marked cs radix ds) : radix ≤ 16 := by
  rcases h.radix_eq with rfl | rfl | rfl <;> decide

/-- A digit has at most four bits, so the number of bits is small enough to be kept. -/
theorem Marked.tagLength_lt (h : Marked cs radix ds) (hlength : ds.length < 2 ^ 30)
    (hdigits : ∀ c ∈ ds, numeral c < radix) : tagLength radix ds < UInt32.size := by
  have hsize : UInt32.size = 4 * 2 ^ 30 := rfl
  unfold tagLength
  rcases h.radix_eq with rfl | rfl | rfl
  · rw [if_pos rfl]
    omega
  · rw [if_neg (by decide), if_pos rfl]
    omega
  · have hle : (denoted 10 ds).size ≤ 4 * ds.length := by
      have hnumerals : ∀ d ∈ ds.map numeral, d < 10 := List.forall_mem_map.mpr hdigits
      have h := halvings_le hnumerals
      rwa [halvings_eq_size, valueOfDigits_eq_ofDigits, List.length_map] at h
    rw [if_neg (by decide), if_neg (by decide)]
    omega

/-- The tag that the rules make of digits behind a mark. -/
theorem Marked.ofLiteral?_eq {text : String} (h : Marked (text.toList.filter (· ≠ '_')) radix ds)
    (hlength : ds.length < 2 ^ 30) (hne : ds ≠ []) (hdigits : ∀ c ∈ ds, numeral c < radix) :
    ofLiteral? text =
      some ⟨BitVec.ofNat 128 (denoted radix ds), UInt32.ofNat (tagLength radix ds)⟩ := by
  have hbits : lowBits radix (ds.map numeral) = BitVec.ofNat 128 (denoted radix ds) := by
    rw [lowBits_eq, valueOfDigits_eq_ofDigits, denoted]
  have hcount : (if radix = 16 then 4 * (ds.map numeral).length
      else if radix = 2 then (ds.map numeral).length
      else max 1 (halvings (ds.map numeral))) = tagLength radix ds := by
    rw [halvings_eq_size]
    rcases h.radix_eq with rfl | rfl | rfl <;>
      simp [tagLength, valueOfDigits_eq_ofDigits, denoted]
  have hlt := h.tagLength_lt hlength hdigits
  unfold ofLiteral?
  rw [h.splitRadix_eq]
  dsimp only
  rw [mapM_digit? h.radix_le, if_pos (all_numeral_iff.mpr hdigits), ← hbits, ← hcount]
  rw [← hcount] at hlt
  cases ds with
  | nil => exact absurd rfl hne
  | cons c cs => exact if_pos hlt

/-- There is no tag if there are no digits behind the mark, or characters that are none. -/
theorem Marked.ofLiteral?_eq_none {text : String}
    (h : Marked (text.toList.filter (· ≠ '_')) radix ds)
    (hdigits : ¬(ds ≠ [] ∧ ∀ c ∈ ds, numeral c < radix)) : ofLiteral? text = none := by
  unfold ofLiteral?
  rw [h.splitRadix_eq]
  dsimp only
  rw [mapM_digit? h.radix_le]
  by_cases hall : ds.all (numeral · < radix) = true
  · obtain rfl : ds = [] := not_not.mp fun hne => hdigits ⟨hne, all_numeral_iff.mp hall⟩
    rfl
  · rw [if_neg hall]
    rfl

/-- Without its underscores every text is characters behind a mark or without one, in one way. If
there are fewer than `2 ^ 30` of them, the text is a literal if and only if there is one and all are
digits of the base. Its tag is the number that they denote, of which the low bits are kept, in four
bits a digit in base sixteen, one bit a digit in base two, and as many bits as the number has in base
ten. -/
theorem ofLiteral?_exact (text : String) :
    (∃ radix ds, Marked (text.toList.filter (· ≠ '_')) radix ds) ∧
      ∀ radix ds, Marked (text.toList.filter (· ≠ '_')) radix ds → ds.length < 2 ^ 30 →
        ((∃ o, ofLiteral? text = some o) ↔ ds ≠ [] ∧ ∀ c ∈ ds, numeral c < radix) ∧
          ∀ o, ofLiteral? text = some o →
            o.bits.toNat = denoted radix ds % 2 ^ 128 ∧ o.length.toNat = tagLength radix ds := by
  refine ⟨⟨_, _, marked_splitRadix _⟩, fun radix ds hmarked hlength => ?_⟩
  by_cases hdigits : ds ≠ [] ∧ ∀ c ∈ ds, numeral c < radix
  · rw [hmarked.ofLiteral?_eq hlength hdigits.1 hdigits.2]
    refine ⟨iff_of_true ⟨_, rfl⟩ hdigits, fun o ho => ?_⟩
    cases ho
    exact ⟨BitVec.toNat_ofNat _ _,
      UInt32.toNat_ofNat_of_lt' (hmarked.tagLength_lt hlength hdigits.2)⟩
  · rw [hmarked.ofLiteral?_eq_none hdigits]
    exact ⟨iff_of_false (fun h => nomatch h) hdigits, nofun⟩

/-- A number of 130 bits is the greatest one of 128 bits in a tag of 130. -/
theorem ofLiteral?_wide :
    let text := "1_361129467683753853853498429727072845823"
    let ds := "1361129467683753853853498429727072845823".toList
    Marked (text.toList.filter (· ≠ '_')) 10 ds ∧ ds.length < 2 ^ 30 ∧
      ∃ o, ofLiteral? text = some o ∧ o.bits.toNat = 2 ^ 128 - 1 ∧ o.length.toNat = 130 := by
  intro text ds
  have hmarked : Marked (text.toList.filter (· ≠ '_')) 10 ds := by
    have h := marked_splitRadix (text.toList.filter (· ≠ '_'))
    have hsplit : splitRadix (text.toList.filter (· ≠ '_')) = (10, ds) := by decide +kernel
    rwa [hsplit] at h
  have hlength : ds.length < 2 ^ 30 := by decide +kernel
  obtain ⟨hliteral, htag⟩ := (ofLiteral?_exact text).2 10 ds hmarked hlength
  have hall : ds.all (numeral · < 10) = true := by decide +kernel
  obtain ⟨o, ho⟩ := hliteral.mpr ⟨by decide, all_numeral_iff.mp hall⟩
  obtain ⟨hbits, hcount⟩ := htag o ho
  have hdenoted : denoted 10 ds = 2 ^ 130 - 1 := by decide +kernel
  have hsize : (2 ^ 130 - 1 : Nat).size = 130 := by decide +kernel
  refine ⟨hmarked, hlength, o, ho, ?_, ?_⟩
  · rw [hbits, hdenoted]
    rfl
  · rw [hcount, tagLength, if_neg (by decide), if_neg (by decide), hdenoted, hsize]
    rfl

end Opcode

end TolkAnalysis
