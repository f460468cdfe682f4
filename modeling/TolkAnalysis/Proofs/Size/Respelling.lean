import Mathlib.Data.List.Forall2
import TolkAnalysis.Proofs.Size.Afresh

/-!
# Respelled types

The parts of a type may be spelled in other ways: behind the name of an alias, or as a generic
struct with the arguments that give it the same members. `Ty.Respells` relates such types. The
variants of a union are respelled only if their tag does not count: the tag of a variant is looked
for behind aliases, but counted in the size of an alias, and a generic struct with arguments is
taken for one without a tag.

Respelling keeps the size of a type (`Ty.Respells.hasSize_iff`), and the tags of a union.
-/

namespace TolkAnalysis

namespace Ty

/-- The type is not null, and neither it nor what it is applied to has a declared tag. -/
def Untagged (t : Ty) : Prop :=
  Opcode.isNull t.unwrapAlias = false ∧ t.unwrapAlias.hasDeclaredTag = false ∧
    ∀ body ∈ t.appliedBody?, body.hasDeclaredTag = false

mutual

/-- The types are two spellings of one type. -/
inductive Respells : Ty → Ty → Prop
  | same (t : Ty) : Respells t t
  | aliased {t t' : Ty} (n : Nominal) (h : Respells t t') : Respells t (.alias n t')
  | unaliased {t t' : Ty} (n : Nominal) (h : Respells t t') : Respells (.alias n t) t'
  | applied {t t' body : Ty} (hbody : t'.appliedBody? = some body) (h : Respells t body) :
      Respells t t'
  | unapplied {t t' body : Ty} (hbody : t.appliedBody? = some body) (h : Respells body t') :
      Respells t t'
  | struct {n n' : Nominal} {fields fields' : List Ty}
      (htag : (Ty.struct n fields).declaredTag? = (Ty.struct n' fields').declaredTag?)
      (h : RespellsAll fields fields') : Respells (.struct n fields) (.struct n' fields')
  | tensor {ts ts' : List Ty} (h : RespellsAll ts ts') : Respells (.tensor ts) (.tensor ts')
  | tuple {ts ts' : List Ty} (h : RespellsAll ts ts') : Respells (.tuple ts) (.tuple ts')
  | union {ts ts' : List Ty} (h : RespellsVariants ts ts') : Respells (.union ts) (.union ts')

/-- The types of two lists are spellings of each other. -/
inductive RespellsAll : List Ty → List Ty → Prop
  | nil : RespellsAll [] []
  | cons {t t' : Ty} {ts ts' : List Ty} (h : Respells t t') (hs : RespellsAll ts ts') :
      RespellsAll (t :: ts) (t' :: ts')

/-- The variants of two unions are spellings of each other, without a change to tags that
count. -/
inductive RespellsVariants : List Ty → List Ty → Prop
  | nil : RespellsVariants [] []
  | same {ts ts' : List Ty} (t : Ty) (hs : RespellsVariants ts ts') :
      RespellsVariants (t :: ts) (t :: ts')
  | untagged {t t' : Ty} {ts ts' : List Ty} (ht : t.Untagged) (ht' : t'.Untagged)
      (h : Respells t t') (hs : RespellsVariants ts ts') : RespellsVariants (t :: ts) (t' :: ts')
  | struct {n n' : Nominal} {fields fields' ts ts' : List Ty}
      (htag : (Ty.struct n fields).declaredTag? = (Ty.struct n' fields').declaredTag?)
      (h : RespellsAll fields fields') (hs : RespellsVariants ts ts') :
      RespellsVariants (.struct n fields :: ts) (.struct n' fields' :: ts')

end

mutual

theorem Respells.symm : ∀ {t t' : Ty}, Respells t t' → Respells t' t
  | _, _, .same t => .same t
  | _, _, .aliased n h => .unaliased n h.symm
  | _, _, .unaliased n h => .aliased n h.symm
  | _, _, .applied hbody h => .unapplied hbody h.symm
  | _, _, .unapplied hbody h => .applied hbody h.symm
  | _, _, .struct htag h => .struct htag.symm h.symm
  | _, _, .tensor h => .tensor h.symm
  | _, _, .tuple h => .tuple h.symm
  | _, _, .union h => .union h.symm

theorem RespellsAll.symm : ∀ {ts ts' : List Ty}, RespellsAll ts ts' → RespellsAll ts' ts
  | _, _, .nil => .nil
  | _, _, .cons h hs => .cons h.symm hs.symm

theorem RespellsVariants.symm : ∀ {ts ts' : List Ty},
    RespellsVariants ts ts' → RespellsVariants ts' ts
  | _, _, .nil => .nil
  | _, _, .same t hs => .same t hs.symm
  | _, _, .untagged ht ht' h hs => .untagged ht' ht h.symm hs.symm
  | _, _, .struct htag h hs => .struct htag.symm h.symm hs.symm

end

/-! ### Tags of variants -/

/-- A union treats the types in the same way when it looks for tags. -/
structure SameTags (t t' : Ty) : Prop where
  null : Opcode.isNull t = Opcode.isNull t'
  declared : t.hasDeclaredTag = t'.hasDeclaredTag
  unwrapped : Opcode.isNull t.unwrapAlias = Opcode.isNull t'.unwrapAlias
  tag : t.unwrapAlias.declaredTag? = t'.unwrapAlias.declaredTag?

theorem SameTags.refl (t : Ty) : SameTags t t := ⟨rfl, rfl, rfl, rfl⟩

theorem Untagged.hasDeclaredTag {t : Ty} (h : t.Untagged) : t.hasDeclaredTag = false := by
  obtain ⟨-, htag, -⟩ := h
  cases t <;> first | rfl | exact htag

theorem Untagged.isNull {t : Ty} (h : t.Untagged) : Opcode.isNull t = false := by
  obtain ⟨hnull, -, -⟩ := h
  cases t <;> first | rfl | exact hnull

theorem Untagged.declaredTag?_unwrapAlias {t : Ty} (h : t.Untagged) :
    t.unwrapAlias.declaredTag? = none :=
  Option.isNone_iff_eq_none.mp (Option.isSome_eq_false_iff.mp h.2.1)

theorem Untagged.sameTags {t t' : Ty} (h : t.Untagged) (h' : t'.Untagged) : SameTags t t' where
  null := h.isNull.trans h'.isNull.symm
  declared := h.hasDeclaredTag.trans h'.hasDeclaredTag.symm
  unwrapped := h.1.trans h'.1.symm
  tag := h.declaredTag?_unwrapAlias.trans h'.declaredTag?_unwrapAlias.symm

theorem nullableInner?_of_length_ne {ts : List Ty} (h : ts.length ≠ 2) : nullableInner? ts = none := by
  unfold nullableInner?
  split
  · exact absurd rfl h
  · exact absurd rfl h
  · rfl

theorem nullableInner?_pair (t u : Ty) : nullableInner? [t, u] =
    if Opcode.isNull t then some u else if Opcode.isNull u then some t else none := by
  cases t <;> cases u <;> rfl

section

variable {ts ts' : List Ty} (h : List.Forall₂ SameTags ts ts')
include h

theorem map_unwrapAlias_eq {β : Type} (f : Ty → β)
    (hf : ∀ {t t' : Ty}, SameTags t t' → f t.unwrapAlias = f t'.unwrapAlias) :
    (ts.map unwrapAlias).map f = (ts'.map unwrapAlias).map f := by
  induction h with
  | nil => rfl
  | cons ht _ ih => simp only [List.map_cons, hf ht, ih]

theorem number_eq (withNull : Bool) (length index : Nat) :
    Opcode.number withNull length index (ts.map unwrapAlias) =
      Opcode.number withNull length index (ts'.map unwrapAlias) := by
  induction h generalizing index with
  | nil => rfl
  | cons ht _ ih =>
      rw [List.map_cons, List.map_cons, Opcode.number, Opcode.number, ht.unwrapped, ih, ih]

/-- Unions whose variants are treated in the same way have the same tags. -/
theorem ofVariants?_eq : Opcode.ofVariants? ts = Opcode.ofVariants? ts' := by
  have hnull := congrArg (List.any · id) (map_unwrapAlias_eq h Opcode.isNull (·.unwrapped))
  have hdeclared := map_unwrapAlias_eq h hasDeclaredTag fun ht => congrArg Option.isSome ht.tag
  have hall := congrArg (List.all · id) hdeclared
  have hany := congrArg (List.any · id) hdeclared
  have hopcodes := map_unwrapAlias_eq h (fun t => t.structOpcode?.getD ⟨0, 1⟩)
    fun ht => congrArg (fun tag => (tag.bind Opcode.ofLiteral?).getD ⟨0, 1⟩) ht.tag
  simp only [List.any_map, List.all_map, Function.id_comp] at hnull hall hany
  unfold Opcode.ofVariants?
  dsimp only
  simp only [List.any_map, List.all_map]
  rw [hall, hany, hnull, hopcodes, number_eq h, List.length_map, List.length_map, h.length_eq]

end

end Ty

namespace Sizing

variable {R : {α : Type} → Sizing α → Sizing α → Prop} (h : Sequential R)
  {estimate estimate' : Ty → TagMode → Sizing CellSize}
include h

theorem sizes_rel₂ {mode : TagMode} {ts ts' : List Ty}
    (hts : List.Forall₂ (fun t t' => R (estimate t mode) (estimate' t' mode)) ts ts') :
    R (sizes estimate mode ts) (sizes estimate' mode ts') := by
  induction hts with
  | nil => exact h.pure []
  | cons ht _ ih => exact h.bind ht fun s => h.bind ih fun ss => h.pure (s :: ss)

theorem sumAll_rel₂ {ts ts' : List Ty}
    (hts : List.Forall₂ (fun t t' => R (estimate t .counted) (estimate' t' .counted)) ts ts') :
    R (sumAll estimate ts) (sumAll estimate' ts') :=
  h.bind (sizes_rel₂ h hts) fun _ => h.pure _

omit h in
theorem unionSize_of_length_ne {ts : List Ty} (hlength : ts.length ≠ 2) :
    unionSize estimate ts = taggedSize estimate ts := by
  unfold unionSize
  rw [Ty.nullableInner?_of_length_ne hlength]
  dsimp only
  split
  · exact absurd rfl hlength
  · rfl

/-- Unions whose variants are treated in the same way and have related sizes have related
sizes. -/
theorem unionSize_rel₂ {ts ts' : List Ty}
    (hts : List.Forall₂ (fun t t' => Ty.SameTags t t' ∧
      ∀ mode, R (estimate t mode) (estimate' t' mode)) ts ts') :
    R (unionSize estimate ts) (unionSize estimate' ts') := by
  have htagged : R (taggedSize estimate ts) (taggedSize estimate' ts') := by
    unfold taggedSize
    rw [Ty.ofVariants?_eq (hts.imp fun _ _ h => h.1)]
    split
    · exact h.pure _
    · refine h.bind (sizes_rel₂ h (hts.imp fun _ _ h => h.2 .alreadyCounted)) fun found => ?_
      split <;> exact h.pure _
  by_cases hlength : ts.length = 2
  · obtain ⟨t, u, rfl⟩ := List.length_eq_two.mp hlength
    obtain ⟨t', u', rfl⟩ := List.length_eq_two.mp (hts.length_eq ▸ hlength)
    obtain - | ⟨⟨ht, htsize⟩, - | ⟨⟨hu, husize⟩, -⟩⟩ := hts
    unfold unionSize
    rw [Ty.nullableInner?_pair, Ty.nullableInner?_pair, ht.null, hu.null]
    cases Opcode.isNull t' with
    | true => exact h.bind (husize .counted) fun _ => h.pure _
    | false =>
        cases Opcode.isNull u' with
        | true => exact h.bind (htsize .counted) fun _ => h.pure _
        | false =>
            simp only [Bool.false_eq_true, if_false]
            rw [ht.declared, hu.declared]
            split
            · exact h.bind (htsize .counted) fun _ => h.bind (husize .counted) fun _ => h.pure _
            · exact htagged
  · rw [unionSize_of_length_ne hlength, unionSize_of_length_ne (hts.length_eq ▸ hlength)]
    exact htagged

end Sizing

/-! ### Steps down -/

namespace Sizing

theorem afresh_of_appliedBody? {t body : Ty} (h : t.appliedBody? = some body) (depth : Nat)
    (mode : TagMode) : afresh (depth + 1) t mode = afresh depth body mode :=
  calculate_of_appliedBody? h mode

/-- Without a declared tag it does not matter whether tags count. -/
theorem afresh_of_not_hasDeclaredTag {t : Ty} (htag : t.hasDeclaredTag = false)
    (hbody : t.appliedBody? = none) (depth : Nat) (mode : TagMode) :
    afresh depth t mode = afresh depth t .counted := by
  cases depth with
  | zero => rfl
  | succ depth =>
      rw [afresh, afresh]
      cases t using Ty.inductionOnParts with
      | primitive t ht => cases t <;> cases ht <;> rfl
      | struct n fields =>
          have hopcode : (Ty.struct n fields).structOpcode? = none := by
            rw [Ty.structOpcode?, Option.isNone_iff_eq_none.mp (Option.isSome_eq_false_iff.mp htag)]
            rfl
          have hsize : tagSize (.struct n fields) mode = tagSize (.struct n fields) .counted := by
            cases mode with
            | counted => rfl
            | alreadyCounted => rw [tagSize, tagSize, hopcode]; rfl
          rw [calculate, calculate, hsize]
      | instantiation inner args =>
          rw [calculate, calculate]
          split
          · rfl
          · rename_i n hn
            split
            · rfl
            · rename_i hcell
              split
              · rfl
              · rename_i hmap
                simp only [Ty.appliedBody?, hn, hcell, hmap, or_self, if_false] at hbody
                cases inner <;> first | rfl | cases hbody
      | _ => rfl

theorem afresh_of_untagged {t : Ty} (h : t.Untagged) (depth : Nat) (mode : TagMode) :
    afresh depth t mode = afresh depth t .counted := by
  cases hbody : t.appliedBody? with
  | none => exact afresh_of_not_hasDeclaredTag h.hasDeclaredTag hbody depth mode
  | some body =>
      cases depth with
      | zero => rfl
      | succ depth =>
          rw [afresh_of_appliedBody? hbody, afresh_of_appliedBody? hbody]
          exact afresh_of_not_hasDeclaredTag (h.2.2 body hbody)
            (Ty.appliedBody?_of_appliedBody? hbody) depth mode

theorem Refines.mono {c : Sizing CellSize} {depth depth' : Nat} {t : Ty} {mode : TagMode}
    (h : Refines c (afresh depth t mode)) (hle : depth ≤ depth') :
    Refines c (afresh depth' t mode) :=
  fun memo r hr => refines_afresh hle t mode memo r (h memo r hr)

/-- Structs with one tag and members of one size have one size. -/
theorem refines_struct {n n' : Nominal} {fields fields' : List Ty} {depth depth' : Nat}
    (htag : (Ty.struct n fields).declaredTag? = (Ty.struct n' fields').declaredTag?)
    (h : List.Forall₂ (fun t t' => Refines (afresh depth t .counted) (afresh depth' t' .counted))
      fields fields') (mode : TagMode) :
    Refines (afresh (depth + 1) (.struct n fields) mode)
      (afresh (depth' + 1) (.struct n' fields') mode) := by
  have hsize : tagSize (.struct n fields) mode = tagSize (.struct n' fields') mode := by
    cases mode with
    | counted => rw [tagSize, tagSize, Ty.structOpcode?, Ty.structOpcode?, htag]
    | alreadyCounted => rfl
  rw [afresh, afresh, calculate, calculate, hsize]
  exact sequential_refines.bind (sumAll_rel₂ sequential_refines h) fun _ => sequential_refines.pure _

end Sizing

namespace Ty

open Sizing (Refines afresh)

mutual

/-- Whatever is found for a type is found for each of its spellings, with steps enough. -/
theorem Respells.exists_refines : ∀ {t t' : Ty}, Respells t t' → ∀ depth,
    ∃ depth', Refines (afresh depth t .counted) (afresh depth' t' .counted)
  | _, _, .same t, depth => ⟨depth, fun _ _ h => h⟩
  | _, _, .aliased n h, depth => by
      obtain ⟨depth', h⟩ := h.exists_refines depth
      exact ⟨depth' + 1, h⟩
  | _, _, .unaliased n h, 0 => ⟨0, fun _ _ h => nomatch h⟩
  | _, _, .unaliased n h, depth + 1 => h.exists_refines depth
  | _, _, .applied hbody h, depth => by
      obtain ⟨depth', h⟩ := h.exists_refines depth
      exact ⟨depth' + 1, by rwa [Sizing.afresh_of_appliedBody? hbody]⟩
  | _, _, .unapplied hbody h, 0 => ⟨0, fun _ _ h => nomatch h⟩
  | _, _, .unapplied hbody h, depth + 1 => by
      rw [Sizing.afresh_of_appliedBody? hbody]
      exact h.exists_refines depth
  | _, _, .struct htag h, 0 => ⟨0, fun _ _ h => nomatch h⟩
  | _, _, .struct htag h, depth + 1 => by
      obtain ⟨depth', h⟩ := h.exists_refines depth
      exact ⟨depth' + 1, Sizing.refines_struct htag h .counted⟩
  | _, _, .tensor h, 0 => ⟨0, fun _ _ h => nomatch h⟩
  | _, _, .tensor h, depth + 1 => by
      obtain ⟨depth', h⟩ := h.exists_refines depth
      exact ⟨depth' + 1, Sizing.sumAll_rel₂ Sizing.sequential_refines h⟩
  | _, _, .tuple h, 0 => ⟨0, fun _ _ h => nomatch h⟩
  | _, _, .tuple h, depth + 1 => by
      obtain ⟨depth', h⟩ := h.exists_refines depth
      exact ⟨depth' + 1, Sizing.sumAll_rel₂ Sizing.sequential_refines h⟩
  | _, _, .union h, 0 => ⟨0, fun _ _ h => nomatch h⟩
  | _, _, .union h, depth + 1 => by
      obtain ⟨depth', h⟩ := h.exists_refines depth
      exact ⟨depth' + 1, Sizing.unionSize_rel₂ Sizing.sequential_refines h⟩

theorem RespellsAll.exists_refines : ∀ {ts ts' : List Ty}, RespellsAll ts ts' → ∀ depth,
    ∃ depth', List.Forall₂ (fun t t' => Refines (afresh depth t .counted) (afresh depth' t' .counted))
      ts ts'
  | _, _, .nil, depth => ⟨depth, .nil⟩
  | _, _, .cons h hs, depth => by
      obtain ⟨d, h⟩ := h.exists_refines depth
      obtain ⟨d', hs⟩ := hs.exists_refines depth
      exact ⟨max d d', .cons (h.mono (Nat.le_max_left d d'))
        (hs.imp fun _ _ h => h.mono (Nat.le_max_right d d'))⟩

theorem RespellsVariants.exists_refines : ∀ {ts ts' : List Ty}, RespellsVariants ts ts' → ∀ depth,
    ∃ depth', List.Forall₂ (fun t t' => SameTags t t' ∧
      ∀ mode, Refines (afresh depth t mode) (afresh depth' t' mode)) ts ts'
  | _, _, .nil, depth => ⟨depth, .nil⟩
  | _, _, .same t hs, depth => by
      obtain ⟨d, hs⟩ := hs.exists_refines depth
      exact ⟨max depth d,
        .cons ⟨.refl t, fun mode => Sizing.refines_afresh (Nat.le_max_left depth d) t mode⟩
          (hs.imp fun _ _ h => ⟨h.1, fun mode => (h.2 mode).mono (Nat.le_max_right depth d)⟩)⟩
  | _, _, .untagged ht ht' h hs, depth => by
      obtain ⟨d, h⟩ := h.exists_refines depth
      obtain ⟨d', hs⟩ := hs.exists_refines depth
      refine ⟨max d d', .cons ⟨ht.sameTags ht', fun mode => ?_⟩
        (hs.imp fun _ _ h => ⟨h.1, fun mode => (h.2 mode).mono (Nat.le_max_right d d')⟩)⟩
      rw [Sizing.afresh_of_untagged ht, Sizing.afresh_of_untagged ht']
      exact h.mono (Nat.le_max_left d d')
  | _, _, .struct htag h hs, 0 => by
      obtain ⟨d, hs⟩ := hs.exists_refines 0
      exact ⟨d, .cons ⟨⟨rfl, congrArg Option.isSome htag, rfl, htag⟩, fun _ _ _ h => nomatch h⟩ hs⟩
  | _, _, .struct htag h hs, depth + 1 => by
      obtain ⟨d, h⟩ := h.exists_refines depth
      obtain ⟨d', hs⟩ := hs.exists_refines (depth + 1)
      exact ⟨max (d + 1) d', .cons ⟨⟨rfl, congrArg Option.isSome htag, rfl, htag⟩,
        fun mode => (Sizing.refines_struct htag h mode).mono (Nat.le_max_left (d + 1) d')⟩
          (hs.imp fun _ _ h => ⟨h.1, fun mode => (h.2 mode).mono (Nat.le_max_right (d + 1) d')⟩)⟩

end

theorem Respells.hasSize {t t' : Ty} (h : Respells t t') {size : CellSize}
    (hsize : t.HasSize .counted size) : t'.HasSize .counted size := by
  obtain ⟨depth, hsize⟩ := hsize
  obtain ⟨r, hr, rfl⟩ := Option.map_eq_some_iff.mp hsize
  obtain ⟨depth', hrefines⟩ := h.exists_refines depth
  exact ⟨depth', Option.map_eq_some_iff.mpr ⟨r, hrefines ∅ r hr, rfl⟩⟩

theorem RespellsVariants.sameTags : ∀ {ts ts' : List Ty}, RespellsVariants ts ts' →
    List.Forall₂ SameTags ts ts'
  | _, _, .nil => .nil
  | _, _, .same t hs => .cons (.refl t) hs.sameTags
  | _, _, .untagged ht ht' _ hs => .cons (ht.sameTags ht') hs.sameTags
  | _, _, .struct htag _ hs => .cons ⟨rfl, congrArg Option.isSome htag, rfl, htag⟩ hs.sameTags

/-- Two spellings of a type have one size, and two spellings of a union the same tags. -/
theorem Respells.hasSize_iff {t t' : Ty} (h : Respells t t') :
    (∀ size, t.HasSize .counted size ↔ t'.HasSize .counted size) ∧
      ∀ variants variants', t = .union variants → t' = .union variants' →
        Opcode.ofVariants? variants = Opcode.ofVariants? variants' := by
  refine ⟨fun size => ⟨h.hasSize, h.symm.hasSize⟩, ?_⟩
  rintro variants variants' rfl rfl
  cases h with
  | same => rfl
  | applied hbody => cases hbody
  | unapplied hbody => cases hbody
  | union h => exact ofVariants?_eq h.sameTags

/-- A variant of eight bits behind the name of an alias. -/
theorem hasSize_iff_aliasedByte :
    (∀ size, (Ty.union [.intN 8 false, .bool, .coins]).HasSize .counted size ↔
      (Ty.union [.alias ⟨"Byte", none⟩ (.intN 8 false), .bool, .coins]).HasSize .counted size) ∧
    Opcode.ofVariants? [.intN 8 false, .bool, .coins] =
      Opcode.ofVariants? [.alias ⟨"Byte", none⟩ (.intN 8 false), .bool, .coins] := by
  have hbyte : Untagged (.intN 8 false) := ⟨rfl, rfl, by simp [appliedBody?]⟩
  have halias : Untagged (.alias ⟨"Byte", none⟩ (.intN 8 false)) :=
    ⟨rfl, rfl, by simp [appliedBody?]⟩
  have h := Respells.hasSize_iff
    (.union (.untagged hbyte halias (.aliased _ (.same _)) (.same .bool (.same .coins .nil))))
  exact ⟨h.1, h.2 _ _ rfl rfl⟩

/-- An alias of null is not taken for null, so a union with it counts both variants. -/
theorem not_hasSize_iff_aliasedNull :
    ¬ ∀ (n : Nominal) (t u : Ty) (size : CellSize), (Ty.union [t, u]).HasSize .counted size ↔
      (Ty.union [t, .alias n u]).HasSize .counted size := by
  intro h
  have hoption : (Ty.union [.int, .null]).HasSize .counted (.between 258 258 0 0) := ⟨2, rfl⟩
  have hchoice : (Ty.union [.int, .alias ⟨"Nothing", none⟩ .null]).HasSize .counted
      (.between 1 258 0 0) := ⟨3, rfl⟩
  exact absurd (((h ⟨"Nothing", none⟩ .int .null _).mp hoption).unique hchoice) (by decide)

end Ty

end TolkAnalysis
