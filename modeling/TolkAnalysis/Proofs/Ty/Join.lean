import TolkAnalysis.Proofs.Ty.Fit
import TolkAnalysis.Proofs.Ty.Grouping

/-!
# Joins accept what is joined

A plain type has its unions in normal form, mentions no alias and applies only structs and
builtin types to arguments. A union of plain types accepts the values of each of them
(`unionOf_accepts`), and so does their join, which goes into tensors and tuples and makes a
union of anything else: `join_accepts`.
-/

namespace TolkAnalysis

namespace Ty

/-- If the type is applied to arguments, then what is applied is a struct or a builtin type. -/
def appliesNominal : Ty → Bool
  | .instantiation (.struct ..) _ => true
  | .instantiation (.builtin _) _ => true
  | .instantiation .. => false
  | _ => true

/-- In normal form, without aliases, and with arguments given to structs and builtins only. -/
structure Plain (t : Ty) : Prop where
  wellFormed : t.WellFormed
  aliasFree : t.AliasFree
  nominal : t.Everywhere fun s => s.appliesNominal = true

namespace Plain

variable {s t : Ty}

theorem of_isPrimitive (h : t.isPrimitive = true) : t.Plain where
  wellFormed := hereditary_wellFormed.primitive h
  aliasFree := .of_isPrimitive h
  nominal := everywhere_of_isPrimitive h (by cases t <;> first | rfl | cases h)

theorem of_mem (h : t.Plain) (hs : s ∈ t.parts) : s.Plain where
  wellFormed := hereditary_wellFormed.of_mem_parts h.wellFormed hs
  aliasFree := h.aliasFree.of_mem hs
  nominal := h.nominal.of_mem hs

/-- A plain type is a union only if it is one as it stands. -/
theorem baseType_eq_union (h : t.Plain) {variants : List Ty} (ht : t.baseType = .union variants) :
    t = .union variants := by
  have hnominal := h.nominal.here
  cases t with
  | «alias» n inner => cases h.aliasFree.isAlias
  | instantiation inner args =>
      unfold appliesNominal at hnominal
      split at hnominal <;> grind [baseType]
  | _ => exact ht

theorem unionParts_eq (h : t.Plain) (ht : ∀ variants, t ≠ .union variants) :
    t.unionParts = [t] :=
  unionParts_eq_self fun variants heq => ht variants (h.baseType_eq_union heq)

theorem of_mem_unionParts (h : t.Plain) (hs : s ∈ t.unionParts) : s.Plain := by
  by_cases ht : ∃ variants, t = .union variants
  · obtain ⟨variants, rfl⟩ := ht
    exact h.of_mem hs
  · rw [h.unionParts_eq fun variants heq => ht ⟨variants, heq⟩, List.mem_singleton] at hs
    exact hs ▸ h

theorem appliesNoUnion (h : t.Plain) : t.AppliesNoUnion := by
  induction t using inductionOnParts with
  | aliasOf n inner ih => cases h.aliasFree.isAlias
  | tensor ts ih => exact allApplyNoUnion_iff.mpr fun s hs => ih s hs (h.of_mem hs)
  | tuple ts ih => exact allApplyNoUnion_iff.mpr fun s hs => ih s hs (h.of_mem hs)
  | function params result ihparams ihresult =>
      exact ⟨allApplyNoUnion_iff.mpr fun s hs =>
          ihparams s hs (h.of_mem (List.mem_cons_of_mem _ hs)),
        ihresult (h.of_mem List.mem_cons_self)⟩
  | instantiation inner args ihinner ihargs =>
      refine ⟨fun variants hbase => ?_, ihinner (h.of_mem List.mem_cons_self),
        allApplyNoUnion_iff.mpr fun s hs => ihargs s hs (h.of_mem (List.mem_cons_of_mem _ hs))⟩
      cases h.baseType_eq_union hbase
  | primitive t hprimitive => cases t <;> trivial
  | builtin | struct | enum | typeParam | union => trivial

/-- A plain type accepts what equals it. -/
theorem accepts (hs : s.Plain) (h : s.equals t = true) : s.accepts t = true :=
  (accepts_of_equals_of_appliesNoUnion hs.appliesNoUnion h).1

/-- A type is plain if its parts are and nothing speaks against it at the top. -/
theorem of_parts (hwf : t.WellFormed) (halias : t.isAlias = false)
    (hnominal : t.appliesNominal = true) (h : ∀ s ∈ t.parts, s.Plain) : t.Plain where
  wellFormed := hwf
  aliasFree := .intro halias fun s hs => (h s hs).aliasFree
  nominal := .intro hnominal fun s hs => (h s hs).nominal

end Plain

/-! ### Unions of plain types -/

/-- A union accepts a plain type if it has all that the type would add to a union. -/
theorem union_accepts {variants : List Ty} {r : Ty} (hr : r.Plain)
    (hparts : ∀ p ∈ r.unionParts, ∃ v ∈ variants, v.equals p = true) :
    (union variants).accepts r = true := by
  by_cases hunion : ∃ others, r = .union others
  · obtain ⟨others, rfl⟩ := hunion
    rw [accepts_union_union, unionContainsAll, Bool.or_eq_true, List.all_eq_true]
    exact .inr fun p hp => anyEqual_iff.mpr (hparts p hp)
  by_cases hnever : r = .never
  · simp [hnever, accepts]
  by_cases hunknown : r = .unknown
  · exact hunknown ▸ accepts_unknown _
  have hbase : ∀ others, r.baseType ≠ .union others :=
    fun others heq => hunion ⟨others, hr.baseType_eq_union heq⟩
  obtain ⟨v, hv, hvr⟩ : ∃ v ∈ variants, v.equals r = true :=
    hparts r (by simp [hr.unionParts_eq fun others heq => hunion ⟨others, heq⟩])
  rw [accepts_union_eq hr.aliasFree.isAlias hnever hunknown hbase, Bool.or_eq_true,
    List.any_eq_true]
  exact .inl ⟨v, hv, equals_baseType hvr⟩

/-- A union of plain types accepts each of them. -/
theorem unionOf_accepts {ts : List Ty} (hts : ∀ t ∈ ts, t.Plain) {r : Ty} (hr : r ∈ ts) :
    (unionOf ts).accepts r = true := by
  have hplain : ∀ v ∈ distinctVariants ts, v.Plain := by
    intro v hv
    obtain ⟨t, ht, hvt⟩ := exists_of_mem_distinctVariants hv
    exact (hts t ht).of_mem_unionParts hvt
  have hparts : ∀ p ∈ r.unionParts, ∃ v ∈ distinctVariants ts, v.equals p = true := by
    intro p hp
    obtain ⟨v, hv, hvp⟩ : ∃ v ∈ distinctVariants ts, v.Duplicates p :=
      exists_duplicates_of_mem (List.mem_flatMap.mpr ⟨r, hr, hp⟩)
    exact ⟨v, hv, ((hplain v hv).aliasFree.duplicates_iff
      ((hts r hr).of_mem_unionParts hp).aliasFree).mp hvp⟩
  unfold unionOf
  split
  · rename_i hnil
    obtain ⟨p, hp⟩ := List.exists_mem_of_ne_nil _ (hts r hr).wellFormed.unionParts_ne_nil
    obtain ⟨v, hv, -⟩ := hparts p hp
    rw [hnil] at hv
    cases hv
  · rename_i v hone
    simp only [hone, List.mem_singleton, exists_eq_left] at hparts
    exact (hplain v (by simp [hone])).accepts
      (equals_of_unionParts (hts r hr).aliasFree (hts r hr).wellFormed hparts)
  · exact union_accepts (hts r hr) hparts

/-! ### Joins of plain types -/

/-- Joined position by position, types are accepted at their positions. -/
theorem joinAll_accepts {ss ts : List Ty} (hlength : ss.length = ts.length)
    (h : ∀ s ∈ ss, ∀ t ∈ ts, (join s t).accepts s = true ∧ (join s t).accepts t = true) :
    acceptAll (joinAll ss ts) ss = true ∧ acceptAll (joinAll ss ts) ts = true := by
  induction ss generalizing ts with
  | nil => cases ts <;> simp_all [joinAll, acceptAll]
  | cons s ss ih =>
      cases ts with
      | nil => cases hlength
      | cons t ts =>
          obtain ⟨hleft, hright⟩ := h s List.mem_cons_self t List.mem_cons_self
          obtain ⟨hlefts, hrights⟩ := ih (Nat.succ.inj hlength) fun s hs t ht =>
            h s (List.mem_cons_of_mem _ hs) t (List.mem_cons_of_mem _ ht)
          simp [joinAll, acceptAll, hleft, hright, hlefts, hrights]

/-- The join of two plain types accepts both. -/
theorem join_accepts {s t : Ty} (hs : s.Plain) (ht : t.Plain) :
    (join s t).accepts s = true ∧ (join s t).accepts t = true := by
  have self {u : Ty} (hu : u.Plain) : u.accepts u = true := hu.accepts (equals_refl u)
  have pair {u : Ty} (hu : u.Plain) :
      (unionOf [s, u]).accepts s = true ∧ (unionOf [s, u]).accepts u = true := by
    have hplain : ∀ v ∈ [s, u], v.Plain := by simpa using ⟨hs, hu⟩
    exact ⟨unionOf_accepts hplain (by simp), unionOf_accepts hplain (by simp)⟩
  rw [join.eq_def]
  split
  · rename_i heq
    exact ⟨self hs, hs.accepts heq⟩
  · split
    · exact ⟨unknown_accepts _, unknown_accepts _⟩
    · exact ⟨self hs, by simp [accepts]⟩
    · exact ⟨by simp [accepts], self ht⟩
    · exact pair ht
    · split
      · rename_i hlength
        rw [accepts, accepts]
        exact joinAll_accepts hlength fun s hmem t hmem' =>
          join_accepts (hs.of_mem hmem) (ht.of_mem hmem')
      · exact pair ht
    · split
      · rename_i hlength
        rw [accepts, accepts]
        exact joinAll_accepts hlength fun s hmem t hmem' =>
          join_accepts (hs.of_mem hmem) (ht.of_mem hmem')
      · exact pair ht
    · cases hs.aliasFree.isAlias
    · cases ht.aliasFree.isAlias
    · exact pair ht
termination_by sizeOf s
decreasing_by
  all_goals
    subst_vars
    have := List.sizeOf_lt_of_mem hmem
    simp only [tensor.sizeOf_spec, tuple.sizeOf_spec]
    omega

/-- A pair of a type and null, joined with a pair of an option and an applied struct. -/
theorem join_accepts_pair :
    (tensor [.int, .null]).Plain ∧
      (tensor [.union [.bool, .null], .instantiation (.struct ⟨"Box", none⟩ [.int]) [.int]]).Plain ∧
      (join (tensor [.int, .null])
        (.tensor [.union [.bool, .null], .instantiation (.struct ⟨"Box", none⟩ [.int]) [.int]])).accepts
          (.tensor [.int, .null]) = true ∧
      (join (tensor [.int, .null])
        (.tensor [.union [.bool, .null], .instantiation (.struct ⟨"Box", none⟩ [.int]) [.int]])).accepts
          (.tensor [.union [.bool, .null],
            .instantiation (.struct ⟨"Box", none⟩ [.int]) [.int]]) = true := by
  have hint : int.Plain := .of_isPrimitive rfl
  have hbool : bool.Plain := .of_isPrimitive rfl
  have hnull : null.Plain := .of_isPrimitive rfl
  have hleft : (tensor [.int, .null]).Plain :=
    .of_parts (by simp [WellFormed, AllWellFormed]) rfl rfl (by simpa [parts] using ⟨hint, hnull⟩)
  have hoption : (union [.bool, .null]).Plain :=
    .of_parts (wellFormed_union.mpr ⟨⟨by simp, by simp [baseType],
      by simp [unwrapAlias, equals, stripAliases]⟩, by simp [WellFormed]⟩) rfl rfl
      (by simpa [parts] using ⟨hbool, hnull⟩)
  have hbox : (instantiation (.struct ⟨"Box", none⟩ [.int]) [.int]).Plain :=
    .of_parts (by simp [WellFormed, AllWellFormed]) rfl rfl
      (by simpa [parts] using ⟨.of_parts (by simp [WellFormed, AllWellFormed]) rfl rfl
        (by simpa [parts] using hint), hint⟩)
  have hright : (tensor [.union [.bool, .null],
      .instantiation (.struct ⟨"Box", none⟩ [.int]) [.int]]).Plain :=
    .of_parts ⟨hoption.wellFormed, hbox.wellFormed, trivial⟩ rfl rfl
      (by simpa [parts] using ⟨hoption, hbox⟩)
  exact ⟨hleft, hright, join_accepts hleft hright⟩

end Ty

end TolkAnalysis
