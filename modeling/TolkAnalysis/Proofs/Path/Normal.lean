import TolkAnalysis.Path.Normal
import TolkAnalysis.Session.Stubs

/-!
# Normal paths are normal

The parts kept of a path are, from the root down, steps up and then parts that are not empty and
go nowhere but down; in an absolute path there are no steps up. `Path.Kept` says so of the list
that `Path.keep` builds, which runs from the last part to the first. Such parts are kept as they
are when they are read again, so a normal path is its own normal form:
`Path.normalize_normalize`.
-/

namespace TolkAnalysis

namespace Path

theorem parts_ne_nil (path : List Char) : parts path ≠ [] := by
  cases path with
  | nil => exact List.cons_ne_nil _ _
  | cons c cs =>
      rw [parts]
      split
      · exact List.cons_ne_nil _ _
      · split <;> exact List.cons_ne_nil _ _

/-- The parts of a path are what its slashes separate. -/
theorem parts_eq_splitOn (path : List Char) : parts path = path.splitOn '/' := by
  induction path with
  | nil => rfl
  | cons c cs ih =>
      rw [List.splitOn, List.splitOnP_cons_eq_if_modifyHead, ← List.splitOn, ← ih, parts]
      by_cases hc : c = '/'
      · rw [if_pos hc, if_pos (beq_iff_eq.mpr hc)]
      · rw [if_neg hc, if_neg (mt beq_iff_eq.mp hc)]
        cases hparts : parts cs with
        | nil => exact absurd hparts (parts_ne_nil cs)
        | cons p ps => rfl

theorem not_slash_mem_parts {path part : List Char} (h : part ∈ parts path) : '/' ∉ part := by
  induction path generalizing part with
  | nil =>
      rw [List.mem_singleton.mp h]
      exact List.not_mem_nil
  | cons c cs ih =>
      rw [parts] at h
      by_cases hc : c = '/'
      · rw [if_pos hc] at h
        rcases List.mem_cons.mp h with rfl | h
        · exact List.not_mem_nil
        · exact ih h
      · rw [if_neg hc] at h
        have hslash : '/' ≠ c := fun h => hc h.symm
        cases hparts : parts cs with
        | nil => exact absurd hparts (parts_ne_nil cs)
        | cons p ps =>
            rw [hparts] at h ih
            rcases List.mem_cons.mp h with rfl | h
            · intro hmem
              rcases List.mem_cons.mp hmem with heq | hmem
              · exact hslash heq
              · exact ih List.mem_cons_self hmem
            · exact ih (List.mem_cons_of_mem _ h)

/-- Parts without slashes are read back from what they make when joined. -/
theorem parts_intercalate {ps : List (List Char)} (hslash : ∀ p ∈ ps, '/' ∉ p) (hps : ps ≠ []) :
    parts (['/'].intercalate ps) = ps := by
  rw [parts_eq_splitOn]
  exact List.splitOn_intercalate '/' hslash hps

/-! ### Kept parts -/

section

variable {absolute : Bool} {kept : List (List Char)} {part : List Char}

/-- A part that goes nowhere is left out. -/
theorem keep_here (h : part = [] ∨ part = ['.']) : keep absolute kept part = kept := if_pos h

theorem keep_below (h : part ≠ [] ∧ part ≠ ['.'] ∧ part ≠ parent) :
    keep absolute kept part = part :: kept := by
  unfold keep
  rw [if_neg (not_or.mpr ⟨h.1, h.2.1⟩), if_neg h.2.2]

/-- A step up from the beginning is kept in a relative path. -/
theorem keep_parent_nil : keep absolute [] parent = if absolute then [] else [parent] := rfl

/-- A step up takes away a part that went down. -/
theorem keep_parent_of_ne (h : part ≠ parent) : keep absolute (part :: kept) parent = kept := by
  unfold keep
  rw [if_neg (by decide), if_pos rfl]
  exact if_pos h

/-- A step up is kept beside other steps up. -/
theorem keep_parent_parent : keep false (parent :: kept) parent = parent :: parent :: kept := rfl

end

/-- The parts of a normal path, from the last to the first: parts that go down, and below these
steps up, which only a relative path has. -/
inductive Kept (absolute : Bool) : List (List Char) → Prop
  | root : Kept absolute []
  | up {kept : List (List Char)} (h : Kept absolute kept) (hrelative : absolute = false)
      (hparents : ∀ part ∈ kept, part = parent) : Kept absolute (parent :: kept)
  | down {part : List Char} {kept : List (List Char)} (h : Kept absolute kept)
      (hpart : part ≠ [] ∧ part ≠ ['.'] ∧ part ≠ parent) (hslash : '/' ∉ part) :
      Kept absolute (part :: kept)

namespace Kept

variable {absolute : Bool} {kept : List (List Char)} {part : List Char}

theorem not_slash_mem (h : Kept absolute kept) : ∀ part ∈ kept, '/' ∉ part := by
  induction h with
  | root => exact fun _ hmem => absurd hmem List.not_mem_nil
  | up _ _ _ ih => exact List.forall_mem_cons.mpr ⟨by decide, ih⟩
  | down _ _ hslash ih => exact List.forall_mem_cons.mpr ⟨hslash, ih⟩

theorem ne_nil (h : Kept absolute kept) : ∀ part ∈ kept, part ≠ [] := by
  induction h with
  | root => exact fun _ hmem => absurd hmem List.not_mem_nil
  | up _ _ _ ih => exact List.forall_mem_cons.mpr ⟨by decide, ih⟩
  | down _ hpart _ ih => exact List.forall_mem_cons.mpr ⟨hpart.1, ih⟩

/-- A step up takes away the last part, or stands beside the steps up that there are. -/
theorem keep_parent (h : Kept absolute kept) : Kept absolute (keep absolute kept parent) := by
  cases h with
  | root =>
      rw [keep_parent_nil]
      cases absolute with
      | true => exact root
      | false => exact up root rfl fun _ hmem => absurd hmem List.not_mem_nil
  | @up rest hrest hrelative hparents =>
      subst hrelative
      rw [keep_parent_parent]
      exact up (up hrest rfl hparents) rfl (List.forall_mem_cons.mpr ⟨rfl, hparents⟩)
  | @down last rest hrest hlast hslash =>
      rw [keep_parent_of_ne hlast.2.2]
      exact hrest

theorem keep (h : Kept absolute kept) (hslash : '/' ∉ part) :
    Kept absolute (keep absolute kept part) := by
  by_cases hempty : part = [] ∨ part = ['.']
  · rw [keep_here hempty]
    exact h
  · by_cases hparent : part = parent
    · rw [hparent]
      exact h.keep_parent
    · have hpart : part ≠ [] ∧ part ≠ ['.'] ∧ part ≠ parent :=
        ⟨fun h => hempty (.inl h), fun h => hempty (.inr h), hparent⟩
      rw [keep_below hpart]
      exact down h hpart hslash

theorem foldl (h : Kept absolute kept) {ps : List (List Char)} (hslash : ∀ p ∈ ps, '/' ∉ p) :
    Kept absolute (ps.foldl (Path.keep absolute) kept) := by
  induction ps generalizing kept with
  | nil => exact h
  | cons p ps ih =>
      rw [List.forall_mem_cons] at hslash
      exact ih (h.keep hslash.1) hslash.2

/-- Kept parts are kept when they are read again. -/
theorem foldl_reverse (h : Kept absolute kept) :
    kept.reverse.foldl (Path.keep absolute) [] = kept := by
  induction h with
  | root => rfl
  | @up kept h hrelative hparents ih =>
      rw [List.reverse_cons, List.foldl_append, ih, List.foldl_cons, List.foldl_nil, hrelative]
      cases kept with
      | nil => rfl
      | cons last rest =>
          rw [hparents last List.mem_cons_self]
          exact keep_parent_parent
  | down h hpart hslash ih =>
      rw [List.reverse_cons, List.foldl_append, ih, List.foldl_cons, List.foldl_nil,
        keep_below hpart]

/-- Kept parts, joined and read again, are these parts. -/
theorem foldl_parts_intercalate (h : Kept absolute kept) :
    (parts (['/'].intercalate kept.reverse)).foldl (Path.keep absolute) [] = kept := by
  by_cases hkept : kept = []
  · have hkeep : Path.keep absolute [] [] = [] := keep_here (.inl rfl)
    rw [hkept]
    exact hkeep
  · rw [parts_intercalate (fun p hp => h.not_slash_mem p (List.mem_reverse.mp hp))
      (mt List.reverse_eq_nil_iff.mp hkept)]
    exact h.foldl_reverse

/-- Joined parts begin with no slash. -/
theorem isAbsolute_intercalate (h : Kept absolute kept) :
    isAbsolute (['/'].intercalate kept.reverse) = false := by
  have hmem : ∀ {p : List Char}, p ∈ kept.reverse → p ≠ [] ∧ '/' ∉ p := fun hp =>
    ⟨h.ne_nil _ (List.mem_reverse.mp hp), h.not_slash_mem _ (List.mem_reverse.mp hp)⟩
  cases hparts : kept.reverse with
  | nil => rfl
  | cons p ps =>
      obtain ⟨hne, hslash⟩ := hmem (hparts ▸ List.mem_cons_self)
      cases p with
      | nil => exact absurd rfl hne
      | cons c cs =>
          have hhead : (['/'].intercalate ((c :: cs) :: ps)).head? = some c := by
            cases ps with
            | nil => rfl
            | cons q qs => rfl
          rw [isAbsolute, hhead, beq_eq_false_iff_ne]
          rintro ⟨⟩
          exact hslash List.mem_cons_self

end Kept

/-! ### Normal forms -/

/-- The path of some parts, which are listed from the last to the first. -/
def ofKept (absolute : Bool) (kept : List (List Char)) : List Char :=
  let joined := ['/'].intercalate kept.reverse
  if absolute then '/' :: joined else joined

theorem kept_normalParts (path : List Char) :
    Kept (isAbsolute path) (normalParts path).reverse := by
  rw [normalParts, List.reverse_reverse]
  exact Kept.root.foldl fun _ => not_slash_mem_parts

theorem ofKept_normalParts (path : List Char) :
    ofKept (isAbsolute path) (normalParts path).reverse = normal path := by
  rw [ofKept, List.reverse_reverse]
  rfl

namespace Kept

variable {absolute : Bool} {kept : List (List Char)}

theorem isAbsolute_ofKept (h : Kept absolute kept) : isAbsolute (ofKept absolute kept) = absolute := by
  cases absolute with
  | true => rfl
  | false => exact h.isAbsolute_intercalate

theorem normalParts_ofKept (h : Kept absolute kept) :
    normalParts (ofKept absolute kept) = kept.reverse := by
  have hfold : (parts (ofKept absolute kept)).foldl (Path.keep absolute) [] = kept := by
    cases absolute with
    | true =>
        -- The slash of the root has an empty part in front of it.
        change (parts ('/' :: ['/'].intercalate kept.reverse)).foldl _ _ = _
        rw [parts, if_pos rfl, List.foldl_cons, keep_here (.inl rfl)]
        exact h.foldl_parts_intercalate
    | false => exact h.foldl_parts_intercalate
  rw [normalParts, h.isAbsolute_ofKept, hfold]

/-- A path of kept parts is its own normal form. -/
theorem normal_ofKept (h : Kept absolute kept) :
    normal (ofKept absolute kept) = ofKept absolute kept := by
  rw [← ofKept_normalParts, h.isAbsolute_ofKept, h.normalParts_ofKept, List.reverse_reverse]

end Kept

/-- The normal form of a path is absolute if and only if the path is. -/
theorem isAbsolute_normal (path : List Char) : isAbsolute (normal path) = isAbsolute path := by
  rw [← ofKept_normalParts]
  exact (kept_normalParts path).isAbsolute_ofKept

theorem normalParts_normal (path : List Char) : normalParts (normal path) = normalParts path := by
  rw [← ofKept_normalParts, (kept_normalParts path).normalParts_ofKept, List.reverse_reverse]

/-- A normal path is its own normal form. -/
theorem normal_normal (path : List Char) : normal (normal path) = normal path := by
  rw [← ofKept_normalParts path]
  exact (kept_normalParts path).normal_ofKept

theorem normalize_normalize (path : String) : normalize (normalize path) = normalize path := by
  rw [normalize, normalize, String.toList_ofList, normal_normal]

/-- The path of the builtin types is normal. -/
theorem normalize_stubs : normalize Stubs.path = Stubs.path := by
  decide +kernel

end Path

end TolkAnalysis
