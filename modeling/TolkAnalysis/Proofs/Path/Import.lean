import TolkAnalysis.Path.Import
import TolkAnalysis.Proofs.Path.Normal

/-!
# Paths below directories

What is kept of a path below a directory is found by keeping the parts of the directory and then
those of the path. So the normal form of a directory leads as far as the directory itself
(`Path.normal_join`).

The extension of source files is added to a normal path, and the longer path is normal as well: the
last part goes down then, whatever it was before, and there is one if there was none
(`Path.normalize_of_resolveImport`).
-/

namespace TolkAnalysis

namespace Path

/-! ### Parts of a path below a directory -/

theorem parts_append_slash (path rest : List Char) :
    parts (path ++ '/' :: rest) = parts path ++ parts rest := by
  induction path with
  | nil => rfl
  | cons c cs ih =>
      rw [List.cons_append, parts, parts, ih]
      by_cases hc : c = '/'
      · rw [if_pos hc, if_pos hc, List.cons_append]
      · rw [if_neg hc, if_neg hc]
        cases hparts : parts cs with
        | nil => exact absurd hparts (parts_ne_nil cs)
        | cons p ps => rfl

section

variable {absolute : Bool} {kept : List (List Char)} {dir relative : List Char}

/-- Nothing is kept of the parts beside slashes. -/
theorem foldl_parts_slashes {slashes : List Char} (h : ∀ c ∈ slashes, c = '/') :
    (parts slashes).foldl (keep absolute) kept = kept := by
  induction slashes with
  | nil =>
      have hkeep : keep absolute kept [] = kept := keep_here (.inl rfl)
      exact hkeep
  | cons c cs ih =>
      rw [List.forall_mem_cons] at h
      rw [parts, if_pos h.1, List.foldl_cons, keep_here (.inl rfl), ih h.2]

/-- A directory without the slashes at its end, and these slashes. -/
theorem exists_slashes (dir : List Char) :
    ∃ slashes : List Char, (∀ c ∈ slashes, c = '/') ∧
      dir = (dir.reverse.dropWhile (· = '/')).reverse ++ slashes := by
  refine ⟨(dir.reverse.takeWhile (· = '/')).reverse, fun c hc => ?_, ?_⟩
  · have h := List.all_takeWhile (l := dir.reverse) (p := (· = '/'))
    exact of_decide_eq_true (List.all_eq_true.mp h c (List.mem_reverse.mp hc))
  · rw [← List.reverse_append, List.takeWhile_append_dropWhile, List.reverse_reverse]

/-- Slashes at the end of a directory lead nowhere. -/
theorem foldl_parts_dropWhile :
    (parts (dir.reverse.dropWhile (· = '/')).reverse).foldl (keep absolute) kept =
      (parts dir).foldl (keep absolute) kept := by
  obtain ⟨slashes, hslashes, heq⟩ := exists_slashes dir
  generalize (dir.reverse.dropWhile (· = '/')).reverse = bare at heq ⊢
  subst heq
  cases slashes with
  | nil => rw [List.append_nil]
  | cons c cs =>
      rw [List.forall_mem_cons] at hslashes
      rw [hslashes.1, parts_append_slash, List.foldl_append, foldl_parts_slashes hslashes.2]

/-- The parts of the directory are kept first. -/
theorem foldl_parts_join (h : isAbsolute relative = false) :
    (parts (join dir relative)).foldl (keep absolute) [] =
      (parts relative).foldl (keep absolute) ((parts dir).foldl (keep absolute) []) := by
  unfold join
  by_cases hdir : dir = []
  · rw [if_pos (.inr hdir), hdir]
    rfl
  · rw [if_neg (not_or.mpr ⟨Bool.eq_false_iff.mp h, hdir⟩), parts_append_slash, List.foldl_append,
      foldl_parts_dropWhile]

/-- A path below a directory is absolute if and only if the directory is. -/
theorem isAbsolute_join (h : isAbsolute relative = false) :
    isAbsolute (join dir relative) = isAbsolute dir := by
  unfold join
  by_cases hdir : dir = []
  · rw [if_pos (.inr hdir), h, hdir]
    rfl
  · obtain ⟨slashes, hslashes, heq⟩ := exists_slashes dir
    rw [if_neg (not_or.mpr ⟨Bool.eq_false_iff.mp h, hdir⟩)]
    generalize (dir.reverse.dropWhile (· = '/')).reverse = bare at heq ⊢
    subst heq
    cases bare with
    | cons c cs => rfl
    | nil =>
        cases slashes with
        | nil => exact absurd rfl hdir
        | cons c cs => rw [hslashes c List.mem_cons_self]; rfl

theorem normalParts_join (h : isAbsolute relative = false) :
    normalParts (join dir relative) =
      ((parts relative).foldl (keep (isAbsolute dir)) (normalParts dir).reverse).reverse := by
  rw [normalParts, isAbsolute_join h, foldl_parts_join h, normalParts, List.reverse_reverse]

/-- The normal form of a directory leads as far as the directory. -/
theorem normal_join (h : isAbsolute relative = false) :
    normal (join (normal dir) relative) = normal (join dir relative) := by
  rw [← ofKept_normalParts, ← ofKept_normalParts (join dir relative), isAbsolute_join h,
    isAbsolute_join h, normalParts_join h, normalParts_join h, isAbsolute_normal,
    normalParts_normal]

end

/-! ### The extension -/

theorem intercalate_append_singleton (ps : List (List Char)) (p q : List Char) :
    ['/'].intercalate (ps ++ [p ++ q]) = ['/'].intercalate (ps ++ [p]) ++ q := by
  induction ps with
  | nil => simp
  | cons r ps ih =>
      have hne : ∀ p : List Char, ps ++ [p] ≠ [] := fun _ =>
        List.append_ne_nil_of_right_ne_nil _ (List.cons_ne_nil _ _)
      rw [List.cons_append, List.cons_append, List.intercalate_cons_of_ne_nil (hne _),
        List.intercalate_cons_of_ne_nil (hne _), ih, List.append_assoc (r ++ ['/'])]

/-- A part with the extension behind it goes down. -/
theorem append_extension_down (part : List Char) :
    part ++ extension.toList ≠ [] ∧ part ++ extension.toList ≠ ['.'] ∧
      part ++ extension.toList ≠ parent := by
  have hlength : 5 ≤ (part ++ extension.toList).length := by
    rw [List.length_append]
    exact Nat.le_add_left 5 part.length
  refine ⟨?_, ?_, ?_⟩ <;> intro h <;> rw [h] at hlength <;> exact absurd hlength (by decide)

/-- Parts stay parts of a normal path when the extension is added to the last of them. -/
theorem Kept.exists_append_extension {absolute : Bool} {kept : List (List Char)}
    (h : Kept absolute kept) :
    ∃ kept', Kept absolute kept' ∧
      ofKept absolute kept ++ extension.toList = ofKept absolute kept' := by
  have joined : ∀ {rest : List (List Char)} {last : List Char},
      ofKept absolute (last :: rest) ++ extension.toList =
        ofKept absolute ((last ++ extension.toList) :: rest) := by
    intro rest last
    cases absolute <;>
      simp [ofKept, intercalate_append_singleton]
  have hslash : '/' ∉ extension.toList := by decide
  cases h with
  | root =>
      refine ⟨[extension.toList], .down .root (append_extension_down []) hslash, ?_⟩
      cases absolute <;> rfl
  | up hrest hrelative hparents =>
      exact ⟨_, .down hrest (append_extension_down parent) (by decide), joined⟩
  | down hrest hpart hlast =>
      refine ⟨_, .down hrest (append_extension_down _) ?_, joined⟩
      rw [List.mem_append, not_or]
      exact ⟨hlast, hslash⟩

/-- A file below a directory has a normal path. -/
theorem normalize_fileBelow (dir relative : List Char) :
    normalize (fileBelow dir relative) = fileBelow dir relative := by
  obtain ⟨kept, hkept, heq⟩ := (kept_normalParts (join dir relative)).exists_append_extension
  rw [ofKept_normalParts] at heq
  rw [normalize, fileBelow, String.toList_append, String.toList_ofList, heq, hkept.normal_ofKept,
    ← heq, String.ofList_append, String.ofList_toList]

/-- An import leads to a normal path. -/
theorem normalize_of_resolveImport {importer path q : String} {root : Option String}
    (h : resolveImport importer path root = some q) : normalize q = q := by
  unfold resolveImport at h
  dsimp only at h
  split at h
  · obtain ⟨r, -, rfl⟩ := Option.map_eq_some_iff.mp h
    exact normalize_fileBelow _ _
  · split at h
    · cases h
    · cases h
      exact normalize_fileBelow _ _

end Path

end TolkAnalysis
