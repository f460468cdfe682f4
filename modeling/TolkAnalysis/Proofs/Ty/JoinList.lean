import TolkAnalysis.Proofs.Ty.JoinOrder

/-!
# Joins of many types

The type of a match is the join of its arms from the left, and so is the result of a function
without a written result type. With `never` set aside, types that are `Apart` join to one of them
if they are all equal, and else to a union with the variants of all: `JoinOf` says so without
their order. Tensors or tuples of one length join position by position. `Exchangeable` puts the
two together, and `join_order` says when the order of types does not matter, for two types and
for many. It can matter where an alias, `unknown` or a tensor among other types comes in:
`join_order_matters`.
-/

namespace TolkAnalysis

namespace Ty

/-! ### Types that give way -/

def isNever : Ty → Bool
  | .never => true
  | _ => false

theorem eq_never_of_isNever {t : Ty} (h : t.isNever = true) : t = .never := by
  cases t <;> first | rfl | cases h

/-- The types of a list other than `never`. -/
def properTypes (ts : List Ty) : List Ty := ts.filter fun t => !t.isNever

theorem foldl_join_properTypes (ts : List Ty) (s : Ty) :
    (properTypes ts).foldl join s = ts.foldl join s := by
  induction ts generalizing s with
  | nil => rfl
  | cons t ts ih =>
      cases ht : t.isNever with
      | true =>
          obtain rfl := eq_never_of_isNever ht
          exact (ih s).trans (by rw [List.foldl_cons, join_never_right])
      | false =>
          rw [properTypes, List.filter_cons_of_pos (by simp [ht])]
          exact ih (join s t)

theorem foldl_join_never {ts : List Ty} (h : ∀ t ∈ properTypes ts, never.equals t = false) :
    ts.foldl join .never = (joinList? (properTypes ts)).getD .never := by
  induction ts with
  | nil => rfl
  | cons t ts ih =>
      cases ht : t.isNever with
      | true =>
          obtain rfl := eq_never_of_isNever ht
          rw [List.foldl_cons, join_never_right]
          exact ih h
      | false =>
          have hcons : properTypes (t :: ts) = t :: properTypes ts :=
            List.filter_cons_of_pos (by simp [ht])
          rw [hcons] at h ⊢
          rw [List.foldl_cons, join_never_left (h t List.mem_cons_self), ← foldl_join_properTypes]
          rfl

/-- `never` leaves no trace in a join, unless there is nothing else. -/
theorem joinList?_eq_properTypes {ts : List Ty} (hne : ts ≠ [])
    (h : ∀ t ∈ properTypes ts, never.equals t = false) :
    joinList? ts = some ((joinList? (properTypes ts)).getD .never) := by
  rw [← foldl_join_never h]
  match ts, hne with
  | t :: ts, _ =>
      have hfirst : join .never t = t := by
        cases ht : t.isNever with
        | true =>
            obtain rfl := eq_never_of_isNever ht
            exact join_never_right .never
        | false =>
            have hmem : t ∈ properTypes (t :: ts) :=
              List.mem_filter.mpr ⟨List.mem_cons_self, by simp [ht]⟩
            exact join_never_left (h t hmem)
      rw [List.foldl_cons, hfirst]
      rfl

/-! ### Joins that are unions -/

/-- Types that join to unions: none mentions an alias, is `never` or `unknown`, and two that a
join would take element by element are equal. -/
structure Apart (ts : List Ty) : Prop where
  aliasFree : ∀ t ∈ ts, t.AliasFree
  wellFormed : ∀ t ∈ ts, t.WellFormed
  proper : ∀ t ∈ ts, t ≠ .never
  known : ∀ t ∈ ts, t ≠ .unknown
  inStep : ∀ s ∈ ts, ∀ t ∈ ts, ∀ ss us, InStep s t ss us → s.equals t = true

/-- The joins of all the types, up to the order of variants: one of the types if they are all
equal, and else a union with the variants of all of them. -/
inductive JoinOf (ts : List Ty) : Ty → Prop
  | same {t : Ty} (mem : t ∈ ts) (equals : ∀ s ∈ ts, s.equals t = true) : JoinOf ts t
  | union {variants : List Ty} (normal : NormalVariants variants)
      (differ : ∃ s ∈ ts, ∃ t ∈ ts, s.equals t = false)
      (parts : variants ⊆ ts.flatMap unionParts)
      (cover : ∀ p ∈ ts.flatMap unionParts, ∃ v ∈ variants, v.equals p = true) :
      JoinOf ts (.union variants)

/-- Equal types add equal variants to a union. -/
theorem exists_unionParts_equals {s t p : Ty} (h : s.equals t = true) (hp : p ∈ s.unionParts) :
    ∃ q ∈ t.unionParts, q.equals p = true := by
  have hbase := equals_baseType h
  by_cases hs : ∃ variants, s.baseType = .union variants
  · obtain ⟨variants, hs⟩ := hs
    rw [hs] at hbase
    obtain ⟨others, ht, -, hall, -⟩ := equals_union.mp hbase
    rw [stripAliases_eq_self (isAlias_baseType t)] at ht
    simp only [unionParts, hs, ht] at hp ⊢
    obtain ⟨q, hq, hpq⟩ := hall p hp
    exact ⟨q, hq, equals_symm hpq⟩
  · have hflat : ∀ variants, s.baseType ≠ .union variants := fun variants heq => hs ⟨variants, heq⟩
    rw [unionParts_eq_self hflat, List.mem_singleton] at hp
    rw [unionParts_eq_self (baseType_ne_union_of_equals h hflat)]
    exact ⟨t, List.mem_singleton_self t, hp ▸ equals_symm h⟩

/-- Two types that differ leave several variants. -/
theorem two_le_length_distinctVariants {s t : Ty} (hs : s.AliasFree ∧ s.WellFormed)
    (ht : t.AliasFree ∧ t.WellFormed) (hne : s.equals t = false) :
    2 ≤ (distinctVariants [s, t]).length := by
  by_contra hlength
  have hfree : ∀ p ∈ [s, t].flatMap unionParts, p.AliasFree :=
    AliasFree.flatMap_unionParts (by simpa using ⟨hs.1, ht.1⟩)
  obtain ⟨p, hp⟩ := List.exists_mem_of_ne_nil _ hs.2.unionParts_ne_nil
  obtain ⟨v, hv, -⟩ : ∃ v ∈ distinctVariants [s, t], v.Duplicates p :=
    exists_duplicates_of_mem (List.mem_flatMap.mpr ⟨s, by simp, hp⟩)
  have hvfree : v.AliasFree := hfree v (mem_flatMap_of_mem_distinctVariants hv)
  have hone {r : Ty} (hr : r ∈ [s, t]) : ∀ q ∈ r.unionParts, v.equals q = true := by
    intro q hq
    replace hq := List.mem_flatMap.mpr ⟨r, hr, hq⟩
    obtain ⟨w, hw, hwq⟩ : ∃ w ∈ distinctVariants [s, t], w.Duplicates q :=
      exists_duplicates_of_mem hq
    obtain rfl : w = v := by
      match distinctVariants [s, t], hlength, hv, hw with
      | [u], _, hv, hw => rw [List.mem_singleton.mp hv, List.mem_singleton.mp hw]
      | _ :: _ :: _, hlength, _, _ => simp at hlength
    exact (hvfree.duplicates_iff (hfree q hq)).mp hwq
  have hvs : v.equals s = true := equals_of_unionParts hs.1 hs.2 (hone (by simp))
  have hvt : v.equals t = true := equals_of_unionParts ht.1 ht.2 (hone (by simp))
  rw [hs.1.equals_trans (equals_symm hvs) hvt] at hne
  cases hne

namespace JoinOf

variable {ts : List Ty} {s t : Ty}

theorem unionParts_subset (h : JoinOf ts s) : s.unionParts ⊆ ts.flatMap unionParts := by
  cases h with
  | same mem => exact fun p hp => List.mem_flatMap.mpr ⟨s, mem, hp⟩
  | union _ _ parts => exact parts

theorem exists_equals (h : JoinOf ts s) {p : Ty} (hp : p ∈ ts.flatMap unionParts) :
    ∃ q ∈ s.unionParts, q.equals p = true := by
  cases h with
  | same mem equals =>
      obtain ⟨r, hr, hpr⟩ := List.mem_flatMap.mp hp
      exact exists_unionParts_equals (equals r hr) hpr
  | union _ _ _ cover => exact cover p hp

theorem of_mem_iff {us : List Ty} (h : JoinOf ts s) (hmem : ∀ t, t ∈ ts ↔ t ∈ us) :
    JoinOf us s := by
  have hparts : ∀ p, p ∈ ts.flatMap unionParts ↔ p ∈ us.flatMap unionParts := by
    simp [List.mem_flatMap, hmem]
  cases h with
  | same mem equals => exact .same ((hmem s).mp mem) fun r hr => equals r ((hmem r).mpr hr)
  | union normal differ parts cover =>
      obtain ⟨s, hs, t, ht, hne⟩ := differ
      exact .union normal ⟨s, (hmem s).mp hs, t, (hmem t).mp ht, hne⟩
        (fun v hv => (hparts v).mp (parts hv)) fun p hp => cover p ((hparts p).mpr hp)

theorem aliasFree (h : JoinOf ts s) (hts : ∀ t ∈ ts, t.AliasFree) : s.AliasFree := by
  cases h with
  | same mem => exact hts s mem
  | union _ _ parts =>
      exact .intro rfl fun v hv => AliasFree.flatMap_unionParts hts v (parts hv)

theorem wellFormed (h : JoinOf ts s) (hts : ∀ t ∈ ts, t.WellFormed) : s.WellFormed := by
  cases h with
  | same mem => exact hts s mem
  | union normal _ parts =>
      refine wellFormed_union.mpr ⟨normal, fun v hv => ?_⟩
      obtain ⟨t, ht, hv⟩ := List.mem_flatMap.mp (parts hv)
      exact hereditary_wellFormed.unionParts (hts t ht) v hv

/-- A type that equals the join adds nothing to it. -/
theorem cons_of_equals (h : JoinOf ts s) (heq : s.equals t = true) : JoinOf (t :: ts) s := by
  cases h with
  | same mem equals =>
      exact .same (List.mem_cons_of_mem t mem) (List.forall_mem_cons.mpr ⟨equals_symm heq, equals⟩)
  | union normal differ parts cover =>
      obtain ⟨a, ha, b, hb, hne⟩ := differ
      refine .union normal ⟨a, List.mem_cons_of_mem t ha, b, List.mem_cons_of_mem t hb, hne⟩
        (fun v hv => List.mem_append_right _ (parts hv)) fun p hp => ?_
      rw [List.flatMap_cons] at hp
      obtain hp | hp := List.mem_append.mp hp
      · exact exists_unionParts_equals (equals_symm heq) hp
      · exact cover p hp

/-- A type that differs from the join is added to its variants. -/
theorem cons_unionOf (h : JoinOf ts s) (hs : s.AliasFree ∧ s.WellFormed)
    (ht : t.AliasFree ∧ t.WellFormed) (hne : s.equals t = false) :
    JoinOf (t :: ts) (unionOf [s, t]) := by
  have hpair : ∀ u ∈ [s, t], u.AliasFree ∧ u.WellFormed := by simpa using ⟨hs, ht⟩
  have hlength := two_le_length_distinctVariants hs ht hne
  rw [unionOf_eq_union hlength]
  refine .union (normalVariants_distinctVariants (fun u hu => (hpair u hu).2) hlength)
    ?differ ?parts ?cover
  case differ =>
    cases h with
    | same mem => exact ⟨s, List.mem_cons_of_mem t mem, t, List.mem_cons_self, hne⟩
    | union _ differ =>
        obtain ⟨a, ha, b, hb, hab⟩ := differ
        exact ⟨a, List.mem_cons_of_mem t ha, b, List.mem_cons_of_mem t hb, hab⟩
  case parts =>
    intro v hv
    have hvst : v ∈ s.unionParts ∨ v ∈ t.unionParts := by
      simpa using mem_flatMap_of_mem_distinctVariants hv
    exact List.mem_append.mpr (hvst.symm.imp_right fun hvs => h.unionParts_subset hvs)
  case cover =>
    intro p hp
    obtain ⟨q, hq, hqp⟩ : ∃ q ∈ [s, t].flatMap unionParts, q.equals p = true := by
      rw [List.flatMap_cons] at hp
      obtain hp | hp := List.mem_append.mp hp
      · exact ⟨p, by simp [hp], equals_refl p⟩
      · obtain ⟨q, hq, hqp⟩ := h.exists_equals hp
        exact ⟨q, by simp [hq], hqp⟩
    obtain ⟨v, hv, hvq⟩ : ∃ v ∈ distinctVariants [s, t], v.Duplicates q :=
      exists_duplicates_of_mem hq
    have hfree := AliasFree.flatMap_unionParts fun u hu => (hpair u hu).1
    have hvfree := hfree v (mem_flatMap_of_mem_distinctVariants hv)
    exact ⟨v, hv, hvfree.equals_trans ((hvfree.duplicates_iff (hfree q hq)).mp hvq) hqp⟩

/-- One more type is joined with the others. -/
theorem cons {all : List Ty} (hall : Apart all) (hts : ts ⊆ all) (ht : t ∈ all)
    (h : JoinOf ts s) : JoinOf (t :: ts) (join s t) := by
  have hs : s.AliasFree ∧ s.WellFormed :=
    ⟨h.aliasFree fun r hr => hall.aliasFree r (hts hr),
      h.wellFormed fun r hr => hall.wellFormed r (hts hr)⟩
  cases heq : s.equals t with
  | true =>
      rw [join_of_equals heq]
      exact h.cons_of_equals heq
  | false =>
      have hproper : s ≠ .never := by
        cases h with
        | same mem => exact hall.proper s (hts mem)
        | union => nofun
      have hstep : ∀ ss us, ¬ InStep s t ss us := by
        intro ss us hstep
        cases h with
        | same mem =>
            rw [hall.inStep s (hts mem) t ht ss us hstep] at heq
            cases heq
        | union => cases hstep
      rw [join_eq_unionOf heq hs.1.isAlias (hall.aliasFree t ht).isAlias hproper
        (hall.proper t ht) (hall.known t ht) hstep]
      exact h.cons_unionOf hs ⟨hall.aliasFree t ht, hall.wellFormed t ht⟩ heq

/-- All the types are joined, from the left. -/
theorem foldl {all : List Ty} (hall : Apart all) {us : List Ty} (hts : ts ⊆ all) (hus : us ⊆ all)
    (h : JoinOf ts s) : JoinOf (us.reverse ++ ts) (us.foldl join s) := by
  induction us generalizing ts s with
  | nil => exact h
  | cons u us ih =>
      obtain ⟨hu, hus⟩ := List.cons_subset.mp hus
      rw [List.reverse_cons, List.append_assoc]
      exact ih (List.cons_subset.mpr ⟨hu, hts⟩) hus (h.cons hall hts hu)

theorem of_mem_joinList? (hts : Apart ts) (hs : s ∈ joinList? ts) : JoinOf ts s := by
  match ts, hs with
  | t :: us, hs =>
      have hfirst : JoinOf [t] t := .same (List.mem_singleton_self t) (by simp [equals_refl])
      obtain rfl : us.foldl join t = s := Option.some.inj hs
      refine (hfirst.foldl hts (by simp) (List.subset_cons_self t us)).of_mem_iff fun r => ?_
      simp [or_comm]

/-- There is only one join of the types, up to the order of variants. -/
theorem equals (h : JoinOf ts s) (h' : JoinOf ts t) (hts : ∀ t ∈ ts, t.AliasFree) :
    s.equals t = true := by
  -- One of the types is the join only if all of them are equal.
  have together {u : Ty} (hall : ∀ r ∈ ts, r.equals u = true)
      (hdiffer : ∃ a ∈ ts, ∃ b ∈ ts, a.equals b = false) : False := by
    obtain ⟨a, ha, b, hb, hne⟩ := hdiffer
    rw [(hts a ha).equals_trans (hall a ha) (equals_symm (hall b hb))] at hne
    cases hne
  cases h with
  | same mem equals =>
      cases h' with
      | same mem' equals' => exact equals' s mem
      | union _ differ => exact (together equals differ).elim
  | @union ss normal differ parts cover =>
      cases h' with
      | same mem' equals' => exact (together equals' differ).elim
      | @union us normal' differ' parts' cover' =>
          have hfree := AliasFree.flatMap_unionParts hts
          refine equals_union.mpr ⟨us, rfl, equals_of_duplicates
            (pairwise_not_duplicates normal.distinct) (pairwise_not_duplicates normal'.distinct)
            (AliasFree.uniform (List.forall_mem_append.mpr
              ⟨fun v hv => hfree v (parts hv), fun v hv => hfree v (parts' hv)⟩)) ?_ ?_⟩
          · intro v hv
            obtain ⟨w, hw, hwv⟩ := cover' v (parts hv)
            exact ⟨w, hw, ((hfree v (parts hv)).duplicates_iff (hfree w (parts' hw))).mpr
              (equals_symm hwv)⟩
          · intro w hw
            obtain ⟨v, hv, hvw⟩ := cover w (parts' hw)
            exact ⟨v, hv, ((hfree w (parts' hw)).duplicates_iff (hfree v (parts hv))).mpr
              (equals_symm hvw)⟩

end JoinOf

/-! ### Joins element by element -/

/-- The types at one position of tensors or tuples. -/
def column (rows : List (List Ty)) (i : ℕ) : List Ty := rows.map fun row => row.getD i .never

/-- Types whose join does not depend on their order: they join to unions, or all of them are
tensors, or all tuples, with equally many elements, and so on for the elements at each position. -/
inductive Exchangeable : List Ty → Prop
  | apart {ts : List Ty} : Apart ts → Exchangeable ts
  | aligned {rows : List (List Ty)} {size : ℕ} {make : List Ty → Ty}
      (hmake : make = .tensor ∨ make = .tuple) (hsize : ∀ row ∈ rows, row.length = size)
      (columns : ∀ i, i < size → Exchangeable (properTypes (column rows i))) :
      Exchangeable (rows.map make)

section Aligned

variable {make : List Ty → Ty} {rows : List (List Ty)} {size : ℕ}

theorem joinAll_of_equals {ss ts : List Ty}
    (h : List.Forall₂ (fun s t => s.equals t = true) ss ts) : joinAll ss ts = ss := by
  induction h with
  | nil => simp [joinAll]
  | cons hst _ ih => rw [joinAll, join_of_equals hst, ih]

theorem equals_make (hmake : make = .tensor ∨ make = .tuple) {ss ts : List Ty} :
    (make ss).equals (make ts) = true ↔ List.Forall₂ (fun s t => s.equals t = true) ss ts := by
  obtain rfl | rfl := hmake
  · simp [equals_tensor, stripAliases]
  · simp [equals_tuple, stripAliases]

theorem join_make (hmake : make = .tensor ∨ make = .tuple) {ss ts : List Ty}
    (hlength : ss.length = ts.length) : join (make ss) (make ts) = make (joinAll ss ts) := by
  cases heq : (make ss).equals (make ts) with
  | true => rw [join_of_equals heq, joinAll_of_equals ((equals_make hmake).mp heq)]
  | false =>
      obtain rfl | rfl := hmake
      · exact join_tensor heq hlength
      · exact join_tuple heq hlength

/-- Tensors or tuples with equally many elements join position by position. -/
theorem joinList?_map_make (hmake : make = .tensor ∨ make = .tuple) {row : List Ty}
    (hrow : row.length = size) (hrows : ∀ row ∈ rows, row.length = size) :
    ∃ elements, joinList? ((row :: rows).map make) = some (make elements) ∧
      elements.length = size ∧
      ∀ i, i < size → joinList? (column (row :: rows) i) = some (elements.getD i .never) := by
  induction rows generalizing row with
  | nil => exact ⟨row, rfl, hrow, fun i _ => rfl⟩
  | cons next rows ih =>
      obtain ⟨hnext, hrows⟩ := List.forall_mem_cons.mp hrows
      have hlength : row.length = next.length := hrow.trans hnext.symm
      have hjoined : (joinAll row next).length = size := by
        simp [joinAll_eq_zipWith, hrow, hnext]
      obtain ⟨elements, hjoin, hsize, hcolumns⟩ := ih hjoined hrows
      refine ⟨elements, ?_, hsize, fun i hi => ?_⟩
      · rw [← hjoin, List.map_cons, List.map_cons, List.map_cons, ← join_make hmake hlength]
        rfl
      · have hget : (joinAll row next).getD i .never =
            join (row.getD i .never) (next.getD i .never) := by
          simp [joinAll_eq_zipWith, hrow, hnext, hi]
        rw [← hcolumns i hi, column, column, List.map_cons, List.map_cons, List.map_cons, hget]
        rfl

end Aligned

/-! ### Joins in any order -/

theorem Apart.of_isPrimitive {ts : List Ty} (h : ∀ t ∈ ts, t.isPrimitive = true)
    (hproper : ∀ t ∈ ts, t ≠ .never) (hknown : ∀ t ∈ ts, t ≠ .unknown) : Apart ts where
  aliasFree t ht := .of_isPrimitive (h t ht)
  wellFormed t ht := hereditary_wellFormed.primitive (h t ht)
  proper := hproper
  known := hknown
  inStep s hs t ht ss us hstep := by cases hstep <;> cases h _ hs

theorem Apart.perm {ts us : List Ty} (h : Apart ts) (hperm : ts.Perm us) : Apart us where
  aliasFree t ht := h.aliasFree t (hperm.mem_iff.mpr ht)
  wellFormed t ht := h.wellFormed t (hperm.mem_iff.mpr ht)
  proper t ht := h.proper t (hperm.mem_iff.mpr ht)
  known t ht := h.known t (hperm.mem_iff.mpr ht)
  inStep s hs t ht := h.inStep s (hperm.mem_iff.mpr hs) t (hperm.mem_iff.mpr ht)

theorem Exchangeable.never_equals {ts : List Ty} (h : Exchangeable ts) :
    ∀ t ∈ ts, never.equals t = false := by
  cases h with
  | apart h =>
      intro t ht
      refine primitive_equals_eq_false rfl ?_
      rw [stripAliases_eq_self (h.aliasFree t ht).isAlias]
      exact h.proper t ht
  | aligned hmake =>
      refine List.forall_mem_map.mpr fun row _ => primitive_equals_eq_false rfl ?_
      obtain rfl | rfl := hmake <;> nofun

/-- The order of types does not matter for their join if it does not matter with `never` set
aside. -/
theorem rel_joinList?_of_properTypes {xs ys : List Ty} (hperm : xs.Perm ys)
    (hxs : ∀ t ∈ properTypes xs, never.equals t = false)
    (h : Option.Rel (fun s t => s.equals t = true) (joinList? (properTypes xs))
      (joinList? (properTypes ys))) :
    Option.Rel (fun s t => s.equals t = true) (joinList? xs) (joinList? ys) := by
  by_cases hnil : xs = []
  · subst hnil
    obtain rfl := hperm.nil_eq
    exact .none
  have hproper : (properTypes xs).Perm (properTypes ys) := hperm.filter _
  rw [joinList?_eq_properTypes hnil hxs, joinList?_eq_properTypes
    (fun hys => hnil (by simpa [hys] using hperm)) fun t ht => hxs t (hproper.mem_iff.mpr ht)]
  generalize joinList? (properTypes xs) = a, joinList? (properTypes ys) = b at h
  cases h with
  | some h => exact .some h
  | none => exact .some (equals_refl never)

theorem Apart.rel_joinList? {ts us : List Ty} (h : Apart ts) (hperm : ts.Perm us) :
    Option.Rel (fun s t => s.equals t = true) (joinList? ts) (joinList? us) := by
  match ts, us with
  | [], [] => exact .none
  | [], _ :: _ | _ :: _, [] => simp at hperm
  | t :: ts, u :: us =>
      have hjoin : JoinOf (t :: ts) (ts.foldl join t) := .of_mem_joinList? h rfl
      have hjoin' : JoinOf (u :: us) (us.foldl join u) := .of_mem_joinList? (h.perm hperm) rfl
      exact .some (hjoin.equals (hjoin'.of_mem_iff fun _ => hperm.mem_iff.symm) h.aliasFree)

theorem parts_make {make : List Ty → Ty} (hmake : make = .tensor ∨ make = .tuple) (ts : List Ty) :
    (make ts).parts = ts := by
  obtain rfl | rfl := hmake <;> rfl

/-- The order of exchangeable types does not matter for their join. -/
theorem Exchangeable.rel_joinList? {ts us : List Ty} (h : Exchangeable ts) (hperm : ts.Perm us) :
    Option.Rel (fun s t => s.equals t = true) (joinList? ts) (joinList? us) := by
  induction h generalizing us with
  | apart h => exact h.rel_joinList? hperm
  | @aligned rows size make hmake hsize columns ih =>
      obtain ⟨others, rfl⟩ : ∃ others : List (List Ty), us = others.map make := by
        refine ⟨us.map parts, ?_⟩
        rw [List.map_map]
        refine (List.map_id us).symm.trans (List.map_congr_left fun u hu => ?_)
        obtain ⟨row, -, rfl⟩ := List.mem_map.mp (hperm.mem_iff.mpr hu)
        exact (congrArg make (parts_make hmake row)).symm
      have hrows : rows.Perm others := by
        simpa [Function.comp_def, parts_make hmake] using hperm.map parts
      match rows, others with
      | [], [] => exact .none
      | [], _ :: _ | _ :: _, [] => simp at hrows
      | row :: rows, other :: others =>
          have hsize' : ∀ r ∈ other :: others, r.length = size :=
            fun r hr => hsize r (hrows.mem_iff.mpr hr)
          obtain ⟨hrow, hsize⟩ := List.forall_mem_cons.mp hsize
          obtain ⟨hother, hsize'⟩ := List.forall_mem_cons.mp hsize'
          obtain ⟨elements, hjoin, hlength, hcolumns⟩ := joinList?_map_make hmake hrow hsize
          obtain ⟨elements', hjoin', hlength', hcolumns'⟩ := joinList?_map_make hmake hother hsize'
          rw [hjoin, hjoin']
          refine .some ((equals_make hmake).mpr (List.forall₂_iff_get.mpr
            ⟨hlength.trans hlength'.symm, fun i hi hi' => ?_⟩))
          have hperm : (column (row :: rows) i).Perm (column (other :: others) i) := hrows.map _
          rw [hlength] at hi
          have hrel := rel_joinList?_of_properTypes hperm (columns i hi).never_equals
            (ih i hi (hperm.filter _))
          rw [hcolumns i hi, hcolumns' i hi] at hrel
          cases hrel with
          | some h => simpa [hlength, hlength', hi] using h

/-- Swapping two types does not change their join if it makes no difference at any pair that the
join comes to, and the order of exchangeable types, with `never` set aside, does not change the
join of all of them. -/
theorem join_order {s t : Ty} (hst : ∀ u v, Meets s t u v → Balanced u v ∧ Balanced v u)
    {xs ys : List Ty} (hperm : xs.Perm ys) (hxs : Exchangeable (properTypes xs)) :
    (join s t).equals (join t s) = true ∧
      Option.Rel (fun a b => a.equals b = true) (joinList? xs) (joinList? ys) :=
  ⟨join_swap hst, rel_joinList?_of_properTypes hperm hxs.never_equals
    (hxs.rel_joinList? (hperm.filter _))⟩

/-- A pair with an alias beside null, and three pairs beside a value that is never there. -/
theorem join_order_pairs :
    (∀ u v, Meets (tensor [.alias ⟨"Id", none⟩ .int, .bool]) (.tensor [.null, .bool]) u v →
      Balanced u v ∧ Balanced v u) ∧
    [never, .tensor [.int, .null], .tensor [.bool, .int], .tensor [.int, .bool]].Perm
      [.tensor [.int, .bool], .tensor [.bool, .int], .tensor [.int, .null], .never] ∧
    Exchangeable (properTypes
      [never, .tensor [.int, .null], .tensor [.bool, .int], .tensor [.int, .bool]]) ∧
    (join (tensor [.alias ⟨"Id", none⟩ .int, .bool]) (.tensor [.null, .bool])).equals
      (join (.tensor [.null, .bool]) (.tensor [.alias ⟨"Id", none⟩ .int, .bool])) = true ∧
    Option.Rel (fun a b => a.equals b = true)
      (joinList? [never, .tensor [.int, .null], .tensor [.bool, .int], .tensor [.int, .bool]])
      (joinList?
        [.tensor [.int, .bool], .tensor [.bool, .int], .tensor [.int, .null], .never]) := by
  have hmeets : ∀ u v,
      Meets (tensor [.alias ⟨"Id", none⟩ .int, .bool]) (.tensor [.null, .bool]) u v →
      Balanced u v ∧ Balanced v u := by
    have hint : int.AliasFree := .of_isPrimitive rfl
    have hnull : null.AliasFree := .of_isPrimitive rfl
    intro u v h
    cases h with
    | here =>
        exact ⟨⟨nofun, nofun, nofun, fun h => (h _ _ (.tensor rfl)).elim⟩,
          ⟨nofun, nofun, nofun, fun h => (h _ _ (.tensor rfl)).elim⟩⟩
    | within _ hstep hmem h =>
        cases hstep
        obtain ⟨rfl, rfl⟩ | ⟨rfl, rfl⟩ : _ ∨ _ := by simpa using hmem
        · cases h with
          | here => exact ⟨.of_aliasFree hint hnull nofun nofun nofun,
              .of_aliasFree hnull hint nofun nofun nofun⟩
          | within _ hstep => cases hstep
        · cases h with
          | here hne => cases (equals_refl bool).symm.trans hne
          | within _ hstep => cases hstep
  have hperm : [never, .tensor [.int, .null], .tensor [.bool, .int], .tensor [.int, .bool]].Perm
      [.tensor [.int, .bool], .tensor [.bool, .int], .tensor [.int, .null], .never] :=
    (List.reverse_perm _).symm
  have hpairs : Exchangeable (properTypes
      [never, .tensor [.int, .null], .tensor [.bool, .int], .tensor [.int, .bool]]) := by
    refine @Exchangeable.aligned [[.int, .null], [.bool, .int], [.int, .bool]] 2 .tensor (.inl rfl)
      (by simp) fun i hi => .apart ?_
    match i, hi with
    | 0, _ =>
        have hcolumn : Apart [int, .bool, .int] :=
          .of_isPrimitive (by simp [isPrimitive]) (by simp) (by simp)
        exact hcolumn
    | 1, _ =>
        have hcolumn : Apart [null, .int, .bool] :=
          .of_isPrimitive (by simp [isPrimitive]) (by simp) (by simp)
        exact hcolumn
  exact ⟨hmeets, hperm, hpairs, join_order hmeets hperm hpairs⟩

/-- Pairs of types whose join depends on which one stands on the left: `unknown`, an alias of
`never` beside null, aliases that cross and unions with a type behind one alias or the other. Of
three types it matters also whether two tensors or two aliases of one type meet first. -/
theorem join_order_matters :
    (unknown.WellFormed ∧ int.WellFormed ∧
      (join unknown .int).equals (join .int .unknown) = false) ∧
    ((Ty.alias ⟨"A", none⟩ .never).WellFormed ∧ null.WellFormed ∧
      (join (.alias ⟨"A", none⟩ .never) .null).equals
        (join .null (.alias ⟨"A", none⟩ .never)) = false) ∧
    ((Ty.alias ⟨"A", none⟩ (.alias ⟨"B", none⟩ .int)).WellFormed ∧
      (Ty.alias ⟨"B", none⟩ (.alias ⟨"A", none⟩ .int)).WellFormed ∧
      (join (.alias ⟨"A", none⟩ (.alias ⟨"B", none⟩ .int))
          (.alias ⟨"B", none⟩ (.alias ⟨"A", none⟩ .int))).equals
        (join (.alias ⟨"B", none⟩ (.alias ⟨"A", none⟩ .int))
          (.alias ⟨"A", none⟩ (.alias ⟨"B", none⟩ .int))) = false) ∧
    ((union [.alias ⟨"A", none⟩ .int, .bool]).WellFormed ∧
      (union [.alias ⟨"B", none⟩ .int, .bool]).WellFormed ∧
      (join (union [.alias ⟨"A", none⟩ .int, .bool])
          (union [.alias ⟨"B", none⟩ .int, .bool])).equals
        (join (union [.alias ⟨"B", none⟩ .int, .bool])
          (union [.alias ⟨"A", none⟩ .int, .bool])) = false) ∧
    (∀ a ∈ joinList? [tensor [.int, .null], .int, .tensor [.null, .int]],
      ∀ b ∈ joinList? [tensor [.int, .null], .tensor [.null, .int], .int], a.equals b = false) ∧
    ∀ a ∈ joinList? [.alias ⟨"A", none⟩ .int, .null, .alias ⟨"B", none⟩ .int],
      ∀ b ∈ joinList? [.alias ⟨"B", none⟩ .int, .null, .alias ⟨"A", none⟩ .int],
        a.equals b = false := by
  have halias (n : String) : (union [.alias ⟨n, none⟩ .int, .bool]).WellFormed :=
    wellFormed_union.mpr ⟨⟨by simp, by simp [baseType],
      by simp [unwrapAlias, equals, stripAliases]⟩, by simp [WellFormed]⟩
  refine ⟨⟨trivial, trivial, by cbv⟩, ⟨trivial, trivial, by cbv⟩, ⟨trivial, trivial, by cbv⟩,
    ⟨halias "A", halias "B", by cbv⟩, ?tensors, ?options⟩
  case tensors =>
    rintro _ ⟨⟩ _ ⟨⟩
    cbv
  case options =>
    rintro _ ⟨⟩ _ ⟨⟩
    cbv

end Ty

end TolkAnalysis
