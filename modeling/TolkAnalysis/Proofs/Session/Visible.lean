import Mathlib.Logic.Function.Iterate
import Mathlib.Order.Lattice.Nat
import TolkAnalysis.Proofs.Session.Mirror

/-!
# The order of visible files

The files that a file can see are found breadth first: a file is taken from the front of a queue,
listed unless it has been listed before, and what it imports waits at the end of the queue.
`Workspace.Visiting.step` is one round of this, and `Workspace.visit` lists what the rounds list
until nothing waits (`Workspace.iterate_step`).

`Workspace.Layered` is what every round keeps. The listed files are all those that at most `n`
imports lead to and some that one more leads to, and the other files that one more leads to wait in
front of all that is waiting. So a file that is listed for the first time is as far away as any
listed before, and when nothing waits, all files that imports lead to have been listed.
`Session.Reachable.searchFiles_nearest` says so of the whole search.
-/

namespace TolkAnalysis

namespace Workspace

/-! ### Distance -/

/-- So many imports lead from one file to another. -/
inductive ImportChain (imports : FileId → List FileId) (start : FileId) : Nat → FileId → Prop
  | here : ImportChain imports start 0 start
  | next {n : Nat} {f g : FileId} (h : ImportChain imports start n f) (hg : g ∈ imports f) :
      ImportChain imports start (n + 1) g

/-- The least number of imports that lead from one file to another. -/
noncomputable def importDistance (imports : FileId → List FileId) (start g : FileId) : Nat :=
  sInf {n | ImportChain imports start n g}

/-- At most so many imports lead from one file to another. -/
def Within (imports : FileId → List FileId) (start : FileId) (n : Nat) (g : FileId) : Prop :=
  ∃ m ≤ n, ImportChain imports start m g

section

variable {imports : FileId → List FileId} {start f g : FileId} {m n : Nat}

theorem Within.mono (h : Within imports start m g) (hmn : m ≤ n) : Within imports start n g := by
  obtain ⟨k, hk, hchain⟩ := h
  exact ⟨k, hk.trans hmn, hchain⟩

theorem Within.next (h : Within imports start n f) (hg : g ∈ imports f) :
    Within imports start (n + 1) g := by
  obtain ⟨k, hk, hchain⟩ := h
  exact ⟨k + 1, Nat.succ_le_succ hk, hchain.next hg⟩

theorem within_zero_iff : Within imports start 0 g ↔ g = start := by
  constructor
  · rintro ⟨k, hk, hchain⟩
    cases hchain with
    | here => rfl
    | next => omega
  · rintro rfl
    exact ⟨0, Nat.le_refl 0, .here⟩

/-- The last of some imports leads on from a file that one import less leads to. -/
theorem Within.cases (h : Within imports start (n + 1) g) :
    Within imports start n g ∨ ∃ f, Within imports start n f ∧ g ∈ imports f := by
  obtain ⟨k, hk, hchain⟩ := h
  cases hchain with
  | here => exact .inl ⟨0, Nat.zero_le n, .here⟩
  | next hchain hg => exact .inr ⟨_, ⟨_, Nat.le_of_succ_le_succ hk, hchain⟩, hg⟩

theorem importDistance_le (h : ∀ n, Within imports start n g → Within imports start n f)
    (hg : ImportChain imports start m g) :
    importDistance imports start f ≤ importDistance imports start g := by
  have hleast : importDistance imports start g ∈ {n | ImportChain imports start n g} :=
    Nat.sInf_mem ⟨m, hg⟩
  obtain ⟨k, hk, hchain⟩ := h _ ⟨_, Nat.le_refl _, hleast⟩
  have hmem : k ∈ {n | ImportChain imports start n f} := hchain
  exact (Nat.sInf_le hmem).trans hk

end

/-! ### One round -/

/-- How far a search has come: the files that it has listed, and those that wait to be listed, among
them perhaps some that have been. -/
structure Visiting where
  listed : List FileId
  waiting : List FileId

/-- A round of the search: the first file that waits is listed, unless it has been, and then what it
imports waits. -/
def Visiting.step (imports : FileId → List FileId) : Visiting → Visiting
  | ⟨listed, []⟩ => ⟨listed, []⟩
  | ⟨listed, file :: waiting⟩ =>
      if file ∈ listed then ⟨listed, waiting⟩ else ⟨listed ++ [file], waiting ++ imports file⟩

section

variable {imports : FileId → List FileId} {start file : FileId} {n : Nat}
  {inner fresh front listed waiting : List FileId}

/-- All files at most `n` imports away have been listed, and some that are `n + 1` away. The others
that are `n + 1` away wait in front of what the listed ones import. -/
structure Layered (imports : FileId → List FileId) (start : FileId) (n : Nat)
    (inner fresh front : List FileId) (v : Visiting) : Prop where
  listed : v.listed = inner ++ fresh
  waiting : v.waiting = front ++ fresh.flatMap imports
  inner_iff : ∀ g, g ∈ inner ↔ Within imports start n g
  fresh_within : ∀ g ∈ fresh, Within imports start (n + 1) g
  front_within : ∀ g ∈ front, Within imports start (n + 1) g
  found : ∀ g, Within imports start (n + 1) g → g ∈ inner ++ fresh ∨ g ∈ front
  nodup : (inner ++ fresh).Nodup
  sorted : (inner ++ fresh).Pairwise fun f g =>
    ∀ m, Within imports start m g → Within imports start m f

theorem layered_start (imports : FileId → List FileId) (start : FileId) :
    Layered imports start 0 [start] [] (imports start) ⟨[start], imports start⟩ where
  listed := rfl
  waiting := (List.append_nil _).symm
  inner_iff g := by rw [List.mem_singleton, within_zero_iff]
  fresh_within _ h := absurd h List.not_mem_nil
  front_within _ hg := (within_zero_iff.mpr rfl).next hg
  found g hg := by
    rw [List.append_nil, List.mem_singleton]
    rcases hg.cases with h | ⟨f, hf, hg⟩
    · exact .inl (within_zero_iff.mp h)
    · exact .inr (within_zero_iff.mp hf ▸ hg)
  nodup := List.nodup_singleton start
  sorted := List.pairwise_singleton _ start

namespace Layered

variable {v : Visiting}

/-- When no file of a layer waits any more, the next layer waits. -/
theorem turn (h : Layered imports start n inner fresh [] v) :
    Layered imports start (n + 1) (inner ++ fresh) [] (fresh.flatMap imports) v where
  listed := h.listed.trans (List.append_nil _).symm
  waiting := h.waiting.trans (List.append_nil _).symm
  inner_iff g := by
    constructor
    · intro hg
      rcases List.mem_append.mp hg with hg | hg
      · exact ((h.inner_iff g).mp hg).mono (Nat.le_succ n)
      · exact h.fresh_within g hg
    · intro hg
      exact (h.found g hg).resolve_right List.not_mem_nil
  fresh_within _ hg := absurd hg List.not_mem_nil
  front_within g hg := by
    obtain ⟨f, hf, hg⟩ := List.mem_flatMap.mp hg
    exact (h.fresh_within f hf).next hg
  found g hg := by
    rw [List.append_nil]
    rcases hg.cases with hg | ⟨f, hf, hg⟩
    · exact .inl ((h.found g hg).resolve_right List.not_mem_nil)
    · rcases List.mem_append.mp ((h.found f hf).resolve_right List.not_mem_nil) with hf | hf
      · have hnear : Within imports start (n + 1) g := ((h.inner_iff f).mp hf).next hg
        exact .inl ((h.found g hnear).resolve_right List.not_mem_nil)
      · exact .inr (List.mem_flatMap.mpr ⟨f, hf, hg⟩)
  nodup := (List.append_nil _).symm ▸ h.nodup
  sorted := (List.append_nil _).symm ▸ h.sorted

/-- A file that has been listed needs not wait. -/
theorem skip (h : Layered imports start n inner fresh (file :: front) v)
    (hfile : file ∈ inner ++ fresh) :
    Layered imports start n inner fresh front ⟨inner ++ fresh, front ++ fresh.flatMap imports⟩ :=
  { h with
    listed := rfl
    waiting := rfl
    front_within := fun g hg => h.front_within g (List.mem_cons_of_mem _ hg)
    found := by
      intro g hg
      rcases h.found g hg with hg | hg
      · exact .inl hg
      · rcases List.mem_cons.mp hg with rfl | hg
        · exact .inl hfile
        · exact .inr hg }

/-- A file that is listed for the first time is as far away as any that has been listed. -/
theorem list (h : Layered imports start n inner fresh (file :: front) v)
    (hfile : file ∉ inner ++ fresh) :
    Layered imports start n inner (fresh ++ [file]) front
      ⟨inner ++ fresh ++ [file], front ++ fresh.flatMap imports ++ imports file⟩ where
  listed := List.append_assoc ..
  waiting := by
    rw [List.flatMap_append, List.flatMap_singleton, ← List.append_assoc]
  inner_iff := h.inner_iff
  fresh_within g hg := by
    rcases List.mem_append.mp hg with hg | hg
    · exact h.fresh_within g hg
    · exact List.mem_singleton.mp hg ▸ h.front_within file List.mem_cons_self
  front_within g hg := h.front_within g (List.mem_cons_of_mem _ hg)
  found g hg := by
    rw [← List.append_assoc, List.mem_append, List.mem_singleton]
    rcases h.found g hg with hg | hg
    · exact .inl (.inl hg)
    · rcases List.mem_cons.mp hg with rfl | hg
      · exact .inl (.inr rfl)
      · exact .inr hg
  nodup := by
    rw [← List.append_assoc, ← List.concat_eq_append]
    exact h.nodup.concat hfile
  sorted := by
    rw [← List.append_assoc, List.pairwise_append]
    refine ⟨h.sorted, List.pairwise_singleton _ _, fun f hf g hg m hm => ?_⟩
    rw [List.mem_singleton.mp hg] at hm
    have hlt : n < m := by
      refine Nat.lt_of_not_le fun hmn => hfile (List.mem_append_left _ ?_)
      exact (h.inner_iff file).mpr (hm.mono hmn)
    rcases List.mem_append.mp hf with hf | hf
    · exact ((h.inner_iff f).mp hf).mono hlt.le
    · exact (h.fresh_within f hf).mono hlt

end Layered

/-- The files have been listed layer by layer so far. -/
def Visiting.Ordered (imports : FileId → List FileId) (start : FileId) (v : Visiting) : Prop :=
  ∃ n inner fresh front, Layered imports start n inner fresh front v

theorem Layered.ordered_step_cons {v : Visiting}
    (h : Layered imports start n inner fresh (file :: front) v) :
    (v.step imports).Ordered imports start := by
  obtain ⟨listed, waiting⟩ := v
  obtain rfl : listed = inner ++ fresh := h.listed
  obtain rfl : waiting = file :: (front ++ fresh.flatMap imports) := h.waiting
  rw [Visiting.step]
  split
  · rename_i hfile
    exact ⟨n, inner, fresh, front, h.skip hfile⟩
  · rename_i hfile
    exact ⟨n, inner, fresh ++ [file], front, h.list hfile⟩

/-- A round keeps the layers. -/
theorem Visiting.Ordered.step {v : Visiting} (h : v.Ordered imports start) :
    (v.step imports).Ordered imports start := by
  obtain ⟨n, inner, fresh, front, h⟩ := h
  cases front with
  | cons file front => exact h.ordered_step_cons
  | nil =>
      cases hnext : fresh.flatMap imports with
      | cons file next => exact (hnext ▸ h.turn).ordered_step_cons
      | nil =>
          -- Nothing waits, so the round changes nothing.
          obtain ⟨listed, waiting⟩ := v
          obtain rfl : waiting = [] := h.waiting.trans hnext
          exact ⟨n, inner, fresh, [], h⟩

theorem Visiting.ordered_iterate (imports : FileId → List FileId) (start : FileId) (rounds : Nat) :
    ((Visiting.step imports)^[rounds] ⟨[start], imports start⟩).Ordered imports start := by
  induction rounds with
  | zero => exact ⟨0, [start], [], imports start, layered_start imports start⟩
  | succ rounds ih =>
      rw [Function.iterate_succ_apply']
      exact ih.step

/-- When nothing waits, the listed files are those that imports lead to. -/
theorem Visiting.Ordered.mem_listed_iff {v : Visiting} (h : v.Ordered imports start)
    (hdone : v.waiting = []) (g : FileId) :
    g ∈ v.listed ↔ ∃ n, ImportChain imports start n g := by
  obtain ⟨n, inner, fresh, front, h⟩ := h
  obtain ⟨rfl, hnext⟩ := List.append_eq_nil_iff.mp (h.waiting.symm.trans hdone)
  have hlast := h.turn
  rw [hnext] at hlast
  rw [h.listed]
  constructor
  · intro hg
    obtain ⟨k, -, hchain⟩ := (hlast.inner_iff g).mp hg
    exact ⟨k, hchain⟩
  · rintro ⟨k, hchain⟩
    induction hchain with
    | here => exact (hlast.inner_iff start).mpr ((within_zero_iff.mpr rfl).mono (Nat.zero_le _))
    | next _ hg ih =>
        have hnear := ((hlast.inner_iff _).mp ih).next hg
        have hmem := (hlast.found _ hnear).resolve_right List.not_mem_nil
        rwa [List.append_nil] at hmem

theorem Visiting.Ordered.nodup {v : Visiting} (h : v.Ordered imports start) : v.listed.Nodup := by
  obtain ⟨n, inner, fresh, front, h⟩ := h
  exact h.listed ▸ h.nodup

theorem Visiting.Ordered.sorted {v : Visiting} (h : v.Ordered imports start) :
    v.listed.Pairwise fun f g => ∀ m, Within imports start m g → Within imports start m f := by
  obtain ⟨n, inner, fresh, front, h⟩ := h
  exact h.listed ▸ h.sorted

/-- When nothing waits, no listed file is nearer than one that is listed before it. -/
theorem Visiting.Ordered.pairwise_importDistance {v : Visiting} (h : v.Ordered imports start)
    (hdone : v.waiting = []) :
    v.listed.Pairwise fun f g => importDistance imports start f ≤ importDistance imports start g := by
  refine h.sorted.imp_of_mem fun _ hg hnearer => ?_
  obtain ⟨n, hchain⟩ := (h.mem_listed_iff hdone _).mp hg
  exact importDistance_le hnearer hchain

end

/-! ### All rounds -/

section

variable {imports : FileId → List FileId} {known unseen queue listed seen files : List FileId}
  {file : FileId}

/-- As long as only known files are imported, the rounds list what is visited. One file is taken in
each round, so there are as many rounds as files that wait at some time. -/
theorem iterate_step (hqueue : ∀ g ∈ queue, g ∈ known)
    (himports : ∀ f, ∀ g ∈ imports f, g ∈ known)
    (hunseen : ∀ g ∈ known, g ∈ unseen ↔ g ∉ listed) (hnodup : unseen.Nodup) :
    (Visiting.step imports)^[queue.length + ((visit imports unseen queue).flatMap imports).length]
        ⟨listed, queue⟩ = ⟨listed ++ visit imports unseen queue, []⟩ := by
  induction unseen, queue using visit.induct imports generalizing listed with
  | case1 unseen =>
      rw [visit, List.append_nil]
      rfl
  | case2 unseen file queue hfile ih =>
      rw [List.forall_mem_cons] at hqueue
      have hnew : file ∉ listed := (hunseen file hqueue.1).mp hfile
      have hlater : ∀ g ∈ known, g ∈ unseen.erase file ↔ g ∉ listed ++ [file] := by
        intro g hg
        rw [hnodup.mem_erase_iff, hunseen g hg, List.mem_append, List.mem_singleton, not_or, and_comm]
      have hrounds : (file :: queue).length +
          ((file :: visit imports (unseen.erase file) (queue ++ imports file)).flatMap imports).length =
          (queue ++ imports file).length +
            ((visit imports (unseen.erase file) (queue ++ imports file)).flatMap imports).length +
              1 := by
        simp only [List.length_cons, List.length_append, List.flatMap_cons]
        omega
      rw [visit, if_pos hfile, hrounds, Function.iterate_succ_apply, Visiting.step, if_neg hnew,
        ih (List.forall_mem_append.mpr ⟨hqueue.2, himports file⟩) hlater (hnodup.erase file),
        List.append_assoc, List.singleton_append]
  | case3 unseen file queue hfile ih =>
      rw [List.forall_mem_cons] at hqueue
      have hold : file ∈ listed := by
        by_contra hnew
        exact hfile ((hunseen file hqueue.1).mpr hnew)
      rw [visit, if_neg hfile, List.length_cons, Nat.add_right_comm, Function.iterate_succ_apply,
        Visiting.step, if_pos hold]
      exact ih hqueue.2 hunseen hnodup

/-- The files at the front of a queue are visited first, in order. -/
theorem exists_visit_append (front back : List FileId) (hnodup : unseen.Nodup) :
    ∃ rest, visit imports unseen (front ++ back) = (front.filter (· ∈ unseen)).eraseDups ++ rest := by
  induction front generalizing unseen back with
  | nil => exact ⟨_, rfl⟩
  | cons file front ih =>
      rw [List.cons_append, visit]
      by_cases hfile : file ∈ unseen
      · obtain ⟨rest, hrest⟩ := ih (back ++ imports file) (hnodup.erase file)
        have hothers : front.filter (· ∈ unseen.erase file) =
            (front.filter (· ∈ unseen)).filter (!· == file) := by
          rw [List.filter_filter]
          refine List.filter_congr fun g _ => ?_
          rw [Bool.eq_iff_iff]
          simp [hnodup.mem_erase_iff]
        refine ⟨rest, ?_⟩
        rw [if_pos hfile, List.append_assoc, hrest, hothers,
          List.filter_cons_of_pos (by simpa using hfile), List.eraseDups_cons, List.cons_append]
      · obtain ⟨rest, hrest⟩ := ih back hnodup
        refine ⟨rest, ?_⟩
        rw [if_neg hfile, hrest, List.filter_cons_of_neg (by simpa using hfile)]

/-- The new ones among some files, without repetition. -/
theorem newOnes_eq (seen files : List FileId) :
    newOnes seen files = (files.filter (· ∉ seen)).eraseDups := by
  induction files generalizing seen with
  | nil => rfl
  | cons file files ih =>
      rw [newOnes]
      by_cases hfile : file ∈ seen
      · rw [if_pos hfile, ih, List.filter_cons_of_neg (by simpa using hfile)]
      · have hothers : files.filter (· ∉ file :: seen) =
            (files.filter (· ∉ seen)).filter (!· == file) := by
          rw [List.filter_filter]
          refine List.filter_congr fun g _ => ?_
          rw [Bool.eq_iff_iff]
          simp
        rw [if_neg hfile, ih, hothers, List.filter_cons_of_pos (by simpa using hfile),
          List.eraseDups_cons]

/-- What is new is added to what has been seen without repetition. -/
theorem nodup_append_newOnes (h : seen.Nodup) (files : List FileId) :
    (seen ++ newOnes seen files).Nodup := by
  induction files generalizing seen with
  | nil => rwa [newOnes, List.append_nil]
  | cons file files ih =>
      rw [newOnes]
      by_cases hfile : file ∈ seen
      · rw [if_pos hfile]
        exact ih h
      · rw [if_neg hfile]
        exact List.perm_middle.nodup_iff.mpr (ih (List.nodup_cons.mpr ⟨hfile, h⟩))

end

variable {w : Workspace}

/-- An import leads to files of the workspace only. -/
theorem Consistent.mem_order_of_mem_importedFiles (h : w.Consistent) {file g : FileId}
    (hg : g ∈ w.importedFiles file) : g ∈ w.order := by
  unfold importedFiles at hg
  split at hg
  · obtain ⟨path, -, hpath⟩ := List.mem_filterMap.mp hg
    exact (h.found g).mpr ⟨path, hpath⟩
  · exact absurd hg List.not_mem_nil

/-- The search for the files that imports lead to ends, and it lists them. -/
theorem Consistent.iterate_step (h : w.Consistent) (file : FileId) :
    let reached := file :: visit w.importedFiles (w.order.filter (· != file)) (w.importedFiles file)
    (Visiting.step w.importedFiles)^[(reached.flatMap w.importedFiles).length]
      ⟨[file], w.importedFiles file⟩ = ⟨reached, []⟩ := by
  intro reached
  rw [List.flatMap_cons, List.length_append]
  refine Workspace.iterate_step (fun g => h.mem_order_of_mem_importedFiles)
    (fun f g => h.mem_order_of_mem_importedFiles) (fun g hg => ?_) (h.nodup.filter _)
  rw [List.mem_filter, List.mem_singleton, bne_iff_ne]
  exact and_iff_right hg

/-- The files that a file imports directly are visited first. -/
theorem Consistent.exists_visit_importedFiles (h : w.Consistent) (file : FileId) :
    ∃ far, visit w.importedFiles (w.order.filter (· != file)) (w.importedFiles file) =
      ((w.importedFiles file).filter (· != file)).eraseDups ++ far := by
  obtain ⟨far, hfar⟩ := exists_visit_append (w.importedFiles file) [] (h.nodup.filter (· != file))
  refine ⟨far, ?_⟩
  rw [List.append_nil] at hfar
  rw [hfar]
  congr 2
  refine List.filter_congr fun g hg => ?_
  have hknown := h.mem_order_of_mem_importedFiles hg
  rw [Bool.eq_iff_iff, decide_eq_true_iff, List.mem_filter]
  exact and_iff_right hknown

end Workspace

namespace Session

variable {s : Session}

/-- The files in which a name is looked for begin with the file itself and the files that it imports
directly, in the order of its directives. All files that imports lead to follow, no nearer one behind
a farther one, and then the files that are visible everywhere and that no imports lead to. No file is
listed twice and no other file is listed, however files import each other; the search for the files
that imports lead to takes as many rounds as these files have imports. -/
theorem Reachable.searchFiles_nearest (h : s.Reachable) (file : FileId) :
    let w := s.workspace
    let direct := ((w.importedFiles file).filter (· != file)).eraseDups
    ∃ far : List FileId,
      let reached := file :: (direct ++ far)
      w.searchFiles file = reached ++ (w.stubFiles.filter (· ∉ reached)).eraseDups ∧
        (w.searchFiles file).Nodup ∧
        (∀ g, g ∈ w.searchFiles file ↔
          (∃ n, Workspace.ImportChain w.importedFiles file n g) ∨ g ∈ w.stubFiles) ∧
        (∀ g, g ∈ reached ↔ ∃ n, Workspace.ImportChain w.importedFiles file n g) ∧
        (reached.Pairwise fun f g => Workspace.importDistance w.importedFiles file f ≤
          Workspace.importDistance w.importedFiles file g) ∧
        (Workspace.Visiting.step w.importedFiles)^[(reached.flatMap w.importedFiles).length]
          ⟨[file], w.importedFiles file⟩ = ⟨reached, []⟩ := by
  intro w direct
  have hconsistent : w.Consistent := h.sound.consistent h.filed
  obtain ⟨far, hfar⟩ := hconsistent.exists_visit_importedFiles file
  refine ⟨far, ?_⟩
  intro reached
  have hsearch : w.searchFiles file = reached ++ Workspace.newOnes reached w.stubFiles := by
    rw [Workspace.searchFiles, hfar]
  have hrun := hconsistent.iterate_step file
  rw [hfar] at hrun
  have hordered := Workspace.Visiting.ordered_iterate w.importedFiles file
    (reached.flatMap w.importedFiles).length
  rw [hrun] at hordered
  have hreached : ∀ g, g ∈ reached ↔ ∃ n, Workspace.ImportChain w.importedFiles file n g :=
    hordered.mem_listed_iff rfl
  have hmem : ∀ g, g ∈ w.searchFiles file ↔
      (∃ n, Workspace.ImportChain w.importedFiles file n g) ∨ g ∈ w.stubFiles := by
    intro g
    rw [hsearch, ← hreached, Workspace.newOnes_eq, List.mem_append, List.mem_eraseDups,
      List.mem_filter, decide_eq_true_iff]
    by_cases hg : g ∈ reached <;> simp [hg]
  refine ⟨?_, ?_, hmem, hreached, hordered.pairwise_importDistance rfl, hrun⟩
  · rw [hsearch, Workspace.newOnes_eq]
  · rw [hsearch]
    exact Workspace.nodup_append_newOnes hordered.nodup w.stubFiles

/-- Two files that import each other, one of them also itself. -/
def mutualImports : Session :=
  (((ofConfig { loadStubs := false }).replace "/a.tolk" "import \"b\" import \"a\"").2.replace
    "/b.tolk" "import \"a\"").2

theorem mutualImports_workspace :
    mutualImports.workspace.order = [0, 1] ∧ mutualImports.workspace.stubFiles = [] ∧
      mutualImports.workspace.importedFiles 0 = [1, 0] ∧
      mutualImports.workspace.importedFiles 1 = [0] := by
  have ha : Path.normalize "/a.tolk" = "/a.tolk" := by decide +kernel
  have hb : Path.normalize "/b.tolk" = "/b.tolk" := by decide +kernel
  have hfirst : Workspace.importsOf { loadStubs := false } "/a.tolk"
      (parse 0 0 "import \"b\" import \"a\"").tree = ["/b.tolk", "/a.tolk"] := by
    decide +kernel
  have hsecond : Workspace.importsOf { loadStubs := false } "/b.tolk"
      (parse 1 (parse 0 0 "import \"b\" import \"a\"").tree.size "import \"a\"").tree =
        ["/a.tolk"] := by
    decide +kernel
  simp [mutualImports, replace, ofConfig, Workspace.ofConfig, Workspace.replace, Workspace.load,
    Workspace.register, Workspace.empty, Workspace.importedFiles, Workspace.stubFiles, ha, hb,
    hfirst, hsecond, Std.HashMap.getElem?_insert, Std.HashMap.getElem_insert]

/-- The search from the first of them lists both, once each. -/
theorem searchFiles_nearest_mutual :
    let w := mutualImports.workspace
    mutualImports.Reachable ∧ w.searchFiles 0 = [0, 1] ∧
      (∀ g, g ∈ [0, 1] ↔ ∃ n, Workspace.ImportChain w.importedFiles 0 n g) ∧
      (Workspace.Visiting.step w.importedFiles)^[3] ⟨[0], w.importedFiles 0⟩ = ⟨[0, 1], []⟩ := by
  intro w
  obtain ⟨horder, hstubs, hfirst, hsecond⟩ := mutualImports_workspace
  have hreachable : mutualImports.Reachable := .replace (.replace (.start _) _ _) _ _
  have hsearch : w.searchFiles 0 = [0, 1] := by
    simp [w, Workspace.searchFiles, Workspace.visit, Workspace.newOnes, horder, hstubs, hfirst,
      hsecond]
  have hdirect : ((w.importedFiles 0).filter (· != 0)).eraseDups = [1] := by
    rw [hfirst]
    decide
  have hcount : ([0, 1].flatMap w.importedFiles).length = 3 := by
    simp [w, hfirst, hsecond]
  obtain ⟨far, hlist, -, -, hreached, -, hrounds⟩ := hreachable.searchFiles_nearest 0
  rw [hdirect] at hlist hreached hrounds
  -- There are no files that are visible everywhere, so the list is what the search has listed.
  obtain rfl : far = [] := by
    have h := hlist.symm.trans hsearch
    simpa [hstubs] using h
  refine ⟨hreachable, hsearch, hreached, ?_⟩
  rw [← hcount]
  exact hrounds

end Session

end TolkAnalysis
