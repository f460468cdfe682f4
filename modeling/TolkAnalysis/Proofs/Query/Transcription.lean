import TolkAnalysis.Proofs.Decl.Transcription
import TolkAnalysis.Proofs.Session.Workspace
import TolkAnalysis.Proofs.Ty.Reanchoring

/-!
# Queries about trees that are written in another way

`Query.Along φ R q q'` says that `q'` asks about the nodes at the same positions of the other trees
as `q`, and goes on in the same way when it is told that they refer to the declarations at the same
positions and have the types that come from these; the answers are then related by `R`. What a node
refers to may be asked only where a name is written.

`Attempt.Along` and `Search.Along` are the same for the queries that may have no answer and for those
that collect declarations; mostly the second answer is a function of the first, as `Attempt.Maps`
says.
-/

namespace TolkAnalysis

variable {φ : Transcription} {α α' β β' γ : Type}

namespace Query

/-- The second query asks in the other trees what the first one asks, and its answer is related to
that of the first. -/
inductive Along (φ : Transcription) (R : α → α' → Prop) : Query α → Query α' → Prop
  | answer {a : α} {a' : α'} (h : R a a') : Along φ R (.answer a) (.answer a')
  | resolve {n : Node} (hn : φ.SameName n) {next : Option Decl → Query α}
      {next' : Option Decl → Query α'}
      (h : ∀ d : Option Decl, (∀ x ∈ d, x.Titled) → Along φ R (next d) (next' (d.map φ.decl))) :
      Along φ R (.resolve n next) (.resolve (φ.node n) next')
  | infer (n : Node) {next : Option Ty → Query α} {next' : Option Ty → Query α'}
      (h : ∀ t : Option Ty, Along φ R (next t) (next' (t.map (Ty.reanchor φ.decl)))) :
      Along φ R (.infer n next) (.infer (φ.node n) next')

variable {R : α → α' → Prop} {S : β → β' → Prop}

theorem Along.bind {q : Query α} {q' : Query α'} (h : Along φ R q q') {f : α → Query β}
    {f' : α' → Query β'} (hf : ∀ a a', R a a' → Along φ S (f a) (f' a')) :
    Along φ S (q >>= f) (q' >>= f') := by
  induction h with
  | answer h => exact hf _ _ h
  | resolve hn _ ih => exact .resolve hn ih
  | infer n _ ih => exact .infer n ih

theorem Along.mono {q : Query α} {q' : Query α'} (h : Along φ R q q') {R' : α → α' → Prop}
    (hR : ∀ a a', R a a' → R' a a') : Along φ R' q q' := by
  induction h with
  | answer h => exact .answer (hR _ _ h)
  | resolve hn _ ih => exact .resolve hn ih
  | infer n _ ih => exact .infer n ih

theorem along_reference {n : Node} (hn : φ.SameName n) :
    Along φ (fun d d' => (∀ x ∈ d, Decl.Titled x) ∧ d' = d.map φ.decl) (reference n)
      (reference (φ.node n)) := .resolve hn fun _ hd => .answer ⟨hd, rfl⟩

theorem along_typeOf (n : Node) :
    Along φ (fun t t' => t' = t.map (Ty.reanchor φ.decl)) (typeOf n) (typeOf (φ.node n)) :=
  .infer n fun _ => .answer rfl

end Query

namespace Attempt

/-- Both attempts have related answers, or neither has one. -/
def Along (φ : Transcription) (R : α → α' → Prop) (x : Attempt α) (x' : Attempt α') : Prop :=
  Query.Along φ (Option.Rel R) x.run x'.run

/-- The answer of the second attempt is a function of that of the first. -/
def Maps (φ : Transcription) (f : α → α') (x : Attempt α) (x' : Attempt α') : Prop :=
  Along φ (fun a a' => a' = f a) x x'

variable {R : α → α' → Prop} {S : β → β' → Prop} {f : α → α'}

theorem along_pure {a : α} {a' : α'} (h : R a a') : Along φ R (pure a) (pure a') :=
  .answer (.some h)

theorem maps_pure {a : α} {b : α'} (h : b = f a) : Maps φ f (pure a) (pure b) := along_pure h

theorem along_failure : Along φ R failure failure := .answer .none

theorem Along.bind {x : Attempt α} {x' : Attempt α'} (h : Along φ R x x') {k : α → Attempt β}
    {k' : α' → Attempt β'} (hk : ∀ a a', R a a' → Along φ S (k a) (k' a')) :
    Along φ S (x >>= k) (x' >>= k') := by
  refine Query.Along.bind h fun o o' ho => ?_
  cases ho with
  | some h => exact hk _ _ h
  | none => exact .answer .none

theorem Maps.bind {x : Attempt α} {x' : Attempt α'} (h : Maps φ f x x') {k : α → Attempt β}
    {k' : α' → Attempt β'} (hk : ∀ a, Along φ S (k a) (k' (f a))) :
    Along φ S (x >>= k) (x' >>= k') :=
  Along.bind h fun a _ ha => ha ▸ hk a

theorem maps_ofOption {o : Option α} {o' : Option α'} (h : o' = o.map f) :
    Maps φ f (ofOption o) (ofOption o') := by
  subst h
  cases o with
  | none => exact .answer .none
  | some a => exact .answer (.some rfl)

/-- A part of a node, if the node has it. -/
theorem bind_ofOption {o : Option α} {o' : Option α'} (h : o' = o.map f) {k : α → Attempt β}
    {k' : α' → Attempt β'} (hk : ∀ a ∈ o, Along φ S (k a) (k' (f a))) :
    Along φ S (ofOption o >>= k) (ofOption o' >>= k') := by
  subst h
  cases o with
  | none => exact .answer .none
  | some a => exact hk a rfl

theorem Maps.answer? {x : Attempt α} {x' : Attempt α'} (h : Maps φ f x x') :
    Maps φ (Option.map f) x.answer? x'.answer? := by
  refine Query.Along.bind h fun o o' ho => .answer (.some ?_)
  cases ho with
  | some h => exact congrArg some h
  | none => rfl

theorem Maps.along_run {x : Attempt α} {x' : Attempt α'} (h : Maps φ f x x') :
    Query.Along φ (fun o o' => o' = o.map f) x.run x'.run :=
  Query.Along.mono h fun o o' ho => by
    cases ho with
    | some h => exact congrArg some h
    | none => rfl

theorem Maps.getD {x : Attempt α} {x' : Attempt α'} (h : Maps φ f x x') {a : α} {a' : α'}
    (ha : a' = f a) : Maps φ f (x.getD a) (x'.getD a') :=
  h.answer?.bind fun o => maps_pure (by
    subst ha
    cases o <;> rfl)

theorem maps_mapM {g : γ → Attempt α} {δ : Type} {g' : δ → Attempt α'} {e : γ → δ}
    (h : ∀ c, Maps φ f (g c) (g' (e c))) (cs : List γ) :
    Maps φ (List.map f) (cs.mapM g) ((cs.map e).mapM g') := by
  induction cs with
  | nil => exact maps_pure rfl
  | cons c cs ih =>
      rw [List.map_cons, List.mapM_cons, List.mapM_cons]
      exact (h c).bind fun a => ih.bind fun as => maps_pure rfl

end Attempt

namespace Search

/-- Both searches collect the same declarations, and end or go on with related answers. -/
def Along (φ : Transcription) (R : α → α' → Prop) (q : Search α) (q' : Search α') : Prop :=
  ∀ found : Array Decl, (∀ d ∈ found, Decl.Titled d) → Query.Along φ
    (fun r r' => (∀ d ∈ r.2, Decl.Titled d) ∧ r'.2 = r.2.map φ.decl ∧
      ((∃ a a', R a a' ∧ r.1 = .ok a ∧ r'.1 = .ok a') ∨ r.1 = .error () ∧ r'.1 = .error ()))
    ((q.run).run found) ((q'.run).run (found.map φ.decl))

variable {R : α → α' → Prop} {S : β → β' → Prop}

theorem along_pure {a : α} {a' : α'} (h : R a a') : Along φ R (pure a) (pure a') :=
  fun _ hfound => .answer ⟨hfound, rfl, .inl ⟨a, a', h, rfl, rfl⟩⟩

theorem Along.bind {q : Search α} {q' : Search α'} (h : Along φ R q q') {k : α → Search β}
    {k' : α' → Search β'} (hk : ∀ a a', R a a' → Along φ S (k a) (k' a')) :
    Along φ S (q >>= k) (q' >>= k') := by
  intro found hfound
  refine Query.Along.bind (h found hfound) ?_
  rintro ⟨r, found⟩ ⟨r', found'⟩ ⟨hfound, hfound', ⟨a, a', ha, rfl, rfl⟩ | ⟨rfl, rfl⟩⟩
  · obtain rfl : found' = found.map φ.decl := hfound'
    exact hk a a' ha found hfound
  · exact .answer ⟨hfound, hfound', .inr ⟨rfl, rfl⟩⟩

theorem along_liftM {q : Query α} {q' : Query α'} (h : Query.Along φ R q q') :
    Along φ R (liftM q) (liftM q') := by
  intro found hfound
  have hstate : Query.Along φ
      (fun (r : α × Array Decl) (r' : α' × Array Decl) =>
        r.2 = found ∧ r'.2 = found.map φ.decl ∧ R r.1 r'.1)
      (q >>= fun a => pure (a, found)) (q' >>= fun a' => pure (a', found.map φ.decl)) :=
    h.bind fun a a' ha => .answer ⟨rfl, rfl, ha⟩
  refine Query.Along.bind hstate ?_
  rintro ⟨a, _⟩ ⟨a', _⟩ ⟨rfl, rfl, ha⟩
  exact .answer ⟨hfound, rfl, .inl ⟨a, a', ha, rfl, rfl⟩⟩

theorem along_resolve (l l' : Lookup) {n : Node} (hn : n.Named) :
    Along φ (fun d d' => (∀ x ∈ d, Decl.Titled x) ∧ d' = d.map φ.decl) (l.resolve n)
      (l'.resolve (φ.node n)) := along_liftM (Query.along_reference (φ.sameName_node hn))

theorem along_infer (l l' : Lookup) (n : Node) :
    Along φ (fun t t' => t' = t.map (Ty.reanchor φ.decl)) (l.infer n) (l'.infer (φ.node n)) :=
  along_liftM (Query.along_typeOf n)

/-- One search after another for each member of a list. -/
theorem along_forM {δ : Type} {f : γ → Search Unit} {f' : δ → Search Unit} {e : γ → δ}
    {cs : List γ} (h : ∀ c ∈ cs, Along φ (fun _ _ => True) (f c) (f' (e c))) :
    Along φ (fun _ _ => True) (cs.forM f) ((cs.map e).forM f') := by
  induction cs with
  | nil => exact along_pure trivial
  | cons c cs ih =>
      rw [List.forall_mem_cons] at h
      exact h.1.bind fun _ _ _ => ih h.2

theorem along_filterM {δ : Type} {f : γ → Search Bool} {f' : δ → Search Bool} {e : γ → δ}
    {cs : List γ} (h : ∀ c ∈ cs, Along φ Eq (f c) (f' (e c))) :
    Along φ (fun kept kept' => kept' = kept.map e) (cs.filterM f) ((cs.map e).filterM f') := by
  have aux : ∀ cs kept : List γ, (∀ c ∈ cs, Along φ Eq (f c) (f' (e c))) →
      Along φ (fun kept kept' => kept' = kept.map e) (cs.filterAuxM f kept)
        ((cs.map e).filterAuxM f' (kept.map e)) := by
    intro cs
    induction cs with
    | nil => exact fun kept _ => along_pure rfl
    | cons c cs ih =>
        intro kept h
        rw [List.forall_mem_cons] at h
        rw [List.map_cons, List.filterAuxM, List.filterAuxM]
        refine h.1.bind fun b b' hb => ?_
        subst hb
        have hkept := ih (if b then c :: kept else kept) h.2
        cases b <;> exact hkept
  refine (aux cs [] h).bind fun kept kept' hkept => along_pure ?_
  rw [hkept, List.map_reverse]

end Search

/-! ### Workspaces -/

/-- The files of the second workspace hold the trees that the transcription makes of those of the
first. -/
structure Workspace.Along (φ : Transcription) (w w' : Workspace) : Prop where
  sound : w.Sound
  sound' : w'.Sound
  config : w'.config = w.config
  order : w'.order = w.order
  byPath : w'.byPath = w.byPath
  stubs : w'.stubs = w.stubs
  loaded : w'.loaded = w.loaded
  tree : ∀ file, w'.tree? file = (w.tree? file).map φ.tree
  imports : ∀ file, w'.importedFiles file = w.importedFiles file

/-- The second index lists the declarations at the same positions of the other trees. -/
structure FileIndex.Along (φ : Transcription) (x x' : FileIndex) : Prop where
  elements : ∀ category, x'.elements category = (x.elements category).map φ.decl
  byName : ∀ category name, x'.byName category name = (x.byName category name).map φ.decl

namespace Workspace.Along

variable {w w' : Workspace}

theorem searchFiles (h : w.Along φ w') (file : FileId) :
    w'.searchFiles file = w.searchFiles file := by
  have himports : w'.importedFiles = w.importedFiles := funext h.imports
  unfold Workspace.searchFiles Workspace.stubFiles
  rw [himports, h.order, h.stubs, h.config, h.byPath]

theorem filesFrom (h : w.Along φ w') (file : FileId) : w'.filesFrom file = w.filesFrom file := by
  rw [Workspace.filesFrom, h.searchFiles, h.order, Workspace.filesFrom]

theorem index?_eq (hw : w.Sound) (file : FileId) :
    w.index? file = (w.tree? file).map FileIndex.ofTree := by
  unfold Workspace.index? Workspace.tree?
  cases hf : w.files[file]? with
  | none => rfl
  | some source => exact congrArg some (hw.index hf)

theorem titled_of_mem_elements (hw : w.Sound) {file : FileId} {index : FileIndex}
    (hindex : w.index? file = some index) {category : Category} {d : Decl}
    (hd : d ∈ index.elements category) : d.Titled := by
  rw [index?_eq hw] at hindex
  obtain ⟨t, -, rfl⟩ := Option.map_eq_some_iff.mp hindex
  exact Decl.titled_of_ofNode? (FileIndex.exists_of_mem_elements hd).2.1

/-- The files of a list declare the same. -/
theorem indexes (h : w.Along φ w') (files : List FileId) :
    List.Forall₂ (FileIndex.Along φ) (files.filterMap w.index?) (files.filterMap w'.index?) := by
  induction files with
  | nil => exact .nil
  | cons file files ih =>
      rw [List.filterMap_cons, List.filterMap_cons, index?_eq h.sound, index?_eq h.sound', h.tree]
      cases w.tree? file with
      | none => exact ih
      | some t => exact .cons ⟨φ.elements_ofTree t, φ.byName_ofTree t⟩ ih

theorem methodsFrom (h : w.Along φ w') (file : FileId) :
    w'.methodsFrom file = (w.methodsFrom file).map φ.decl := by
  rw [Workspace.methodsFrom, h.filesFrom, Workspace.methodsFrom]
  have hindexes := h.indexes (w.filesFrom file)
  generalize (w.filesFrom file).filterMap w.index? = xs at hindexes
  generalize (w.filesFrom file).filterMap w'.index? = xs' at hindexes
  induction hindexes with
  | nil => rfl
  | cons hx _ ih => rw [List.flatMap_cons, List.flatMap_cons, ih, hx.elements, List.map_append]

theorem titled_of_mem_methodsFrom (hw : w.Sound) {file : FileId} {d : Decl}
    (hd : d ∈ w.methodsFrom file) : d.Titled := by
  obtain ⟨index, hindex, hd⟩ := List.mem_flatMap.mp hd
  obtain ⟨f, -, hindex⟩ := List.mem_filterMap.mp hindex
  exact titled_of_mem_elements hw hindex hd

theorem titled_of_nearest? (hw : w.Sound) {file : FileId} {category : Category} {name : String}
    {d : Decl} (hd : ((w.searchFiles file).filterMap w.index?).findSome?
      (fun index => (index.byName category name).head?) = some d) : d.Titled := by
  obtain ⟨index, hindex, hd⟩ := List.exists_of_findSome?_eq_some hd
  obtain ⟨f, -, hindex⟩ := List.mem_filterMap.mp hindex
  have hof := hindex
  rw [index?_eq hw] at hof
  obtain ⟨t, -, rfl⟩ := Option.map_eq_some_iff.mp hof
  exact titled_of_mem_elements hw hindex
    (FileIndex.mem_elements_of_mem_byName (List.mem_of_head? hd)).1

/-- The nearest declaration of a name in a category is the same. -/
theorem nearest? (h : w.Along φ w') (file : FileId) (category : Category) (name : String) :
    ((w'.searchFiles file).filterMap w'.index?).findSome?
        (fun index => (index.byName category name).head?) =
      (((w.searchFiles file).filterMap w.index?).findSome?
        fun index => (index.byName category name).head?).map φ.decl := by
  rw [h.searchFiles]
  have hindexes := h.indexes (w.searchFiles file)
  generalize (w.searchFiles file).filterMap w.index? = xs at hindexes
  generalize (w.searchFiles file).filterMap w'.index? = xs' at hindexes
  induction hindexes with
  | nil => rfl
  | @cons x x' _ _ hx _ ih =>
      rw [List.findSome?_cons, List.findSome?_cons, ih, hx.byName, List.head?_map]
      cases (x.byName category name).head? <;> rfl

end Workspace.Along

end TolkAnalysis
