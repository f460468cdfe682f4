import TolkAnalysis.Proofs.Grammar.Respelled
import TolkAnalysis.Proofs.Inference.Transcription
import TolkAnalysis.Proofs.Resolution.Transcription
import TolkAnalysis.Proofs.Session.Registry

/-!
# Sessions on texts that are written in another way

The memo tables of two sessions may hold the same about the nodes at the same positions of trees of
which the ones are the others in another spelling. Every question about such nodes keeps this, and
the answers tell of the declarations at the same positions, since the rules ask the same questions
in both sessions (`Workspace.follows_oracleWithin`).

So sessions on texts that differ only in the spelling of names answer alike:
`Session.answers_transcribed`.
-/

namespace TolkAnalysis

variable {φ : Transcription} {α α' : Type}

/-! ### Memo tables -/

namespace QueryCache

variable {κ : Type} [DecidableEq κ] [Hashable κ] {R : Option α → Option α → Prop}
  {c c' : QueryCache κ α}

/-- The same keys have answers, which are related, and the same keys are in flight. -/
structure Along (R : Option α → Option α → Prop) (c c' : QueryCache κ α) : Prop where
  values : ∀ k : κ, Option.Rel R c.values[k]? c'.values[k]?
  inFlight : ∀ k : κ, k ∈ c.inFlight ↔ k ∈ c'.inFlight

namespace Along

theorem find? (h : Along R c c') (hnone : R none none) (key : κ) :
    Option.Rel R (c.find? key) (c'.find? key) := by
  have hinFlight : c'.inFlight.contains key = c.inFlight.contains key :=
    Bool.eq_iff_iff.mpr (h.inFlight key).symm
  have hvalues := h.values key
  unfold QueryCache.find?
  rw [hinFlight]
  cases hvalue : c.values[key]? <;> cases hvalue' : c'.values[key]? <;>
    rw [hvalue, hvalue'] at hvalues
  · dsimp only
    split
    · exact .some hnone
    · exact .none
  · cases hvalues
  · cases hvalues
  · exact hvalues

theorem enter (h : Along R c c') (key : κ) : Along R (c.enter key) (c'.enter key) :=
  ⟨h.values, fun k => by simp only [QueryCache.enter, Std.HashSet.mem_insert, h.inFlight k]⟩

theorem leave [LawfulHashable κ] (h : Along R c c') (key : κ) {value value' : Option α}
    (hvalue : R value value') : Along R (c.leave key value) (c'.leave key value') := by
  refine ⟨fun k => ?_, fun k => ?_⟩
  · rw [leave_values, leave_values]
    split
    · exact .some hvalue
    · exact h.values k
  · simp only [QueryCache.leave, Std.HashSet.mem_erase, h.inFlight k]

end Along

end QueryCache

namespace Caches

/-- The tables hold the same about the nodes at the same positions of the other trees. -/
structure Along (φ : Transcription) (c c' : Caches) : Prop where
  resolve : c.resolve.Along (fun d d' => (∀ x ∈ d, x.Titled) ∧ d' = d.map φ.decl) c'.resolve
  types : c.types.Along (fun t t' => t' = t.map (Ty.reanchor φ.decl)) c'.types

theorem Idle.along_clear {c c' : Caches} (h : c.Idle) (h' : c'.Idle) :
    c.clear.Along φ c'.clear := by
  have hempty {key : NodeKey} {β : Type} : (∅ : Std.HashMap NodeKey (Option β))[key]? = none :=
    Std.HashMap.getElem?_empty
  refine ⟨⟨fun k => ?_, fun k => iff_of_false (h.resolve k) (h'.resolve k)⟩,
    ⟨fun k => ?_, fun k => iff_of_false (h.types k) (h'.types k)⟩⟩
  · change Option.Rel _ (∅ : Std.HashMap _ _)[k]? (∅ : Std.HashMap _ _)[k]?
    rw [hempty]
    exact .none
  · change Option.Rel _ (∅ : Std.HashMap _ _)[k]? (∅ : Std.HashMap _ _)[k]?
    rw [hempty]
    exact .none

/-- On tables that hold the same both computations have related answers, and they leave tables that
hold the same. -/
def Follows (φ : Transcription) (R : α → α' → Prop) (f : StateM Caches α)
    (f' : StateM Caches α') : Prop :=
  ∀ c c' : Caches, c.Along φ c' → R (f c).1 (f' c').1 ∧ (f c).2.Along φ (f' c').2

/-- What a part of the tables has to do so that a question answered in it is answered alike. -/
structure Carries (φ : Transcription) (R : Option α → Option α → Prop)
    (part : QueryCache.Part Caches NodeKey α) : Prop where
  get : ∀ {c c' : Caches}, c.Along φ c' → (part.get c).Along R (part.get c')
  modify : ∀ {c c' : Caches} {f f' : QueryCache NodeKey α → QueryCache NodeKey α},
    (∀ {t t'}, t.Along R t' → (f t).Along R (f' t')) → c.Along φ c' →
      (part.modify f c).Along φ (part.modify f' c')

theorem Carries.follows_getOrCompute {R : Option α → Option α → Prop}
    {part : QueryCache.Part Caches NodeKey α} (hpart : Carries φ R part) (hnone : R none none)
    (key : NodeKey) {compute compute' : StateM Caches (Option α)}
    (hcompute : Follows φ R compute compute') :
    Follows φ R (QueryCache.getOrCompute part key compute)
      (QueryCache.getOrCompute part key compute') := by
  intro c c' h
  have hfind := (hpart.get h).find? hnone key
  cases hc : (part.get c).find? key <;> cases hc' : (part.get c').find? key <;>
    rw [hc, hc'] at hfind
  · rw [QueryCache.getOrCompute_of_new hc, QueryCache.getOrCompute_of_new hc']
    obtain ⟨hvalue, hafter⟩ := hcompute _ _ (hpart.modify (fun ht => ht.enter key) h)
    exact ⟨hvalue, hpart.modify (fun ht => ht.leave key hvalue) hafter⟩
  · cases hfind
  · cases hfind
  · rw [QueryCache.getOrCompute_of_find? hc, QueryCache.getOrCompute_of_find? hc']
    cases hfind with
    | some hvalue => exact ⟨hvalue, h⟩

theorem carries_resolvePart :
    Carries φ (fun d d' => (∀ x ∈ d, Decl.Titled x) ∧ d' = d.map φ.decl) resolvePart :=
  ⟨fun h => h.resolve, fun hf h => ⟨hf h.resolve, h.types⟩⟩

theorem carries_typesPart :
    Carries φ (fun t t' => t' = t.map (Ty.reanchor φ.decl)) typesPart :=
  ⟨fun h => h.types, fun hf h => ⟨h.resolve, hf h.types⟩⟩

end Caches

/-- Each question is answered alike. -/
structure Oracle.Along (φ : Transcription) (ask ask' : Oracle) : Prop where
  resolve : ∀ n : Node, φ.SameName n → Caches.Follows φ
    (fun d d' => (∀ x ∈ d, Decl.Titled x) ∧ d' = d.map φ.decl) (ask.resolve n)
    (ask'.resolve (φ.node n))
  infer : ∀ n : Node, Caches.Follows φ (fun t t' => t' = t.map (Ty.reanchor φ.decl)) (ask.infer n)
    (ask'.infer (φ.node n))

theorem Query.Along.follows_run {R : α → α' → Prop} {q : Query α} {q' : Query α'}
    (h : Query.Along φ R q q') {ask ask' : Oracle} (hask : ask.Along φ ask') :
    Caches.Follows φ R (q.run ask) (q'.run ask') := by
  induction h with
  | answer h => exact fun _ _ hc => ⟨h, hc⟩
  | resolve hn _ ih =>
      intro c c' hc
      obtain ⟨⟨htitled, hanswer⟩, hafter⟩ := hask.resolve _ hn _ _ hc
      rw [Query.run_resolve, Query.run_resolve, hanswer]
      exact ih _ htitled _ _ hafter
  | infer n _ ih =>
      intro c c' hc
      obtain ⟨hanswer, hafter⟩ := hask.infer n _ _ hc
      rw [Query.run_infer, Query.run_infer, hanswer]
      exact ih _ _ _ hafter

namespace Workspace.Along

variable {w w' : Workspace}

/-- Every question about a node is answered alike, however deep the chain of questions may go. -/
theorem oracleWithin (h : w.Along φ w') (depth : Nat) :
    (w.oracleWithin depth).Along φ (w'.oracleWithin depth) := by
  induction depth with
  | zero =>
      refine ⟨fun n _ c c' hc => ?_, fun n c c' hc => ?_⟩
      · rw [oracleWithin_zero_resolve, oracleWithin_zero_resolve]
        exact ⟨⟨nofun, rfl⟩, hc⟩
      · rw [oracleWithin_zero_infer, oracleWithin_zero_infer]
        exact ⟨rfl, hc⟩
  | succ depth ih =>
      refine ⟨fun n hn => ?_, fun n => ?_⟩
      · rw [oracleWithin_succ_resolve, oracleWithin_succ_resolve, φ.key_node]
        exact Caches.carries_resolvePart.follows_getOrCompute ⟨nofun, rfl⟩ n.key
          ((Resolution.along_first h hn).follows_run ih)
      · rw [oracleWithin_succ_infer, oracleWithin_succ_infer, φ.key_node]
        have hrule : Attempt.Maps φ (Ty.reanchor φ.decl) (Inference.nodeType ⟨w⟩ n)
            (Inference.nodeType ⟨w'⟩ (φ.node n)) := Inference.maps_nodeType h n
        exact Caches.carries_typesPart.follows_getOrCompute rfl n.key
          (hrule.along_run.follows_run ih)

theorem oracle (h : w.Along φ w') : w.oracle.Along φ w'.oracle := by
  rw [oracle_eq, oracle_eq, h.loaded]
  exact h.oracleWithin _

end Workspace.Along

/-! ### Workspaces -/

namespace Workspace

/-- The import directives of a tree lead to the same paths, however names are spelled in it. -/
theorem importsOf_transcribes {t t' : Tree} (h : t.Transcribes t') (config : SessionConfig)
    (path : String) : importsOf config path t' = importsOf config path t := by
  classical
  let φ : Transcription := ⟨fun u => if u = t then t' else u, fun u => by
    split
    · rename_i hu
      exact hu ▸ h
    · exact .refl u⟩
  have ht : φ.tree t = t' := if_pos rfl
  have hpaths : ((φ.tree t).rootNode.childrenOfKind .importDirective).filterMap (·.child? .path) =
      ((t.rootNode.childrenOfKind .importDirective).filterMap (·.child? .path)).map φ.node := by
    rw [φ.node_rootNode, φ.childrenOfKind_node, List.filterMap_map, List.map_filterMap]
    exact List.filterMap_congr fun n _ => φ.child?_node n .path
  rw [← ht, importsOf, hpaths, List.filterMap_map, importsOf]
  refine List.filterMap_congr fun n hn => ?_
  obtain ⟨p, -, hp⟩ := List.mem_filterMap.mp hn
  rw [Function.comp_apply, φ.text_node (Node.mem_verbatim_path hp)]

/-- The second workspace has the same files, and their trees are written in another way. -/
structure Transcribes (w w' : Workspace) : Prop where
  sound : w.Sound
  sound' : w'.Sound
  config : w'.config = w.config
  order : w'.order = w.order
  byPath : w'.byPath = w.byPath
  stubs : w'.stubs = w.stubs
  nextFile : w'.nextFile = w.nextFile
  loaded : w'.loaded = w.loaded
  files : ∀ file : FileId, Option.Rel (fun source source' : SourceFile =>
    source.tree.Transcribes source'.tree ∧ source'.imports = source.imports)
    w.files[file]? w'.files[file]?

namespace Transcribes

variable {w w' : Workspace}

theorem refl (hw : w.Sound) : w.Transcribes w where
  sound := hw
  sound' := hw
  config := rfl
  order := rfl
  byPath := rfl
  stubs := rfl
  nextFile := rfl
  loaded := rfl
  files file := by
    cases w.files[file]? with
    | none => exact .none
    | some source => exact .some ⟨.refl _, rfl⟩

/-- A file is known to both workspaces or to neither. -/
theorem file_cases (h : w.Transcribes w') (file : FileId) :
    (w.files[file]? = none ∧ w'.files[file]? = none) ∨ ∃ source source' : SourceFile,
      w.files[file]? = some source ∧ w'.files[file]? = some source' ∧
        source.tree.Transcribes source'.tree ∧ source'.imports = source.imports := by
  have hfile := h.files file
  generalize w.files[file]? = o at hfile
  generalize w'.files[file]? = o' at hfile
  cases hfile with
  | none => exact .inl ⟨rfl, rfl⟩
  | some hsource => exact .inr ⟨_, _, rfl, rfl, hsource⟩

theorem register (h : w.Transcribes w') (path : String) :
    (w'.register path).1 = (w.register path).1 ∧
      (w.register path).2.Transcribes (w'.register path).2 := by
  have hsound := (h.sound.register path).sound
  have hsound' := (h.sound'.register path).sound
  unfold Workspace.register at hsound hsound' ⊢
  rw [h.byPath] at hsound' ⊢
  cases hpath : w.byPath[path]? with
  | some file => exact ⟨rfl, h⟩
  | none =>
      rw [hpath] at hsound hsound'
      exact ⟨h.nextFile,
        { sound := hsound
          sound' := hsound'
          config := h.config
          order := congrArg₂ (fun order file => order ++ [file]) h.order h.nextFile
          byPath := congrArg (w.byPath.insert path) h.nextFile
          stubs := h.stubs
          nextFile := congrArg (· + 1) h.nextFile
          loaded := h.loaded
          files := h.files }⟩

theorem load (h : w.Transcribes w') (path : String) {text text' : String}
    (htext : ∀ file stamp, (parse file stamp text).tree.Transcribes (parse file stamp text').tree) :
    (w.load path text).2.Transcribes (w'.load path text').2 := by
  obtain ⟨hfile, hregister⟩ := h.register path
  have hsound := h.sound.load path text
  have hsound' := h.sound'.load path text'
  have htree := htext (w.register path).1 (w.register path).2.loaded
  unfold Workspace.load at hsound hsound' ⊢
  dsimp only at hsound hsound' ⊢
  rw [hfile, hregister.loaded] at hsound' ⊢
  refine
    { sound := hsound
      sound' := hsound'
      config := hregister.config
      order := hregister.order
      byPath := hregister.byPath
      stubs := hregister.stubs
      nextFile := hregister.nextFile
      loaded := ?_
      files := fun file => ?_ }
  · exact congrArg ((w.register path).2.loaded + ·) htree.size_eq
  · dsimp only
    rw [Std.HashMap.getElem?_insert, Std.HashMap.getElem?_insert]
    split
    · refine .some ⟨htree, ?_⟩
      dsimp only
      rw [hregister.config]
      exact importsOf_transcribes htree _ _
    · exact hregister.files file

/-- A file is forgotten in both workspaces, or both refuse. -/
theorem remove (h : w.Transcribes w') (path : String) :
    (∃ reason, w.remove path = .error reason ∧ w'.remove path = .error reason) ∨
      ∃ v v', w.remove path = .ok v ∧ w'.remove path = .ok v' ∧ v.Transcribes v' := by
  cases hpath : w.byPath[Path.normalize path]? with
  | none =>
      refine .inl ⟨.unknownPath (Path.normalize path), ?_, ?_⟩
      · simp only [Workspace.remove, hpath]
      · simp only [Workspace.remove, h.byPath, hpath]
  | some file =>
      have hv : w.remove path = .ok { w with
          byPath := w.byPath.erase (Path.normalize path)
          files := w.files.erase file
          order := w.order.filter (· != file) } := by
        simp only [Workspace.remove, hpath]
      have hv' : w'.remove path = .ok { w' with
          byPath := w'.byPath.erase (Path.normalize path)
          files := w'.files.erase file
          order := w'.order.filter (· != file) } := by
        simp only [Workspace.remove, h.byPath, hpath]
      refine .inr ⟨_, _, hv, hv',
        { sound := h.sound.remove hv
          sound' := h.sound'.remove hv'
          config := h.config
          order := congrArg (List.filter (· != file)) h.order
          byPath := congrArg (Std.HashMap.erase · _) h.byPath
          stubs := h.stubs
          nextFile := h.nextFile
          loaded := h.loaded
          files := fun f => ?_ }⟩
      dsimp only
      rw [Std.HashMap.getElem?_erase, Std.HashMap.getElem?_erase]
      split
      · exact .none
      · exact h.files f

open Classical in
/-- A transcription leads from the current trees of the first workspace to those of the second. -/
theorem exists_along (h : w.Transcribes w') : ∃ φ : Transcription, w.Along φ w' := by
  let tree (t : Tree) : Tree :=
    if w.tree? t.file = some t then (w'.tree? t.file).getD t else t
  have transcribes (t : Tree) : t.Transcribes (tree t) := by
    unfold tree
    split
    · rename_i ht
      obtain ⟨hf, -⟩ | ⟨source, source', hf, hf', hsource, -⟩ := h.file_cases t.file
      · rw [tree?, hf] at ht
        cases ht
      · rw [tree?, hf] at ht
        rw [tree?, hf', ← Option.some.inj ht]
        exact hsource
    · exact .refl t
  refine ⟨⟨tree, transcribes⟩,
    { sound := h.sound
      sound' := h.sound'
      config := h.config
      order := h.order
      byPath := h.byPath
      stubs := h.stubs
      loaded := h.loaded
      tree := fun file => ?_
      imports := fun file => ?_ }⟩
  · obtain ⟨hf, hf'⟩ | ⟨source, source', hf, hf', -⟩ := h.file_cases file
    · rw [tree?, hf', tree?, hf]
      rfl
    · have ht : w.tree? file = some source.tree := congrArg (Option.map SourceFile.tree) hf
      have ht' : w'.tree? file = some source'.tree := congrArg (Option.map SourceFile.tree) hf'
      rw [ht, ht', Option.map_some]
      refine congrArg some ?_
      dsimp only [tree]
      rw [h.sound.file_eq hf, if_pos ht, ht', Option.getD_some]
  · unfold importedFiles
    rw [h.byPath]
    obtain ⟨hf, hf'⟩ | ⟨source, source', hf, hf', -, himports⟩ := h.file_cases file
    · rw [hf, hf']
    · rw [hf, hf']
      dsimp only
      rw [himports]

end Transcribes

end Workspace

namespace Session

/-- The second change is the same, but names may be written in backticks in its text. -/
inductive Change.Respelled : Change → Change → Prop
  | replace (path : String) {text text' : String} (h : Text.Respelled text text') :
      Respelled (.replace path text) (.replace path text')
  | remove (path : String) : Respelled (.remove path) (.remove path)

/-- The second session has the same files, written in another way, and remembers the same. -/
structure Along (φ : Transcription) (s s' : Session) : Prop where
  workspace : s.workspace.Along φ s'.workspace
  caches : s.caches.Along φ s'.caches

namespace Along

variable {s s' : Session}

theorem ask (h : s.Along φ s') {R : α → α' → Prop} (query : Workspace → Query α)
    (query' : Workspace → Query α')
    (hquery : Query.Along φ R (query s.workspace) (query' s'.workspace)) :
    R (Session.ask query s).1 (Session.ask query' s').1 ∧
      (Session.ask query s).2.Along φ (Session.ask query' s').2 := by
  obtain ⟨hanswer, hcaches⟩ := hquery.follows_run h.workspace.oracle _ _ h.caches
  exact ⟨hanswer, h.workspace, hcaches⟩

end Along

/-- Changes to texts that are spelled in another way lead to files that are written so. -/
theorem transcribes_change {s s' : Session} (h : s.workspace.Transcribes s'.workspace)
    {c c' : Change} (hc : c.Respelled c') :
    (c.run s).2.workspace.Transcribes (c'.run s').2.workspace := by
  cases hc with
  | replace path htext => exact h.load (Path.normalize path) htext.transcribes_parse
  | remove path =>
      obtain ⟨reason, hw, hw'⟩ | ⟨v, v', hw, hw', hv⟩ := h.remove path
      · simp only [Change.run, Session.remove, hw, hw']
        exact h
      · simp only [Change.run, Session.remove, hw, hw']
        exact hv

/-- Sessions that read texts which are spelled in another way have files that are written so. -/
theorem transcribes_afterSteps {s s' : Session} (h : s.workspace.Transcribes s'.workspace)
    {steps steps' : List Step}
    (hchanges : List.Forall₂ Change.Respelled (changes steps) (changes steps')) :
    (s.afterSteps steps).workspace.Transcribes (s'.afterSteps steps').workspace := by
  rw [workspace_afterSteps (s := s) rfl steps, workspace_afterSteps (s := s') rfl steps']
  generalize changes steps = cs at hchanges
  generalize changes steps' = cs' at hchanges
  induction hchanges generalizing s s' with
  | nil => exact h
  | cons hc _ ih => exact ih (transcribes_change h hc)

/-- The request asks which type a node has, or what a node refers to at which both trees have the
same name. -/
def Request.IsQuestion (φ : Transcription) : Request → Prop
  | .resolve n => φ.SameName n
  | .inferType _ => True
  | _ => False

/-- The question about the node at the same position of the other tree. -/
def Request.transcribe (φ : Transcription) : Request → Request
  | .resolve n => .resolve (φ.node n)
  | .inferType n => .inferType (φ.node n)
  | request => request

/-- The answer with the declarations at the same positions of the other trees. -/
def Answer.transcribe (φ : Transcription) : Answer → Answer
  | .declaration d => .declaration (d.map φ.decl)
  | .type t => .type (t.map (Ty.reanchor φ.decl))
  | answer => answer

theorem Along.request {s s' : Session} (h : s.Along φ s') {request : Request}
    (hrequest : request.IsQuestion φ) :
    (request.transcribe φ).answer s' = (request.answer s).transcribe φ ∧
      (request.after s).Along φ ((request.transcribe φ).after s') := by
  cases request with
  | resolve n =>
      obtain ⟨⟨-, hanswer⟩, hafter⟩ := h.ask (fun _ => .reference n)
        (fun _ => .reference (φ.node n)) (Query.along_reference hrequest)
      exact ⟨congrArg Answer.declaration hanswer, hafter⟩
  | inferType n =>
      obtain ⟨hanswer, hafter⟩ := h.ask (fun _ => .typeOf n) (fun _ => .typeOf (φ.node n))
        (Query.along_typeOf n)
      exact ⟨congrArg Answer.type hanswer, hafter⟩
  | resolveAll _ | estimateSize _ | declType _ | references _ _ => exact hrequest.elim

theorem Along.answers {s s' : Session} (h : s.Along φ s') {requests : List Request}
    (hrequests : ∀ request ∈ requests, request.IsQuestion φ) :
    s'.answers (requests.map fun request => .ask (request.transcribe φ)) =
      (s.answers (requests.map .ask)).map (Answer.transcribe φ) := by
  induction requests generalizing s s' with
  | nil => rfl
  | cons request requests ih =>
      rw [List.forall_mem_cons] at hrequests
      obtain ⟨hanswer, hafter⟩ := h.request hrequests.1
      exact congrArg₂ List.cons hanswer (ih hafter hrequests.2)

/-- The texts of two sessions differ only in names that are written in backticks in the second one.
Then a transcription leads from the current trees of one to those of the other, and after the answers
have been forgotten, as after each change, all questions are answered alike: a name refers to the
declaration at the same position, and the type of a node has the same names and comes from the
declarations at the same positions. -/
theorem answers_respelled (config : SessionConfig) {steps steps' : List Step}
    (hchanges : List.Forall₂ Change.Respelled (changes steps) (changes steps')) :
    ∃ φ : Transcription,
      (∀ file, ((ofConfig config).afterSteps steps').workspace.tree? file =
        (((ofConfig config).afterSteps steps).workspace.tree? file).map φ.tree) ∧
      ∀ requests : List Request, (∀ request ∈ requests, request.IsQuestion φ) →
        ((ofConfig config).afterSteps steps').clear.answers
            (requests.map fun request => .ask (request.transcribe φ)) =
          (((ofConfig config).afterSteps steps).clear.answers (requests.map .ask)).map
            (Answer.transcribe φ) := by
  have hstart := Reachable.start config
  obtain ⟨φ, hφ⟩ := (transcribes_afterSteps (.refl hstart.sound) hchanges).exists_along
  have halong : ((ofConfig config).afterSteps steps).clear.Along φ
      ((ofConfig config).afterSteps steps').clear :=
    ⟨hφ, (hstart.afterSteps steps).idle.along_clear (hstart.afterSteps steps').idle⟩
  exact ⟨φ, hφ.tree, fun requests hrequests => halong.answers hrequests⟩

/-- A method and a call of it. -/
def methodText : String :=
  "struct A\x7bx:int\x7d fun A.foo(self):int\x7breturn self.x\x7d fun f(a:A)\x7ba.foo();\x7d"

/-- The same with all names in backticks but that of the receiver. -/
def quotedText : String :=
  "struct \x60A\x60\x7b\x60x\x60:int\x7d " ++
    "fun A.\x60foo\x60(self):int\x7breturn self.\x60x\x60\x7d " ++
    "fun \x60f\x60(\x60a\x60:\x60A\x60)\x7b\x60a\x60.\x60foo\x60();\x7d"

/-- The call and the method mean the same in backticks. -/
theorem answers_respelled_quotedText :
    let changes := [Change.replace "/m.tolk" methodText]
    let changes' := [Change.replace "/m.tolk" quotedText]
    let s := (ofConfig { loadStubs := false }).afterSteps (changes.map .change)
    let s' := (ofConfig { loadStubs := false }).afterSteps (changes'.map .change)
    List.Forall₂ Change.Respelled changes changes' ∧ ∃ φ : Transcription,
      (∀ file, s'.workspace.tree? file = (s.workspace.tree? file).map φ.tree) ∧
      ∀ requests : List Request, (∀ request ∈ requests, request.IsQuestion φ) →
        s'.clear.answers (requests.map fun request => .ask (request.transcribe φ)) =
          (s.clear.answers (requests.map .ask)).map (Answer.transcribe φ) := by
  have htext : Text.Respelled methodText quotedText := by decide +kernel
  have hchanges : List.Forall₂ Change.Respelled [.replace "/m.tolk" methodText]
      [.replace "/m.tolk" quotedText] := .cons (.replace _ htext) .nil
  exact ⟨hchanges, answers_respelled _ hchanges⟩

end Session

end TolkAnalysis
