import TolkAnalysis.Proofs.Session.History

/-!
# Answers after a change

A session goes through steps: changes of files, requests, and the order to forget all answers.
What a request is answered may depend on the requests before it, but only through the memo
tables, and a change that is not refused empties these. So the answers from such a change on
depend on the changes before it alone, which `Session.Reachable.answers_after_change` says of
any two sequences of steps with the same changes. A change that is refused leaves the session
as it was.

Two sessions are `Alike` if they have the same files and their memo tables hold the same; each
step keeps this and gives the same answer in both.
-/

namespace TolkAnalysis

variable {κ α β σ : Type}

/-! ### Memo tables that hold the same -/

namespace QueryCache

section

variable [BEq κ] [Hashable κ]

/-- The same answers are remembered, and the same keys are in flight. -/
structure Agrees (c c' : QueryCache κ α) : Prop where
  values : ∀ k : κ, c.values[k]? = c'.values[k]?
  inFlight : ∀ k : κ, k ∈ c.inFlight ↔ k ∈ c'.inFlight

theorem Agrees.find?_eq {c c' : QueryCache κ α} (h : c.Agrees c') (key : κ) :
    c.find? key = c'.find? key := by
  have hinFlight : c.inFlight.contains key = c'.inFlight.contains key :=
    Bool.eq_iff_iff.mpr (h.inFlight key)
  unfold find?
  rw [h.values, hinFlight]

theorem Agrees.clear {c c' : QueryCache κ α} (h : c.Agrees c') : c.clear.Agrees c'.clear := ⟨fun _ => rfl, h.inFlight⟩

/-- Tables in which nothing is in flight hold the same after they have been cleared. -/
theorem agrees_clear {c c' : QueryCache κ α} (h : ∀ k, k ∉ c.inFlight)
    (h' : ∀ k, k ∉ c'.inFlight) :
    c.clear.Agrees c'.clear :=
  ⟨fun _ => rfl, fun k => iff_of_false (h k) (h' k)⟩

end

variable [DecidableEq κ] [Hashable κ] [LawfulHashable κ] {c c' : QueryCache κ α}

theorem Agrees.enter (h : c.Agrees c') (key : κ) : (c.enter key).Agrees (c'.enter key) :=
  ⟨h.values, fun k => by simp only [QueryCache.enter, Std.HashSet.mem_insert, h.inFlight k]⟩

theorem Agrees.leave (h : c.Agrees c') (key : κ) (value : Option α) :
    (c.leave key value).Agrees (c'.leave key value) := by
  refine ⟨fun k => ?_, fun k => ?_⟩
  · rw [leave_values, leave_values, h.values]
  · simp only [QueryCache.leave, Std.HashSet.mem_erase, h.inFlight k]

end QueryCache

namespace Caches

/-- Both tables hold the same. -/
structure Agrees (c c' : Caches) : Prop where
  resolve : c.resolve.Agrees c'.resolve
  types : c.types.Agrees c'.types

theorem Agrees.clear {c c' : Caches} (h : c.Agrees c') : c.clear.Agrees c'.clear :=
  ⟨h.resolve.clear, h.types.clear⟩

theorem Idle.agrees_clear {c c' : Caches} (h : c.Idle) (h' : c'.Idle) :
    c.clear.Agrees c'.clear :=
  ⟨QueryCache.agrees_clear h.resolve h'.resolve, QueryCache.agrees_clear h.types h'.types⟩

end Caches

/-! ### Runs on memo tables that hold the same -/

/-- A computation has the same answer on memo tables that hold the same, and leaves them so. -/
def Caches.Respects (f : StateM Caches α) : Prop :=
  ∀ {c c' : Caches}, c.Agrees c' → (f c).1 = (f c').1 ∧ (f c).2.Agrees (f c').2

theorem Caches.Respects.bind {f : StateM Caches α} {g : α → StateM Caches β}
    (hf : Caches.Respects f) (hg : ∀ a, Caches.Respects (g a)) : Caches.Respects (f >>= g) := by
  intro c c' h
  obtain ⟨hanswer, hafter⟩ := hf h
  change (g (f c).1 (f c).2).1 = (g (f c').1 (f c').2).1 ∧
    (g (f c).1 (f c).2).2.Agrees (g (f c').1 (f c').2).2
  rw [← hanswer]
  exact hg _ hafter

/-- What a part of the memo tables has to do so that a question answered in it has the same answer
on tables that hold the same. -/
structure Caches.Faithful (part : QueryCache.Part Caches NodeKey α) : Prop where
  get : ∀ {c c' : Caches}, c.Agrees c' → (part.get c).Agrees (part.get c')
  modify : ∀ {c c' : Caches} {f : QueryCache NodeKey α → QueryCache NodeKey α},
    (∀ {t t'}, t.Agrees t' → (f t).Agrees (f t')) → c.Agrees c' →
      (part.modify f c).Agrees (part.modify f c')

namespace Caches

theorem faithful_resolvePart : Faithful resolvePart :=
  ⟨fun h => h.resolve, fun hf h => ⟨hf h.resolve, h.types⟩⟩

theorem faithful_typesPart : Faithful typesPart :=
  ⟨fun h => h.types, fun hf h => ⟨h.resolve, hf h.types⟩⟩

theorem Faithful.respects_getOrCompute {part : QueryCache.Part Caches NodeKey α}
    (hpart : Faithful part) (key : NodeKey) {compute : StateM Caches (Option α)}
    (hcompute : Respects compute) : Respects (QueryCache.getOrCompute part key compute) := by
  intro c c' h
  have hfind := (hpart.get h).find?_eq key
  cases hc : (part.get c).find? key with
  | some value =>
      rw [QueryCache.getOrCompute_of_find? hc, QueryCache.getOrCompute_of_find? (hfind.symm.trans hc)]
      exact ⟨rfl, h⟩
  | none =>
      rw [QueryCache.getOrCompute_of_new hc, QueryCache.getOrCompute_of_new (hfind.symm.trans hc)]
      obtain ⟨hvalue, hafter⟩ := hcompute (hpart.modify (fun ht => ht.enter key) h)
      refine ⟨hvalue, ?_⟩
      rw [hvalue]
      exact hpart.modify (fun ht => ht.leave key _) hafter

end Caches

/-- A run respects tables that hold the same if each question does. -/
theorem Query.respects_run {ask : Oracle} (hresolve : ∀ n, Caches.Respects (ask.resolve n))
    (hinfer : ∀ n, Caches.Respects (ask.infer n)) (q : Query α) : Caches.Respects (q.run ask) := by
  induction q with
  | answer a => exact fun h => ⟨rfl, h⟩
  | resolve n next ih => exact Caches.Respects.bind (hresolve n) ih
  | infer n next ih => exact Caches.Respects.bind (hinfer n) ih

namespace Workspace

variable (w : Workspace)

theorem respects_oracleWithin (depth : Nat) :
    (∀ n, Caches.Respects ((w.oracleWithin depth).resolve n)) ∧
      ∀ n, Caches.Respects ((w.oracleWithin depth).infer n) := by
  induction depth with
  | zero =>
      refine ⟨fun n c c' h => ?_, fun n c c' h => ?_⟩
      · rw [oracleWithin_zero_resolve, oracleWithin_zero_resolve]
        exact ⟨rfl, h⟩
      · rw [oracleWithin_zero_infer, oracleWithin_zero_infer]
        exact ⟨rfl, h⟩
  | succ depth ih =>
      refine ⟨fun n => ?_, fun n => ?_⟩
      · rw [oracleWithin_succ_resolve]
        exact Caches.faithful_resolvePart.respects_getOrCompute n.key
          (Query.respects_run ih.1 ih.2 _)
      · rw [oracleWithin_succ_infer]
        exact Caches.faithful_typesPart.respects_getOrCompute n.key
          (Query.respects_run ih.1 ih.2 _)

theorem respects_run (q : Query α) : Caches.Respects (q.run w.oracle) :=
  Query.respects_run (w.respects_oracleWithin w.depth).1 (w.respects_oracleWithin w.depth).2 q

end Workspace

namespace Session

/-! ### Steps of a session -/

/-- What a session says to a step. -/
inductive Answer where
  | declaration (d : Option Decl)
  | declarations (ds : List Decl)
  | type (t : Option Ty)
  | size (size : Option CellSize)
  | uses (uses : Except SearchError (List Node))
  | file (file : FileId)
  | refused (reason : SessionError)
  | done

/-- The answer to a request. -/
def Request.answer (s : Session) : Request → Answer
  | .resolve n => .declaration (Session.resolve n s).1
  | .resolveAll n => .declarations (Session.resolveAll n s).1
  | .inferType n => .type (Session.inferType n s).1
  | .estimateSize n => .size (Session.estimateSize n s).1
  | .declType d => .type (Session.declType d s).1
  | .references target options => .uses (Session.references target options s).1

/-- A change of the files. -/
inductive Change where
  | replace (path text : String)
  | remove (path : String)

namespace Change

/-- What is said to a change, and the session after it. A change that is refused leaves the
session as it was. -/
def run (s : Session) : Change → Answer × Session
  | .replace path text => (.file (s.replace path text).1, (s.replace path text).2)
  | .remove path =>
      match s.remove path with
      | .ok s' => (.done, s')
      | .error reason => (.refused reason, s)

/-- The change is not refused. -/
def Accepted (s : Session) (c : Change) : Prop := ∀ reason, (c.run s).1 ≠ .refused reason

end Change

/-- A step of a session. -/
inductive Step where
  | change (c : Change)
  | ask (request : Request)
  | clear

namespace Step

/-- What is said to a step, and the session after it. -/
def run (s : Session) : Step → Answer × Session
  | .change c => c.run s
  | .ask request => (request.answer s, request.after s)
  | .clear => (.done, s.clear)

/-- The change that a step makes. -/
def change? : Step → Option Change
  | .change c => some c
  | .ask _ | .clear => none

end Step

/-- The session after steps, one after another. -/
def afterSteps (s : Session) : List Step → Session
  | [] => s
  | step :: steps => (step.run s).2.afterSteps steps

/-- What is said to steps, one after another. -/
def answers (s : Session) : List Step → List Answer
  | [] => []
  | step :: steps => (step.run s).1 :: (step.run s).2.answers steps

/-- The changes among steps. -/
def changes (steps : List Step) : List Change := steps.filterMap Step.change?

/-! ### Changes -/

/-- Reading a text is never refused. -/
theorem Change.accepted_replace (s : Session) (path text : String) :
    (Change.replace path text).Accepted s := by
  intro reason h
  cases h

/-- A path that is not known cannot be removed. -/
theorem remove_of_unknown {s : Session} {path : String}
    (h : s.workspace.fileByPath? path = none) :
    s.remove path = .error (.unknownPath (Path.normalize path)) := by
  have hbyPath : s.workspace.byPath[Path.normalize path]? = none := h
  simp only [remove, Workspace.remove, hbyPath]
  rfl

/-- A change either does something to the files that does not depend on what is remembered, all of
which is forgotten, or is refused and does nothing. -/
theorem Change.run_cases (c : Change) (w : Workspace) :
    (∃ answer w', ∀ caches, c.run ⟨w, caches⟩ = (answer, ⟨w', caches.clear⟩)) ∨
      ∃ reason, ∀ caches, c.run ⟨w, caches⟩ = (.refused reason, ⟨w, caches⟩) := by
  cases c with
  | replace path text => exact .inl ⟨.file (w.replace path text).1, (w.replace path text).2, fun _ => rfl⟩
  | remove path =>
      cases hfile : w.fileByPath? path with
      | none =>
          refine .inr ⟨.unknownPath (Path.normalize path), fun caches => ?_⟩
          rw [run, remove_of_unknown (s := ⟨w, caches⟩) hfile]
      | some file =>
          have hbyPath : w.byPath[Path.normalize path]? = some file := hfile
          obtain ⟨w', hw⟩ : ∃ w', w.remove path = .ok w' := by
            simp only [Workspace.remove, hbyPath]
            exact ⟨_, rfl⟩
          refine .inl ⟨.done, w', fun caches => ?_⟩
          simp only [run, Session.remove, hw]
          rfl

/-! ### Sessions that are alike -/

/-- Two sessions with the same files, whose memo tables hold the same. -/
structure Alike (s s' : Session) : Prop where
  workspace : s.workspace = s'.workspace
  caches : s.caches.Agrees s'.caches

namespace Alike

variable {s s' : Session}

/-- A query has the same answer in sessions that are alike, and leaves them so. -/
theorem ask (h : s.Alike s') (query : Workspace → Query α) :
    (Session.ask query s).1 = (Session.ask query s').1 ∧
      (Session.ask query s).2.Alike (Session.ask query s').2 := by
  obtain ⟨w, caches⟩ := s
  obtain ⟨w', caches'⟩ := s'
  obtain rfl : w = w' := h.workspace
  obtain ⟨hanswer, hcaches⟩ := w.respects_run (query w) h.caches
  exact ⟨hanswer, rfl, hcaches⟩

theorem request (h : s.Alike s') (request : Request) :
    request.answer s = request.answer s' ∧ (request.after s).Alike (request.after s') := by
  cases request with
  | resolve n => exact (h.ask fun _ => .reference n).imp_left (congrArg Answer.declaration)
  | resolveAll n =>
      exact (h.ask fun w => Resolution.every w n).imp_left (congrArg Answer.declarations)
  | inferType n => exact (h.ask fun _ => .typeOf n).imp_left (congrArg Answer.type)
  | estimateSize n =>
      exact (h.ask fun _ => .typeOf n).imp_left
        (congrArg fun t : Option Ty => Answer.size (t.map (·.size)))
  | declType d =>
      exact (h.ask fun w => (Inference.declType ⟨w⟩ d).run).imp_left (congrArg Answer.type)
  | references target options =>
      exact (h.ask fun w => ReferenceSearch.run ⟨w, target, options⟩).imp_left
        (congrArg Answer.uses)

theorem clear (h : s.Alike s') : s.clear.Alike s'.clear :=
  ⟨h.workspace, h.caches.clear⟩

theorem change (h : s.Alike s') (c : Change) :
    (c.run s).1 = (c.run s').1 ∧ (c.run s).2.Alike (c.run s').2 := by
  obtain ⟨w, caches⟩ := s
  obtain ⟨w', caches'⟩ := s'
  obtain rfl : w = w' := h.workspace
  obtain ⟨answer, w', hrun⟩ | ⟨reason, hrun⟩ := c.run_cases w
  · rw [hrun, hrun]
    exact ⟨rfl, rfl, h.caches.clear⟩
  · rw [hrun, hrun]
    exact ⟨rfl, rfl, h.caches⟩

theorem step (h : s.Alike s') (step : Step) :
    (step.run s).1 = (step.run s').1 ∧ (step.run s).2.Alike (step.run s').2 := by
  cases step with
  | change c => exact h.change c
  | ask request => exact h.request request
  | clear => exact ⟨rfl, h.clear⟩

theorem answers (h : s.Alike s') (steps : List Step) : s.answers steps = s'.answers steps := by
  induction steps generalizing s s' with
  | nil => rfl
  | cons step steps ih =>
      obtain ⟨hanswer, hafter⟩ := h.step step
      exact congrArg₂ List.cons hanswer (ih hafter)

end Alike

/-- After a change that is not refused, sessions with the same files are alike, since nothing is
remembered then. -/
theorem Change.alike {s s' : Session} (hworkspace : s.workspace = s'.workspace)
    (hidle : s.caches.Idle) (hidle' : s'.caches.Idle) {c : Change} (hc : c.Accepted s) :
    (c.run s).1 = (c.run s').1 ∧ (c.run s).2.Alike (c.run s').2 := by
  obtain ⟨w, caches⟩ := s
  obtain ⟨w', caches'⟩ := s'
  obtain rfl : w = w' := hworkspace
  unfold Change.Accepted at hc
  obtain ⟨answer, w', hrun⟩ | ⟨reason, hrun⟩ := c.run_cases w
  · rw [hrun, hrun]
    exact ⟨rfl, rfl, hidle.agrees_clear hidle'⟩
  · rw [hrun] at hc
    exact absurd rfl (hc reason)

/-! ### The files after steps -/

/-- What a change does to the files does not depend on what is remembered. -/
theorem workspace_change {s s' : Session} (h : s.workspace = s'.workspace) (c : Change) :
    (c.run s).2.workspace = (c.run s').2.workspace := by
  obtain ⟨w, caches⟩ := s
  obtain ⟨w', caches'⟩ := s'
  obtain rfl : w = w' := h
  obtain ⟨answer, w', hrun⟩ | ⟨reason, hrun⟩ := c.run_cases w
  · rw [hrun, hrun]
  · rw [hrun, hrun]

/-- The files after steps are those after their changes alone. -/
theorem workspace_afterSteps {s s' : Session} (h : s.workspace = s'.workspace)
    (steps : List Step) : (s.afterSteps steps).workspace =
      (s'.afterSteps ((changes steps).map .change)).workspace := by
  induction steps generalizing s s' with
  | nil => exact h
  | cons step steps ih =>
      cases step with
      | change c => exact ih (workspace_change h c)
      | ask request => exact ih ((request.after_workspace s).trans h)
      | clear => exact ih h

theorem workspace_afterSteps_congr {s s' : Session} (h : s.workspace = s'.workspace)
    {steps steps' : List Step} (hsame : changes steps = changes steps') :
    (s.afterSteps steps).workspace = (s'.afterSteps steps').workspace := by
  rw [workspace_afterSteps h steps, hsame]
  exact (workspace_afterSteps rfl steps').symm

namespace Reachable

variable {s : Session}

theorem change (h : s.Reachable) (c : Change) : (c.run s).2.Reachable := by
  cases c with
  | replace path text => exact h.replace path text
  | remove path =>
      cases hs : s.remove path with
      | ok s' =>
          simp only [Change.run, hs]
          exact h.remove hs
      | error reason =>
          simp only [Change.run, hs]
          exact h

theorem afterSteps (h : s.Reachable) (steps : List Step) : (s.afterSteps steps).Reachable := by
  induction steps generalizing s with
  | nil => exact h
  | cons step steps ih =>
      cases step with
      | change c => exact ih (h.change c)
      | ask request => exact ih (h.ask request)
      | clear => exact ih h.clear

/-- After steps with the same changes, whatever requests were made between these, a change that is
not refused and all steps that follow are answered alike. A path that is not known cannot be
removed, and the attempt leaves the session as it was. -/
theorem answers_after_change (h : s.Reachable) :
    (∀ (before before' : List Step) (c : Change), changes before = changes before' →
      c.Accepted (s.afterSteps before) → ∀ later,
        (s.afterSteps before).answers (.change c :: later) =
          (s.afterSteps before').answers (.change c :: later)) ∧
    ∀ path, s.workspace.fileByPath? path = none →
      (Change.remove path).run s = (.refused (.unknownPath (Path.normalize path)), s) := by
  constructor
  · intro before before' c hsame hc later
    have hworkspace := workspace_afterSteps_congr (s := s) rfl hsame
    obtain ⟨hanswer, hafter⟩ :=
      Change.alike hworkspace (h.afterSteps before).idle (h.afterSteps before').idle hc
    exact congrArg₂ List.cons hanswer (hafter.answers later)
  · intro path hpath
    rw [Change.run, remove_of_unknown hpath]

end Reachable

/-- The last node of the constant before it is annotated, which has the number of its name
afterwards. -/
def constantValue : Node := ⟨(parse 0 0 "const a=1;").tree, 3, by decide +kernel⟩

/-- A constant is read, asked about in one run only, and then annotated. -/
theorem answers_after_annotating :
    constantValue.key = constantName.key ∧
    ((ofConfig { loadStubs := false }).afterSteps
        [.change (.replace "/main.tolk" "const a=1;"), .ask (.inferType constantValue),
          .change (.remove "/none.tolk")]).answers
        [.change (.replace "/main.tolk" "@x const a=1;"), .ask (.inferType constantName),
          .ask (.resolve constantName)] =
      ((ofConfig { loadStubs := false }).afterSteps
        [.change (.replace "/main.tolk" "const a=1;"), .clear,
          .change (.remove "/none.tolk")]).answers
        [.change (.replace "/main.tolk" "@x const a=1;"), .ask (.inferType constantName),
          .ask (.resolve constantName)] ∧
    (Change.remove "/none.tolk").run (ofConfig { loadStubs := false }) =
      (.refused (.unknownPath (Path.normalize "/none.tolk")), ofConfig { loadStubs := false }) := by
  have h := (Reachable.start { loadStubs := false }).answers_after_change
  refine ⟨by decide +kernel, h.1 _ _ _ ?_ (Change.accepted_replace _ _ _) _,
    h.2 _ Std.HashMap.getElem?_empty⟩
  rfl

end Session

end TolkAnalysis
