import TolkAnalysis.Proofs.References.Search
import TolkAnalysis.Proofs.Session.Trusted
import TolkAnalysis.Session.Basic

/-!
# Sessions that can be reached

A session starts with its settings, and changes of files and requests lead from one
session to the next. Every session that is reached has a sound workspace, and nothing
is in flight in its memo tables.

A request may be about a node of a tree that has been replaced. Its answer is then
remembered under the key of a node of the current tree, so the tables can be trusted
only if all requests since the answers were last forgotten were about nodes of the
current trees. Such a session is `Consulted`.
-/

namespace TolkAnalysis

namespace Session

/-- A request that changes no file. -/
inductive Request where
  | resolve (n : Node)
  | resolveAll (n : Node)
  | inferType (n : Node)
  | estimateSize (n : Node)
  | declType (d : Decl)
  | references (target : Decl) (options : ReferenceOptions)

namespace Request

/-- The node that a request is about. -/
def subject : Request → Node
  | .resolve n | .resolveAll n | .inferType n | .estimateSize n => n
  | .declType d | .references d _ => d.node

/-- The session after a request. -/
def after (s : Session) : Request → Session
  | .resolve n => (Session.resolve n s).2
  | .resolveAll n => (Session.resolveAll n s).2
  | .inferType n => (Session.inferType n s).2
  | .estimateSize n => (Session.estimateSize n s).2
  | .declType d => (Session.declType d s).2
  | .references target options => (Session.references target options s).2

/-- A request makes one query, which stays in each closed family that the node of the
request belongs to. -/
theorem exists_query (request : Request) (s : Session) :
    ∃ (α : Type) (q : Query α),
      request.after s = ⟨s.workspace, (q.run s.workspace.oracle s.caches).2⟩ ∧
        ∀ K, s.workspace.Closed K → K request.subject → q.Within K K fun _ => True := by
  have types : ∀ n : Node, ∀ K, s.workspace.Closed K → K n →
      (Query.typeOf n).Within K K fun _ => True :=
    fun n K _ hn => (Query.within_typeOf hn).mono fun _ _ => trivial
  cases request with
  | resolve n =>
      exact ⟨_, .reference n, rfl, fun K _ hn => (Query.within_reference hn).mono fun _ _ => trivial⟩
  | resolveAll n =>
      exact ⟨_, Resolution.every s.workspace n, rfl, fun K hK hn =>
        (Resolution.within_every hK.asking hn).mono fun _ _ => trivial⟩
  | inferType n => exact ⟨_, .typeOf n, rfl, types n⟩
  | estimateSize n => exact ⟨_, .typeOf n, rfl, types n⟩
  | declType d =>
      exact ⟨_, (Inference.declType ⟨s.workspace⟩ d).run, rfl, fun K hK hd =>
        Query.Within.mono (Inference.types_declType hK.asking hd) fun _ _ => trivial⟩
  | references target options =>
      exact ⟨_, ReferenceSearch.run ⟨s.workspace, target, options⟩, rfl, fun K hK ht =>
        ReferenceSearch.within_run hK ht⟩

theorem after_workspace (request : Request) (s : Session) :
    (request.after s).workspace = s.workspace := by
  obtain ⟨_, q, h, -⟩ := request.exists_query s
  rw [h]

theorem grows_after (request : Request) (s : Session) :
    s.caches.Grows (request.after s).caches := by
  obtain ⟨_, q, h, -⟩ := request.exists_query s
  rw [h]
  exact s.workspace.run_grows q s.caches

end Request

/-- The session after requests, one after another. -/
def after (s : Session) (requests : List Request) : Session :=
  requests.foldl Request.after s

theorem after_workspace (s : Session) (requests : List Request) :
    (s.after requests).workspace = s.workspace := by
  induction requests generalizing s with
  | nil => rfl
  | cons request requests ih => exact (ih _).trans (request.after_workspace s)

theorem grows_after (s : Session) (requests : List Request) :
    s.caches.Grows (s.after requests).caches := by
  induction requests generalizing s with
  | nil => exact .refl _
  | cons request requests ih => exact (request.grows_after s).trans (ih _)

/-- The sessions that changes of files and requests lead to. -/
inductive Reachable : Session → Prop
  | start (config : SessionConfig) : Reachable (ofConfig config)
  | replace {s : Session} (h : Reachable s) (path text : String) :
      Reachable (s.replace path text).2
  | remove {s s' : Session} {path : String} (h : Reachable s) (hs : s.remove path = .ok s') :
      Reachable s'
  | clear {s : Session} (h : Reachable s) : Reachable s.clear
  | ask {s : Session} (h : Reachable s) (request : Request) : Reachable (request.after s)

/-- A change that is not refused removes the file and forgets every answer. -/
theorem exists_of_remove {s s' : Session} {path : String} (h : s.remove path = .ok s') :
    ∃ w, s.workspace.remove path = .ok w ∧ s' = ⟨w, s.caches.clear⟩ := by
  unfold remove at h
  cases hw : s.workspace.remove path with
  | error reason => simp [hw, bind, Except.bind] at h
  | ok w =>
      rw [hw] at h
      cases h
      exact ⟨w, rfl, rfl⟩

namespace Reachable

variable {s : Session}

theorem sound (h : Reachable s) : s.workspace.Sound := by
  induction h with
  | start config => exact Workspace.sound_ofConfig config
  | replace h path text ih => exact ih.load (Path.normalize path) text
  | remove h hs ih =>
      obtain ⟨w, hw, rfl⟩ := exists_of_remove hs
      exact ih.remove hw
  | clear h ih => exact ih
  | ask h request ih => exact (request.after_workspace _).symm ▸ ih

theorem idle (h : Reachable s) : s.caches.Idle := by
  induction h with
  | start config => exact Caches.idle_empty
  | replace h path text ih => exact ih.clear
  | remove h hs ih =>
      obtain ⟨w, -, rfl⟩ := exists_of_remove hs
      exact ih.clear
  | clear h ih => exact ih.clear
  | ask h request ih => exact ih.of_grows (request.grows_after _)

end Reachable

/-- No answer is remembered. -/
def Blank (s : Session) : Prop := s.caches.resolve.isEmpty = true ∧ s.caches.types.isEmpty = true

namespace Reachable

variable {s : Session} (h : s.Reachable) (hblank : s.Blank)

include h hblank

theorem find?_of_blank :
    (∀ key, s.caches.resolve.find? key = none) ∧ ∀ key, s.caches.types.find? key = none :=
  ⟨QueryCache.find?_of_isEmpty hblank.1 h.idle.resolve,
    QueryCache.find?_of_isEmpty hblank.2 h.idle.types⟩

/-- What a node refers to is computed while the question is in flight. -/
theorem resolve_eq_run (n : Node) :
    (resolve n s).1 = ((Resolution.first s.workspace n).run
      (s.workspace.oracleWithin (2 * s.workspace.loaded))
      (Caches.resolvePart.modify (·.enter n.key) s.caches)).1 := by
  change (s.workspace.oracle.resolve n s.caches).1 = _
  rw [Workspace.oracle_eq, Workspace.oracleWithin_succ_resolve,
    QueryCache.getOrCompute_of_new ((h.find?_of_blank hblank).1 n.key)]

/-- The type of a node is computed while the question is in flight. -/
theorem inferType_eq_run (n : Node) :
    (inferType n s).1 = ((Inference.nodeType ⟨s.workspace⟩ n).run.run
      (s.workspace.oracleWithin (2 * s.workspace.loaded))
      (Caches.typesPart.modify (·.enter n.key) s.caches)).1 := by
  change (s.workspace.oracle.infer n s.caches).1 = _
  rw [Workspace.oracle_eq, Workspace.oracleWithin_succ_infer,
    QueryCache.getOrCompute_of_new ((h.find?_of_blank hblank).2 n.key)]

end Reachable

/-- The session is reached by requests about nodes of the current trees since its
answers were last forgotten. -/
inductive Consulted : Session → Prop
  | blank {s : Session} (h : s.Reachable) (hblank : s.Blank) : Consulted s
  | ask {s : Session} (h : Consulted s) {request : Request}
      (hknows : s.workspace.Knows request.subject) : Consulted (request.after s)

namespace Consulted

variable {s : Session}

theorem reachable (h : Consulted s) : s.Reachable := by
  induction h with
  | blank h _ => exact h
  | ask _ _ ih => exact ih.ask _

theorem trusted (h : Consulted s) : s.caches.Trusted s.workspace := by
  induction h with
  | blank _ hblank => exact Caches.trusted_of_blank hblank.1 hblank.2
  | @ask s h request hknows ih =>
      obtain ⟨_, q, hq, hwithin⟩ := request.exists_query s
      rw [hq]
      have hsound := h.reachable.sound
      exact (Query.settles hsound (hwithin _ hsound.closed_knows hknows) h.reachable.idle ih).trusted

theorem after (h : Consulted s) {requests : List Request}
    (hknows : ∀ request ∈ requests, s.workspace.Knows request.subject) :
    Consulted (s.after requests) := by
  induction requests generalizing s with
  | nil => exact h
  | cons request requests ih =>
      rw [List.forall_mem_cons] at hknows
      refine ih (h.ask hknows.1) ?_
      rw [request.after_workspace]
      exact hknows.2

/-- A consulted session refers a node to what may be given. -/
theorem mayRefer (h : Consulted s) {n : Node} (hn : s.workspace.Knows n) :
    s.workspace.MayRefer n (Session.resolve n s).1 :=
  ((h.reachable.sound.trustworthy_oracleWithin s.workspace.depth).resolve hn h.trusted
    Caches.room_lt_depth (h.reachable.idle.allows _ _)).2

/-- A consulted session gives a node a type that may be given. -/
theorem mayType (h : Consulted s) {n : Node} (hn : s.workspace.Knows n) :
    s.workspace.MayType n (Session.inferType n s).1 :=
  ((h.reachable.sound.trustworthy_oracleWithin s.workspace.depth).infer hn h.trusted
    Caches.room_lt_depth (h.reachable.idle.allows _ _)).2

end Consulted

end Session

end TolkAnalysis
