import TolkAnalysis.Proofs.Resolution.Found
import TolkAnalysis.References.Search

/-!
# What a search for references asks

A search asks about the names below its scopes, one after another. It stays in each
closed family that the target belongs to (`ReferenceSearch.within_run`).

A search without a limit keeps the names that refer to the target. When nothing is
in flight, a name answers as it did during the search whenever it is asked again, so
the result can be read off the memo tables after the search
(`ReferenceSearch.collectAll_run`).
-/

namespace TolkAnalysis

namespace ReferenceSearch

variable {r : ReferenceSearch}

/-! ### The questions of a search -/

section

variable {K : Node → Prop}

theorem within_refers (hK : r.workspace.Closed K) {n : Node} (hn : K n) :
    (r.refers n).Within K K fun _ => True :=
  (Query.within_bind ..).mpr ((Resolution.within_every hK.asking hn).mono fun _ _ => trivial)

theorem within_collect (hK : r.workspace.Closed K) {ns : List Node} (hns : ∀ n ∈ ns, K n)
    (found : Array Node) : (r.collect found ns).Within K K fun _ => True := by
  induction ns generalizing found with
  | nil => exact trivial
  | cons n ns ih =>
      rw [List.forall_mem_cons] at hns
      unfold collect
      refine (Query.within_bind ..).mpr ((within_refers hK hns.1).mono fun b _ => ?_)
      cases b with
      | false => exact ih hns.2 found
      | true =>
          dsimp only
          rw [if_pos rfl]
          split
          · exact trivial
          · exact ih hns.2 _

theorem within_collectAll (hK : r.workspace.Closed K) {scopes : List Node}
    (hscopes : ∀ n ∈ scopes, K n) (found : Array Node) :
    (r.collectAll found scopes).Within K K fun _ => True := by
  induction scopes generalizing found with
  | nil => exact trivial
  | cons scope scopes ih =>
      rw [List.forall_mem_cons] at hscopes
      have hcandidates : ∀ n ∈ r.candidates scope, K n := fun n hn =>
        hK.preorder hscopes.1 n (List.mem_filter.mp hn).1
      unfold collectAll
      split
      · exact trivial
      · split
        · exact trivial
        · exact (Query.within_bind ..).mpr
            ((within_collect hK hcandidates found).mono fun found' _ => ih hscopes.2 found')

theorem closed_blockScope? {w : Workspace} (hK : w.Closed K) {n scope : Node} (hn : K n)
    (h : Decl.blockScope? n = some scope) : K scope := by
  obtain ⟨block, hblock, h⟩ := Option.bind_eq_some_iff.mp h
  have hKblock := hK.ancestorOfKind? hn hblock
  split at h
  · rename_i p hp
    cases h
    split
    · exact hK.parent hKblock hp
    · exact hKblock
  · cases h
    exact hKblock

theorem closed_useScope? {w : Workspace} (hK : w.Closed K) {d : Decl} (hd : K d.node)
    {scope : Node} (h : d.useScope? = some scope) : K scope := by
  unfold Decl.useScope? at h
  split at h
  · exact closed_blockScope? hK hd h
  · obtain ⟨clause, hclause, h⟩ := Option.bind_eq_some_iff.mp h
    exact hK.child? (hK.parent hd hclause) h
  · obtain ⟨owner, howner, rfl⟩ := Option.map_eq_some_iff.mp h
    exact hK.owner? hd howner
  · obtain ⟨owner, howner, rfl⟩ := Option.map_eq_some_iff.mp h
    exact hK.owner? hd howner
  · cases h

theorem closed_scopes (hK : r.workspace.Closed K) (ht : K r.target.node) :
    ∀ n ∈ r.scopes, K n := by
  intro n hn
  unfold scopes at hn
  split at hn
  · rename_i scope hscope
    obtain rfl := List.mem_singleton.mp hn
    exact closed_useScope? hK ht hscope
  · obtain ⟨t, ht', rfl⟩ := List.mem_map.mp hn
    obtain ⟨file, -, htree⟩ := List.mem_filterMap.mp ht'
    exact hK.root htree

/-- A search asks only about nodes in a closed family that the target belongs to. -/
theorem within_run (hK : r.workspace.Closed K) (ht : K r.target.node) :
    r.run.Within K K fun _ => True :=
  (Query.within_bind ..).mpr
    ((within_collectAll hK (closed_scopes hK ht) _).mono fun _ _ => trivial)

end

/-! ### The result of a search -/

/-- The name refers to the target, by the answers in the memo tables. -/
def refersAt (r : ReferenceSearch) (c : Caches) (n : Node) : Bool :=
  ((r.refers n).run r.workspace.oracle c).1

theorem refersAt_eq (c : Caches) (n : Node) :
    r.refersAt c n =
      (((Resolution.every r.workspace n).run r.workspace.oracle c).1).any (r.isTargetOf n) := by
  unfold refersAt refers
  rw [Query.run_bind]
  rfl

theorem refersAt_of_grows {c c' : Caches} (h : c.Idle) {n : Node}
    (hg : ((r.refers n).run r.workspace.oracle c).2.Grows c') :
    r.refersAt c' n = ((r.refers n).run r.workspace.oracle c).1 := by
  unfold refersAt
  rw [Query.run_again r.workspace (r.refers n) h hg]

/-- A search without a limit keeps the names that refer to the target. -/
theorem collect_run (hfull : ∀ n, r.options.isFull n = false) (ns : List Node)
    (found : Array Node) {c c' : Caches} (h : c.Idle)
    (hg : ((r.collect found ns).run r.workspace.oracle c).2.Grows c') :
    ((r.collect found ns).run r.workspace.oracle c).1.toList =
      found.toList ++ ns.filter (r.refersAt c') := by
  induction ns generalizing found c with
  | nil =>
      rw [List.filter_nil, List.append_nil]
      rfl
  | cons n ns ih =>
      have hstep := r.workspace.run_grows (r.refers n) c
      unfold collect at hg ⊢
      rw [Query.run_bind] at hg ⊢
      have hlater := (r.workspace.run_grows _ _).trans hg
      have hn := refersAt_of_grows h hlater
      rw [List.filter_cons, hn]
      cases hb : ((r.refers n).run r.workspace.oracle c).1 with
      | false =>
          rw [hb] at hg
          exact ih found (h.of_grows hstep) hg
      | true =>
          rw [hb] at hg
          simp only [hfull, if_true, Bool.false_eq_true, if_false] at hg ⊢
          rw [ih _ (h.of_grows hstep) hg]
          simp

/-- Once enough has been found, a search ends with it. -/
theorem collectAll_of_isFull {found : Array Node}
    (hgo : r.options.interruption? r.workspace.config.referenceTimeout = none)
    (hfull : r.options.isFull found.size = true) (scopes : List Node) :
    r.collectAll found scopes = pure (.ok found) := by
  cases scopes with
  | nil => rfl
  | cons scope scopes =>
      unfold collectAll
      simp only [hgo, hfull, if_true]

/-- As long as it is not enough, a search goes on with the next scope. -/
theorem collectAll_cons {found : Array Node}
    (hgo : r.options.interruption? r.workspace.config.referenceTimeout = none)
    (hroom : r.options.isFull found.size = false) (scope : Node) (scopes : List Node) :
    r.collectAll found (scope :: scopes) =
      r.collect found (r.candidates scope) >>= fun found => r.collectAll found scopes := by
  conv_lhs => unfold collectAll
  simp only [hgo, hroom, Bool.false_eq_true, if_false]

/-- A search without a limit that is not interrupted keeps the names below all of its
scopes that refer to the target. -/
theorem collectAll_run (hfull : ∀ n, r.options.isFull n = false)
    (hgo : r.options.interruption? r.workspace.config.referenceTimeout = none)
    (scopes : List Node) (found : Array Node) {c c' : Caches} (h : c.Idle)
    (hg : ((r.collectAll found scopes).run r.workspace.oracle c).2.Grows c') :
    ∃ result, ((r.collectAll found scopes).run r.workspace.oracle c).1 = .ok result ∧
      result.toList =
        found.toList ++ (scopes.flatMap r.candidates).filter (r.refersAt c') := by
  induction scopes generalizing found c with
  | nil => exact ⟨found, rfl, by simp⟩
  | cons scope scopes ih =>
      have hstep := r.workspace.run_grows (r.collect found (r.candidates scope)) c
      rw [collectAll_cons hgo (hfull _), Query.run_bind] at hg ⊢
      have hlater := (r.workspace.run_grows _ _).trans hg
      obtain ⟨result, hresult, hlist⟩ := ih _ (h.of_grows hstep) hg
      refine ⟨result, hresult, ?_⟩
      rw [hlist, collect_run hfull _ found h hlater, List.flatMap_cons, List.filter_append,
        List.append_assoc]

end ReferenceSearch

end TolkAnalysis
