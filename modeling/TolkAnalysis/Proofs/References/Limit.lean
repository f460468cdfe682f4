import TolkAnalysis.Proofs.References.Search
import TolkAnalysis.Proofs.Session.Rereading

/-!
# Searches with a limit

A search with a limit asks the same questions as one without until it has found enough, so what it
has found by then is where the search without a limit begins (`ReferenceSearch.collect_limited`,
`ReferenceSearch.collectAll_limited`). The answers to its questions do not matter, and neither does
what is remembered before it.

The limit is looked at before each scope and after each use, but not when the name of the
declaration is put first: that name is in the result also when no result is asked for
(`Session.not_references_limit_zero`).
-/

namespace TolkAnalysis

namespace ReferenceSearch

/-- The search with another limit. -/
def limited (r : ReferenceSearch) (limit : Option Nat) : ReferenceSearch :=
  { r with options := { r.options with limit := limit } }

variable {r : ReferenceSearch} (ask : Oracle) {limit : Nat}

theorem isFull_limited (found : Nat) :
    (r.limited (some limit)).options.isFull found = decide (limit ≤ found) := rfl

theorem isFull_unlimited (found : Nat) : (r.limited none).options.isFull found = false := rfl

theorem candidates_limited (l : Option Nat) (scope : Node) :
    (r.limited l).candidates scope = r.candidates scope := rfl

/-! ### One scope -/

/-- What has been found stays, and more is added behind it. -/
theorem exists_collect_append (ns : List Node) (found : Array Node) (c : Caches) :
    ∃ more, ((r.collect found ns).run ask c).1.toList = found.toList ++ more := by
  induction ns generalizing found c with
  | nil => exact ⟨[], (List.append_nil _).symm⟩
  | cons n ns ih =>
      unfold collect
      rw [Query.run_bind]
      cases ((r.refers n).run ask c).1 with
      | false => exact ih found _
      | true =>
          dsimp only
          rw [if_pos rfl]
          split
          · exact ⟨[n], Array.toList_push⟩
          · obtain ⟨more, hmore⟩ := ih (found.push n) ((r.refers n).run ask c).2
            exact ⟨n :: more, by rw [hmore, Array.toList_push, List.append_assoc]; rfl⟩

/-- A search with a limit finds in a scope what the search without a limit finds first, and as long
as this is not enough, the two go on alike. -/
theorem collect_limited (ns : List Node) {found : Array Node} (hfound : found.size < limit)
    (c : Caches) :
    (((r.limited (some limit)).collect found ns).run ask c).1.toList =
        (((r.limited none).collect found ns).run ask c).1.toList.take limit ∧
      ((((r.limited none).collect found ns).run ask c).1.size < limit →
        ((r.limited (some limit)).collect found ns).run ask c =
          ((r.limited none).collect found ns).run ask c) := by
  induction ns generalizing found c with
  | nil => exact ⟨(List.take_of_length_le hfound.le).symm, fun _ => rfl⟩
  | cons n ns ih =>
      unfold collect
      rw [Query.run_bind, Query.run_bind,
        show (r.limited (some limit)).refers n = (r.limited none).refers n from rfl]
      generalize ((r.limited none).refers n).run ask c = answer
      obtain ⟨uses, c'⟩ := answer
      cases uses with
      | false => exact ih hfound c'
      | true =>
          dsimp only
          simp only [if_true, isFull_limited, isFull_unlimited, Bool.false_eq_true, if_false,
            Array.size_push, decide_eq_true_eq]
          split
          · -- The last one that is wanted.
            rename_i hfull
            have hsize : (found.push n).toList.length = limit := by
              rw [Array.length_toList, Array.size_push]
              omega
            obtain ⟨more, hmore⟩ :=
              (r.limited none).exists_collect_append ask ns (found.push n) c'
            have hlength := congrArg List.length hmore
            rw [Array.length_toList, List.length_append, hsize] at hlength
            rw [hmore]
            exact ⟨(List.take_left' hsize).symm, fun hlt => by omega⟩
          · rename_i hroom
            exact ih (by rw [Array.size_push]; omega) c'

/-! ### All scopes -/

theorem exists_collectAll_append
    (hgo : r.options.interruption? r.workspace.config.referenceTimeout = none)
    (scopes : List Node) (found : Array Node) (c : Caches) :
    ∃ result more, ((r.collectAll found scopes).run ask c).1 = .ok result ∧
      result.toList = found.toList ++ more := by
  induction scopes generalizing found c with
  | nil => exact ⟨found, [], rfl, (List.append_nil _).symm⟩
  | cons scope scopes ih =>
      cases hfull : r.options.isFull found.size with
      | true =>
          rw [collectAll_of_isFull hgo hfull]
          exact ⟨found, [], rfl, (List.append_nil _).symm⟩
      | false =>
          rw [collectAll_cons hgo hfull, Query.run_bind]
          obtain ⟨more, hmore⟩ := r.exists_collect_append ask (r.candidates scope) found c
          obtain ⟨result, later, hresult, hlater⟩ :=
            ih ((r.collect found (r.candidates scope)).run ask c).1
              ((r.collect found (r.candidates scope)).run ask c).2
          exact ⟨result, more ++ later, hresult, by rw [hlater, hmore, List.append_assoc]⟩

/-- Once enough has been found, a search with a limit is done, and the one without a limit only adds
to it. -/
theorem collectAll_limited_of_le
    (hgo : r.options.interruption? r.workspace.config.referenceTimeout = none)
    {found first : Array Node} (hfull : limit ≤ first.size) (hfirst : first.toList <+: found.toList)
    (scopes : List Node) (c c' : Caches) :
    ∃ all, (((r.limited none).collectAll found scopes).run ask c).1 = .ok all ∧
      (((r.limited (some limit)).collectAll first scopes).run ask c').1 = .ok first ∧
      first.toList = all.toList.take first.size := by
  obtain ⟨all, more, hall, hmore⟩ :=
    exists_collectAll_append (r := r.limited none) ask hgo scopes found c
  refine ⟨all, hall, ?_, ?_⟩
  · rw [collectAll_of_isFull (r := r.limited (some limit)) hgo
      ((isFull_limited _).trans (decide_eq_true hfull))]
    rfl
  · rw [← Array.length_toList, hmore]
    exact List.prefix_iff_eq_take.mp (hfirst.trans (List.prefix_append _ _))

/-- A search with a limit finds what the search without a limit finds first, and it does not take
away what was there before. -/
theorem collectAll_limited (limit : Nat)
    (hgo : r.options.interruption? r.workspace.config.referenceTimeout = none)
    (scopes : List Node) (found : Array Node) (c : Caches) :
    ∃ all first, (((r.limited none).collectAll found scopes).run ask c).1 = .ok all ∧
      (((r.limited (some limit)).collectAll found scopes).run ask c).1 = .ok first ∧
      first.toList = all.toList.take (max limit found.size) := by
  by_cases hfull : limit ≤ found.size
  · obtain ⟨all, hall, hfirst, htake⟩ :=
      collectAll_limited_of_le ask hgo hfull (List.prefix_refl _) scopes c c
    exact ⟨all, found, hall, hfirst, by rwa [Nat.max_eq_right hfull]⟩
  · have hroom : found.size < limit := Nat.not_le.mp hfull
    rw [Nat.max_eq_left hroom.le]
    induction scopes generalizing found c with
    | nil =>
        refine ⟨found, found, rfl, rfl, (List.take_of_length_le ?_).symm⟩
        exact Array.length_toList.trans_le hroom.le
    | cons scope scopes ih =>
        obtain ⟨htake, halike⟩ := collect_limited (r := r) ask (r.candidates scope) hroom c
        rw [collectAll_cons (r := r.limited none) hgo rfl, Query.run_bind,
          collectAll_cons (r := r.limited (some limit)) hgo
            ((isFull_limited _).trans (decide_eq_false hfull)), Query.run_bind, candidates_limited,
          candidates_limited]
        by_cases hmore :
            (((r.limited none).collect found (r.candidates scope)).run ask c).1.size < limit
        · rw [halike hmore]
          exact ih _ _ (Nat.not_le.mpr hmore) hmore
        · -- Enough has been found in this scope.
          have hsize : (((r.limited (some limit)).collect found
              (r.candidates scope)).run ask c).1.size = limit := by
            rw [← Array.length_toList, htake, List.length_take, Array.length_toList]
            exact Nat.min_eq_left (Nat.not_lt.mp hmore)
          have hprefix := List.take_prefix limit
            (((r.limited none).collect found (r.candidates scope)).run ask c).1.toList
          rw [← htake] at hprefix
          obtain ⟨all, hall, hfirst, hlist⟩ :=
            collectAll_limited_of_le ask hgo hsize.ge hprefix scopes
              (((r.limited none).collect found (r.candidates scope)).run ask c).2
              (((r.limited (some limit)).collect found (r.candidates scope)).run ask c).2
          exact ⟨all, _, hall, hfirst, by rwa [hsize] at hlist⟩

end ReferenceSearch

namespace Session

/-- With a limit, a search gives the first nodes that it gives without one, and the name of the
declaration if it was put first. -/
theorem references_limited (s : Session) (d : Decl) (options : ReferenceOptions) (limit : Nat)
    (hgo : options.interruption? s.workspace.config.referenceTimeout = none) :
    let name := ReferenceSearch.definition ⟨s.workspace, d, options⟩
    ∃ uses, (references d { options with limit := none } s).1 = .ok uses ∧ name <+: uses ∧
      (references d { options with limit := some limit } s).1 =
        .ok (uses.take (max limit name.length)) := by
  let r : ReferenceSearch := ⟨s.workspace, d, options⟩
  obtain ⟨all, first, hall, hfirst, htake⟩ := ReferenceSearch.collectAll_limited (r := r)
    s.workspace.oracle limit hgo r.scopes r.definition.toArray s.caches
  obtain ⟨all', more, hall', hmore⟩ := ReferenceSearch.exists_collectAll_append
    (r := r.limited none) s.workspace.oracle hgo r.scopes r.definition.toArray s.caches
  obtain rfl : all = all' := Except.ok.inj (hall.symm.trans hall')
  have run : ∀ l : Option Nat, (references d { options with limit := l } s).1 =
      (((r.limited l).collectAll r.definition.toArray r.scopes).run s.workspace.oracle
        s.caches).1.map (·.toList) := fun l => congrArg Prod.fst (Query.run_bind ..)
  refine ⟨all.toList, ?_, ⟨more, hmore.symm⟩, ?_⟩
  · rw [run, hall]
    rfl
  · rw [run, hfirst]
    exact congrArg Except.ok htake

/-- A search with a limit gives the first nodes that the same search gives without one, and no more
than the limit. Only if no node at all is wanted, the name of the declaration is given where it was
to be put first. -/
theorem references_limit (s : Session) (d : Decl) (options : ReferenceOptions) (limit : Nat)
    (hgo : options.interruption? s.workspace.config.referenceTimeout = none) :
    ∃ uses first, (references d { options with limit := none } s).1 = .ok uses ∧
      (references d { options with limit := some limit } s).1 = .ok first ∧
      (0 < limit ∨ options.includeDefinition = false →
        first = uses.take limit ∧ first.length ≤ limit) ∧
      (limit = 0 → first = if options.includeDefinition then d.nameNode?.toList else []) := by
  obtain ⟨uses, huses, hname, hfirst⟩ := references_limited s d options limit hgo
  refine ⟨uses, _, huses, hfirst, fun h => ?_, ?_⟩
  · have hcount : (ReferenceSearch.definition ⟨s.workspace, d, options⟩).length ≤ limit := by
      unfold ReferenceSearch.definition
      split
      · rename_i hinclude
        have hone : d.nameNode?.toList.length ≤ 1 := Option.length_toList_le
        have hpos := h.resolve_right fun hfalse => Bool.noConfusion (hinclude.symm.trans hfalse)
        exact hone.trans hpos
      · exact Nat.zero_le _
    rw [Nat.max_eq_left hcount]
    exact ⟨rfl, List.length_take_le _ _⟩
  · rintro rfl
    rw [Nat.zero_max]
    exact (List.prefix_iff_eq_take.mp hname).symm

/-- A constant and its uses. -/
def usesText : String := "const a=1;const b=a+a;"

/-- The constant. -/
def usedConstant : Decl := ⟨.constant, (parse 0 1 usesText).tree, 2, by decide +kernel⟩

/-- The session in which the text has been read. -/
def usesSession : Session := rereading "" usesText

/-- A search in the session that is not told to stop goes on to its end. -/
theorem interruption?_usesSession (options : ReferenceOptions)
    (h : options.interruption? none = none) :
    options.interruption? usesSession.workspace.config.referenceTimeout = none := by
  rw [usesSession, rereading_config]
  exact h

/-- The name of the constant and one of its uses are given where two nodes are wanted. -/
theorem references_limit_two :
    let options : ReferenceOptions := { includeDefinition := true }
    options.interruption? usesSession.workspace.config.referenceTimeout = none ∧
      ∃ uses first,
        (references usedConstant { options with limit := none } usesSession).1 = .ok uses ∧
        (references usedConstant { options with limit := some 2 } usesSession).1 = .ok first ∧
        (0 < 2 ∨ options.includeDefinition = false → first = uses.take 2 ∧ first.length ≤ 2) ∧
        (2 = 0 →
          first = if options.includeDefinition then usedConstant.nameNode?.toList else []) := by
  intro options
  have hgo := interruption?_usesSession options rfl
  exact ⟨hgo, references_limit _ usedConstant options 2 hgo⟩

/-- Where no node is wanted, the name of the declaration is given nevertheless. -/
theorem not_references_limit_zero :
    ¬ ∀ (s : Session) (d : Decl) (options : ReferenceOptions) (limit : Nat),
      options.interruption? s.workspace.config.referenceTimeout = none →
      ∃ uses, (references d { options with limit := none } s).1 = .ok uses ∧
        (references d { options with limit := some limit } s).1 = .ok (uses.take limit) := by
  intro h
  have hgo := interruption?_usesSession { includeDefinition := true } rfl
  obtain ⟨uses, huses, hnone⟩ := h usesSession usedConstant { includeDefinition := true } 0 hgo
  obtain ⟨uses', huses', hname, hone⟩ :=
    references_limited usesSession usedConstant { includeDefinition := true } 0 hgo
  have hempty := Except.ok.inj (hnone.symm.trans hone)
  have hlength : (ReferenceSearch.definition
      ⟨usesSession.workspace, usedConstant, { includeDefinition := true }⟩).length = 1 := by
    change usedConstant.nameNode?.toList.length = 1
    decide +kernel
  rw [hlength, List.take_zero] at hempty
  have hle := hname.length_le
  rw [hlength] at hle
  have hzero := congrArg List.length hempty
  simp only [List.length_nil, List.length_take] at hzero
  omega

end Session

end TolkAnalysis
