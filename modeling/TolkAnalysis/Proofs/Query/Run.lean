import TolkAnalysis.Session.Oracle

/-!
# Running queries

A run of a query only adds to the memo tables: a remembered answer stays, and
what was in flight before is in flight after. `Caches.Grows` is this relation,
which each question keeps and so does every run (`Query.run_grows`).

When nothing is in flight, the answer to each question is remembered, so the
same query asked again finds every answer in the tables and changes them no more
(`Query.run_again`).

`Workspace.afresh` answers the two questions by the rules alone: every question is
answered anew, without a look into memo tables and without a mark on the
questions that are being answered. A question that leads to itself would never
end, so the answer is partial: `afresh depth` answers the questions that end in
chains of at most `depth` questions, and `none` says that a question does not.
More depth keeps the answers (`Workspace.resolve_afresh_mono`).
-/

namespace TolkAnalysis

variable {κ α β σ : Type}

/-! ### Queries as a monad -/

namespace Query

theorem bind_answer (q : Query α) : q.bind .answer = q := by
  induction q with
  | answer a => rfl
  | resolve n next ih => exact congrArg (Query.resolve n) (funext ih)
  | infer n next ih => exact congrArg (Query.infer n) (funext ih)

theorem bind_assoc {γ : Type} (q : Query α) (f : α → Query β) (g : β → Query γ) :
    (q.bind f).bind g = q.bind fun a => (f a).bind g := by
  induction q with
  | answer a => rfl
  | resolve n next ih => exact congrArg (Query.resolve n) (funext ih)
  | infer n next ih => exact congrArg (Query.infer n) (funext ih)

instance : LawfulMonad Query :=
  LawfulMonad.mk' Query (fun q => q.bind_answer) (fun _ _ => rfl) Query.bind_assoc

theorem run_resolve (ask : Oracle) (n : Node) (next : Option Decl → Query α) (c : Caches) :
    (Query.resolve n next).run ask c =
      (next (ask.resolve n c).1).run ask (ask.resolve n c).2 := rfl

theorem run_infer (ask : Oracle) (n : Node) (next : Option Ty → Query α) (c : Caches) :
    (Query.infer n next).run ask c = (next (ask.infer n c).1).run ask (ask.infer n c).2 := rfl

theorem run_bind (ask : Oracle) (q : Query α) (f : α → Query β) (c : Caches) :
    (q >>= f).run ask c = (f (q.run ask c).1).run ask (q.run ask c).2 := by
  induction q generalizing c with
  | answer a => rfl
  | resolve n next ih => exact ih _ _
  | infer n next ih => exact ih _ _

end Query

namespace Attempt

variable {ask : Oracle}

/-- A step of an attempt ends it, or hands its answer on. -/
theorem run_bind (x : Attempt α) (f : α → Attempt β) (c : Caches) :
    (x >>= f).run.run ask c = match x.run.run ask c with
      | (none, c') => (none, c')
      | (some a, c') => (f a).run.run ask c' := by
  refine (Query.run_bind ask x.run _ c).trans ?_
  rcases x.run.run ask c with ⟨_ | a, c'⟩
  · rfl
  · rfl

theorem run_getD (x : Attempt α) (default : α) (c : Caches) : (x.getD default).run.run ask c =
    (some ((x.run.run ask c).1.getD default), (x.run.run ask c).2) := by
  have hanswer : x.answer?.run.run ask c = (some (x.run.run ask c).1, (x.run.run ask c).2) :=
    Query.run_bind ask x.run (fun a => pure (some a)) c
  unfold getD
  rw [run_bind, hanswer]
  rfl

/-- Parts that have a default have an answer together. -/
theorem exists_run_mapM {γ : Type} (ask : Oracle) (f : γ → Attempt α) (default : α) (xs : List γ)
    (c : Caches) :
    ∃ ys c', (xs.mapM fun x => (f x).getD default).run.run ask c = (some ys, c') := by
  induction xs generalizing c with
  | nil => exact ⟨[], c, rfl⟩
  | cons x xs ih =>
      obtain ⟨ys, c', hys⟩ := ih ((f x).run.run ask c).2
      refine ⟨((f x).run.run ask c).1.getD default :: ys, c', ?_⟩
      rw [List.mapM_cons, run_bind, run_getD]
      dsimp only
      rw [run_bind, hys]
      rfl

end Attempt

/-! ### Memo tables -/

namespace QueryCache

section

variable [BEq κ] [Hashable κ]

/-- The remembered answers of `c` are remembered in `c'`, and the same keys are in
flight. -/
structure Grows (c c' : QueryCache κ α) : Prop where
  values : ∀ {k : κ} {v : Option α}, c.values[k]? = some v → c'.values[k]? = some v
  inFlight : ∀ k, k ∈ c'.inFlight ↔ k ∈ c.inFlight

theorem Grows.refl (c : QueryCache κ α) : c.Grows c := ⟨id, fun _ => Iff.rfl⟩

theorem Grows.trans {c c' c'' : QueryCache κ α} (h : c.Grows c') (h' : c'.Grows c'') :
    c.Grows c'' :=
  ⟨fun hv => h'.values (h.values hv), fun k => (h'.inFlight k).trans (h.inFlight k)⟩

theorem find?_of_values {c : QueryCache κ α} {key : κ} {v : Option α}
    (h : c.values[key]? = some v) : c.find? key = some v := by
  rw [find?, h]

theorem find?_of_inFlight {c : QueryCache κ α} {key : κ} (hv : c.values[key]? = none)
    (h : key ∈ c.inFlight) : c.find? key = some none := by
  rw [find?, hv]
  exact if_pos h

theorem find?_eq_none_iff {c : QueryCache κ α} {key : κ} :
    c.find? key = none ↔ c.values[key]? = none ∧ key ∉ c.inFlight := by
  unfold find?
  cases c.values[key]? with
  | none =>
      constructor
      · intro h
        refine ⟨rfl, fun hmem => ?_⟩
        dsimp only at h
        rw [if_pos (Std.HashSet.contains_iff_mem.mpr hmem)] at h
        cases h
      · exact fun h => if_neg h.2
  | some v => simp

theorem getOrCompute_of_find? {part : Part σ κ α} {key : κ} {v : Option α} {s : σ}
    (h : (part.get s).find? key = some v) (compute : StateM σ (Option α)) :
    getOrCompute part key compute s = (v, s) := by
  rw [getOrCompute, h]

theorem getOrCompute_of_new {part : Part σ κ α} {key : κ} {s : σ}
    (h : (part.get s).find? key = none) (compute : StateM σ (Option α)) :
    getOrCompute part key compute s =
      ((compute (part.modify (·.enter key) s)).1,
        part.modify (·.leave key (compute (part.modify (·.enter key) s)).1)
          (compute (part.modify (·.enter key) s)).2) := by
  simp only [getOrCompute, h]
  rfl

end

variable [DecidableEq κ] [Hashable κ]

theorem leave_values [LawfulHashable κ] (c : QueryCache κ α) (key k : κ) (v : Option α) :
    (c.leave key v).values[k]? = if key = k then some v else c.values[k]? := by
  simp [leave, Std.HashMap.getElem?_insert]

theorem find?_leave [LawfulHashable κ] (c : QueryCache κ α) (key k : κ) (v : Option α) :
    (c.leave key v).find? k = if key = k then some v else c.find? k := by
  unfold find?
  rw [leave_values]
  by_cases h : key = k
  · rw [if_pos h, if_pos h]
  · rw [if_neg h, if_neg h]
    simp [leave, h]

/-- A key that is in flight is known to have no answer yet, unless it has one. -/
theorem find?_enter (c : QueryCache κ α) (key k : κ) :
    (c.enter key).find? k = if key = k then some ((c.find? k).getD none) else c.find? k := by
  unfold find? enter
  dsimp only
  cases c.values[k]? with
  | some v => simp
  | none =>
      by_cases h : key = k
      · by_cases hkey : c.inFlight.contains k <;> simp [h, hkey]
      · simp [h]

/-- A table without answers knows nothing while nothing is in flight. -/
theorem find?_of_isEmpty [LawfulHashable κ] {c : QueryCache κ α} (hvalues : c.values.isEmpty = true)
    (hidle : ∀ k, k ∉ c.inFlight) (key : κ) : c.find? key = none :=
  find?_eq_none_iff.mpr ⟨Std.HashMap.getElem?_of_isEmpty hvalues, hidle key⟩

theorem find?_enter_of_new {c : QueryCache κ α} {key : κ} (h : c.find? key = none) :
    (c.enter key).find? key = some none := by
  rw [find?_enter, if_pos rfl, h]
  rfl

theorem find?_enter_of_ne {c : QueryCache κ α} {key k : κ} (h : key ≠ k) :
    (c.enter key).find? k = c.find? k := (find?_enter ..).trans (if_neg h)

theorem find?_leave_of_ne [LawfulHashable κ] {c : QueryCache κ α} {key k : κ} (h : key ≠ k)
    (v : Option α) : (c.leave key v).find? k = c.find? k := (find?_leave ..).trans (if_neg h)

theorem grows_leave [LawfulHashable κ] {c c' : QueryCache κ α} {key : κ}
    (hkey : c.find? key = none) (h : (c.enter key).Grows c') (v : Option α) :
    c.Grows (c'.leave key v) := by
  obtain ⟨hnew, hfree⟩ := find?_eq_none_iff.mp hkey
  refine ⟨fun {k u} hu => ?_, fun k => ?_⟩
  · rw [leave_values, if_neg]
    · exact h.values hu
    · rintro rfl
      rw [hnew] at hu
      cases hu
  · rw [leave, Std.HashSet.mem_erase, h.inFlight, enter, Std.HashSet.mem_insert]
    constructor
    · rintro ⟨hne, heq | hmem⟩
      · simp [heq] at hne
      · exact hmem
    · intro hmem
      refine ⟨?_, Or.inr hmem⟩
      rw [beq_eq_false_iff_ne]
      rintro rfl
      exact hfree hmem

end QueryCache

namespace Caches

/-- Both tables grow. -/
structure Grows (c c' : Caches) : Prop where
  resolve : c.resolve.Grows c'.resolve
  types : c.types.Grows c'.types

theorem Grows.refl (c : Caches) : c.Grows c := ⟨.refl _, .refl _⟩

theorem Grows.trans {c c' c'' : Caches} (h : c.Grows c') (h' : c'.Grows c'') : c.Grows c'' :=
  ⟨h.resolve.trans h'.resolve, h.types.trans h'.types⟩

/-- No question is being answered. -/
structure Idle (c : Caches) : Prop where
  resolve : ∀ k, k ∉ c.resolve.inFlight
  types : ∀ k, k ∉ c.types.inFlight

theorem Idle.of_grows {c c' : Caches} (h : c.Idle) (hg : c.Grows c') : c'.Idle :=
  ⟨fun k hk => h.resolve k ((hg.resolve.inFlight k).mp hk),
    fun k hk => h.types k ((hg.types.inFlight k).mp hk)⟩

theorem idle_empty : Caches.empty.Idle := by
  constructor <;> simp [empty, QueryCache.empty]

theorem Idle.clear {c : Caches} (h : c.Idle) : c.clear.Idle := ⟨h.resolve, h.types⟩

end Caches

/-! ### Runs -/

namespace Query

/-- A run makes the tables grow if each question does. -/
theorem run_grows {ask : Oracle} (hresolve : ∀ n (c : Caches), c.Grows (ask.resolve n c).2)
    (hinfer : ∀ n (c : Caches), c.Grows (ask.infer n c).2) (q : Query α) (c : Caches) :
    c.Grows (q.run ask c).2 := by
  induction q generalizing c with
  | answer a => exact .refl c
  | resolve n next ih => exact (hresolve n c).trans (ih _ _)
  | infer n next ih => exact (hinfer n c).trans (ih _ _)

end Query

namespace Workspace

variable (w : Workspace)

/-- The two questions, answered by chains of questions of bounded length. -/
def oracleWithin (depth : Nat) : Oracle := ⟨w.resolveWithin depth, w.inferWithin depth⟩

theorem oracle_eq : w.oracle = w.oracleWithin (2 * w.loaded + 1) := rfl

theorem oracleWithin_zero_resolve (n : Node) (c : Caches) :
    (w.oracleWithin 0).resolve n c = (none, c) := by
  change w.resolveWithin 0 n c = _
  rw [resolveWithin]
  rfl

theorem oracleWithin_zero_infer (n : Node) (c : Caches) :
    (w.oracleWithin 0).infer n c = (none, c) := by
  change w.inferWithin 0 n c = _
  rw [inferWithin]
  rfl

theorem oracleWithin_succ_resolve (depth : Nat) (n : Node) :
    (w.oracleWithin (depth + 1)).resolve n = QueryCache.getOrCompute Caches.resolvePart n.key
      ((Resolution.first w n).run (w.oracleWithin depth)) := by
  change w.resolveWithin (depth + 1) n = _
  rw [resolveWithin, oracleWithin]

theorem oracleWithin_succ_infer (depth : Nat) (n : Node) :
    (w.oracleWithin (depth + 1)).infer n = QueryCache.getOrCompute Caches.typesPart n.key
      ((Inference.nodeType ⟨w⟩ n).run.run (w.oracleWithin depth)) := by
  change w.inferWithin (depth + 1) n = _
  rw [inferWithin, oracleWithin]

theorem oracleWithin_grows (depth : Nat) :
    (∀ n (c : Caches), c.Grows ((w.oracleWithin depth).resolve n c).2) ∧
      ∀ n (c : Caches), c.Grows ((w.oracleWithin depth).infer n c).2 := by
  induction depth with
  | zero => exact ⟨fun n c => by rw [oracleWithin_zero_resolve]; exact .refl c,
      fun n c => by rw [oracleWithin_zero_infer]; exact .refl c⟩
  | succ depth ih =>
      refine ⟨fun n c => ?_, fun n c => ?_⟩
      · rw [oracleWithin_succ_resolve]
        cases hfind : c.resolve.find? n.key with
        | some v =>
            rw [QueryCache.getOrCompute_of_find? hfind]
            exact .refl c
        | none =>
            rw [QueryCache.getOrCompute_of_new hfind]
            have h := Query.run_grows ih.1 ih.2 (Resolution.first w n)
              (Caches.resolvePart.modify (·.enter n.key) c)
            exact ⟨QueryCache.grows_leave hfind h.resolve _, h.types⟩
      · rw [oracleWithin_succ_infer]
        cases hfind : c.types.find? n.key with
        | some v =>
            rw [QueryCache.getOrCompute_of_find? hfind]
            exact .refl c
        | none =>
            rw [QueryCache.getOrCompute_of_new hfind]
            have h := Query.run_grows ih.1 ih.2 (Inference.nodeType ⟨w⟩ n).run
              (Caches.typesPart.modify (·.enter n.key) c)
            exact ⟨h.resolve, QueryCache.grows_leave hfind h.types _⟩

theorem resolve_grows (n : Node) (c : Caches) : c.Grows (w.oracle.resolve n c).2 :=
  (w.oracleWithin_grows w.depth).1 n c

theorem infer_grows (n : Node) (c : Caches) : c.Grows (w.oracle.infer n c).2 :=
  (w.oracleWithin_grows w.depth).2 n c

theorem run_grows (q : Query α) (c : Caches) : c.Grows (q.run w.oracle c).2 :=
  Query.run_grows w.resolve_grows w.infer_grows q c

theorem resolve_of_values {n : Node} {c : Caches} {d : Option Decl}
    (h : c.resolve.values[n.key]? = some d) : w.oracle.resolve n c = (d, c) := by
  rw [oracle_eq, oracleWithin_succ_resolve]
  exact QueryCache.getOrCompute_of_find? (QueryCache.find?_of_values h) _

theorem infer_of_values {n : Node} {c : Caches} {t : Option Ty}
    (h : c.types.values[n.key]? = some t) : w.oracle.infer n c = (t, c) := by
  rw [oracle_eq, oracleWithin_succ_infer]
  exact QueryCache.getOrCompute_of_find? (QueryCache.find?_of_values h) _

/-- The answer to a question that is not in flight is remembered. -/
theorem resolve_remembered {n : Node} {c : Caches} (h : c.Idle) :
    (w.oracle.resolve n c).2.resolve.values[n.key]? = some (w.oracle.resolve n c).1 := by
  rw [oracle_eq, oracleWithin_succ_resolve]
  cases hv : c.resolve.values[n.key]? with
  | some d =>
      rw [QueryCache.getOrCompute_of_find? (QueryCache.find?_of_values hv)]
      exact hv
  | none =>
      rw [QueryCache.getOrCompute_of_new
        (QueryCache.find?_eq_none_iff.mpr ⟨hv, h.resolve n.key⟩)]
      exact (QueryCache.leave_values ..).trans (if_pos rfl)

/-- The answer to a question that is not in flight is remembered. -/
theorem infer_remembered {n : Node} {c : Caches} (h : c.Idle) :
    (w.oracle.infer n c).2.types.values[n.key]? = some (w.oracle.infer n c).1 := by
  rw [oracle_eq, oracleWithin_succ_infer]
  cases hv : c.types.values[n.key]? with
  | some t =>
      rw [QueryCache.getOrCompute_of_find? (QueryCache.find?_of_values hv)]
      exact hv
  | none =>
      rw [QueryCache.getOrCompute_of_new
        (QueryCache.find?_eq_none_iff.mpr ⟨hv, h.types n.key⟩)]
      exact (QueryCache.leave_values ..).trans (if_pos rfl)

end Workspace

/-- A query that was run with nothing in flight has the same answer whenever it
is run again later, and then leaves the tables as they are. -/
theorem Query.run_again (w : Workspace) (q : Query α) {c c' : Caches} (h : c.Idle)
    (hg : (q.run w.oracle c).2.Grows c') : q.run w.oracle c' = ((q.run w.oracle c).1, c') := by
  induction q generalizing c with
  | answer a => rfl
  | resolve n next ih =>
      have hstep := w.resolve_grows n c
      have hnext := w.run_grows (next (w.oracle.resolve n c).1) (w.oracle.resolve n c).2
      have hv := (hnext.trans hg).resolve.values (w.resolve_remembered h)
      have hagain := ih (w.oracle.resolve n c).1 (h.of_grows hstep) hg
      change (next (w.oracle.resolve n c').1).run w.oracle (w.oracle.resolve n c').2 = _
      rw [w.resolve_of_values hv]
      exact hagain
  | infer n next ih =>
      have hstep := w.infer_grows n c
      have hnext := w.run_grows (next (w.oracle.infer n c).1) (w.oracle.infer n c).2
      have hv := (hnext.trans hg).types.values (w.infer_remembered h)
      have hagain := ih (w.oracle.infer n c).1 (h.of_grows hstep) hg
      change (next (w.oracle.infer n c').1).run w.oracle (w.oracle.infer n c').2 = _
      rw [w.infer_of_values hv]
      exact hagain

/-! ### Answers without memo tables -/

/-- The two questions about a node, which may stay open. -/
structure Findings where
  /-- The declaration that a node refers to. -/
  resolve : Node → Option (Option Decl)
  /-- The type of a node. -/
  infer : Node → Option (Option Ty)

/-- The answer of a query, if none of its questions stays open. -/
def Query.eval? (known : Findings) : Query α → Option α
  | .answer a => some a
  | .resolve n next => (known.resolve n).bind fun d => (next d).eval? known
  | .infer n next => (known.infer n).bind fun t => (next t).eval? known

/-- The answers to the questions that end in chains of bounded length. -/
def Workspace.afresh (w : Workspace) : Nat → Findings
  | 0 => ⟨fun _ => none, fun _ => none⟩
  | depth + 1 =>
      ⟨fun n => (Resolution.first w n).eval? (w.afresh depth),
        fun n => (Inference.nodeType ⟨w⟩ n).run.eval? (w.afresh depth)⟩

namespace Query

variable {known known' : Findings}

@[simp] theorem eval?_pure (a : α) : (pure a : Query α).eval? known = some a := rfl

theorem eval?_bind (q : Query α) (f : α → Query β) :
    (q >>= f).eval? known = (q.eval? known).bind fun a => (f a).eval? known := by
  induction q with
  | answer a => rfl
  | resolve n next ih =>
      refine Eq.trans ?_ (Option.bind_assoc ..).symm
      exact congrArg _ (funext ih)
  | infer n next ih =>
      refine Eq.trans ?_ (Option.bind_assoc ..).symm
      exact congrArg _ (funext ih)

/-- With more answers to questions, a query keeps its answer. -/
theorem eval?_mono (hresolve : ∀ n d, known.resolve n = some d → known'.resolve n = some d)
    (hinfer : ∀ n t, known.infer n = some t → known'.infer n = some t) {q : Query α} {a : α}
    (h : q.eval? known = some a) : q.eval? known' = some a := by
  induction q with
  | answer b => exact h
  | resolve n next ih =>
      obtain ⟨d, hd, h⟩ := Option.bind_eq_some_iff.mp h
      exact Option.bind_eq_some_iff.mpr ⟨d, hresolve n d hd, ih d h⟩
  | infer n next ih =>
      obtain ⟨t, ht, h⟩ := Option.bind_eq_some_iff.mp h
      exact Option.bind_eq_some_iff.mpr ⟨t, hinfer n t ht, ih t h⟩

end Query

namespace Workspace

variable (w : Workspace)

theorem afresh_succ (depth : Nat) :
    (∀ n d, (w.afresh depth).resolve n = some d → (w.afresh (depth + 1)).resolve n = some d) ∧
      ∀ n t, (w.afresh depth).infer n = some t → (w.afresh (depth + 1)).infer n = some t := by
  induction depth with
  | zero => exact ⟨fun _ _ h => (nomatch h), fun _ _ h => (nomatch h)⟩
  | succ depth ih =>
      exact ⟨fun _ _ h => Query.eval?_mono ih.1 ih.2 h, fun _ _ h => Query.eval?_mono ih.1 ih.2 h⟩

theorem resolve_afresh_mono {depth depth' : Nat} (h : depth ≤ depth') {n : Node}
    {d : Option Decl} (hd : (w.afresh depth).resolve n = some d) :
    (w.afresh depth').resolve n = some d := by
  induction h with
  | refl => exact hd
  | step _ ih => exact (w.afresh_succ _).1 n d ih

theorem infer_afresh_mono {depth depth' : Nat} (h : depth ≤ depth') {n : Node}
    {t : Option Ty} (ht : (w.afresh depth).infer n = some t) :
    (w.afresh depth').infer n = some t := by
  induction h with
  | refl => exact ht
  | step _ ih => exact (w.afresh_succ _).2 n t ih

theorem eval?_afresh_succ {depth : Nat} {q : Query α} {a : α}
    (h : q.eval? (w.afresh depth) = some a) : q.eval? (w.afresh (depth + 1)) = some a :=
  Query.eval?_mono (w.afresh_succ depth).1 (w.afresh_succ depth).2 h

variable {w}

/-- A query that is answered without a question leaves the tables as they are. -/
theorem run_of_eval?_zero {q : Query α} {a : α} (h : q.eval? (w.afresh 0) = some a) (ask : Oracle)
    (c : Caches) : q.run ask c = (a, c) := by
  cases q with
  | answer b =>
      cases h
      rfl
  | resolve n next => cases h
  | infer n next => cases h

/-- What a node refers to is remembered at once if it is found without a question. -/
theorem resolve_of_afresh_one {n : Node} {d : Option Decl} {bound : Nat} {c : Caches}
    (hnew : c.resolve.find? n.key = none) (h : (w.afresh 1).resolve n = some d) :
    (w.oracleWithin (bound + 1)).resolve n c = (d, Caches.resolvePart.modify (·.leave n.key d)
      (Caches.resolvePart.modify (·.enter n.key) c)) := by
  have hrun : (Resolution.first w n).eval? (w.afresh 0) = some d := h
  rw [oracleWithin_succ_resolve, QueryCache.getOrCompute_of_new hnew, run_of_eval?_zero hrun]

end Workspace

end TolkAnalysis
