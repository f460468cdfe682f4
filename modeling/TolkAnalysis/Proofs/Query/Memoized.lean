import Mathlib.Logic.Relation
import TolkAnalysis.Proofs.Query.Run

/-!
# Recipes that share a memo table

Each key has a `Recipe`, which may ask the table for further keys on its way to an answer.
`QueryCache.request` answers a key through the table. Nested requests go `depth` deep at most:
a run that would go deeper is broken off and its table is lost, and `QueryCache.Answers` speaks
only of runs that end. `Recipe.plain` is the same recursion without a table.

`QueryCache.Reachable.memoizes` binds the two. A key that is in flight has no answer; an answer
that is given is kept until the table is cleared; and a key whose requests meet no circle is
answered as without a table. The last part rests on `Faithful`, which says so of what is
remembered, and on `Awaits`: whatever is in flight leads to the key that is asked for, so a key
that is in flight when it is asked for lies on a circle.
-/

namespace TolkAnalysis

open Relation

variable {κ α σ : Type}

/-- A computation that asks for keys, one after another, and ends with an optional answer. -/
inductive Recipe (κ α : Type) : Type where
  | answer (value : Option α)
  | ask (key : κ) (next : Option α → Recipe κ α)

namespace Recipe

/-- Follows a recipe, where requests are answered in a state. -/
def run (request : κ → StateM σ (Option α)) : Recipe κ α → StateM σ (Option α)
  | .answer value => pure value
  | .ask key next => do (next (← request key)).run request

/-- What a recipe ends with, if none of its requests stays open. -/
def eval? (known : κ → Option (Option α)) : Recipe κ α → Option (Option α)
  | .answer value => some value
  | .ask key next => (known key).bind fun value => (next value).eval? known

/-- The recipe may ask for a key. -/
inductive Asks (key : κ) : Recipe κ α → Prop
  | here (next : Option α → Recipe κ α) : Asks key (.ask key next)
  | later {other : κ} {next : Option α → Recipe κ α} {value : Option α}
      (h : Asks key (next value)) : Asks key (.ask other next)

theorem eval?_mono {known known' : κ → Option (Option α)}
    (h : ∀ key value, known key = some value → known' key = some value) {p : Recipe κ α}
    {value : Option α} (hp : p.eval? known = some value) : p.eval? known' = some value := by
  induction p with
  | answer v => exact hp
  | ask key next ih =>
      obtain ⟨v, hv, hp⟩ := Option.bind_eq_some_iff.mp hp
      exact Option.bind_eq_some_iff.mpr ⟨v, h key v hv, ih v hp⟩

variable (recipes : κ → Recipe κ α)

/-- The answer for a key without a table: each request follows its recipe anew, nested at most
`depth` deep. -/
def plain : Nat → κ → Option (Option α)
  | 0, _ => none
  | depth + 1, key => (recipes key).eval? (plain depth)

theorem plain_succ {depth : Nat} {key : κ} {value : Option α}
    (h : plain recipes depth key = some value) :
    plain recipes (depth + 1) key = some value := by
  induction depth generalizing key value with
  | zero => cases h
  | succ depth ih => exact eval?_mono (fun _ _ => ih) h

variable {recipes}

theorem plain_mono {depth depth' : Nat} (hle : depth ≤ depth') {key : κ} {value : Option α}
    (h : plain recipes depth key = some value) : plain recipes depth' key = some value := by
  induction hle with
  | refl => exact h
  | step _ ih => exact plain_succ recipes ih

theorem plain_unique {depth depth' : Nat} {key : κ} {value value' : Option α}
    (h : plain recipes depth key = some value) (h' : plain recipes depth' key = some value') :
    value = value' := by
  have hmax := plain_mono (Nat.le_max_left depth depth') h
  rw [plain_mono (Nat.le_max_right depth depth') h'] at hmax
  exact (Option.some_inj.mp hmax).symm

variable (recipes)

/-- The recipe of a key may ask for another key. -/
def Uses (key key' : κ) : Prop := (recipes key).Asks key'

/-- The requests that are reached from a key form no circle. -/
def Acyclic (key : κ) : Prop :=
  ∀ key', ReflTransGen (Uses recipes) key key' → ¬TransGen (Uses recipes) key' key'

variable {recipes}

theorem Acyclic.of_uses {key key' : κ} (h : Acyclic recipes key) (hk : Uses recipes key key') :
    Acyclic recipes key' :=
  fun other hother => h other (ReflTransGen.head hk hother)

end Recipe

namespace QueryCache

variable [DecidableEq κ] [Hashable κ]

open Recipe

/-- A table that is lost where a run is broken off. -/
def Part.unlessLost : Part (Option (QueryCache κ α)) κ α where
  get s := s.getD .empty
  modify f s := s.map f

variable (recipes : κ → Recipe κ α)

/-- The answer for a key through the table, by requests that are nested at most `depth` deep. -/
def request : Nat → κ → StateM (Option (QueryCache κ α)) (Option α)
  | 0, _ => fun _ => (none, none)
  | depth + 1, key => getOrCompute .unlessLost key ((recipes key).run (request depth))

/-- A request for a key ends with an answer and leaves a table behind. -/
def Answers (c : QueryCache κ α) (key : κ) (value : Option α) (c' : QueryCache κ α) : Prop :=
  ∃ depth, request recipes depth key (some c) = (value, some c')

/-- The tables between requests that nothing is nested in. -/
inductive Reachable : QueryCache κ α → Prop
  | empty : Reachable .empty
  | request {c c' : QueryCache κ α} {key : κ} {value : Option α} (h : Reachable c)
      (hanswer : Answers recipes c key value c') : Reachable c'
  | clear {c : QueryCache κ α} (h : Reachable c) : Reachable c.clear

/-- The table in the midst of a run that begins with one of the `initial` tables, and what is
left of the innermost recipe then. -/
inductive During (initial : QueryCache κ α → Prop) : Recipe κ α → QueryCache κ α → Prop
  | start {c : QueryCache κ α} (h : initial c) (key : κ) : During initial (.ask key .answer) c
  | enter {c : QueryCache κ α} {key : κ} {next : Option α → Recipe κ α}
      (h : During initial (.ask key next) c) (hnew : c.find? key = none) :
      During initial (recipes key) (c.enter key)
  | next {c c' : QueryCache κ α} {key : κ} {next : Option α → Recipe κ α}
      {value : Option α} (h : During initial (.ask key next) c)
      (hanswer : Answers recipes c key value c') : During initial (next value) c'

/-- One table is reached from another by requests alone. -/
def Later : QueryCache κ α → QueryCache κ α → Prop :=
  ReflTransGen fun c c' => ∃ key value, Answers recipes c key value c'

/-- A request for a key gives a value and leaves everything as it is, whatever would be computed
for it. -/
def Settled (c : QueryCache κ α) (key : κ) (value : Option α) : Prop :=
  ∀ (σ : Type) (part : Part σ κ α) (s : σ), part.get s = c →
    ∀ compute, getOrCompute part key compute s = (value, s)

variable {recipes} {depth : Nat} {c c' : QueryCache κ α} {key : κ} {value : Option α}
  {p : Recipe κ α}

/-! ### Runs that are not broken off -/

theorem run_none (hrequest : ∀ key, (request recipes depth key none).2 = none)
    (p : Recipe κ α) : (p.run (request recipes depth) none).2 = none := by
  induction p with
  | answer value => rfl
  | ask key next ih =>
      change ((next _).run _ (request recipes depth key none).2).2 = none
      rw [hrequest]
      exact ih _

variable (recipes) in
/-- A table that is lost stays lost. -/
theorem request_none (depth : Nat) (key : κ) : (request recipes depth key none).2 = none := by
  induction depth generalizing key with
  | zero => rfl
  | succ depth ih =>
      have hnew : (Part.unlessLost.get (none : Option (QueryCache κ α))).find? key = none :=
        find?_eq_none_iff.mpr ⟨by simp [Part.unlessLost, empty], by simp [Part.unlessLost, empty]⟩
      rw [request, getOrCompute_of_new hnew]
      change Option.map _ ((recipes key).run (request recipes depth) none).2 = none
      rw [run_none ih]
      rfl

/-- A run that is not broken off gets an answer to its first request and goes on with it. -/
theorem run_ask_iff {next : Option α → Recipe κ α} :
    (Recipe.ask key next).run (request recipes depth) (some c) = (value, some c') ↔
      ∃ v c₁, request recipes depth key (some c) = (v, some c₁) ∧
        (next v).run (request recipes depth) (some c₁) = (value, some c') := by
  change (next (request recipes depth key (some c)).1).run (request recipes depth)
    (request recipes depth key (some c)).2 = _ ↔ _
  rcases hfirst : request recipes depth key (some c) with ⟨v, _ | c₁⟩
  · constructor
    · intro h
      have hlost := run_none (request_none recipes depth) (next v)
      rw [h] at hlost
      cases hlost
    · rintro ⟨_, _, h, -⟩
      cases h
  · constructor
    · exact fun h => ⟨v, c₁, rfl, h⟩
    · rintro ⟨_, _, h, hnext⟩
      cases h
      exact hnext

/-- A request that is not broken off finds an answer, or computes and remembers one. -/
theorem request_succ_iff :
    request recipes (depth + 1) key (some c) = (value, some c') ↔
      c.find? key = some value ∧ c' = c ∨
      c.find? key = none ∧ ∃ c₁, (recipes key).run (request recipes depth)
        (some (c.enter key)) = (value, some c₁) ∧ c' = c₁.leave key value := by
  rw [request]
  cases hfind : c.find? key with
  | some v =>
      rw [getOrCompute_of_find? (show (Part.unlessLost.get (some c)).find? key = some v from hfind)]
      constructor
      · intro h
        cases h
        exact .inl ⟨rfl, rfl⟩
      · rintro (⟨h, rfl⟩ | ⟨h, -⟩)
        · cases h
          rfl
        · cases h
  | none =>
      rw [getOrCompute_of_new (show (Part.unlessLost.get (some c)).find? key = none from hfind)]
      change (fun r => (r.1, Option.map (fun c₁ => c₁.leave key r.1) r.2))
        ((recipes key).run (request recipes depth) (some (c.enter key))) = _ ↔ _
      rcases (recipes key).run (request recipes depth) (some (c.enter key)) with ⟨v, _ | c₁⟩
      · constructor
        · intro h
          cases h
        · rintro (⟨h, -⟩ | ⟨-, _, h, -⟩) <;> cases h
      · constructor
        · intro h
          cases h
          exact .inr ⟨rfl, c₁, rfl, rfl⟩
        · rintro (⟨h, -⟩ | ⟨-, _, h, rfl⟩)
          · cases h
          · cases h
            rfl

/-! ### What a request keeps -/

/-- A property of the step from one table to another that holds of a run if it holds of its
requests. -/
theorem run_induction {R : QueryCache κ α → QueryCache κ α → Prop} (hrefl : ∀ a, R a a)
    (htrans : ∀ {a b b'}, R a b → R b b' → R a b')
    (hrequest : ∀ {key c value c'}, request recipes depth key (some c) = (value, some c') → R c c')
    (h : p.run (request recipes depth) (some c) = (value, some c')) : R c c' := by
  induction p generalizing c with
  | answer v =>
      cases h
      exact hrefl _
  | ask key next ih =>
      obtain ⟨v, c₁, hfirst, hnext⟩ := run_ask_iff.mp h
      exact htrans (hrequest hfirst) (ih v hnext)

/-- Requests add answers and change nothing of what is in flight. -/
theorem grows_of_request (h : request recipes depth key (some c) = (value, some c')) :
    c.Grows c' := by
  induction depth generalizing key c value c' with
  | zero => cases h
  | succ depth ih =>
      rcases request_succ_iff.mp h with ⟨-, rfl⟩ | ⟨hnew, c₁, hrun, rfl⟩
      · exact .refl _
      · exact grows_leave hnew (run_induction .refl .trans ih hrun) value

theorem Answers.grows (h : Answers recipes c key value c') : c.Grows c' :=
  grows_of_request h.choose_spec

theorem Later.grows (h : Later recipes c c') : c.Grows c' := by
  induction h with
  | refl => exact .refl c
  | tail _ hstep ih =>
      obtain ⟨_, _, hstep⟩ := hstep
      exact ih.trans hstep.grows

/-- No key is both in flight and remembered. -/
def Apart (c : QueryCache κ α) : Prop := ∀ key ∈ c.inFlight, c.values[key]? = none

theorem Apart.enter (h : c.Apart) (hnew : c.find? key = none) : (c.enter key).Apart := by
  intro k hk
  rcases Std.HashSet.mem_insert.mp hk with heq | hk
  · rw [← beq_iff_eq.mp heq]
    exact (find?_eq_none_iff.mp hnew).1
  · exact h k hk

theorem Apart.leave (h : c.Apart) (key : κ) (value : Option α) : (c.leave key value).Apart := by
  intro k hk
  obtain ⟨hne, hk⟩ := Std.HashSet.mem_erase.mp hk
  rw [leave_values, if_neg (beq_eq_false_iff_ne.mp hne)]
  exact h k hk

theorem Apart.request (h : request recipes depth key (some c) = (value, some c'))
    (hc : c.Apart) : c'.Apart := by
  induction depth generalizing key c value c' with
  | zero => cases h
  | succ depth ih =>
      rcases request_succ_iff.mp h with ⟨-, rfl⟩ | ⟨hnew, c₁, hrun, rfl⟩
      · exact hc
      · have hrun' := run_induction (R := fun a b => a.Apart → b.Apart) (fun _ => id)
          (fun hab hbc => hbc ∘ hab) ih hrun
        exact (hrun' (hc.enter hnew)).leave key value

namespace Reachable

theorem idle (h : Reachable recipes c) : ∀ key, key ∉ c.inFlight := by
  induction h with
  | empty => simp [QueryCache.empty]
  | request _ hanswer ih => exact fun key hkey => ih key ((hanswer.grows.inFlight key).mp hkey)
  | clear _ ih => exact ih

theorem apart (h : Reachable recipes c) : c.Apart := fun key hkey => absurd hkey (h.idle key)

end Reachable

theorem During.apart (h : During recipes (Reachable recipes) p c) : c.Apart := by
  induction h with
  | start h _ => exact h.apart
  | enter _ hnew ih => exact ih.enter hnew
  | next _ hanswer ih => exact ih.request hanswer.choose_spec

/-- What is remembered stays so in the midst of later runs. -/
theorem During.remembers {c₀ : QueryCache κ α} (h : During recipes (Later recipes c₀) p c)
    (hvalue : c₀.values[key]? = some value) : c.values[key]? = some value := by
  induction h with
  | start h _ => exact h.grows.values hvalue
  | enter _ _ ih => exact ih
  | next _ hanswer ih => exact hanswer.grows.values ih

theorem Settled.of_find? (h : c.find? key = some value) : c.Settled key value :=
  fun _ _ _ hs compute => getOrCompute_of_find? (hs ▸ h) compute

/-- A request that is not in flight remembers its answer. -/
theorem remembers_of_request (h : request recipes depth key (some c) = (value, some c'))
    (hidle : key ∉ c.inFlight) : c'.values[key]? = some value := by
  obtain _ | depth := depth
  · cases h
  rcases request_succ_iff.mp h with ⟨hfind, rfl⟩ | ⟨-, c₁, -, rfl⟩
  · cases hvalue : c'.values[key]? with
    | some v => rwa [find?_of_values hvalue] at hfind
    | none =>
        rw [find?_eq_none_iff.mpr ⟨hvalue, hidle⟩] at hfind
        cases hfind
  · rw [leave_values, if_pos rfl]

/-! ### Keys without circles -/

/-- What is remembered of a key whose requests meet no circle is its answer without a table. -/
def Faithful (recipes : κ → Recipe κ α) (c : QueryCache κ α) : Prop :=
  ∀ key value, c.values[key]? = some value → Acyclic recipes key →
    ∃ depth, plain recipes depth key = some value

theorem Faithful.leave (h : Faithful recipes c)
    (hkey : Acyclic recipes key → ∃ depth, plain recipes depth key = some value) :
    Faithful recipes (c.leave key value) := by
  intro k v hv
  rw [leave_values] at hv
  split at hv
  · rename_i heq
    cases hv
    exact heq ▸ hkey
  · exact h k v hv

/-- Whatever is in flight leads to the key that is asked for next. -/
def Awaits (recipes : κ → Recipe κ α) (c : QueryCache κ α) (key : κ) : Prop :=
  ∀ k ∈ c.inFlight, TransGen (Uses recipes) k key

/-- Whatever is in flight leads to the key whose recipe is followed. -/
def Serves (recipes : κ → Recipe κ α) (c : QueryCache κ α) (key : κ) : Prop :=
  ∀ k ∈ c.inFlight, ReflTransGen (Uses recipes) k key

theorem Awaits.enter (h : Awaits recipes c key) : Serves recipes (c.enter key) key := by
  intro k hk
  rcases Std.HashSet.mem_insert.mp hk with heq | hk
  · rw [beq_iff_eq.mp heq]
  · exact (h k hk).to_reflTransGen

theorem Serves.awaits {key' : κ} (h : Serves recipes c key) (hk : Uses recipes key key') :
    Awaits recipes c key' :=
  fun k hkey => TransGen.tail' (h k hkey) hk

theorem Serves.of_grows (h : Serves recipes c key) (hg : c.Grows c') : Serves recipes c' key :=
  fun k hk => h k ((hg.inFlight k).mp hk)

theorem Awaits.not_mem (h : Awaits recipes c key) (hkey : Acyclic recipes key) :
    key ∉ c.inFlight :=
  fun hmem => hkey key .refl (h key hmem)

/-- Requests of bounded depth keep the table faithful, and answer a key whose requests meet no
circle as without a table. -/
def KeepsFaithful (recipes : κ → Recipe κ α) (depth : Nat) : Prop :=
  ∀ {key : κ} {c : QueryCache κ α} {value : Option α} {c' : QueryCache κ α},
    Faithful recipes c → Awaits recipes c key →
    request recipes depth key (some c) = (value, some c') →
    Faithful recipes c' ∧
      (Acyclic recipes key → ∃ d, plain recipes d key = some value)

/-- What is left of the recipe of a key keeps the table faithful if its requests do. -/
theorem KeepsFaithful.run (hrequest : KeepsFaithful recipes depth) (hc : Faithful recipes c)
    (hserves : Serves recipes c key) (hasks : ∀ k, p.Asks k → Uses recipes key k)
    (h : p.run (request recipes depth) (some c) = (value, some c')) :
    Faithful recipes c' ∧
      (Acyclic recipes key → ∃ d, p.eval? (plain recipes d) = some value) := by
  induction p generalizing c with
  | answer v =>
      cases h
      exact ⟨hc, fun _ => ⟨0, rfl⟩⟩
  | ask k next ih =>
      obtain ⟨v, c₁, hfirst, hnext⟩ := run_ask_iff.mp h
      have huses := hasks k (.here next)
      obtain ⟨hc₁, hv⟩ := hrequest hc (hserves.awaits huses) hfirst
      obtain ⟨hc', hvalue⟩ := ih v hc₁ (hserves.of_grows (grows_of_request hfirst))
        (fun k' hk' => hasks k' (.later hk')) hnext
      refine ⟨hc', fun hkey => ?_⟩
      obtain ⟨d, hd⟩ := hv (hkey.of_uses huses)
      obtain ⟨d', hd'⟩ := hvalue hkey
      refine ⟨max d d', Option.bind_eq_some_iff.mpr ⟨v, plain_mono (Nat.le_max_left d d') hd, ?_⟩⟩
      exact eval?_mono (fun _ _ => plain_mono (Nat.le_max_right d d')) hd'

/-- What a request finds for a key whose requests meet no circle has been remembered. -/
theorem Awaits.getElem?_of_find? (h : Awaits recipes c key) (hkey : Acyclic recipes key)
    (hfind : c.find? key = some value) : c.values[key]? = some value := by
  cases hvalue : c.values[key]? with
  | some v => rwa [find?_of_values hvalue] at hfind
  | none =>
      rw [find?_eq_none_iff.mpr ⟨hvalue, h.not_mem hkey⟩] at hfind
      cases hfind

theorem keepsFaithful (depth : Nat) : KeepsFaithful recipes depth := by
  induction depth with
  | zero =>
      intro _ _ _ _ _ _ h
      cases h
  | succ depth ih =>
      intro key c value c' hc hawaits h
      rcases request_succ_iff.mp h with ⟨hfind, rfl⟩ | ⟨hnew, c₁, hrun, rfl⟩
      · exact ⟨hc, fun hkey => hc key value (hawaits.getElem?_of_find? hkey hfind) hkey⟩
      · obtain ⟨hc₁, hvalue⟩ := ih.run (show Faithful recipes (c.enter key) from hc) hawaits.enter
          (fun _ hk => hk) hrun
        have hplain : Acyclic recipes key → ∃ d, plain recipes d key = some value := by
          intro hkey
          obtain ⟨d, hd⟩ := hvalue hkey
          exact ⟨d + 1, hd⟩
        exact ⟨hc₁.leave hplain, hplain⟩

/-- Where what is left of a recipe ends without a table, the run through the table ends if its
requests do. -/
theorem exists_run_of_eval? (hrequest : ∀ {k : κ} {v : Option α} {c : QueryCache κ α},
      Acyclic recipes k → Faithful recipes c → Awaits recipes c k →
      plain recipes depth k = some v →
      ∃ c', request recipes depth k (some c) = (v, some c'))
    (hkey : Acyclic recipes key) (hc : Faithful recipes c) (hserves : Serves recipes c key)
    (hasks : ∀ k, p.Asks k → Uses recipes key k)
    (h : p.eval? (plain recipes depth) = some value) :
    ∃ c', p.run (request recipes depth) (some c) = (value, some c') := by
  induction p generalizing c with
  | answer v =>
      cases h
      exact ⟨c, rfl⟩
  | ask k next ih =>
      obtain ⟨v, hv, hp⟩ := Option.bind_eq_some_iff.mp h
      have huses := hasks k (.here next)
      have hk := hserves.awaits huses
      obtain ⟨c₁, hfirst⟩ := hrequest (hkey.of_uses huses) hc hk hv
      obtain ⟨c', hnext⟩ := ih v (keepsFaithful depth hc hk hfirst).1
        (hserves.of_grows (grows_of_request hfirst)) (fun k' hk' => hasks k' (.later hk')) hp
      exact ⟨c', run_ask_iff.mpr ⟨v, c₁, hfirst, hnext⟩⟩

/-- Where the recursion without a table ends and meets no circle, the request ends in the same
depth. -/
theorem exists_request_of_plain (hkey : Acyclic recipes key) (hc : Faithful recipes c)
    (hawaits : Awaits recipes c key) (h : plain recipes depth key = some value) :
    ∃ c', request recipes depth key (some c) = (value, some c') := by
  induction depth generalizing key value c with
  | zero => cases h
  | succ depth ih =>
      cases hfind : c.find? key with
      | some v =>
          obtain ⟨d, hd⟩ := hc key v (hawaits.getElem?_of_find? hkey hfind) hkey
          obtain rfl := plain_unique hd h
          exact ⟨c, request_succ_iff.mpr (.inl ⟨hfind, rfl⟩)⟩
      | none =>
          obtain ⟨c', hrun⟩ := exists_run_of_eval? ih hkey
            (show Faithful recipes (c.enter key) from hc) hawaits.enter (fun _ hk => hk) h
          exact ⟨c'.leave key value, request_succ_iff.mpr (.inr ⟨hfind, c', hrun, rfl⟩)⟩

namespace Reachable

theorem awaits (h : Reachable recipes c) (key : κ) : Awaits recipes c key :=
  fun k hk => absurd hk (h.idle k)

theorem faithful (h : Reachable recipes c) : Faithful recipes c := by
  induction h with
  | empty =>
      intro key value hvalue
      simp [QueryCache.empty] at hvalue
  | @request _ _ key _ h hanswer ih =>
      exact (keepsFaithful _ ih (h.awaits key) hanswer.choose_spec).1
  | clear _ _ =>
      intro key value hvalue
      simp [QueryCache.clear] at hvalue

/-- A memo table is faithful. In the midst of a run, a key that is in flight has no answer and
nothing is stored for it. After a request that nothing is nested in, nothing is in flight, and
the answer given is the one remembered: until the table is cleared it is given again, whatever
would be computed. And a key whose requests meet no circle is answered as without a table,
whatever has been asked before. -/
theorem memoizes (h : Reachable recipes c) :
    (∀ key next c₁, During recipes (Reachable recipes) (.ask key next) c₁ →
      key ∈ c₁.inFlight → c₁.Settled key none) ∧
    (∀ key value c', Answers recipes c key value c' →
      (∀ k, k ∉ c'.inFlight) ∧ c'.values[key]? = some value ∧
      ∀ next c₁, During recipes (Later recipes c') (.ask key next) c₁ →
        c₁.Settled key value) ∧
    ∀ key, Acyclic recipes key → ∀ value,
      (∃ c', Answers recipes c key value c') ↔ ∃ depth, plain recipes depth key = some value := by
  refine ⟨?_, ?_, ?_⟩
  · intro key next c₁ hduring hkey
    exact .of_find? (find?_of_inFlight (hduring.apart key hkey) hkey)
  · intro key value c' hanswer
    have hremembered := remembers_of_request hanswer.choose_spec (h.idle key)
    refine ⟨(h.request hanswer).idle, hremembered, fun next c₁ hduring => ?_⟩
    exact .of_find? (find?_of_values (hduring.remembers hremembered))
  · intro key hkey value
    constructor
    · rintro ⟨c', depth, hrequest⟩
      exact (keepsFaithful depth h.faithful (h.awaits key) hrequest).2 hkey
    · rintro ⟨depth, hplain⟩
      obtain ⟨c', hrequest⟩ := exists_request_of_plain hkey h.faithful (h.awaits key) hplain
      exact ⟨c', depth, hrequest⟩

end Reachable

/-- Key 2 adds the answers of 0 and 1, and 1 counts from 0. Key 3 asks itself first and then
key 2. -/
def sums : Nat → Recipe Nat Nat
  | 0 => .answer (some 3)
  | 1 => .ask 0 fun a => .answer (a.map (· + 1))
  | 2 => .ask 0 fun a => .ask 1 fun b => .answer (a.bind fun x => b.map (x + ·))
  | 3 => .ask 3 fun a => .ask 2 fun b => .answer (a.or b)
  | _ => .answer none

theorem uses_sums {key key' : Nat} (h : Uses sums key key') (hkey : key < 3) : key' < key := by
  unfold Uses sums at h
  split at h
  · cases h
  · cases h with
    | here => decide
    | later h => cases h
  · cases h with
    | here => decide
    | later h =>
        cases h with
        | here => decide
        | later h => cases h
  · omega
  · cases h

theorem acyclic_sums {key : Nat} (hkey : key < 3) : Acyclic sums key := by
  have hlt : ∀ {a b : Nat}, TransGen (Uses sums) a b → a < 3 → b < a := by
    intro a b h ha
    induction h with
    | single h => exact uses_sums h ha
    | tail _ h ih => exact Nat.lt_trans (uses_sums h (Nat.lt_trans ih ha)) ih
  intro k hk hcircle
  rcases reflTransGen_iff_eq_or_transGen.mp hk with rfl | hk
  · exact Nat.lt_irrefl _ (hlt hcircle hkey)
  · exact Nat.lt_irrefl _ (hlt hcircle (Nat.lt_trans (hlt hk hkey) hkey))

/-- Key 3 is answered although it asks itself. -/
theorem answers_sums : ∃ c, Answers sums .empty 3 (some 7) c := by
  have hnew : (empty : QueryCache Nat Nat).find? 3 = none :=
    find?_eq_none_iff.mpr ⟨by simp [empty], by simp [empty]⟩
  have hcircle : ((empty : QueryCache Nat Nat).enter 3).find? 3 = some none :=
    find?_of_inFlight (by simp [empty, enter]) (by simp [enter])
  have hfaithful : Faithful sums (empty.enter 3) := by
    intro key value hvalue
    simp [empty, enter] at hvalue
  have hawaits : Awaits sums (empty.enter 3) 2 := by
    intro k hk
    obtain rfl : 3 = k := by simpa [empty, enter] using hk
    have hasks : (sums 3).Asks 2 :=
      @Recipe.Asks.later Nat Nat 2 3 (fun a => .ask 2 fun b => .answer (a.or b)) none (.here _)
    exact .single hasks
  have hplain : plain sums 3 2 = some (some 7) := rfl
  obtain ⟨c, hc⟩ := exists_request_of_plain (acyclic_sums (by decide)) hfaithful hawaits hplain
  have hrun : (sums 3).run (QueryCache.request sums 3) (some (empty.enter 3)) = (some 7, some c) :=
    run_ask_iff.mpr ⟨none, _, request_succ_iff.mpr (.inl ⟨hcircle, rfl⟩),
      run_ask_iff.mpr ⟨some 7, c, hc, rfl⟩⟩
  exact ⟨c.leave 3 (some 7), 4, request_succ_iff.mpr (.inr ⟨hnew, c, hrun, rfl⟩)⟩

/-- Key 3 has no answer while it is in flight and keeps the one that it is given then. After it
key 2, which meets no circle, is answered as without a table. -/
theorem memoizes_sums : ∃ c, Answers sums .empty 3 (some 7) c ∧ c.values[3]? = some (some 7) ∧
    (empty.enter 3 : QueryCache Nat Nat).Settled 3 none ∧ c.Settled 3 (some 7) ∧
    ∃ c', Answers sums c 2 (some 7) c' := by
  obtain ⟨c, hc⟩ := answers_sums
  have hstart : During sums (Reachable sums) (.ask 3 .answer) .empty := .start .empty 3
  have hnew : (empty : QueryCache Nat Nat).find? 3 = none :=
    find?_eq_none_iff.mpr ⟨by simp [empty], by simp [empty]⟩
  have hempty : Reachable sums .empty := .empty
  obtain ⟨hcircle, hkept, -⟩ := hempty.memoizes
  obtain ⟨-, hvalue, hlater⟩ := hkept 3 (some 7) c hc
  obtain ⟨-, -, hplain⟩ := (Reachable.empty.request hc).memoizes
  refine ⟨c, hc, hvalue, ?_, ?_, ?_⟩
  · exact hcircle 3 _ _ (hstart.enter hnew) (by simp [enter])
  · exact hlater .answer c (.start .refl 3)
  · exact (hplain 2 (acyclic_sums (by decide)) (some 7)).mpr ⟨3, rfl⟩

end QueryCache

end TolkAnalysis
