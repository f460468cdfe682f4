import TolkAnalysis.Proofs.Query.Run
import TolkAnalysis.Proofs.Ty.Anchored

/-!
# What a query asks about

`Query.Within A K good q` says that `q` asks only about nodes in `A` and that its
answer is `good`, provided that the answers it gets stay in `K`: a node refers to a
declaration in `K`, and a type carries declarations in `K` only. It is the weakest
precondition of `q` for such answers, so `Query.within_bind` is an equivalence, and a
rule is followed step by step.

The rules for types are queries without an answer now and then, those for names
collect declarations on the way. `Attempt.Within` and `Search.Within` are the
same for these two; a search also keeps `P` of all that it has collected.
-/

namespace TolkAnalysis

variable {A K : Node → Prop} {α β : Type}

/-- All declarations that a type carries are in `K`. -/
abbrev Ty.In (K : Node → Prop) (t : Ty) : Prop := t.Anchored fun d => K d.node

namespace Query

/-- The query asks only about nodes in `A` and its answer is `good`, provided
that what it is answered is in `K`. -/
def Within (A K : Node → Prop) (good : α → Prop) : Query α → Prop
  | .answer a => good a
  | .resolve n next =>
      A n ∧ ∀ d : Option Decl, (∀ x ∈ d, K x.node) → (next d).Within A K good
  | .infer n next =>
      A n ∧ ∀ t : Option Ty, (∀ x ∈ t, x.In K) → (next t).Within A K good

@[simp] theorem within_pure (good : α → Prop) (a : α) :
    (pure a : Query α).Within A K good ↔ good a := Iff.rfl

theorem within_bind (good : β → Prop) (q : Query α) (f : α → Query β) :
    (q >>= f).Within A K good ↔ q.Within A K fun a => (f a).Within A K good := by
  induction q with
  | answer a => exact Iff.rfl
  | resolve n next ih => exact and_congr_right fun _ => forall_congr' fun d => forall_congr' fun _ => ih d
  | infer n next ih => exact and_congr_right fun _ => forall_congr' fun t => forall_congr' fun _ => ih t

theorem Within.mono {good good' : α → Prop} {q : Query α} (hq : q.Within A K good)
    (h : ∀ a, good a → good' a) : q.Within A K good' := by
  induction q with
  | answer a => exact h a hq
  | resolve n next ih => exact ⟨hq.1, fun d hd => ih d (hq.2 d hd)⟩
  | infer n next ih => exact ⟨hq.1, fun t ht => ih t (hq.2 t ht)⟩

theorem within_reference {n : Node} (hn : A n) :
    (reference n).Within A K fun d => ∀ x ∈ d, K x.node := ⟨hn, fun _ hd => hd⟩

theorem within_typeOf {n : Node} (hn : A n) :
    (typeOf n).Within A K fun t => ∀ x ∈ t, x.In K := ⟨hn, fun _ ht => ht⟩

end Query

namespace Attempt

/-- The attempt asks only about nodes in `A`, and its answer, if it has one, is
`good`. -/
def Within (A K : Node → Prop) (good : α → Prop) (a : Attempt α) : Prop :=
  a.run.Within A K fun r => ∀ x ∈ r, good x

variable {good : α → Prop} {good' : β → Prop}

theorem within_pure {a : α} (h : good a) : Within A K good (pure a : Attempt α) := by
  intro x hx
  cases hx
  exact h

theorem within_failure : Within A K good (failure : Attempt α) :=
  fun _ hx => nomatch hx

theorem Within.bind {a : Attempt α} {f : α → Attempt β} (ha : Within A K good a)
    (hf : ∀ x, good x → Within A K good' (f x)) : Within A K good' (a >>= f) := by
  refine (Query.within_bind ..).mpr (Query.Within.mono ha ?_)
  intro r hr
  cases r with
  | none => exact fun _ hx => nomatch hx
  | some x => exact hf x (hr x rfl)

theorem Within.mono {a : Attempt α} {good₂ : α → Prop} (ha : Within A K good a)
    (h : ∀ x, good x → good₂ x) : Within A K good₂ a :=
  Query.Within.mono ha fun _ hr x hx => h x (hr x hx)

theorem within_ofOption {o : Option α} (h : ∀ x ∈ o, good x) : Within A K good (ofOption o) := h

theorem Within.answer? {a : Attempt α} (ha : Within A K good a) :
    Within A K (fun r => ∀ x ∈ r, good x) a.answer? := by
  refine (Query.within_bind ..).mpr (Query.Within.mono ha ?_)
  intro r hr x hx
  cases hx
  exact hr

theorem Within.getD {a : Attempt α} (ha : Within A K good a) {default : α} (h : good default) :
    Within A K good (a.getD default) := by
  refine ha.answer?.bind fun r hr => within_pure ?_
  cases r with
  | none => exact h
  | some x => exact hr x rfl

theorem within_mapM {γ : Type} {f : γ → Attempt α} {l : List γ}
    (h : ∀ c ∈ l, Within A K good (f c)) :
    Within A K (fun as => ∀ a ∈ as, good a) (l.mapM f) := by
  induction l with
  | nil => exact within_pure (by simp)
  | cons c l ih =>
      rw [List.forall_mem_cons] at h
      rw [List.mapM_cons]
      refine h.1.bind fun a ha => (ih h.2).bind fun as has => within_pure ?_
      exact List.forall_mem_cons.mpr ⟨ha, has⟩

end Attempt

namespace Search

/-- The search asks only about nodes in `A` and collects only declarations that
satisfy `P`; what it answers, if it goes on, is `good`. -/
def Within (A K : Node → Prop) (P : Decl → Prop) (good : α → Prop) (q : Search α) : Prop :=
  ∀ found : Array Decl, (∀ d ∈ found, P d) → Query.Within A K
    (fun r => (∀ d ∈ r.2, P d) ∧ ∀ a, r.1 = .ok a → good a) ((q.run).run found)

variable {P : Decl → Prop} {good : α → Prop} {good' : β → Prop}

theorem within_pure {a : α} (h : good a) : Within A K P good (pure a : Search α) :=
  fun _ hfound => ⟨hfound, fun _ hx => by cases hx; exact h⟩

theorem Within.bind {q : Search α} {f : α → Search β} (hq : Within A K P good q)
    (hf : ∀ x, good x → Within A K P good' (f x)) : Within A K P good' (q >>= f) := by
  intro found hfound
  refine (Query.within_bind ..).mpr (Query.Within.mono (hq found hfound) ?_)
  rintro ⟨r, found'⟩ ⟨hfound', hr⟩
  cases r with
  | error e => exact ⟨hfound', fun _ hx => nomatch hx⟩
  | ok x => exact hf x (hr x rfl) found' hfound'

theorem Within.mono {q : Search α} {good₂ : α → Prop} (hq : Within A K P good q)
    (h : ∀ x, good x → good₂ x) : Within A K P good₂ q :=
  fun found hfound => Query.Within.mono (hq found hfound) fun _ hr =>
    ⟨hr.1, fun a ha => h a (hr.2 a ha)⟩

theorem within_liftM {q : Query α} (hq : q.Within A K good) :
    Within A K P good (liftM q : Search α) := by
  intro found hfound
  refine (Query.within_bind ..).mpr ((Query.within_bind ..).mpr (hq.mono ?_))
  exact fun a ha => ⟨hfound, fun _ hx => by cases hx; exact ha⟩

theorem within_resolve (l : Lookup) {n : Node} (hn : A n) :
    Within A K P (fun d => ∀ x ∈ d, K x.node) (l.resolve n) :=
  within_liftM (Query.within_reference hn)

theorem within_infer (l : Lookup) {n : Node} (hn : A n) :
    Within A K P (fun t => ∀ x ∈ t, x.In K) (l.infer n) :=
  within_liftM (Query.within_typeOf hn)

theorem within_forM {γ : Type} {f : γ → Search Unit} {l : List γ}
    (h : ∀ c ∈ l, Within A K P (fun _ => True) (f c)) :
    Within A K P (fun _ => True) (l.forM f) := by
  induction l with
  | nil => exact within_pure trivial
  | cons c l ih =>
      rw [List.forall_mem_cons] at h
      exact h.1.bind fun _ _ => ih h.2

theorem within_filterM {γ : Type} {f : γ → Search Bool} {Q : γ → Prop} {l : List γ}
    (h : ∀ c ∈ l, Within A K P (fun _ => True) (f c)) (hQ : ∀ c ∈ l, Q c) :
    Within A K P (fun cs => ∀ c ∈ cs, Q c) (l.filterM f) := by
  have aux : ∀ (l kept : List γ), (∀ c ∈ l, Within A K P (fun _ => True) (f c)) →
      (∀ c ∈ l, Q c) → (∀ c ∈ kept, Q c) →
      Within A K P (fun cs => ∀ c ∈ cs, Q c) (l.filterAuxM f kept) := by
    intro l
    induction l with
    | nil => exact fun kept _ _ hkept => within_pure hkept
    | cons c l ih =>
        intro kept h hQ hkept
        rw [List.forall_mem_cons] at h hQ
        rw [List.filterAuxM]
        refine h.1.bind fun b _ => ih _ h.2 hQ.2 ?_
        cases b with
        | false => exact hkept
        | true => exact List.forall_mem_cons.mpr ⟨hQ.1, hkept⟩
  unfold List.filterM
  refine (aux l [] h hQ (by simp)).bind fun cs hcs => within_pure ?_
  exact fun c hc => hcs c (List.mem_reverse.mp hc)

end Search

namespace Lookup

variable {P : Decl → Prop}

open Search (Within)

theorem within_offerNamed (l : Lookup) {wanted : String} {d : Decl}
    (h : l.fits wanted d → P d) : Within A K P (fun _ => True) (l.offerNamed wanted d) := by
  intro found hfound
  unfold offerNamed
  split
  · rename_i hfits
    have hpush : ∀ d' ∈ found.push d, P d' := by
      intro d' hd'
      rcases Array.mem_push.mp hd' with hd' | rfl
      · exact hfound d' hd'
      · exact h hfits
    cases l.all with
    | true => exact ⟨hpush, fun _ _ => trivial⟩
    | false => exact ⟨hpush, fun _ hx => nomatch hx⟩
  · exact ⟨hfound, fun _ _ => trivial⟩

theorem within_offerAll (l : Lookup) {s : LookupState} {ds : List Decl}
    (h : ∀ d ∈ ds, l.fits (l.wanted s) d → P d) :
    Within A K P (fun _ => True) (l.offerAll s ds) :=
  Search.within_forM fun d hd => l.within_offerNamed (h d hd)

theorem within_run {search : Search Unit} (h : Within A K P (fun _ => True) search) :
    (run search).Within A K fun ds => ∀ d ∈ ds, P d := by
  unfold run
  refine (Query.within_bind ..).mpr (Query.Within.mono (h #[] (by simp)) ?_)
  rintro ⟨r, found⟩ ⟨hfound, -⟩ d hd
  exact hfound d (Array.mem_toList_iff.mp hd)

end Lookup

namespace Inference

open Attempt (Within)

variable (i : Inference)

theorem within_infer {n : Node} (hn : A n) : Within A K (Ty.In K) (i.infer n) :=
  Query.within_typeOf hn

theorem within_resolve {n : Node} (hn : A n) : Within A K (fun d => K d.node) (i.resolve n) :=
  Query.within_reference hn

theorem within_inferOrUnknown {n : Node} (hn : A n) : Within A K (Ty.In K) (i.inferOrUnknown n) :=
  (i.within_infer hn).getD trivial

theorem within_inferSome {ns : List Node} (h : ∀ n ∈ ns, A n) :
    Within A K (fun ts => ∀ t ∈ ts, t.In K) (i.inferSome ns) := by
  induction ns with
  | nil => exact Attempt.within_pure (by simp)
  | cons n ns ih =>
      rw [List.forall_mem_cons] at h
      refine (i.within_infer h.1).answer?.bind fun t ht => (ih h.2).bind fun ts hts =>
        Attempt.within_pure fun s hs => ?_
      rcases List.mem_append.mp hs with hs | hs
      · exact ht s (Option.mem_toList.mp hs)
      · exact hts s hs

end Inference

end TolkAnalysis
