import Mathlib.Data.Finset.Card
import Mathlib.Data.Finset.Range
import TolkAnalysis.Proofs.Inference.Closed
import TolkAnalysis.Proofs.Query.Run
import TolkAnalysis.Proofs.Session.Workspace

/-!
# Memo tables that can be trusted

The memo tables are `Trusted` if every remembered answer about a node of a current
tree may be given: it stays in each closed family that the node belongs to and,
where the rules alone end with an answer, it is that answer.

Questions keep the tables trusted as long as no chain of questions meets its own
start at a question that would have ended: `Caches.Allows` says of a question that
everything in flight that ends at all takes longer chains than the question does,
so the question itself is not in flight. Between the queries of a session nothing
is in flight, and then every question is allowed.

Since the current trees have only so many nodes, a chain of questions about them
never exhausts its bound. `Caches.room` counts the questions that are not in
flight.
-/

namespace TolkAnalysis

variable {α : Type}

/-- An answer to the question what a node refers to that may be given. -/
structure Workspace.MayRefer (w : Workspace) (n : Node) (d : Option Decl) : Prop where
  found : ∀ K : Node → Prop, w.Closed K → K n → ∀ x ∈ d, (⟨w, n, false⟩ : Lookup).Finds K x
  afresh : ∀ depth d', (w.afresh depth).resolve n = some d' → d = d'

/-- An answer to the question which type a node has that may be given. -/
structure Workspace.MayType (w : Workspace) (n : Node) (t : Option Ty) : Prop where
  anchored : ∀ K : Node → Prop, w.Closed K → K n → ∀ x ∈ t, x.In K
  afresh : ∀ depth t', (w.afresh depth).infer n = some t' → t = t'

theorem Workspace.MayRefer.closed {w : Workspace} {n : Node} {d : Option Decl}
    (h : w.MayRefer n d) {K : Node → Prop} (hK : w.Closed K) (hn : K n) : ∀ x ∈ d, K x.node :=
  fun x hx => (h.found K hK hn x hx).offered.closed hK hn

namespace Caches

variable {w : Workspace} {c c' : Caches}

/-- The remembered answers about the nodes of the current trees may be given. -/
structure Trusted (w : Workspace) (c : Caches) : Prop where
  resolve : ∀ {n : Node} {d : Option Decl}, w.Knows n → c.resolve.values[n.key]? = some d →
    w.MayRefer n d
  types : ∀ {n : Node} {t : Option Ty}, w.Knows n → c.types.values[n.key]? = some t →
    w.MayType n t

/-- Whatever is in flight and ends in chains of some length leaves the questions of
`ends` a shorter chain to end in. -/
structure Allows (w : Workspace) (c : Caches) (ends : Nat → Prop) : Prop where
  resolve : ∀ {n : Node} {depth : Nat} {d : Option Decl}, w.Knows n →
    n.key ∈ c.resolve.inFlight → (w.afresh (depth + 1)).resolve n = some d → ends depth
  types : ∀ {n : Node} {depth : Nat} {t : Option Ty}, w.Knows n →
    n.key ∈ c.types.inFlight → (w.afresh (depth + 1)).infer n = some t → ends depth

theorem Allows.mono {ends ends' : Nat → Prop} (h : c.Allows w ends)
    (hends : ∀ depth, ends depth → ends' depth) : c.Allows w ends' :=
  ⟨fun hn hkey hd => hends _ (h.resolve hn hkey hd),
    fun hn hkey ht => hends _ (h.types hn hkey ht)⟩

theorem Allows.of_grows {ends : Nat → Prop} (h : c.Allows w ends) (hg : c.Grows c') :
    c'.Allows w ends :=
  ⟨fun hn hkey hd => h.resolve hn ((hg.resolve.inFlight _).mp hkey) hd,
    fun hn hkey ht => h.types hn ((hg.types.inFlight _).mp hkey) ht⟩

/-- When nothing is in flight, every question is allowed. -/
theorem Idle.allows (h : c.Idle) (w : Workspace) (ends : Nat → Prop) : c.Allows w ends :=
  ⟨fun _ hkey _ => absurd hkey (h.resolve _), fun _ hkey _ => absurd hkey (h.types _)⟩

/-! ### Room for further questions -/

section Room

open scoped Classical

/-- The numbers of the nodes about which a question is not in flight. -/
noncomputable def free (w : Workspace) (cache : QueryCache NodeKey β) : Finset Nat :=
  (Finset.range w.loaded).filter fun code =>
    ¬∃ n, w.Knows n ∧ n.code = code ∧ n.key ∈ cache.inFlight

/-- How many questions are not in flight. -/
noncomputable def room (w : Workspace) (c : Caches) : Nat :=
  (free w c.resolve).card + (free w c.types).card

theorem free_of_grows {β : Type} {cache cache' : QueryCache NodeKey β}
    (h : cache.Grows cache') : free w cache' = free w cache := by
  unfold free
  congr 1
  funext code
  simp only [h.inFlight]

theorem room_of_grows (h : c.Grows c') : c'.room w = c.room w := by
  rw [room, room, free_of_grows h.resolve, free_of_grows h.types]

theorem room_lt_of_grows (h : c.Grows c') {bound : Nat} (hroom : c.room w < bound) :
    c'.room w < bound := by rwa [room_of_grows h]

theorem card_free_le {β : Type} (cache : QueryCache NodeKey β) :
    (free w cache).card ≤ w.loaded :=
  (Finset.card_filter_le _ _).trans_eq (Finset.card_range _)

theorem room_lt_depth : c.room w < w.depth := by
  have hresolve := card_free_le (w := w) c.resolve
  have htypes := card_free_le (w := w) c.types
  unfold room Workspace.depth
  omega

theorem card_free_enter_lt {β : Type} (h : w.Sound) {cache : QueryCache NodeKey β} {n : Node}
    (hn : w.Knows n) (hkey : n.key ∉ cache.inFlight) :
    (free w (cache.enter n.key)).card < (free w cache).card := by
  refine Finset.card_lt_card (Finset.ssubset_iff_of_subset ?_ |>.mpr ⟨n.code, ?_, ?_⟩)
  · intro code hcode
    rw [free, Finset.mem_filter] at hcode ⊢
    refine ⟨hcode.1, fun ⟨m, hm, hm_code, hm_key⟩ => hcode.2 ⟨m, hm, hm_code, ?_⟩⟩
    exact Std.HashSet.mem_insert.mpr (.inr hm_key)
  · rw [free, Finset.mem_filter, Finset.mem_range]
    refine ⟨hn.code_lt h, fun ⟨m, hm, hm_code, hm_key⟩ => hkey ?_⟩
    rwa [← hm.eq_of_code hn h hm_code]
  · rw [free, Finset.mem_filter, not_and_not_right]
    exact fun _ => ⟨n, hn, rfl, Std.HashSet.mem_insert.mpr (.inl (beq_self_eq_true _))⟩

theorem room_enter_resolve (h : w.Sound) {n : Node} (hn : w.Knows n)
    (hkey : n.key ∉ c.resolve.inFlight) :
    (resolvePart.modify (·.enter n.key) c).room w < c.room w :=
  Nat.add_lt_add_right (card_free_enter_lt h hn hkey) _

theorem room_enter_infer (h : w.Sound) {n : Node} (hn : w.Knows n)
    (hkey : n.key ∉ c.types.inFlight) :
    (typesPart.modify (·.enter n.key) c).room w < c.room w :=
  Nat.add_lt_add_left (card_free_enter_lt h hn hkey) _

end Room

end Caches

/-! ### Runs -/

section

variable {w : Workspace}

/-- What a question about a node of a current tree does to trusted tables. -/
structure Oracle.Trustworthy (w : Workspace) (bound : Nat) (ask : Oracle) : Prop where
  resolve : ∀ {n : Node} {c : Caches}, w.Knows n → c.Trusted w → c.room w < bound →
    c.Allows w (fun depth => ∃ d, (w.afresh depth).resolve n = some d) →
    (ask.resolve n c).2.Trusted w ∧ w.MayRefer n (ask.resolve n c).1
  infer : ∀ {n : Node} {c : Caches}, w.Knows n → c.Trusted w → c.room w < bound →
    c.Allows w (fun depth => ∃ t, (w.afresh depth).infer n = some t) →
    (ask.infer n c).2.Trusted w ∧ w.MayType n (ask.infer n c).1
  resolve_grows : ∀ (n : Node) (c : Caches), c.Grows (ask.resolve n c).2
  infer_grows : ∀ (n : Node) (c : Caches), c.Grows (ask.infer n c).2

/-- A query about nodes of the current trees keeps the tables trusted. Its answer is
good for every closed family that it stays in, and it is the one that the rules alone
end with, if they do. -/
theorem Query.run_trusted {ask : Oracle} {bound : Nat} (hask : ask.Trustworthy w bound)
    (h : w.Sound) {q : Query α} (hq : q.Within w.Knows w.Knows fun _ => True) {c : Caches}
    (hc : c.Trusted w) (hroom : c.room w < bound)
    (hallows : c.Allows w fun depth => ∃ a, q.eval? (w.afresh depth) = some a) :
    (q.run ask c).2.Trusted w ∧
      (∀ K, w.Closed K → ∀ good, q.Within K K good → good (q.run ask c).1) ∧
      ∀ depth a, q.eval? (w.afresh depth) = some a → (q.run ask c).1 = a := by
  induction q generalizing c with
  | answer a =>
      exact ⟨hc, fun K _ good hgood => hgood, fun depth a' ha => Option.some_inj.mp ha⟩
  | resolve n next ih =>
      obtain ⟨hn, hnext⟩ := hq
      obtain ⟨hc', hd⟩ := hask.resolve hn hc hroom (hallows.mono fun depth ha => by
        obtain ⟨a, ha⟩ := ha
        obtain ⟨d, hd, -⟩ := Option.bind_eq_some_iff.mp ha
        exact ⟨d, hd⟩)
      have hgrows := hask.resolve_grows n c
      have hmem := hd.closed h.closed_knows hn
      obtain ⟨htrusted, hgood, hafresh⟩ := ih _ (hnext _ hmem) hc'
        (by rwa [Caches.room_of_grows hgrows])
        ((hallows.mono fun depth ha => by
          obtain ⟨a, ha⟩ := ha
          obtain ⟨d, hd', ha⟩ := Option.bind_eq_some_iff.mp ha
          rw [hd.afresh depth d hd']
          exact ⟨a, ha⟩).of_grows hgrows)
      refine ⟨htrusted, fun K hK good hq => ?_, fun depth a ha => ?_⟩
      · exact hgood K hK good (hq.2 _ (hd.closed hK hq.1))
      · obtain ⟨d, hd', ha⟩ := Option.bind_eq_some_iff.mp ha
        refine hafresh depth a ?_
        rw [hd.afresh depth d hd']
        exact ha
  | infer n next ih =>
      obtain ⟨hn, hnext⟩ := hq
      obtain ⟨hc', ht⟩ := hask.infer hn hc hroom (hallows.mono fun depth ha => by
        obtain ⟨a, ha⟩ := ha
        obtain ⟨t, ht, -⟩ := Option.bind_eq_some_iff.mp ha
        exact ⟨t, ht⟩)
      have hgrows := hask.infer_grows n c
      have hmem := ht.anchored w.Knows h.closed_knows hn
      obtain ⟨htrusted, hgood, hafresh⟩ := ih _ (hnext _ hmem) hc'
        (by rwa [Caches.room_of_grows hgrows])
        ((hallows.mono fun depth ha => by
          obtain ⟨a, ha⟩ := ha
          obtain ⟨t, ht', ha⟩ := Option.bind_eq_some_iff.mp ha
          rw [ht.afresh depth t ht']
          exact ⟨a, ha⟩).of_grows hgrows)
      refine ⟨htrusted, fun K hK good hq => ?_, fun depth a ha => ?_⟩
      · exact hgood K hK good (hq.2 _ (ht.anchored K hK hq.1))
      · obtain ⟨t, ht', ha⟩ := Option.bind_eq_some_iff.mp ha
        refine hafresh depth a ?_
        rw [ht.afresh depth t ht']
        exact ha

/-! ### One question -/

namespace Caches

variable {c c' : Caches} {n : Node}

/-- A question that is in flight and allowed does not end. -/
theorem Allows.resolve_open (hn : w.Knows n) (hkey : n.key ∈ c.resolve.inFlight)
    (h : c.Allows w fun depth => ∃ d, (w.afresh depth).resolve n = some d) (depth : Nat) :
    (w.afresh depth).resolve n = none := by
  induction depth with
  | zero => rfl
  | succ depth ih =>
      refine Option.eq_none_iff_forall_not_mem.mpr fun d hd => ?_
      obtain ⟨d', hd'⟩ := h.resolve hn hkey hd
      rw [ih] at hd'
      cases hd'

/-- A question that is in flight and allowed does not end. -/
theorem Allows.infer_open (hn : w.Knows n) (hkey : n.key ∈ c.types.inFlight)
    (h : c.Allows w fun depth => ∃ t, (w.afresh depth).infer n = some t) (depth : Nat) :
    (w.afresh depth).infer n = none := by
  induction depth with
  | zero => rfl
  | succ depth ih =>
      refine Option.eq_none_iff_forall_not_mem.mpr fun t ht => ?_
      obtain ⟨t', ht'⟩ := h.types hn hkey ht
      rw [ih] at ht'
      cases ht'

/-- The questions that an answer needs end in shorter chains than the question. -/
theorem Allows.enter_resolve (hn : w.Knows n)
    (h : c.Allows w fun depth => ∃ d, (w.afresh depth).resolve n = some d) :
    (resolvePart.modify (·.enter n.key) c).Allows w fun depth =>
      ∃ d, (Resolution.first w n).eval? (w.afresh depth) = some d := by
  have rule : ∀ {depth : Nat}, (∃ d, (w.afresh depth).resolve n = some d) →
      ∃ d, (Resolution.first w n).eval? (w.afresh depth) = some d := by
    rintro (_ | depth) ⟨d, hd⟩
    · cases hd
    · exact ⟨d, w.eval?_afresh_succ hd⟩
  refine ⟨fun hm hkey hd => ?_, fun hm hkey ht => rule (h.types hm hkey ht)⟩
  rcases Std.HashSet.mem_insert.mp hkey with heq | hkey
  · obtain rfl := hn.eq_of_key hm (beq_iff_eq.mp heq)
    exact ⟨_, hd⟩
  · exact rule (h.resolve hm hkey hd)

/-- The questions that an answer needs end in shorter chains than the question. -/
theorem Allows.enter_infer (hn : w.Knows n)
    (h : c.Allows w fun depth => ∃ t, (w.afresh depth).infer n = some t) :
    (typesPart.modify (·.enter n.key) c).Allows w fun depth =>
      ∃ t, (Inference.nodeType ⟨w⟩ n).run.eval? (w.afresh depth) = some t := by
  have rule : ∀ {depth : Nat}, (∃ t, (w.afresh depth).infer n = some t) →
      ∃ t, (Inference.nodeType ⟨w⟩ n).run.eval? (w.afresh depth) = some t := by
    rintro (_ | depth) ⟨t, ht⟩
    · cases ht
    · exact ⟨t, w.eval?_afresh_succ ht⟩
  refine ⟨fun hm hkey hd => rule (h.resolve hm hkey hd), fun hm hkey ht => ?_⟩
  rcases Std.HashSet.mem_insert.mp hkey with heq | hkey
  · obtain rfl := hn.eq_of_key hm (beq_iff_eq.mp heq)
    exact ⟨_, ht⟩
  · exact rule (h.types hm hkey ht)

theorem Trusted.enter_resolve (h : c.Trusted w) (key : NodeKey) :
    (resolvePart.modify (·.enter key) c).Trusted w := ⟨h.resolve, h.types⟩

theorem Trusted.enter_types (h : c.Trusted w) (key : NodeKey) :
    (typesPart.modify (·.enter key) c).Trusted w := ⟨h.resolve, h.types⟩

theorem Trusted.leave_resolve (h : c.Trusted w) (hn : w.Knows n) {d : Option Decl}
    (hd : w.MayRefer n d) : (resolvePart.modify (·.leave n.key d) c).Trusted w := by
  refine ⟨fun {m d'} hm hd' => ?_, h.types⟩
  replace hd' : (c.resolve.leave n.key d).values[m.key]? = some d' := hd'
  rw [QueryCache.leave_values] at hd'
  split at hd'
  · rename_i heq
    cases hd'
    exact hn.eq_of_key hm heq ▸ hd
  · exact h.resolve hm hd'

theorem Trusted.leave_types (h : c.Trusted w) (hn : w.Knows n) {t : Option Ty}
    (ht : w.MayType n t) : (typesPart.modify (·.leave n.key t) c).Trusted w := by
  refine ⟨h.resolve, fun {m t'} hm ht' => ?_⟩
  replace ht' : (c.types.leave n.key t).values[m.key]? = some t' := ht'
  rw [QueryCache.leave_values] at ht'
  split at ht'
  · rename_i heq
    cases ht'
    exact hn.eq_of_key hm heq ▸ ht
  · exact h.types hm ht'

end Caches

namespace Workspace

/-- What the rules answer to a question may be given if it is what they end with. -/
theorem MayRefer.of_first {n : Node} {d : Option Decl}
    (hgood : ∀ K, w.Closed K → ∀ good, (Resolution.first w n).Within K K good → good d)
    (hafresh : ∀ depth d', (Resolution.first w n).eval? (w.afresh depth) = some d' → d = d') :
    w.MayRefer n d where
  found K hK hn := hgood K hK _ (Resolution.within_first hK.asking hn)
  afresh depth d' hd' := by
    cases depth with
    | zero => cases hd'
    | succ depth => exact hafresh depth d' hd'

/-- What the rules answer to a question may be given if it is what they end with. -/
theorem MayType.of_nodeType {n : Node} {t : Option Ty}
    (hgood : ∀ K, w.Closed K → ∀ good, (Inference.nodeType ⟨w⟩ n).run.Within K K good → good t)
    (hafresh : ∀ depth t',
      (Inference.nodeType ⟨w⟩ n).run.eval? (w.afresh depth) = some t' → t = t') :
    w.MayType n t where
  anchored K hK hn := hgood K hK _ (Inference.types_nodeType (i := ⟨w⟩) hK.asking hn)
  afresh depth t' ht' := by
    cases depth with
    | zero => cases ht'
    | succ depth => exact hafresh depth t' ht'

theorem MayRefer.none {n : Node} (h : ∀ depth, (w.afresh depth).resolve n = none) :
    w.MayRefer n none where
  found _ _ _ _ hx := nomatch hx
  afresh depth d hd := by
    rw [h depth] at hd
    cases hd

theorem MayType.none {n : Node} (h : ∀ depth, (w.afresh depth).infer n = none) :
    w.MayType n none where
  anchored _ _ _ _ hx := nomatch hx
  afresh depth t ht := by
    rw [h depth] at ht
    cases ht

theorem Sound.asks_first (h : w.Sound) {n : Node} (hn : w.Knows n) :
    (Resolution.first w n).Within w.Knows w.Knows fun _ => True :=
  (Resolution.within_first h.closed_knows.asking hn).mono fun _ _ => trivial

theorem Sound.asks_nodeType (h : w.Sound) {n : Node} (hn : w.Knows n) :
    (Inference.nodeType ⟨w⟩ n).run.Within w.Knows w.Knows fun _ => True :=
  Query.Within.mono (Inference.types_nodeType (i := ⟨w⟩) h.closed_knows.asking hn) fun _ _ => trivial

/-- A question that may be asked keeps the tables trusted, if a chain of questions has
room for all that are not in flight. -/
theorem Sound.trustworthy_oracleWithin (h : w.Sound) (bound : Nat) :
    (w.oracleWithin bound).Trustworthy w bound := by
  induction bound with
  | zero =>
      exact ⟨fun _ _ hroom => absurd hroom (Nat.not_lt_zero _),
        fun _ _ hroom => absurd hroom (Nat.not_lt_zero _),
        (w.oracleWithin_grows 0).1, (w.oracleWithin_grows 0).2⟩
  | succ bound ih =>
      refine ⟨fun {n c} hn hc hroom hallows => ?_, fun {n c} hn hc hroom hallows => ?_,
        (w.oracleWithin_grows _).1, (w.oracleWithin_grows _).2⟩
      · rw [oracleWithin_succ_resolve]
        cases hvalue : c.resolve.values[n.key]? with
        | some d =>
            rw [QueryCache.getOrCompute_of_find? (QueryCache.find?_of_values hvalue)]
            exact ⟨hc, hc.resolve hn hvalue⟩
        | none =>
            by_cases hkey : n.key ∈ c.resolve.inFlight
            · rw [QueryCache.getOrCompute_of_find? (QueryCache.find?_of_inFlight hvalue hkey)]
              exact ⟨hc, .none (hallows.resolve_open hn hkey)⟩
            · rw [QueryCache.getOrCompute_of_new
                (QueryCache.find?_eq_none_iff.mpr ⟨hvalue, hkey⟩)]
              have hlt := Caches.room_enter_resolve h hn hkey
              obtain ⟨htrusted, hgood, hafresh⟩ := Query.run_trusted ih h
                (h.asks_first hn) (hc.enter_resolve n.key) (by omega) (hallows.enter_resolve hn)
              have hd := MayRefer.of_first hgood hafresh
              exact ⟨htrusted.leave_resolve hn hd, hd⟩
      · rw [oracleWithin_succ_infer]
        cases hvalue : c.types.values[n.key]? with
        | some t =>
            rw [QueryCache.getOrCompute_of_find? (QueryCache.find?_of_values hvalue)]
            exact ⟨hc, hc.types hn hvalue⟩
        | none =>
            by_cases hkey : n.key ∈ c.types.inFlight
            · rw [QueryCache.getOrCompute_of_find? (QueryCache.find?_of_inFlight hvalue hkey)]
              exact ⟨hc, .none (hallows.infer_open hn hkey)⟩
            · rw [QueryCache.getOrCompute_of_new
                (QueryCache.find?_eq_none_iff.mpr ⟨hvalue, hkey⟩)]
              have hlt := Caches.room_enter_infer h hn hkey
              obtain ⟨htrusted, hgood, hafresh⟩ := Query.run_trusted ih h
                (h.asks_nodeType hn) (hc.enter_types n.key) (by omega) (hallows.enter_infer hn)
              have ht := MayType.of_nodeType hgood hafresh
              exact ⟨htrusted.leave_types hn ht, ht⟩

end Workspace

/-! ### Between queries -/

/-- What a query about nodes of the current trees does between the queries of a
session. -/
structure Query.Settles (w : Workspace) (q : Query α) (c : Caches) : Prop where
  idle : (q.run w.oracle c).2.Idle
  trusted : (q.run w.oracle c).2.Trusted w
  good : ∀ K, w.Closed K → ∀ good, q.Within K K good → good (q.run w.oracle c).1
  afresh : ∀ depth a, q.eval? (w.afresh depth) = some a → (q.run w.oracle c).1 = a

theorem Query.settles (h : w.Sound) {q : Query α} (hq : q.Within w.Knows w.Knows fun _ => True)
    {c : Caches} (hidle : c.Idle) (hc : c.Trusted w) : q.Settles w c := by
  obtain ⟨htrusted, hgood, hafresh⟩ := Query.run_trusted (h.trustworthy_oracleWithin w.depth) h hq
    hc Caches.room_lt_depth (hidle.allows w _)
  exact ⟨hidle.of_grows (w.run_grows q c), htrusted, hgood, hafresh⟩

theorem Caches.trusted_of_blank {c : Caches} (hresolve : c.resolve.values.isEmpty = true)
    (htypes : c.types.values.isEmpty = true) : c.Trusted w := by
  constructor
  · intro n d _ hd
    rw [Std.HashMap.getElem?_of_isEmpty hresolve] at hd
    cases hd
  · intro n t _ ht
    rw [Std.HashMap.getElem?_of_isEmpty htypes] at ht
    cases ht

end

end TolkAnalysis
