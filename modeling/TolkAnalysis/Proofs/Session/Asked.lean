import TolkAnalysis.Proofs.Session.Trusted
import TolkAnalysis.Proofs.Tree.Place

/-!
# Questions that only a request asks

The rules look at a variable of a pattern, at an entry of an object literal and at the name of
an entry without a value, but no rule asks what such a node refers to or which type it has. All
other nodes are `Workspace.Asked`.

A question that no rule asks may be in flight without a rule noticing. `Caches.AgreesOn` says
that two pairs of memo tables know the same about the nodes that are asked about; a query about
such nodes has the same answer on both (`Workspace.Agreeing.run`), however deep the chains of
questions on either side already are.
-/

namespace TolkAnalysis

/-! ### Nodes that are asked about -/

namespace NodeKind

/-- The rules look at nodes of the kind without asking about them. -/
def isPassedOver (kind : NodeKind) : Bool := kind == .varDeclaration || kind == .instanceArgument

/-- A node that is passed over stands without a slot or is a pattern. -/
theorem isPassedOver_of_holds {kind child : NodeKind} {slot : Field}
    (h : kind.holds (some slot) child = true) (hslot : slot ≠ .lhs) :
    child.isPassedOver = false := by
  have hall : ∀ kind ∈ all, ∀ p ∈ kind.parts, p.slot ≠ none → p.slot ≠ some .lhs →
      ∀ child ∈ all, p.kinds child = true → child.isPassedOver = false := by
    decide +kernel
  obtain ⟨p, hp, heq, hchild⟩ := exists_part_of_holds h
  exact hall kind kind.mem_all p hp (by simp [heq]) (by simpa [heq] using hslot) child
    child.mem_all hchild

/-- Neither a composite nor a list of type arguments holds a node that is passed over. -/
theorem isPassedOver_of_holds_part {kind child : NodeKind} {slot : Option Field}
    (h : kind.holds slot child = true)
    (hkind : kind.isComposite = true ∨ kind = .instantiationTypeList) :
    child.isPassedOver = false := by
  have hall : ∀ kind ∈ all, kind.isComposite = true ∨ kind = .instantiationTypeList →
      ∀ p ∈ kind.parts, ∀ child ∈ all, p.kinds child = true → child.isPassedOver = false := by
    decide +kernel
  obtain ⟨p, hp, -, hchild⟩ := exists_part_of_holds h
  exact hall kind kind.mem_all hkind p hp child child.mem_all hchild

/-- The arguments of an instantiation are a list of types. -/
theorem eq_of_holds_arguments {kind child : NodeKind} (hkind : kind.isInstantiation = true)
    (h : kind.holds (some .arguments) child = true) : child = .instantiationTypeList := by
  have hall : ∀ kind ∈ all, kind.isInstantiation = true → ∀ p ∈ kind.parts,
      p.slot = some .arguments → ∀ child ∈ all, p.kinds child = true →
        child = .instantiationTypeList := by
    decide +kernel
  obtain ⟨p, hp, hslot, hchild⟩ := exists_part_of_holds h
  exact hall kind kind.mem_all hkind p hp hslot child child.mem_all hchild

/-- An entry of an object literal has a name and a value. -/
theorem slot_of_holds_entry {child : NodeKind} {slot : Option Field}
    (h : instanceArgument.holds slot child = true) :
    slot = some .name ∧ child = .identifier ∨ slot = some .value := by
  have hall : ∀ p ∈ instanceArgument.parts, ∀ child ∈ all, p.kinds child = true →
      p.slot = some .name ∧ child = .identifier ∨ p.slot = some .value := by
    decide +kernel
  obtain ⟨p, hp, rfl, hchild⟩ := exists_part_of_holds h
  exact hall p hp child child.mem_all hchild

end NodeKind

namespace Workspace

variable {w : Workspace} {n c : Node}

/-- The node may be asked about by a rule. -/
structure Asked (w : Workspace) (n : Node) : Prop where
  reached : w.Reaches n
  kind : n.kind.isPassedOver = false
  name : Resolution.isShorthand n = false

/-- An entry of an object literal that gives only a name stands below an entry. -/
theorem exists_of_isShorthand (h : Resolution.isShorthand n = true) :
    n.slot? = some .name ∧ ∃ p, n.parent? = some p ∧ p.kind = .instanceArgument ∧
      p.child? .value = none := by
  obtain ⟨hslot, hparent⟩ := Bool.and_eq_true_iff.mp h
  obtain ⟨p, hp, hentry⟩ := (Option.any_eq_true _ _).mp hparent
  obtain ⟨hkind, hvalue⟩ := Bool.and_eq_true_iff.mp hentry
  exact ⟨beq_iff_eq.mp hslot, p, hp, beq_iff_eq.mp hkind, Option.isNone_iff_eq_none.mp hvalue⟩

/-- A child of a node that is no entry is not the name of an entry. -/
theorem asked_of_parent (hc : w.Reaches c) (hkind : c.kind.isPassedOver = false)
    {p : Node} (hp : c.parent? = some p) (hparent : p.kind ≠ .instanceArgument) : w.Asked c := by
  refine ⟨hc, hkind, Bool.eq_false_iff.mpr fun hname => ?_⟩
  obtain ⟨-, q, hq, hentry, -⟩ := exists_of_isShorthand hname
  rw [hp] at hq
  exact hparent (Option.some_inj.mp hq ▸ hentry)

/-- The rules for nodes that are reached ask only about nodes that may be asked about. -/
theorem Sound.asking (h : w.Sound) : w.Asking w.Asked w.Reaches where
  toClosed := h.closed_reaches
  known hn := hn.reached
  kind {n kind} hn hkind hasked := by
    refine ⟨hn, ?_, Bool.eq_false_iff.mpr fun hname => ?_⟩
    · rw [hkind]
      revert hasked
      cases kind <;> decide
    · obtain ⟨hslot, p, hp, hentry, -⟩ := exists_of_isShorthand hname
      have hholds := (hn.1.shaped_tree h).holds_of_parent? hn.2 hp
      rw [hentry, hslot] at hholds
      rcases NodeKind.slot_of_holds_entry hholds with ⟨-, hidentifier⟩ | hvalue
      · rw [hkind] at hidentifier
        rw [hidentifier] at hasked
        cases hasked
      · cases hvalue
  slot {n c slot} hn hc hslot := by
    have htree := hn.1.shaped_tree h
    have hmem := Node.mem_slots_of_child? hc
    simp only [Field.isAskedAbout, Bool.and_eq_true, bne_iff_ne] at hslot
    refine ⟨h.closed_reaches.child? hn hc,
      NodeKind.isPassedOver_of_holds (htree.holds_of_mem_slots rfl hmem) hslot.1,
      Bool.eq_false_iff.mpr fun hname => hslot.2 ?_⟩
    obtain ⟨hat, -⟩ := exists_of_isShorthand hname
    rw [htree.slot?_of_mem_slots rfl hmem] at hat
    exact Option.some_inj.mp hat
  part {n c kind} hn hkind hcomposite hc := by
    have htree := hn.1.shaped_tree h
    obtain ⟨slot, hmem⟩ := Node.exists_slot_of_mem_children hc
    refine asked_of_parent (h.closed_reaches.child hn hc)
      (NodeKind.isPassedOver_of_holds_part (htree.holds_of_mem_slots rfl hmem)
        (.inl (hkind ▸ hcomposite))) (htree.parent?_child rfl hc) fun hentry => ?_
    rw [← hkind, hentry] at hcomposite
    cases hcomposite
  argument {n list c kind} hn hkind happlied hlist hc := by
    have htree := hn.1.shaped_tree h
    have hreached := h.closed_reaches.child? hn hlist
    have hlistTree := hreached.1.shaped_tree h
    have hlistKind := NodeKind.eq_of_holds_arguments (hkind ▸ happlied)
      (htree.holds_of_mem_slots rfl (Node.mem_slots_of_child? hlist))
    obtain ⟨slot, hmem⟩ := Node.exists_slot_of_mem_children hc
    refine asked_of_parent (h.closed_reaches.child hreached hc)
      (NodeKind.isPassedOver_of_holds_part (hlistTree.holds_of_mem_slots rfl hmem)
        (.inr hlistKind)) (hlistTree.parent?_child rfl hc) fun hentry => ?_
    rw [hentry] at hlistKind
    cases hlistKind
  generic {n c} hn hkind hc := by
    have htree := hn.1.shaped_tree h
    refine asked_of_parent (h.closed_reaches.child? hn hc)
      (NodeKind.isPassedOver_of_holds (htree.holds_of_mem_slots rfl (Node.mem_slots_of_child? hc))
        (by decide)) (htree.parent?_child rfl (Node.mem_children_of_child? hc)) fun hentry => ?_
    rw [hentry] at hkind
    cases hkind
  entry {n c} hn hkind _ := by
    have hpassed := hn.kind
    rw [hkind] at hpassed
    cases hpassed
  expected {n p c} hn hkind hp hentry hc := by
    have htree := hn.1.shaped_tree h
    have hreached := h.closed_reaches.parent hn hp
    have hpTree := hreached.1.shaped_tree h
    refine ⟨h.closed_reaches.child? hreached hc,
      NodeKind.isPassedOver_of_holds
        (hpTree.holds_of_mem_slots rfl (Node.mem_slots_of_child? hc)) (by decide),
      Bool.eq_false_iff.mpr fun hname => ?_⟩
    obtain ⟨-, q, hq, -, hvalue⟩ := exists_of_isShorthand hname
    rw [hpTree.parent?_child rfl (Node.mem_children_of_child? hc)] at hq
    obtain rfl := Option.some_inj.mp hq
    -- The literal is the value of the entry, so the entry has one.
    have hholds := htree.holds_of_parent? hn.2 hp
    rw [hentry, hkind] at hholds
    have hslots := htree.mem_slots_of_parent? hn.2 hp
    rcases NodeKind.slot_of_holds_entry hholds with ⟨-, hidentifier⟩ | hslot
    · cases hidentifier
    · rw [hslot] at hslots
      rw [hpTree.child?_of_mem_slots rfl (by rw [hentry]; rfl) hslots] at hvalue
      cases hvalue

end Workspace

/-! ### Memo tables that know the same -/

namespace QueryCache

variable {κ α : Type} [DecidableEq κ] [Hashable κ] {P : κ → Prop}
  {good : α → Prop} {c c' : QueryCache κ α}

/-- Both tables know the same about the keys in `P`, and what they remember of these is good. -/
structure AgreesOn (P : κ → Prop) (good : α → Prop) (c c' : QueryCache κ α) : Prop where
  find? : ∀ {k : κ}, P k → c'.find? k = c.find? k
  good : ∀ {k : κ} {a : α}, P k → c.find? k = some (some a) → good a

theorem AgreesOn.enter (h : AgreesOn P good c c') (key : κ) :
    AgreesOn P good (c.enter key) (c'.enter key) := by
  refine ⟨fun hk => ?_, fun {k a} hk ha => ?_⟩
  · rw [find?_enter, find?_enter, h.find? hk]
  · rw [find?_enter] at ha
    split at ha
    · refine h.good hk ?_
      cases hfind : c.find? k with
      | none => simp [hfind] at ha
      | some v =>
          rw [hfind] at ha
          exact ha
    · exact h.good hk ha

theorem AgreesOn.leave [LawfulHashable κ] (h : AgreesOn P good c c') (key : κ) {v : Option α}
    (hv : ∀ a ∈ v, good a) : AgreesOn P good (c.leave key v) (c'.leave key v) := by
  refine ⟨fun hk => ?_, fun {k a} hk ha => ?_⟩
  · rw [find?_leave, find?_leave, h.find? hk]
  · rw [find?_leave] at ha
    split at ha
    · exact hv a (Option.some_inj.mp ha)
    · exact h.good hk ha

/-- It makes no difference whether a question about another key is in flight. -/
theorem AgreesOn.enter_left (h : AgreesOn P good c c') {key : κ} (hkey : ¬P key) :
    AgreesOn P good (c.enter key) c' := by
  have hfind : ∀ {k}, P k → (c.enter key).find? k = c.find? k := fun hk =>
    find?_enter_of_ne fun heq => hkey (heq ▸ hk)
  exact ⟨fun hk => (h.find? hk).trans (hfind hk).symm, fun hk ha => h.good hk (hfind hk ▸ ha)⟩

end QueryCache

variable {A K : Node → Prop} {α β : Type}

namespace Caches

/-- The number of a node in `A`. -/
def Names (A : Node → Prop) (key : NodeKey) : Prop := ∃ n, A n ∧ n.key = key

/-- Both pairs of tables know the same about the nodes in `A`, and what they remember of these
stays in `K`. -/
structure AgreesOn (A K : Node → Prop) (c c' : Caches) : Prop where
  resolve : c.resolve.AgreesOn (Names A) (fun d => K d.node) c'.resolve
  types : c.types.AgreesOn (Names A) (Ty.In K) c'.types

namespace AgreesOn

variable {c c' : Caches} (h : c.AgreesOn A K c') (key : NodeKey)

include h

theorem enter_resolve :
    (resolvePart.modify (·.enter key) c).AgreesOn A K (resolvePart.modify (·.enter key) c') :=
  ⟨h.resolve.enter key, h.types⟩

theorem enter_types :
    (typesPart.modify (·.enter key) c).AgreesOn A K (typesPart.modify (·.enter key) c') :=
  ⟨h.resolve, h.types.enter key⟩

theorem leave_resolve {d : Option Decl} (hd : ∀ x ∈ d, K x.node) :
    (resolvePart.modify (·.leave key d) c).AgreesOn A K (resolvePart.modify (·.leave key d) c') :=
  ⟨h.resolve.leave key hd, h.types⟩

theorem leave_types {t : Option Ty} (ht : ∀ x ∈ t, x.In K) :
    (typesPart.modify (·.leave key t) c).AgreesOn A K (typesPart.modify (·.leave key t) c') :=
  ⟨h.resolve, h.types.leave key ht⟩

/-- A question that no rule asks may be in flight on one side. -/
theorem enter_resolve_left (hkey : ¬Names A key) :
    (resolvePart.modify (·.enter key) c).AgreesOn A K c' := ⟨h.resolve.enter_left hkey, h.types⟩

/-- A question that no rule asks may be in flight on one side. -/
theorem enter_types_left (hkey : ¬Names A key) :
    (typesPart.modify (·.enter key) c).AgreesOn A K c' := ⟨h.resolve, h.types.enter_left hkey⟩

end AgreesOn

/-- Tables that know nothing agree. -/
theorem Idle.agreesOn {c : Caches} (h : c.Idle) (hresolve : c.resolve.values.isEmpty = true)
    (htypes : c.types.values.isEmpty = true) : c.AgreesOn A K c := by
  refine ⟨⟨fun _ => rfl, fun {k a} _ ha => ?_⟩, ⟨fun _ => rfl, fun {k a} _ ha => ?_⟩⟩
  · rw [QueryCache.find?_of_isEmpty hresolve h.resolve] at ha
    cases ha
  · rw [QueryCache.find?_of_isEmpty htypes h.types] at ha
    cases ha

end Caches

/-- Two runs have the same answer, which is good, and leave tables that agree. -/
structure Agreed (A K : Node → Prop) (good : α → Prop) (r r' : α × Caches) : Prop where
  answer : r'.1 = r.1
  good : good r.1
  tables : r.2.AgreesOn A K r'.2

/-- A question has the same answer on tables that agree if it is computed in the same way. -/
theorem agreed_getOrCompute {part : QueryCache.Part Caches NodeKey α} {key : NodeKey}
    {good : α → Prop} {compute compute' : StateM Caches (Option α)} {c c' : Caches}
    (hc : c.AgreesOn A K c') (hfind : (part.get c').find? key = (part.get c).find? key)
    (hgood : ∀ a, (part.get c).find? key = some (some a) → good a)
    (hcompute : (part.get c).find? key = none → Agreed A K (fun v => ∀ a ∈ v, good a)
      (compute (part.modify (·.enter key) c)) (compute' (part.modify (·.enter key) c')))
    (hleave : ∀ {c c' : Caches} {v : Option α}, c.AgreesOn A K c' → (∀ a ∈ v, good a) →
      (part.modify (·.leave key v) c).AgreesOn A K (part.modify (·.leave key v) c')) :
    Agreed A K (fun v => ∀ a ∈ v, good a) (QueryCache.getOrCompute part key compute c)
      (QueryCache.getOrCompute part key compute' c') := by
  cases hv : (part.get c).find? key with
  | some v =>
      rw [QueryCache.getOrCompute_of_find? hv, QueryCache.getOrCompute_of_find? (hfind.trans hv)]
      exact ⟨rfl, fun a ha => hgood a (ha ▸ hv), hc⟩
  | none =>
      obtain ⟨hanswer, hgood, htables⟩ := hcompute hv
      rw [QueryCache.getOrCompute_of_new hv, QueryCache.getOrCompute_of_new (hfind.trans hv),
        hanswer]
      exact ⟨rfl, hgood, hleave htables hgood⟩

namespace Workspace

variable {w : Workspace}

/-- A node that no rule asks about does not have the number of one that is asked about. -/
theorem Reaches.not_names {n : Node} (hn : w.Reaches n) (hunasked : ¬w.Asked n) :
    ¬Caches.Names w.Asked n.key := by
  rintro ⟨m, hm, hkey⟩
  exact hunasked (hm.reached.1.eq_of_key hn.1 hkey ▸ hm)

/-- A question about a node in `A` has the same answer on tables that agree, whether chains of
questions have the one or the other length, if they have room for all questions that are not in
flight. -/
structure Agreeing (w : Workspace) (A K : Node → Prop) (bound bound' : Nat) : Prop where
  resolve : ∀ {n : Node} {c c' : Caches}, A n → c.AgreesOn A K c' → c.room w < bound →
    c'.room w < bound' → Agreed A K (fun d => ∀ x ∈ d, K x.node)
      ((w.oracleWithin bound).resolve n c) ((w.oracleWithin bound').resolve n c')
  infer : ∀ {n : Node} {c c' : Caches}, A n → c.AgreesOn A K c' → c.room w < bound →
    c'.room w < bound' → Agreed A K (fun t => ∀ x ∈ t, x.In K)
      ((w.oracleWithin bound).infer n c) ((w.oracleWithin bound').infer n c')

/-- A query about nodes in `A` has the same answer on tables that agree. -/
theorem Agreeing.run {bound bound' : Nat} (h : w.Agreeing A K bound bound') {good : α → Prop}
    {q : Query α} (hq : q.Within A K good) {c c' : Caches} (hc : c.AgreesOn A K c')
    (hroom : c.room w < bound) (hroom' : c'.room w < bound') :
    Agreed A K good (q.run (w.oracleWithin bound) c) (q.run (w.oracleWithin bound') c') := by
  induction q generalizing c c' with
  | answer a => exact ⟨rfl, hq, hc⟩
  | resolve n next ih =>
      have hd := h.resolve hq.1 hc hroom hroom'
      rw [Query.run_resolve, Query.run_resolve, hd.answer]
      exact ih _ (hq.2 _ hd.good) hd.tables
        (Caches.room_lt_of_grows ((w.oracleWithin_grows bound).1 n c) hroom)
        (Caches.room_lt_of_grows ((w.oracleWithin_grows bound').1 n c') hroom')
  | infer n next ih =>
      have ht := h.infer hq.1 hc hroom hroom'
      rw [Query.run_infer, Query.run_infer, ht.answer]
      exact ih _ (hq.2 _ ht.good) ht.tables
        (Caches.room_lt_of_grows ((w.oracleWithin_grows bound).2 n c) hroom)
        (Caches.room_lt_of_grows ((w.oracleWithin_grows bound').2 n c') hroom')

/-- Every question about a node in `A` has the same answer on tables that agree. -/
theorem Asking.agreeing (hA : w.Asking A K) (h : w.Sound) (hK : ∀ n, K n → w.Knows n)
    (bound bound' : Nat) : w.Agreeing A K bound bound' := by
  induction bound generalizing bound' with
  | zero =>
      exact ⟨fun _ _ hroom => absurd hroom (Nat.not_lt_zero _),
        fun _ _ hroom => absurd hroom (Nat.not_lt_zero _)⟩
  | succ bound ih =>
      cases bound' with
      | zero =>
          exact ⟨fun _ _ _ hroom => absurd hroom (Nat.not_lt_zero _),
            fun _ _ _ hroom => absurd hroom (Nat.not_lt_zero _)⟩
      | succ bound' =>
          refine ⟨fun {n c c'} hn hc hroom hroom' => ?_, fun {n c c'} hn hc hroom hroom' => ?_⟩
          · have hfind := hc.resolve.find? ⟨n, hn, rfl⟩
            have hKn := hA.known hn
            rw [oracleWithin_succ_resolve, oracleWithin_succ_resolve]
            refine agreed_getOrCompute hc hfind (fun _ => hc.resolve.good ⟨n, hn, rfl⟩)
              (fun hnew => ?_) fun hc hd => hc.leave_resolve n.key hd
            have hlt := Caches.room_enter_resolve h (hK n hKn)
              (QueryCache.find?_eq_none_iff.mp hnew).2
            have hlt' := Caches.room_enter_resolve h (hK n hKn)
              (QueryCache.find?_eq_none_iff.mp (hfind.trans hnew)).2
            have hrule := (Resolution.within_first hA hKn).mono fun d hd x hx =>
              (hd x hx).offered.closed hA.toClosed hKn
            exact (ih bound').run hrule (hc.enter_resolve n.key) (by omega) (by omega)
          · have hfind := hc.types.find? ⟨n, hn, rfl⟩
            have hKn := hA.known hn
            rw [oracleWithin_succ_infer, oracleWithin_succ_infer]
            refine agreed_getOrCompute hc hfind (fun _ => hc.types.good ⟨n, hn, rfl⟩)
              (fun hnew => ?_) fun hc ht => hc.leave_types n.key ht
            have hlt := Caches.room_enter_infer h (hK n hKn)
              (QueryCache.find?_eq_none_iff.mp hnew).2
            have hlt' := Caches.room_enter_infer h (hK n hKn)
              (QueryCache.find?_eq_none_iff.mp (hfind.trans hnew)).2
            exact (ih bound').run (Inference.types_nodeType (i := ⟨w⟩) hA hn)
              (hc.enter_types n.key) (by omega) (by omega)

end Workspace

end TolkAnalysis
