import TolkAnalysis.Proofs.Inference.Afresh
import TolkAnalysis.Proofs.References.Scope
import TolkAnalysis.Proofs.Resolution.Name
import TolkAnalysis.Proofs.Session.Asked
import TolkAnalysis.Proofs.Session.Rereading

/-!
# Patterns take types apart

A declaration may take the value that it is given apart: `val (a, [b, c]) = pair`.
`Node.patternTypes` goes down the pattern and the type of the value together and gives each
variable its part; where a pattern and a type do not match, the variables below the pattern have
no type.

The rule for a variable goes the other way. It collects the positions of the variable in the
patterns around it, from the inside out, and follows them back from the type of the value.
`Session.inferType_pattern` says that both end with the same type.
-/

namespace TolkAnalysis

/-! ### The type of each variable of a pattern -/

namespace Node

/-- The variables of a pattern, from left to right. -/
def boundVariables (pattern : Node) : List Node :=
  pattern.preorder.filter (·.kind == .varDeclaration)

/-- The pattern has parts. -/
def isCompound (pattern : Node) : Bool :=
  pattern.kind == .tupleVarsDeclaration || pattern.kind == .tensorVarsDeclaration

/-- The elements of a type, if there are as many as a pattern has parts. -/
def matched? (pattern : Node) (t : Ty) : Option (List Ty) :=
  t.elements?.filter (·.length == pattern.children.length)

/-- The variables of a pattern with their types, when a value of type `t` is taken apart. -/
def patternTypes (pattern : Node) (t : Ty) : List (Node × Option Ty) :=
  if pattern.isCompound then
    match pattern.matched? t with
    | some elements => (pattern.children.attach.zip elements).flatMap fun part =>
        patternTypes part.1.1 part.2
    | none => pattern.boundVariables.map (·, none)
  else [(pattern, some t)]
termination_by pattern.id
decreasing_by exact id_lt_of_mem_children part.1.2

variable {p c v : Node} {t : Ty} {elements : List Ty}

theorem patternTypes_of_not_isCompound (h : p.isCompound = false) :
    p.patternTypes t = [(p, some t)] := by
  rw [patternTypes, if_neg (by rw [h]; simp)]

theorem patternTypes_of_unmatched (h : p.isCompound = true) (ht : p.matched? t = none) :
    p.patternTypes t = p.boundVariables.map (·, none) := by
  rw [patternTypes, if_pos h, ht]

theorem patternTypes_of_matched (h : p.isCompound = true) (ht : p.matched? t = some elements) :
    p.patternTypes t =
      (p.children.zip elements).flatMap fun part => part.1.patternTypes part.2 := by
  have hparts : p.children.zip elements =
      (p.children.attach.zip elements).map fun part => (part.1.1, part.2) := by
    refine Eq.trans ?_ (List.zip_map_left ..)
    rw [List.attach_map_subtype_val]
  rw [patternTypes, if_pos h, ht, hparts, List.flatMap_map]

theorem length_of_matched? (h : p.matched? t = some elements) :
    elements.length = p.children.length := by
  rw [matched?, Option.filter_eq_some_iff] at h
  exact beq_iff_eq.mp h.2

theorem isPattern_of_isCompound (hcompound : p.isCompound = true) : p.kind.isPattern = true := by
  rcases Bool.or_eq_true_iff.mp hcompound with hkind | hkind <;> rw [beq_iff_eq.mp hkind] <;> rfl

/-- The variables of a pattern are those of its parts. -/
theorem boundVariables_of_isCompound (hcompound : p.isCompound = true) :
    p.boundVariables = p.children.flatMap Node.boundVariables := by
  have hkind : (p.kind == .varDeclaration) = false := by
    rcases Bool.or_eq_true_iff.mp hcompound with hkind | hkind <;> rw [beq_iff_eq.mp hkind] <;> rfl
  rw [Node.boundVariables, Node.preorder_eq, List.filter_cons_of_neg (by rw [hkind]; simp),
    List.filter_flatMap]
  rfl

theorem kind_of_not_isCompound (hpattern : p.kind.isPattern = true)
    (hcompound : p.isCompound = false) : p.kind = .varDeclaration := by
  unfold Node.isCompound at hcompound
  revert hpattern hcompound
  cases p.kind <;> decide

end Node

namespace NodeKind

/-- A pattern stands in a declaration of variables or in a pattern that has parts, whose parts are
all patterns. A variable holds no pattern. -/
theorem pattern_of_holds {kind child : NodeKind} {slot : Option Field}
    (h : kind.holds slot child = true) :
    (child.isPattern = true → kind = .localVarsDeclaration ∨ kind = .tupleVarsDeclaration ∨
      kind = .tensorVarsDeclaration) ∧
    (kind = .tupleVarsDeclaration ∨ kind = .tensorVarsDeclaration → child.isPattern = true) ∧
    (slot = some .lhs → kind = .localVarsDeclaration → child.isPattern = true) := by
  have hall : ∀ kind ∈ all, ∀ p ∈ kind.parts, ∀ child ∈ all, p.kinds child = true →
      (child.isPattern = true → kind = .localVarsDeclaration ∨ kind = .tupleVarsDeclaration ∨
        kind = .tensorVarsDeclaration) ∧
      (kind = .tupleVarsDeclaration ∨ kind = .tensorVarsDeclaration → child.isPattern = true) ∧
      (p.slot = some .lhs → kind = .localVarsDeclaration → child.isPattern = true) := by
    decide +kernel
  obtain ⟨p, hp, rfl, hchild⟩ := exists_part_of_holds h
  exact hall kind kind.mem_all p hp child child.mem_all hchild

end NodeKind

namespace Inference

variable {p c : Node} {t e : Ty} {elements : List Ty} {index : Nat} {path : List Nat}

theorem destructure_of_matched (ht : p.matched? t = some elements)
    (he : elements[index]? = some e) (hc : p.children[index]? = some c) :
    destructure (index :: path) p t = destructure path c e := by
  obtain ⟨helements, hlength⟩ := Option.filter_eq_some_iff.mp ht
  rw [destructure, helements]
  simp only [beq_iff_eq] at hlength
  simp [hlength, he, hc]

theorem destructure_of_unmatched (ht : p.matched? t = none) (hpath : path ≠ []) :
    destructure path p t = none := by
  obtain ⟨index, path, rfl⟩ := List.exists_cons_of_ne_nil hpath
  unfold Node.matched? at ht
  rw [destructure]
  cases helements : t.elements? with
  | none => rfl
  | some elements =>
      rw [helements, Option.filter_eq_none_iff] at ht
      simp [show elements.length ≠ p.children.length by simpa using ht]

end Inference

namespace Tree.Shaped

variable {t : Tree} {p c v : Node} {ty : Ty}

/-- The parts of a pattern are patterns. -/
theorem isPattern_child (h : t.Shaped) (hp : p.tree = t) (hcompound : p.isCompound = true)
    (hc : c ∈ p.children) : c.kind.isPattern = true := by
  obtain ⟨slot, hslot⟩ := Node.exists_slot_of_mem_children hc
  refine (NodeKind.pattern_of_holds (h.holds_of_mem_slots hp hslot)).2.1 ?_
  simpa [Node.isCompound] using hcompound

/-- Below a variable there is no other one. -/
theorem boundVariables_of_not_isCompound (h : t.Shaped) (hp : p.tree = t)
    (hpattern : p.kind.isPattern = true) (hcompound : p.isCompound = false) :
    p.boundVariables = [p] := by
  have hkind := Node.kind_of_not_isCompound hpattern hcompound
  have hbelow : (p.children.flatMap Node.preorder).filter (·.kind == .varDeclaration) = [] := by
    refine List.filter_eq_nil_iff.mpr fun m hm hvar => ?_
    obtain ⟨c, hc, hmc⟩ := List.mem_flatMap.mp hm
    have hne : m ≠ p := by
      rintro rfl
      have hlt := Node.id_lt_of_mem_children hc
      exact absurd (Node.id_le_of_mem_preorder hmc) (Nat.not_le_of_lt hlt)
    have hlt := h.rank_lt_of_mem_preorder hp (Node.mem_preorder_iff.mpr (.inr ⟨c, hc, hmc⟩)) hne
      (by rw [hkind]; rfl)
    rw [beq_iff_eq.mp hvar, hkind] at hlt
    exact lt_irrefl _ hlt
  rw [Node.boundVariables, Node.preorder_eq, List.filter_cons_of_pos (by rw [hkind]; rfl), hbelow]

/-- Each variable of a pattern is given one type. -/
theorem map_fst_patternTypes (h : t.Shaped) (hp : p.tree = t) (hpattern : p.kind.isPattern = true)
    (ty : Ty) : (p.patternTypes ty).map Prod.fst = p.boundVariables := by
  induction p, ty using Node.patternTypes.induct with
  | case1 p ty hcompound elements helements ih =>
      have hparts : ∀ part ∈ p.children.zip elements,
          (part.1.patternTypes part.2).map Prod.fst = part.1.boundVariables := fun part hpart =>
        have hc := (List.of_mem_zip hpart).1
        ih (⟨part.1, hc⟩, part.2) ((Node.tree_of_mem_children hc).trans hp)
          (h.isPattern_child hp hcompound hc)
      have hlength := (Node.length_of_matched? helements).ge
      rw [Node.patternTypes_of_matched hcompound helements, List.map_flatMap,
        List.flatMap_congr hparts, Node.boundVariables_of_isCompound hcompound]
      calc (p.children.zip elements).flatMap (fun part => part.1.boundVariables)
        _ = ((p.children.zip elements).map Prod.fst).flatMap Node.boundVariables :=
          (List.flatMap_map ..).symm
        _ = p.children.flatMap Node.boundVariables := by rw [List.map_fst_zip hlength]
  | case2 p ty hcompound hnone =>
      rw [Node.patternTypes_of_unmatched hcompound hnone, List.map_map]
      exact List.map_id _
  | case3 p ty hcompound =>
      have hvariable := Bool.eq_false_iff.mpr hcompound
      rw [Node.patternTypes_of_not_isCompound hvariable,
        h.boundVariables_of_not_isCompound hp hpattern hvariable]
      rfl

/-! ### Positions -/

theorem patternPositions_child (h : t.Shaped) (hp : p.tree = t) (hcompound : p.isCompound = true)
    {index : Nat} (hc : p.children[index]? = some c) :
    Decl.patternPositions c = index :: Decl.patternPositions p := by
  have hmem := List.mem_of_getElem? hc
  have hindex : p.children.findIdx? (·.id == c.id) = some index := by
    obtain ⟨hlt, hat⟩ := List.getElem?_eq_some_iff.mp hc
    refine List.findIdx?_eq_some_iff_getElem.mpr ⟨hlt, by rw [hat]; exact beq_self_eq_true _, ?_⟩
    intro j hj hid
    have htree : p.children[j].tree = c.tree :=
      (Node.tree_of_mem_children (List.getElem_mem _)).trans (Node.tree_of_mem_children hmem).symm
    have heq : p.children[j] = p.children[index] :=
      (Node.eq_of_id_eq htree (beq_iff_eq.mp hid)).trans hat.symm
    exact hj.ne ((h.nodup_children hp).getElem_inj_iff.mp heq)
  rw [Decl.patternPositions]
  split
  · rename_i q hq
    obtain rfl : p = q := Option.some_inj.mp ((h.parent?_child hp hmem).symm.trans hq)
    exact (if_pos hcompound).trans (by rw [hindex])
  · rename_i hnone
    rw [h.parent?_child hp hmem] at hnone
    cases hnone

/-- A pattern that lies below another one has a path from there. -/
theorem exists_positions (h : t.Shaped) (hp : p.tree = t) (hpattern : p.kind.isPattern = true) :
    ∀ m ∈ p.preorder, m.kind.standsInPattern = true ∧ (m.kind.isPattern = true → ∃ path,
      Decl.patternPositions m = path ++ Decl.patternPositions p ∧ (m = p ∨ path ≠ [])) := by
  refine Node.preorder_induction ⟨?_, fun _ => ⟨[], rfl, .inl rfl⟩⟩ fun q hq ⟨hqkind, ih⟩ c hc => ?_
  · unfold NodeKind.standsInPattern
    rw [hpattern]
    rfl
  · have hqtree := (Node.tree_of_mem_preorder hq).trans hp
    obtain ⟨slot, hslot⟩ := Node.exists_slot_of_mem_children hc
    have hholds := h.holds_of_mem_slots hqtree hslot
    refine ⟨NodeKind.standsInPattern_of_holds (.inr hqkind) hholds, fun hckind => ?_⟩
    have hcompound : q.isCompound = true := by
      unfold Node.isCompound
      rcases (NodeKind.pattern_of_holds hholds).1 hckind with hkind | hkind | hkind
      · rw [hkind] at hqkind
        cases hqkind
      · rw [hkind]
        rfl
      · rw [hkind]
        rfl
    obtain ⟨path, hpath, -⟩ := ih (Node.isPattern_of_isCompound hcompound)
    obtain ⟨index, hindex⟩ := List.mem_iff_getElem?.mp hc
    exact ⟨index :: path, by rw [h.patternPositions_child hqtree hcompound hindex, hpath]; rfl,
      .inr (List.cons_ne_nil _ _)⟩

/-- Following the positions of a variable back from a type gives the part of the variable. -/
theorem exists_destructure (h : t.Shaped) (hp : p.tree = t) (hpattern : p.kind.isPattern = true)
    {o : Option Ty} (hv : (v, o) ∈ p.patternTypes ty) :
    ∃ path, Decl.patternPositions v = path.reverse ++ Decl.patternPositions p ∧
      Inference.destructure path p ty = o := by
  induction p, ty using Node.patternTypes.induct with
  | case1 p ty hcompound elements helements ih =>
      rw [Node.patternTypes_of_matched hcompound helements] at hv
      obtain ⟨⟨c, e⟩, hpart, hv⟩ := List.mem_flatMap.mp hv
      obtain ⟨index, hindex⟩ := List.mem_iff_getElem?.mp hpart
      obtain ⟨hchild, helement⟩ := List.getElem?_zip_eq_some.mp hindex
      have hc := List.mem_of_getElem? hchild
      -- The step down from the pattern to its part is the last step up from the variable.
      obtain ⟨path, hpositions, hpath⟩ := ih (⟨c, hc⟩, e) ((Node.tree_of_mem_children hc).trans hp)
        (h.isPattern_child hp hcompound hc) hv
      refine ⟨index :: path, ?_, ?_⟩
      · rw [hpositions, h.patternPositions_child hp hcompound hchild, List.reverse_cons,
          List.append_assoc]
        rfl
      · rw [Inference.destructure_of_matched helements helement hchild, hpath]
  | case2 p ty hcompound hnone =>
      rw [Node.patternTypes_of_unmatched hcompound hnone] at hv
      obtain ⟨m, hm, heq⟩ := List.mem_map.mp hv
      cases heq
      obtain ⟨hbelow, hkind⟩ := List.mem_filter.mp hm
      rw [beq_iff_eq] at hkind
      obtain ⟨path, hpositions, hne⟩ := (h.exists_positions hp hpattern v hbelow).2
        (by rw [hkind]; rfl)
      have hpath : path ≠ [] := by
        refine hne.resolve_left ?_
        rintro rfl
        unfold Node.isCompound at hcompound
        rw [hkind] at hcompound
        cases hcompound
      exact ⟨path.reverse, by rw [List.reverse_reverse, hpositions],
        Inference.destructure_of_unmatched hnone (by simpa using hpath)⟩
  | case3 p ty hcompound =>
      rw [Node.patternTypes_of_not_isCompound (Bool.eq_false_iff.mpr hcompound)] at hv
      cases List.mem_singleton.mp hv
      exact ⟨[], rfl, rfl⟩

/-- The variables of a pattern belong to the declaration that the pattern stands in. -/
theorem ancestorOfKind?_localVarsDeclaration (h : t.Shaped) {declaration : Node}
    (hdeclaration : declaration.tree = t) (hkind : declaration.kind = .localVarsDeclaration)
    (hp : declaration.child? .lhs = some p) (hv : v ∈ p.preorder) :
    v.ancestorOfKind? .localVarsDeclaration = some declaration := by
  have hbelow := h.standsInPattern hdeclaration hkind hp
  unfold Node.ancestorOfKind?
  rw [h.find?_ancestors hdeclaration (Node.mem_children_of_child? hp) (fun q hq => ?_) v hv,
    List.find?_cons_of_pos (by rw [hkind]; rfl)]
  have hq := hbelow q hq
  cases hlocal : q.kind == .localVarsDeclaration with
  | false => rfl
  | true =>
      rw [beq_iff_eq.mp hlocal] at hq
      cases hq

end Tree.Shaped

/-- A pattern that stands in no other one has no positions. -/
theorem Decl.patternPositions_of_parent? {n p : Node} (hp : n.parent? = some p)
    (hcompound : p.isCompound = false) : patternPositions n = [] := by
  rw [patternPositions]
  split
  · rename_i q hq
    obtain rfl : p = q := Option.some_inj.mp (hp.symm.trans hq)
    exact if_neg (Bool.eq_false_iff.mp hcompound)
  · rfl

/-! ### The rule for a variable -/

namespace Inference

variable {i : Inference} {v value pattern declaration : Node}

/-- The type of a variable is the part of the value that its place in the pattern selects. -/
theorem run_nodeType_varDeclaration (ask : Oracle) (c : Caches) (hkind : v.kind = .varDeclaration)
    (hhint : v.child? .typeExpr = none)
    (hdeclaration : v.ancestorOfKind? .localVarsDeclaration = some declaration)
    (hvalue : declaration.child? .assignedVal = some value)
    (hpattern : declaration.child? .lhs = some pattern) :
    ((i.nodeType v).run.run ask c).1 = (ask.infer value c).1.bind
      (destructure (Decl.patternPositions v).reverse pattern) := by
  have hrule : i.nodeType v = i.infer value >>= fun t =>
      .ofOption (destructure (Decl.patternPositions v).reverse pattern t) := by
    have hd : Decl.ofNode? v = some ⟨.localVariable, v⟩ := by
      rw [Decl.ofNode?, Decl.kindOf?, hkind]
      rfl
    unfold nodeType
    rw [hkind, hd]
    change i.localType ⟨.localVariable, v⟩ = _
    unfold localType Decl.writtenType? Decl.assignedValue? Decl.localDeclaration?
    rw [hhint, hdeclaration]
    dsimp only [Option.bind_some]
    rw [hvalue, hpattern]
    rfl
  rw [hrule, run_infer_bind]
  rfl

end Inference

namespace Session

variable {s : Session} {declaration value pattern v : Node} {t : Ty}

/-- The type of a variable without a written one is the part of the type of the value that the
place of the variable selects. -/
theorem inferType_variable (h : s.Reachable) (hblank : s.Blank)
    (hn : s.workspace.Reaches declaration) (hkind : declaration.kind = .localVarsDeclaration)
    (hvalue : declaration.child? .assignedVal = some value)
    (hpattern : declaration.child? .lhs = some pattern) (hv : v ∈ pattern.boundVariables)
    (hhint : v.child? .typeExpr = none) :
    (inferType v s).1 = (inferType value s).1.bind
      (Inference.destructure (Decl.patternPositions v).reverse pattern) := by
  have hshaped := hn.1.shaped_tree h.sound
  have hA := h.sound.asking
  have hK := h.sound.closed_reaches
  obtain ⟨hbelow, hvkind⟩ := List.mem_filter.mp hv
  rw [beq_iff_eq] at hvkind
  have hvn := hK.preorder (hK.child? hn hpattern) v hbelow
  have hdeclaration := hshaped.ancestorOfKind?_localVarsDeclaration rfl hkind hpattern hbelow
  -- No rule asks about the variable, so it makes no difference that it is in flight.
  have hkey := hvn.not_names fun hasked => by
    have hpassed := hasked.kind
    rw [hvkind] at hpassed
    cases hpassed
  have hroom := Caches.room_enter_infer h.sound hvn.1 (h.idle.types v.key)
  have hdepth := Caches.room_lt_depth (w := s.workspace) (c := s.caches)
  have hasked := (hA.agreeing h.sound (fun _ hm => hm.1) (2 * s.workspace.loaded)
    s.workspace.depth).infer (hA.slot hn hvalue rfl)
      ((h.idle.agreesOn hblank.1 hblank.2).enter_types_left v.key hkey)
      (by unfold Workspace.depth at hdepth; omega) hdepth
  rw [h.inferType_eq_run hblank, Inference.run_nodeType_varDeclaration _ _ hvkind hhint
    hdeclaration hvalue hpattern, ← hasked.answer]
  rfl

/-- The variables of a declaration have the types that going down the pattern and the type of the
value gives them, unless another one is written. -/
theorem inferType_pattern (h : s.Reachable) (hblank : s.Blank)
    (hn : s.workspace.Reaches declaration) (hkind : declaration.kind = .localVarsDeclaration)
    (hvalue : declaration.child? .assignedVal = some value) (ht : (inferType value s).1 = some t)
    (hpattern : declaration.child? .lhs = some pattern) :
    (pattern.patternTypes t).map Prod.fst = pattern.boundVariables ∧
      ∀ v type, (v, type) ∈ pattern.patternTypes t → v.child? .typeExpr = none →
        (inferType v s).1 = type := by
  have hshaped := hn.1.shaped_tree h.sound
  have hmem := Node.mem_children_of_child? hpattern
  have htree := Node.tree_of_mem_children hmem
  have hlhs := (NodeKind.pattern_of_holds
    (hshaped.holds_of_mem_slots rfl (Node.mem_slots_of_child? hpattern))).2.2 rfl hkind
  have hbound := hshaped.map_fst_patternTypes htree hlhs t
  refine ⟨hbound, fun v type hv hhint => ?_⟩
  have hcompound : declaration.isCompound = false := by
    unfold Node.isCompound
    rw [hkind]
    rfl
  have hout := Decl.patternPositions_of_parent? (hshaped.parent?_child rfl hmem) hcompound
  obtain ⟨path, hpositions, hpath⟩ := hshaped.exists_destructure htree hlhs hv
  rw [inferType_variable h hblank hn hkind hvalue hpattern
    (hbound ▸ List.mem_map_of_mem hv) hhint, ht, hpositions, hout, List.append_nil,
    List.reverse_reverse]
  exact hpath

/-! ### A pair that is taken apart -/

/-- A text in which a pair of integers is taken apart by a pattern that expects more. -/
def pairText : String := "fun f(){val (a,[b,c])=(1,2);}"

/-- The session in which the text has been read. -/
def pairs : Session := rereading "" pairText

/-- The declaration. -/
def pairDeclaration : Node := ⟨(parse 0 1 pairText).tree, 13, by decide +kernel⟩

/-- The pattern. -/
def pairPattern : Node := (pairDeclaration.child? .lhs).get (by decide +kernel)

/-- The pair. -/
def pairValue : Node := (pairDeclaration.child? .assignedVal).get (by decide +kernel)

theorem reaches_pairDeclaration : pairs.workspace.Reaches pairDeclaration :=
  reaches_rereading _ _ (by decide +kernel) rfl (by decide +kernel)

theorem inferType_pairValue : (inferType pairValue pairs).1 = some (.tensor [.int, .int]) := by
  have hs : pairs.Consulted := .blank (reachable_rereading _ _) (blank_rereading _ _)
  have hn := hs.reachable.sound.closed_knows.child? reaches_pairDeclaration.1
    (show pairDeclaration.child? .assignedVal = some pairValue from (Option.some_get _).symm)
  have hplace : pairValue.kind = .tensorExpression ∧
      (∀ c ∈ pairValue.children, c.kind = .numberLiteral) ∧ pairValue.children.length = 2 := by
    decide +kernel
  obtain ⟨hkind, hnumbers, hlength⟩ := hplace
  refine (hs.mayType hn).afresh 2 _ ?_
  have hparts : (Inference.inferChildren ⟨pairs.workspace⟩ pairValue).run.eval?
      (pairs.workspace.afresh 1) = some (some (pairValue.children.map fun _ => Ty.int)) := by
    refine Attempt.eval?_mapM fun c hc => Inference.eval?_inferOrUnknown (t := some .int) ?_
    rw [Workspace.infer_afresh_succ, Inference.nodeType, hnumbers c hc]
    rfl
  rw [Workspace.infer_afresh_succ, Inference.nodeType, hkind]
  dsimp only
  rw [Attempt.eval?_bind hparts, List.map_const', hlength]
  rfl

/-- The first variable has the type of an integer. The others are below a pattern that does not
match, and have no type. -/
theorem inferType_pattern_pair :
    (pairPattern.patternTypes (.tensor [.int, .int])).map (fun p => (p.1.text, p.2.map Ty.name)) =
        [("a", some "int"), ("b", none), ("c", none)] ∧
      (pairPattern.patternTypes (.tensor [.int, .int])).map Prod.fst = pairPattern.boundVariables ∧
      ∀ v type, (v, type) ∈ pairPattern.patternTypes (.tensor [.int, .int]) →
        v.child? .typeExpr = none → (inferType v pairs).1 = type :=
  ⟨by decide +kernel, inferType_pattern (reachable_rereading _ _) (blank_rereading _ _)
    reaches_pairDeclaration (by decide +kernel) (Option.some_get _).symm inferType_pairValue
    (Option.some_get _).symm⟩

/-! ### A variable of a replaced tree -/

/-- A text with a variable. -/
def variableText : String := "fun f():int{val a=g;}"

/-- A text that declares what the variable is given. The value of the constant has the number that
the variable has in the other text. -/
def constantsText : String := "const a=1;const g=1;"

/-- The session in which the text with the variable has been replaced. -/
def revalued : Session := rereading variableText constantsText

/-- The tree that is held. -/
def constantsTree : Tree := (parse 0 10 constantsText).tree

theorem tree?_revalued : revalued.workspace.tree? 0 = some constantsTree := by
  have hsize : (parse 0 0 variableText).tree.size = 10 := by decide +kernel
  rw [revalued, tree?_rereading, hsize]
  rfl

/-- The declaration in the tree that has been replaced. -/
def staleDeclaration : Node := ⟨(parse 0 0 variableText).tree, 6, by decide +kernel⟩

/-- The variable. -/
def staleVariable : Node := (staleDeclaration.child? .lhs).get (by decide +kernel)

/-- The value of the variable. -/
def staleValue : Node := (staleDeclaration.child? .assignedVal).get (by decide +kernel)

/-- What the value refers to. -/
def givenConstant : Decl :=
  (((⟨revalued.workspace, staleValue, false⟩ : Lookup).shownOutward (fun _ => false) none
    (staleValue :: staleValue.ancestors) ++
      (Category.values ++ Category.types).flatMap constantsTree.declared).find?
        ((⟨revalued.workspace, staleValue, false⟩ : Lookup).fits
          (Workspace.wantedName staleValue))).get (by decide +kernel)

/-- The value of the constant. -/
def givenValue : Node := givenConstant.value?.get (by decide +kernel)

theorem staleValue_place : staleValue.span.isEmpty = false ∧ staleValue.slot? ≠ some .field ∧
    staleValue.parent?.any (·.kind == .instanceArgument) = false ∧
    staleValue.parent?.any (·.kind == .dotAccess) = false ∧
    (Decl.declaredByName? staleValue).isNone = true ∧
    (staleValue.text == "" || staleValue.text == "_") = false ∧ staleValue.text ≠ "_" ∧
    staleValue.kind = .identifier ∧
    (⟨revalued.workspace, staleValue, false⟩ : Lookup).isInReceiver = false ∧
    (∀ scope ∈ staleValue :: staleValue.ancestors, Lookup.receiverNames scope = []) ∧
    staleValue.file = 0 := by
  decide +kernel

theorem revalued_place : staleDeclaration.kind = .localVarsDeclaration ∧
    staleVariable.kind = .varDeclaration ∧ (staleVariable.child? .typeExpr).isNone = true ∧
    givenConstant.kind = .constant ∧ givenConstant.writtenType?.isNone = true ∧
    givenValue.kind = .numberLiteral ∧ givenValue.key = staleVariable.key ∧
    staleVariable.key ≠ staleValue.key := by
  decide +kernel

theorem resolve_staleValue :
    (revalued.workspace.afresh 1).resolve staleValue = some (some givenConstant) := by
  obtain ⟨hspan, hslot, hparent, hdot, hown, htext, hblank, hkind, houtside, hreceivers, hfile⟩ :=
    staleValue_place
  have hname : Workspace.ValueName staleValue :=
    ⟨.of_place hslot hparent, hkind, Option.isNone_iff_eq_none.mp hown, hblank⟩
  refine hname.toStandalone.resolve_afresh_one (reachable_rereading _ _).sound
    (hfile ▸ tree?_revalued) hspan hname.undeclared htext houtside hreceivers
    (hname.categories.trans (if_neg ?_)) (Option.some_get _).symm
  rw [hdot]
  exact Bool.false_ne_true

/-- The value has the type of the value of the constant. -/
theorem infer_staleValue (bound : Nat) {c : Caches} (hvalue : c.types.find? staleValue.key = none)
    (hresolve : c.resolve.find? staleValue.key = none) :
    ∃ c', c'.types.find? givenValue.key = c.types.find? givenValue.key ∧
      ((revalued.workspace.oracleWithin (bound + 2)).infer staleValue c).1 =
        ((revalued.workspace.oracleWithin (bound + 1)).infer givenValue c').1 := by
  obtain ⟨-, -, -, -, -, -, -, hkind, -⟩ := staleValue_place
  obtain ⟨-, -, -, hconstant, hwritten, -, hkey, hne⟩ := revalued_place
  let c₁ := Caches.typesPart.modify (·.enter staleValue.key) c
  let c₂ := Caches.resolvePart.modify (·.leave staleValue.key (some givenConstant))
    (Caches.resolvePart.modify (·.enter staleValue.key) c₁)
  refine ⟨c₂, QueryCache.find?_enter_of_ne (hkey ▸ hne.symm), ?_⟩
  have hfound : (revalued.workspace.oracleWithin (bound + 1)).resolve staleValue c₁ =
      (some givenConstant, c₂) := Workspace.resolve_of_afresh_one hresolve resolve_staleValue
  rw [Workspace.oracleWithin_succ_infer, QueryCache.getOrCompute_of_new hvalue]
  refine (Inference.run_nodeType_identifier _ c₁ hkind).trans ?_
  rw [hfound]
  exact congrArg Prod.fst (Inference.run_declType_constant _ c₂ hconstant
    (Option.isNone_iff_eq_none.mp hwritten) (Option.some_get _).symm)

/-- The value of a variable of a tree that has been replaced is an integer, but the variable has no
type. -/
theorem not_inferType_pattern_of_stale :
    ¬ ∀ s : Session, s.Reachable → s.Blank → ∀ (declaration value pattern : Node) (t : Ty),
        declaration.kind = .localVarsDeclaration →
        declaration.child? .assignedVal = some value → (inferType value s).1 = some t →
        declaration.child? .lhs = some pattern →
        (pattern.patternTypes t).map Prod.fst = pattern.boundVariables ∧
          ∀ v type, (v, type) ∈ pattern.patternTypes t → v.child? .typeExpr = none →
            (inferType v s).1 = type := by
  intro h
  have hs : revalued.Reachable := reachable_rereading _ _
  have hblank : revalued.Blank := blank_rereading _ _
  obtain ⟨hkind, hvariable, hhint, -, -, hnumber, hkey, hne⟩ := revalued_place
  have hvalue : staleDeclaration.child? .assignedVal = some staleValue := (Option.some_get _).symm
  have hlhs : staleDeclaration.child? .lhs = some staleVariable := (Option.some_get _).symm
  have hshaped := shaped_parse 0 0 variableText
  have hdeclaration := hshaped.ancestorOfKind?_localVarsDeclaration rfl hkind hlhs
    (Node.mem_preorder_self _)
  obtain ⟨hresolve, htypes⟩ := hs.find?_of_blank hblank
  have hstamp : constantsTree.stamp = 10 := rfl
  have hloaded := hs.sound.stamp_add_size_le tree?_revalued
  obtain ⟨bound, hbound⟩ := Nat.exists_eq_add_of_le'
    (show 2 ≤ 2 * revalued.workspace.loaded by omega)
  have hint : (inferType staleValue revalued).1 = some .int := by
    obtain ⟨c', hfind, hinfer⟩ := infer_staleValue (bound + 1) (htypes _) (hresolve _)
    change (revalued.workspace.oracle.infer staleValue revalued.caches).1 = _
    rw [Workspace.oracle_eq, hbound, hinfer, Workspace.oracleWithin_succ_infer,
      QueryCache.getOrCompute_of_new (hfind.trans (htypes _)), Inference.nodeType, hnumber]
    rfl
  have hnone : (inferType staleVariable revalued).1 = none := by
    obtain ⟨c', hfind, hinfer⟩ := infer_staleValue bound
      (c := Caches.typesPart.modify (·.enter staleVariable.key) revalued.caches)
      ((QueryCache.find?_enter_of_ne hne).trans (htypes _)) (hresolve _)
    have hflight : c'.types.find? givenValue.key = some none := by
      rw [hfind, hkey]
      exact QueryCache.find?_enter_of_new (htypes _)
    rw [hs.inferType_eq_run hblank, Inference.run_nodeType_varDeclaration _ _ hvariable
      (Option.isNone_iff_eq_none.mp hhint) hdeclaration hvalue hlhs, hbound, hinfer,
      Workspace.oracleWithin_succ_infer, QueryCache.getOrCompute_of_find? hflight]
    rfl
  have hpart : (staleVariable, some Ty.int) ∈ staleVariable.patternTypes .int := by
    rw [Node.patternTypes_of_not_isCompound (by unfold Node.isCompound; rw [hvariable]; rfl)]
    exact List.mem_singleton.mpr rfl
  have htype := (h revalued hs hblank staleDeclaration staleValue staleVariable .int hkind hvalue
    hint hlhs).2 staleVariable (some .int) hpart (Option.isNone_iff_eq_none.mp hhint)
  rw [hnone] at htype
  cases htype

end Session

end TolkAnalysis
