import TolkAnalysis.Proofs.References.Target
import TolkAnalysis.Proofs.Session.Rereading

/-!
# Answers and the questions before them

A question that comes back to itself is cut off there, and what the questions on the way are
answered is remembered. So an answer may depend on which of the questions in such a circle was
asked first. Where the rules alone end, no circle is met, and every consulted session gives the
answer of the rules (`Session.Consulted.answers_after`), whatever it has been asked before
(`Session.Consulted.same_answers_after`).
-/

namespace TolkAnalysis

namespace Session

variable {s : Session} {n : Node}

namespace Consulted

/-- Where the rules alone end, their answer is given, whatever has been asked before. -/
theorem answers_after (h : s.Consulted) {requests : List Request}
    (hknows : ∀ request ∈ requests, s.workspace.Knows request.subject)
    (hn : s.workspace.Knows n) :
    (∀ depth d, (s.workspace.afresh depth).resolve n = some d →
      (resolve n (s.after requests)).1 = d) ∧
    ∀ depth t, (s.workspace.afresh depth).infer n = some t →
      (inferType n (s.after requests)).1 = t := by
  have hafter := h.after hknows
  rw [← s.after_workspace requests] at hn ⊢
  exact ⟨(hafter.mayRefer hn).afresh, (hafter.mayType hn).afresh⟩

/-- Where the rules alone end, a session gives the same answers after any two sequences of
requests. -/
theorem same_answers_after (h : s.Consulted) {requests requests' : List Request}
    (hknows : ∀ request ∈ requests, s.workspace.Knows request.subject)
    (hknows' : ∀ request ∈ requests', s.workspace.Knows request.subject)
    (hn : s.workspace.Knows n) (depth : Nat) :
    (((s.workspace.afresh depth).resolve n).isSome = true →
      (resolve n (s.after requests)).1 = (resolve n (s.after requests')).1) ∧
    (((s.workspace.afresh depth).infer n).isSome = true →
      (inferType n (s.after requests)).1 = (inferType n (s.after requests')).1) := by
  obtain ⟨hrefers, htype⟩ := h.answers_after hknows hn
  obtain ⟨hrefers', htype'⟩ := h.answers_after hknows' hn
  constructor
  · intro hresolve
    obtain ⟨d, hd⟩ := Option.isSome_iff_exists.mp hresolve
    exact (hrefers depth d hd).trans (hrefers' depth d hd).symm
  · intro hinfer
    obtain ⟨t, ht⟩ := Option.isSome_iff_exists.mp hinfer
    exact (htype depth t ht).trans (htype' depth t ht).symm

end Consulted

/-- The name of the annotated constant. -/
def constantName : Node := ⟨(parse 0 4 "@x const a=1;").tree, 3, by decide +kernel⟩

/-- What the name of the annotated constant refers to and which type it has follow from the rules
alone. -/
theorem afresh_constantName (w : Workspace) :
    ((w.afresh 2).resolve constantName).isSome = true ∧
      ((w.afresh 2).infer constantName).isSome = true := by
  obtain ⟨d, hd⟩ := Option.isSome_iff_exists.mp
    (show (Decl.declaredByName? constantName).isSome = true by decide +kernel)
  have hname : d.nameNode? = some constantName := Decl.nameNode?_of_declaredByName?
    (shaped_parse 0 4 _) (Node.mem_preorder_of_any (by decide +kernel)) hd
  have hresolve : ∀ depth, (w.afresh (depth + 1)).resolve constantName = some (some d) := by
    intro depth
    change (Resolution.first w constantName).eval? _ = _
    rw [Resolution.first_of_declaredByName? (by decide +kernel) hd hname]
    rfl
  refine ⟨by rw [hresolve]; rfl, ?_⟩
  have part : ∀ {β : Type} [DecidableEq β] (f : Decl → β) {b : β},
      (Decl.declaredByName? constantName).map f = some b → f d = b := by
    intro β _ f b h
    rw [hd] at h
    exact Option.some_inj.mp h
  have hkind : d.kind = .constant := part (·.kind) (by decide +kernel)
  have hwritten : d.writtenType? = none :=
    Option.isNone_iff_eq_none.mp (part (·.writtenType?.isNone) (by decide +kernel))
  obtain ⟨value, hvalue, hliteral⟩ := Option.map_eq_some_iff.mp
    (part (fun d => d.value?.map (·.kind)) (b := some .numberLiteral) (by decide +kernel))
  have hinfer : (w.afresh 1).infer value = some (some .int) := by
    change (Inference.nodeType ⟨w⟩ value).run.eval? _ = _
    unfold Inference.nodeType
    rw [hliteral]
    rfl
  have hnode : Inference.nodeType ⟨w⟩ constantName =
      (Inference.resolve ⟨w⟩ constantName >>= fun d => Inference.declType ⟨w⟩ d) := by
    have h : constantName.kind = .identifier := by decide +kernel
    unfold Inference.nodeType
    rw [h]
  have hdecl : Inference.declType ⟨w⟩ d = Inference.infer ⟨w⟩ value := by
    unfold Inference.declType
    rw [hkind]
    dsimp only
    rw [hwritten, hvalue]
    rfl
  change ((Inference.nodeType ⟨w⟩ constantName).run.eval? (w.afresh 1)).isSome = true
  have hrun : (Inference.nodeType ⟨w⟩ constantName).run.eval? (w.afresh 1) =
      (Inference.declType ⟨w⟩ d).run.eval? (w.afresh 1) := by
    rw [hnode]
    change ((w.afresh 1).resolve constantName).bind _ = _
    rw [hresolve 0]
    rfl
  rw [hrun, hdecl]
  change (((w.afresh 1).infer value).bind _).isSome = true
  rw [hinfer]
  rfl

/-- A search for references before does not change what the constant is found to be. -/
theorem same_answers_after_references :
    let s := rereading "const a=1;" "@x const a=1;"
    (resolve constantName (s.after [.references annotatedConstant {}])).1 =
        (resolve constantName (s.after [])).1 ∧
      (inferType constantName (s.after [.references annotatedConstant {}])).1 =
        (inferType constantName (s.after [])).1 := by
  intro s
  have hreach : s.workspace.Reaches annotatedConstant.node := reaches_annotatedConstant
  have hknows : ∀ request ∈ [Request.references annotatedConstant {}],
      s.workspace.Knows request.subject := List.forall_mem_singleton.mpr hreach.1
  have hnone : ∀ request ∈ ([] : List Request), s.workspace.Knows request.subject :=
    List.forall_mem_nil _
  have h := Consulted.same_answers_after (.blank (reachable_rereading _ _) (blank_rereading _ _))
    hknows hnone (hreach.1.of_tree_eq (m := constantName) rfl) 2
  exact ⟨h.1 (afresh_constantName _).1, h.2 (afresh_constantName _).2⟩

end Session

end TolkAnalysis
