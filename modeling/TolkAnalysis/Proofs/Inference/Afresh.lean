import TolkAnalysis.Inference.Infer
import TolkAnalysis.Proofs.Query.Run

/-!
# What the rules for types find

One lemma for each rule says what it finds if the answers to its questions are known. A struct that
is applied to written arguments gives the struct with these arguments, whatever its fields are
(`Inference.exists_eval?_instantiatedType`).
-/

namespace TolkAnalysis

/-- A question about a type is answered by the rule for the node. -/
theorem Workspace.infer_afresh_succ (w : Workspace) (depth : Nat) (n : Node) :
    (w.afresh (depth + 1)).infer n =
      (Inference.nodeType ⟨w⟩ n).run.eval? (w.afresh depth) := rfl

namespace Attempt

variable {α β : Type} {known : Findings} {x : Attempt α} {a : α}

theorem eval?_bind {f : α → Attempt β} (hx : x.run.eval? known = some (some a)) :
    (x >>= f).run.eval? known = (f a).run.eval? known :=
  (Query.eval?_bind ..).trans (congrArg (Option.bind · _) hx)

theorem eval?_ofOption {o : Option α} : (ofOption o).run.eval? known = some o := rfl

/-- A list of parts is found if each part is. -/
theorem eval?_mapM {f : α → Attempt β} {xs : List α} {y : α → β}
    (h : ∀ x ∈ xs, (f x).run.eval? known = some (some (y x))) :
    (xs.mapM f).run.eval? known = some (some (xs.map y)) := by
  induction xs with
  | nil => rfl
  | cons x xs ih =>
      rw [List.forall_mem_cons] at h
      rw [List.mapM_cons, eval?_bind h.1, eval?_bind (ih h.2)]
      rfl

theorem exists_eval?_mapM {f : α → Attempt β} {xs : List α}
    (h : ∀ x ∈ xs, ∃ y, (f x).run.eval? known = some (some y)) :
    ∃ ys, (xs.mapM f).run.eval? known = some (some ys) := by
  induction xs with
  | nil => exact ⟨[], rfl⟩
  | cons x xs ih =>
      rw [List.forall_mem_cons] at h
      obtain ⟨⟨y, hy⟩, h⟩ := h
      obtain ⟨ys, hys⟩ := ih h
      refine ⟨y :: ys, ?_⟩
      rw [List.mapM_cons, eval?_bind hy, eval?_bind hys]
      rfl

theorem eval?_answer? {o : Option α} (hx : x.run.eval? known = some o) :
    x.answer?.run.eval? known = some (some o) :=
  (Query.eval?_bind ..).trans (congrArg (Option.bind · _) hx)

theorem eval?_getD {o : Option α} (default : α) (hx : x.run.eval? known = some o) :
    (x.getD default).run.eval? known = some (some (o.getD default)) :=
  (eval?_bind (eval?_answer? hx)).trans rfl

end Attempt

namespace Inference

variable {known : Findings} {i : Inference} {n c : Node}

theorem eval?_infer {t : Option Ty} (h : known.infer n = some t) :
    (i.infer n).run.eval? known = some t := Option.bind_eq_some_iff.mpr ⟨t, h, rfl⟩

theorem eval?_resolve {d : Option Decl} (h : known.resolve n = some d) :
    (i.resolve n).run.eval? known = some d := Option.bind_eq_some_iff.mpr ⟨d, h, rfl⟩

theorem eval?_inferOrUnknown {t : Option Ty} (h : known.infer n = some t) :
    (i.inferOrUnknown n).run.eval? known = some (some (t.getD .unknown)) := by
  unfold inferOrUnknown
  exact Attempt.eval?_getD .unknown (eval?_infer (i := i) h)

theorem eval?_inferChild {slot : Field} {t : Option Ty} (hc : n.child? slot = some c)
    (h : known.infer c = some t) : (i.inferChild n slot).run.eval? known = some t := by
  unfold inferChild
  rw [hc]
  exact (Attempt.eval?_bind Attempt.eval?_ofOption).trans (eval?_infer h)

/-- The type of a field is the written one. -/
theorem eval?_fieldType {d : Decl} {written : Node} {t : Option Ty}
    (hwritten : d.writtenType? = some written) (h : known.infer written = some t) :
    (i.fieldType d).run.eval? known = some t := by
  unfold fieldType
  rw [hwritten]
  exact (Attempt.eval?_bind Attempt.eval?_ofOption).trans (eval?_infer h)

/-- The type of a member access is that of the member, with the arguments of the object's type in
place. -/
theorem eval?_memberType {object member : Node} {d : Decl} {t e : Ty}
    (hmember : n.child? .field = some member) (hindex : member.kind ≠ .numericIndex)
    (hresolve : known.resolve member = some (some d))
    (he : (i.declType d).run.eval? known = some (some e))
    (hobject : n.child? .obj = some object) (ht : known.infer object = some (some t)) :
    (i.memberType n).run.eval? known = some (some (e.substitute (appliedArguments t))) := by
  unfold memberType
  rw [hmember, Attempt.eval?_bind Attempt.eval?_ofOption, if_neg (by simpa using hindex),
    Attempt.eval?_bind (eval?_resolve hresolve), Attempt.eval?_bind he,
    Attempt.eval?_bind (Attempt.eval?_answer? (eval?_inferChild hobject ht))]
  rfl

/-! ### Rules by kind -/

theorem nodeType_dotAccess (h : n.kind = .dotAccess) : i.nodeType n = i.memberType n := by
  unfold nodeType
  rw [h]

theorem nodeType_castAsOperator (h : n.kind = .castAsOperator) :
    i.nodeType n = i.inferChild n .castedTo := by
  unfold nodeType
  rw [h]

theorem nodeType_parenthesizedExpression (h : n.kind = .parenthesizedExpression) :
    i.nodeType n = i.inferChild n .inner := by
  unfold nodeType
  rw [h]

theorem nodeType_typeIdentifier (h : n.kind = .typeIdentifier) : i.nodeType n = i.namedType n := by
  unfold nodeType
  rw [h]

theorem nodeType_instantiatedType (h : n.kind = .instantiatedType) :
    i.nodeType n = i.instantiatedType n := by
  unfold nodeType
  rw [h]

theorem nodeType_typeParameter (h : n.kind = .typeParameter) :
    i.nodeType n = i.declType ⟨.typeParameter, n⟩ := by
  unfold nodeType Decl.ofNode? Decl.kindOf?
  rw [h]
  rfl

/-! ### Types that are written -/

/-- A primitive type has its own name. -/
theorem eval?_namedType_primitive {t : Ty} (hself : n.text ≠ "self")
    (ht : Ty.ofName? n.text = some t) : (i.namedType n).run.eval? known = some (some t) := by
  unfold namedType
  rw [if_neg (by simpa using hself), ht]
  rfl

/-- The name of a type that is neither primitive nor `self` has the type of what it refers to. -/
theorem eval?_namedType {d : Decl} (hself : n.text ≠ "self") (hname : Ty.ofName? n.text = none)
    (hd : known.resolve n = some (some d)) :
    (i.namedType n).run.eval? known = (i.declType d).run.eval? known := by
  unfold namedType
  rw [if_neg (by simpa using hself), hname]
  exact Attempt.eval?_bind (eval?_resolve hd)

/-- A type parameter without a default. -/
theorem eval?_declType_typeParameter {d : Decl} (hkind : d.kind = .typeParameter)
    (hdefault : d.defaultType? = none) :
    (i.declType d).run.eval? known = some (some (.typeParam (nominalOf d) none)) := by
  unfold declType
  rw [hkind]
  change (i.defaultType d >>= fun t => pure (Ty.typeParam (nominalOf d) t)).run.eval? known = _
  unfold defaultType
  rw [hdefault]
  rfl

/-- An alias without type parameters stands for the type that is written. -/
theorem eval?_declType_typeAlias {d : Decl} {written : Node} {t : Ty} (hkind : d.kind = .typeAlias)
    (hbuiltin : d.isBuiltin = false) (hwritten : d.underlyingType? = some written)
    (ht : known.infer written = some (some t)) (hparams : d.typeParameters = []) :
    (i.declType d).run.eval? known = some (some (.alias (nominalOf d) t)) := by
  unfold declType
  rw [hkind]
  change (i.aliasType d).run.eval? known = _
  unfold aliasType
  rw [hbuiltin, hwritten, hparams]
  exact (Attempt.eval?_bind Attempt.eval?_ofOption).trans (Attempt.eval?_bind (eval?_infer ht))

theorem exists_eval?_applied (t : Ty) {params : List Node}
    (hparams : ∀ p ∈ params, ∃ t, known.infer p = some t) :
    ∃ u, (i.applied t params).run.eval? known = some (some u) ∧
      u.unwrapInstantiation = t.unwrapInstantiation := by
  unfold applied
  split
  · exact ⟨t, rfl, rfl⟩
  · obtain ⟨args, hargs⟩ := Attempt.exists_eval?_mapM fun p hp =>
      let ⟨_, ht⟩ := hparams p hp
      ⟨_, eval?_inferOrUnknown (i := i) ht⟩
    exact ⟨_, Attempt.eval?_bind hargs, rfl⟩

/-- The type that a struct declares is the struct, applied to its type parameters if it has any. -/
theorem exists_eval?_declType_struct {d : Decl} (hkind : d.kind = .struct)
    (hfields : ∀ f ∈ d.structFields, ∃ t, (i.fieldType f).run.eval? known = some t)
    (hparams : ∀ p ∈ d.typeParameters, ∃ t, known.infer p = some t) :
    ∃ t members, (i.declType d).run.eval? known = some (some t) ∧
      t.unwrapInstantiation = .struct (nominalOf d) members := by
  obtain ⟨members, hmembers⟩ := Attempt.exists_eval?_mapM fun f hf =>
    let ⟨_, ht⟩ := hfields f hf
    ⟨_, Attempt.eval?_getD .unknown ht⟩
  obtain ⟨t, ht, hunwrap⟩ := exists_eval?_applied (i := i) (.struct (nominalOf d) members) hparams
  refine ⟨t, members, ?_, hunwrap⟩
  unfold declType
  rw [hkind]
  exact (Attempt.eval?_bind hmembers).trans ht

/-- A struct with bindings put in place is the same struct with other members. -/
theorem exists_substitute_struct (nominal : Nominal) (members : List Ty) (σ : Substitution) :
    ∃ members', (Ty.struct nominal members).substitute σ = .struct nominal members' := by
  unfold Ty.substitute
  split
  · exact ⟨members, rfl⟩
  · exact ⟨_, rfl⟩

/-- What is applied to written arguments is found from what is written before them. -/
theorem eval?_instantiatedType {name list : Node} {d : Decl} {base : Ty} {argument : Node → Ty}
    (hname : n.child? .name = some name) (hbase : known.infer name = some (some base))
    (hd : known.resolve name = some (some d)) (hlist : n.child? .arguments = some list)
    (hargs : ∀ c ∈ list.children, known.infer c = some (some (argument c))) :
    (i.instantiatedType n).run.eval? known =
      some (some (instantiate d base (list.children.map argument))) := by
  have hlisted : (i.listedTypes (some list)).run.eval? known =
      some (some (list.children.map argument)) :=
    Attempt.eval?_mapM fun c hc => eval?_inferOrUnknown (hargs c hc)
  unfold instantiatedType
  rw [hname, hlist, Attempt.eval?_bind Attempt.eval?_ofOption,
    Attempt.eval?_bind (eval?_infer hbase), Attempt.eval?_bind hlisted,
    Attempt.eval?_bind (Attempt.eval?_answer? (eval?_resolve hd))]
  rfl

/-- A struct that is applied to written arguments is an instantiation of it with these
arguments. -/
theorem exists_eval?_instantiatedType {name list : Node} {d : Decl} {base : Ty}
    {members : List Ty} {argument : Node → Ty} (hname : n.child? .name = some name)
    (hbase : known.infer name = some (some base)) (hd : known.resolve name = some (some d))
    (hunwrap : base.unwrapInstantiation = .struct (nominalOf d) members)
    (hlist : n.child? .arguments = some list)
    (hargs : ∀ c ∈ list.children, known.infer c = some (some (argument c))) :
    ∃ members', (i.instantiatedType n).run.eval? known =
      some (some
        (.instantiation (.struct (nominalOf d) members') (list.children.map argument))) := by
  rw [eval?_instantiatedType hname hbase hd hlist hargs]
  unfold instantiate
  rw [hunwrap]
  dsimp only
  split
  · obtain ⟨members', h⟩ := exists_substitute_struct (nominalOf d) members (Substitution.ofList
      (boundParams d.typeParameterNames (list.children.map argument) _))
    exact ⟨members', by rw [h]⟩
  · exact ⟨members, rfl⟩

/-! ### Rules on memo tables -/

variable (ask : Oracle) (c : Caches) {d : Decl} {m : Node}

theorem run_resolve_bind {α : Type} (f : Decl → Attempt α) :
    ((i.resolve m >>= f).run.run ask c).1 = (ask.resolve m c).1.bind fun d =>
      ((f d).run.run ask (ask.resolve m c).2).1 := by
  have hrun : (i.resolve m).run.run ask c = ask.resolve m c := rfl
  rw [Attempt.run_bind, hrun]
  rcases ask.resolve m c with ⟨_ | d, c'⟩
  · rfl
  · rfl

theorem run_infer_bind {α : Type} (f : Ty → Attempt α) :
    ((i.infer m >>= f).run.run ask c).1 = (ask.infer m c).1.bind fun t =>
      ((f t).run.run ask (ask.infer m c).2).1 := by
  have hrun : (i.infer m).run.run ask c = ask.infer m c := rfl
  rw [Attempt.run_bind, hrun]
  rcases ask.infer m c with ⟨_ | t, c'⟩
  · rfl
  · rfl

/-- The name of a type that is neither primitive nor `self` has the type of what it refers to. -/
theorem run_nodeType_typeIdentifier (hkind : m.kind = .typeIdentifier) (hself : m.text ≠ "self")
    (hname : Ty.ofName? m.text = none) :
    ((i.nodeType m).run.run ask c).1 = (ask.resolve m c).1.bind fun d =>
      ((i.declType d).run.run ask (ask.resolve m c).2).1 := by
  have hrule : i.nodeType m = i.resolve m >>= i.declType := by
    rw [nodeType_typeIdentifier hkind, namedType, if_neg (by simpa using hself), hname]
  rw [hrule, run_resolve_bind]

/-- A name of a value has the type of what it refers to. -/
theorem run_nodeType_identifier (hkind : m.kind = .identifier) :
    ((i.nodeType m).run.run ask c).1 = (ask.resolve m c).1.bind fun d =>
      ((i.declType d).run.run ask (ask.resolve m c).2).1 := by
  have hrule : i.nodeType m = i.resolve m >>= i.declType := by
    unfold nodeType
    rw [hkind]
  rw [hrule, run_resolve_bind]

/-- A constant without a written type has the type of its value. -/
theorem run_declType_constant (hkind : d.kind = .constant) (hwritten : d.writtenType? = none)
    (hvalue : d.value? = some m) : (i.declType d).run.run ask c = ask.infer m c := by
  have hrule : i.declType d = i.infer m := by
    unfold declType
    rw [hkind]
    dsimp only
    rw [hwritten, hvalue]
    rfl
  rw [hrule]
  rfl

/-- An alias without type parameters stands for the type that is written. -/
theorem run_declType_typeAlias (hkind : d.kind = .typeAlias) (hbuiltin : d.isBuiltin = false)
    (hwritten : d.underlyingType? = some m) (hparams : d.typeParameters = []) :
    ((i.declType d).run.run ask c).1 = (ask.infer m c).1.map (Ty.alias (nominalOf d)) := by
  have hrule : i.declType d = i.infer m >>= fun t => i.applied (.alias (nominalOf d) t) [] := by
    unfold declType
    rw [hkind]
    change i.aliasType d = _
    unfold aliasType
    rw [hbuiltin, hwritten, hparams]
    rfl
  rw [hrule, run_infer_bind]
  exact (Option.map_eq_bind ..).symm

/-- A struct without type parameters has a type, whatever its fields are. -/
theorem exists_run_declType_struct (hkind : d.kind = .struct) (hparams : d.typeParameters = []) :
    ∃ members, ((i.declType d).run.run ask c).1 = some (.struct (nominalOf d) members) := by
  obtain ⟨members, c', h⟩ := Attempt.exists_run_mapM ask i.fieldType .unknown
    d.structFields c
  refine ⟨members, ?_⟩
  unfold declType
  rw [hkind]
  change ((i.structType d).run.run ask c).1 = _
  unfold structType
  rw [Attempt.run_bind, h, hparams]
  rfl

end Inference

end TolkAnalysis
