import TolkAnalysis.Proofs.Ty.Hereditary

/-!
# Where types come from

A type may carry declarations. `Ty.Anchored P t` says that all of them satisfy
`P`, at any depth of `t`. Whatever the rules for types do with types whose
declarations satisfy `P`, such as unions, joins and substitutions, gives types
whose declarations do, since the property is stable: no operation makes up a declaration.
-/

namespace TolkAnalysis

variable {P : Decl → Prop}

/-- The declaration that a named type comes from satisfies `P`. -/
def Nominal.Anchored (P : Decl → Prop) (nominal : Nominal) : Prop :=
  ∀ d ∈ nominal.anchor, P d

@[simp] theorem Nominal.anchored_none (name : String) :
    Nominal.Anchored P ⟨name, none⟩ :=
  fun _ hd => nomatch hd

@[simp] theorem Nominal.anchored_some (name : String) (d : Decl) :
    Nominal.Anchored P ⟨name, some d⟩ ↔ P d :=
  ⟨fun h => h d rfl, fun h _ hd => by cases hd; exact h⟩

namespace Ty

mutual

/-- All declarations in a type satisfy `P`. -/
def Anchored (P : Decl → Prop) : Ty → Prop
  | .builtin nominal => nominal.Anchored P
  | .struct nominal fields => nominal.Anchored P ∧ AllAnchored P fields
  | .enum nominal => nominal.Anchored P
  | .alias nominal inner => nominal.Anchored P ∧ inner.Anchored P
  | .typeParam nominal none => nominal.Anchored P
  | .typeParam nominal (some default) => nominal.Anchored P ∧ default.Anchored P
  | .tensor elements => AllAnchored P elements
  | .tuple elements => AllAnchored P elements
  | .union variants => AllAnchored P variants
  | .function params result => AllAnchored P params ∧ result.Anchored P
  | .instantiation inner args => inner.Anchored P ∧ AllAnchored P args
  | _ => True

/-- All declarations in the types of a list satisfy `P`. -/
def AllAnchored (P : Decl → Prop) : List Ty → Prop
  | [] => True
  | t :: ts => t.Anchored P ∧ AllAnchored P ts

end

theorem allAnchored_iff {ts : List Ty} : AllAnchored P ts ↔ ∀ t ∈ ts, t.Anchored P := by
  induction ts with
  | nil => simp [AllAnchored]
  | cons t ts ih => simp [AllAnchored, ih]

@[simp] theorem anchored_int : int.Anchored P := trivial
@[simp] theorem anchored_intN (w : UInt32) (u : Bool) : (intN w u).Anchored P := trivial
@[simp] theorem anchored_varIntN (w : UInt32) (u : Bool) : (varIntN w u).Anchored P := trivial
@[simp] theorem anchored_coins : coins.Anchored P := trivial
@[simp] theorem anchored_bool : bool.Anchored P := trivial
@[simp] theorem anchored_bitsN (w : UInt32) : (bitsN w).Anchored P := trivial
@[simp] theorem anchored_bytesN (w : UInt32) : (bytesN w).Anchored P := trivial
@[simp] theorem anchored_null : null.Anchored P := trivial
@[simp] theorem anchored_void : void.Anchored P := trivial
@[simp] theorem anchored_never : never.Anchored P := trivial
@[simp] theorem anchored_unknown : unknown.Anchored P := trivial

@[simp] theorem anchored_builtin (n : Nominal) : (builtin n).Anchored P ↔ n.Anchored P := Iff.rfl

@[simp] theorem anchored_struct (n : Nominal) (fields : List Ty) :
    (struct n fields).Anchored P ↔ n.Anchored P ∧ ∀ t ∈ fields, t.Anchored P :=
  and_congr_right fun _ => allAnchored_iff

@[simp] theorem anchored_enum (n : Nominal) : (enum n).Anchored P ↔ n.Anchored P := Iff.rfl

@[simp] theorem anchored_alias (n : Nominal) (inner : Ty) :
    (Ty.alias n inner).Anchored P ↔ n.Anchored P ∧ inner.Anchored P := Iff.rfl

@[simp] theorem anchored_typeParam (n : Nominal) (default : Option Ty) :
    (typeParam n default).Anchored P ↔ n.Anchored P ∧ ∀ t ∈ default, t.Anchored P := by
  cases default with
  | none => simp [Anchored]
  | some t => simp [Anchored]

@[simp] theorem anchored_tensor (ts : List Ty) :
    (tensor ts).Anchored P ↔ ∀ t ∈ ts, t.Anchored P := allAnchored_iff

@[simp] theorem anchored_tuple (ts : List Ty) :
    (tuple ts).Anchored P ↔ ∀ t ∈ ts, t.Anchored P := allAnchored_iff

@[simp] theorem anchored_union (ts : List Ty) :
    (union ts).Anchored P ↔ ∀ t ∈ ts, t.Anchored P := allAnchored_iff

@[simp] theorem anchored_function (params : List Ty) (result : Ty) :
    (function params result).Anchored P ↔ (∀ t ∈ params, t.Anchored P) ∧ result.Anchored P :=
  and_congr_left fun _ => allAnchored_iff

@[simp] theorem anchored_instantiation (inner : Ty) (args : List Ty) :
    (instantiation inner args).Anchored P ↔ inner.Anchored P ∧ ∀ t ∈ args, t.Anchored P :=
  and_congr_right fun _ => allAnchored_iff

mutual

theorem Anchored.mono {Q : Decl → Prop} (h : ∀ d, P d → Q d) :
    ∀ {t : Ty}, t.Anchored P → t.Anchored Q
  | .builtin _, ht => fun d hd => h d (ht d hd)
  | .enum _, ht => fun d hd => h d (ht d hd)
  | .struct _ _, ht => ⟨fun d hd => h d (ht.1 d hd), AllAnchored.mono h ht.2⟩
  | .alias _ _, ht => ⟨fun d hd => h d (ht.1 d hd), Anchored.mono h ht.2⟩
  | .typeParam _ none, ht => fun d hd => h d (ht d hd)
  | .typeParam _ (some _), ht => ⟨fun d hd => h d (ht.1 d hd), Anchored.mono h ht.2⟩
  | .tensor _, ht => AllAnchored.mono h ht
  | .tuple _, ht => AllAnchored.mono h ht
  | .union _, ht => AllAnchored.mono h ht
  | .function _ _, ht => ⟨AllAnchored.mono h ht.1, Anchored.mono h ht.2⟩
  | .instantiation _ _, ht => ⟨Anchored.mono h ht.1, AllAnchored.mono h ht.2⟩
  | .int, _ | .intN .., _ | .varIntN .., _ | .coins, _ | .bool, _ | .bitsN _, _ | .bytesN _, _
  | .null, _ | .void, _ | .never, _ | .unknown, _ => trivial

theorem AllAnchored.mono {Q : Decl → Prop} (h : ∀ d, P d → Q d) :
    ∀ {ts : List Ty}, AllAnchored P ts → AllAnchored Q ts
  | [], _ => trivial
  | _ :: _, hts => ⟨Anchored.mono h hts.1, AllAnchored.mono h hts.2⟩

end

/-! ### Types made of anchored types -/

theorem hereditary_anchored : Hereditary (Nominal.Anchored P) (Ty.Anchored P) where
  primitive {t} ht := by cases t <;> trivial
  struct := anchored_struct _ _
  aliasOf := anchored_alias _ _
  default h := ((anchored_typeParam _ _).mp h).2
  tensor := anchored_tensor _
  tuple := anchored_tuple _
  function := anchored_function _ _
  instantiation := anchored_instantiation _ _
  variants := (anchored_union _).mp

theorem stable_anchored : Stable (Nominal.Anchored P) (Ty.Anchored P) :=
  hereditary_anchored.stable fun hts _ =>
    (anchored_union _).mpr (hereditary_anchored.distinctVariants hts)

theorem Anchored.nominal? {t : Ty} (h : t.Anchored P) {n : Nominal} (hn : t.nominal? = some n) :
    n.Anchored P := by
  cases t <;> simp_all [Ty.nominal?]

theorem Anchored.anchor? {t : Ty} (h : t.Anchored P) {d : Decl} (hd : t.anchor? = some d) :
    P d := by
  obtain ⟨n, hn, hd⟩ := Option.bind_eq_some_iff.mp hd
  exact h.nominal? hn d hd

theorem Anchored.baseType {t : Ty} (h : t.Anchored P) : t.baseType.Anchored P :=
  hereditary_anchored.baseType h

theorem Anchored.unwrapAlias {t : Ty} (h : t.Anchored P) : t.unwrapAlias.Anchored P :=
  hereditary_anchored.unwrapAlias h

theorem Anchored.unwrapInstantiation {t : Ty} (h : t.Anchored P) :
    t.unwrapInstantiation.Anchored P :=
  hereditary_anchored.unwrapInstantiation h

theorem Anchored.unwrapOption {t : Ty} (h : t.Anchored P) : t.unwrapOption.Anchored P :=
  hereditary_anchored.unwrapOption h

theorem Anchored.elements? {t : Ty} (h : t.Anchored P) {ts : List Ty}
    (hts : t.elements? = some ts) : ∀ s ∈ ts, s.Anchored P :=
  hereditary_anchored.elements? h hts

theorem Anchored.nullable {t : Ty} (h : t.Anchored P) : (nullable t).Anchored P :=
  stable_anchored.nullable h

theorem Anchored.join {s t : Ty} (hs : s.Anchored P) (ht : t.Anchored P) :
    (join s t).Anchored P :=
  stable_anchored.join hs ht

theorem Anchored.substitute {t : Ty} (ht : t.Anchored P) {σ : Substitution}
    (hσ : σ.Binds (Ty.Anchored P)) : (t.substitute σ).Anchored P :=
  stable_anchored.substitute ht hσ

end Ty

end TolkAnalysis
