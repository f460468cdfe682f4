import TolkAnalysis.Proofs.Resolution.Name
import TolkAnalysis.Proofs.Session.Rereading

/-!
# Plain names follow the scopes

A session that has been asked about nodes of the current trees only refers a plain name to what
its environment gives, whatever the session has been asked before
(`Session.Consulted.resolve_eq_lookUp`).

An answer about a node of a replaced tree is remembered under the number of a node of the
current tree, and that node is then given the answer of the other.

A name that ends in a width is looked for under the name of its family, and that is so for the names
of types and of values alike. So a variable or a parameter that is spelled like a type with a width
hides nothing: its name passes it over and refers to what is declared under the name of the family,
if anything is (`Session.Consulted.resolve_sizedName`). Written in backticks the name is not of that
form, and it follows the scopes.
-/

namespace TolkAnalysis

/-- A node without text refers to nothing. -/
theorem Resolution.first_of_isEmpty_span {w : Workspace} {n : Node}
    (hspan : n.span.isEmpty = true) : Resolution.first w n = pure none := by
  have hsearch : Lookup.search ⟨w, n, false⟩ = pure () := if_pos hspan
  unfold Resolution.first
  rw [hsearch]
  rfl

/-- A name is plain if it stands neither in the place after a dot nor in an entry of an object
literal. -/
theorem Workspace.PlainName.of_place {n : Node} (h : n.kind = .identifier ∧
    (Decl.declaredByName? n).isNone = true ∧ n.slot? ≠ some .field ∧
    n.parent?.any (·.kind == .instanceArgument) = false ∧ n.text ≠ "_" ∧
    (sizedTypeFamily? n.text).isNone = true) : PlainName n := by
  obtain ⟨hkind, hdecl, hslot, hentry, hnamed, hsized⟩ := h
  have hplace := Standalone.of_place hslot hentry
  exact ⟨hkind, Option.isNone_iff_eq_none.mp hdecl, hplace.undotted, hplace.entry, hnamed,
    Option.isNone_iff_eq_none.mp hsized⟩

namespace Session

variable {s : Session} {n : Node}

/-- A plain name refers to the first declaration in its environment that it may stand for, in
every session that has been asked about nodes of the current trees only. -/
theorem Consulted.resolve_eq_lookUp (h : s.Consulted) (hshort : s.workspace.HasShortTexts)
    (hn : s.workspace.Reaches n) (hplain : Workspace.PlainName n) :
    (resolve n s).1 = s.workspace.lookUp n :=
  (h.mayRefer hn.1).afresh 2 _ (h.reachable.sound.resolve_plainName hshort hn hplain)

/-- The name of the annotation in a text about a generic function. -/
def annotationName : Node := ⟨(parse 0 1 "@T fun f<T>() {}").tree, 0, by decide +kernel⟩

theorem plainName_annotationName : Workspace.PlainName annotationName :=
  .of_place (by decide +kernel)

theorem reaches_annotationName :
    (rereading "" "@T fun f<T>() {}").workspace.Reaches annotationName :=
  reaches_rereading _ _ (by decide +kernel) rfl (by decide +kernel)

theorem isSome_lookUp_annotationName :
    ((rereading "" "@T fun f<T>() {}").workspace.lookUp annotationName).isSome = true := by
  have h : ((Lookup.outward (rereading "" "@T fun f<T>() {}").workspace.introduces
    (some annotationName) annotationName.ancestors).find? (Workspace.mayName annotationName)).isSome =
      true := by
    decide +kernel
  obtain ⟨d, hd⟩ := Option.isSome_iff_exists.mp h
  rw [Workspace.lookUp_of_outward (shaped_parse 0 1 _) reaches_annotationName hd]
  rfl

/-- The annotation of a generic function may name a type parameter of the function. -/
theorem resolve_annotationName :
    (resolve annotationName (rereading "" "@T fun f<T>() {}")).1 =
      (rereading "" "@T fun f<T>() {}").workspace.lookUp annotationName :=
  Consulted.resolve_eq_lookUp (.blank (reachable_rereading _ _) (blank_rereading _ _))
    (hasShortTexts_rereading _ _ (by decide +kernel) (by decide +kernel)) reaches_annotationName
    plainName_annotationName

/-- The name of a function before a dot. -/
def functionQualifier : Node :=
  ⟨(parse 0 1 "fun f(){}\nconst b=f.x;").tree, 5, by decide +kernel⟩

theorem plainName_functionQualifier : Workspace.PlainName functionQualifier :=
  .of_place (by decide +kernel)

/-- Before a dot a name does not refer to a function, although a function is the first of that
name in its environment. -/
theorem not_resolve_eq_find?_of_dot :
    ¬ ∀ s : Session, s.Consulted → s.workspace.HasShortTexts → ∀ n : Node, s.workspace.Reaches n →
      Workspace.PlainName n → (resolve n s).1 =
        (s.workspace.environment n).find? (·.name == Text.withoutBackticks n.text) := by
  intro h
  let n := functionQualifier
  let s := rereading "" "fun f(){}\nconst b=f.x;"
  have hs : s.Consulted := .blank (reachable_rereading _ _) (blank_rereading _ _)
  have hshort : s.workspace.HasShortTexts :=
    hasShortTexts_rereading _ _ (by decide +kernel) (by decide +kernel)
  have hn : s.workspace.Reaches n :=
    reaches_rereading _ _ (by decide +kernel) rfl (by decide +kernel)
  have hlookUp := (hs.mayRefer hn.1).afresh 2 _
    (hs.reachable.sound.resolve_plainName hshort hn plainName_functionQualifier)
  have hfind := hlookUp.symm.trans (h s hs hshort n hn plainName_functionQualifier)
  -- No scope around the name declares anything, so the function is the first of its name.
  obtain ⟨ds, htop⟩ := Workspace.exists_topLevel_eq (Category.values ++ Category.types)
    (Workspace.knows_iff.mp hn.1)
  have haround : Lookup.outward s.workspace.introduces (some n) n.ancestors = [] :=
    List.isEmpty_iff.mp (by decide +kernel)
  obtain ⟨f, hf⟩ := Option.isSome_iff_exists.mp
    (show ((n.tree.declared .functions).find?
      (·.name == Text.withoutBackticks n.text)).isSome = true by decide +kernel)
  rw [Workspace.environment_eq _ (shaped_parse 0 1 _)
    (Workspace.knows_iff.mp hn.1) hn.2, haround, List.nil_append, htop, Category.values, List.cons_append,
    List.flatMap_cons, List.append_assoc, List.find?_append, hf, Option.some_or] at hfind
  have hnames : Workspace.mayName n f = true := List.find?_some hfind
  have hfunction := (Workspace.kind_of_mem_declared (List.mem_of_find?_eq_some hf)).1
  have hdot : n.parent?.any (·.kind == .dotAccess) = true := by decide +kernel
  rw [Workspace.mayName, hdot, hfunction] at hnames
  simp at hnames

/-- The root of a tree without text refers to nothing. When it is asked about after its tree has
been replaced, the first node of the new tree refers to nothing either. -/
theorem resolve_annotationName_of_stale :
    (resolve annotationName
      (resolve (parse 0 0 "").tree.rootNode (rereading "" "@T fun f<T>() {}")).2).1 = none := by
  have hs : (rereading "" "@T fun f<T>() {}").Reachable := reachable_rereading _ _
  have hstale := resolve_of_stale hs (x := (parse 0 0 "").tree.rootNode) (n := annotationName)
    (by decide +kernel) []
  have hnothing : (resolve (parse 0 0 "").tree.rootNode (rereading "" "@T fun f<T>() {}")).1 = none :=
    Workspace.resolve_of_first hs.idle (Std.HashMap.getElem?_of_isEmpty rfl)
      (Resolution.first_of_isEmpty_span (by decide +kernel))
  exact hstale.trans hnothing

/-- After a node of a replaced tree has been asked about, a name need not refer to what looking it
up finds. -/
theorem not_resolve_eq_lookUp_of_stale :
    ¬ ∀ s : Session, s.Reachable → s.workspace.HasShortTexts → ∀ n : Node, s.workspace.Reaches n →
      Workspace.PlainName n → (resolve n s).1 = s.workspace.lookUp n := by
  intro h
  let s := rereading "" "@T fun f<T>() {}"
  let x := (parse 0 0 "").tree.rootNode
  have hs : s.Reachable := reachable_rereading _ _
  have hshort : s.workspace.HasShortTexts :=
    hasShortTexts_rereading _ _ (by decide +kernel) (by decide +kernel)
  have hlookUp := h (resolve x s).2 (hs.ask (.resolve x)) hshort annotationName
    reaches_annotationName plainName_annotationName
  have hsome : (s.workspace.lookUp annotationName).isSome = true := isSome_lookUp_annotationName
  rw [resolve_annotationName_of_stale] at hlookUp
  rw [show s.workspace.lookUp annotationName = none from hlookUp.symm] at hsome
  cases hsome

/-- A name does not refer to the first declaration of its name in its environment if it stands
before a dot and that is a function, nor does it if an answer about another node is remembered
for it. -/
theorem not_resolve_eq_lookUp :
    (¬ ∀ s : Session, s.Consulted → s.workspace.HasShortTexts → ∀ n : Node,
      s.workspace.Reaches n → Workspace.PlainName n → (resolve n s).1 =
        (s.workspace.environment n).find? (·.name == Text.withoutBackticks n.text)) ∧
    ¬ ∀ s : Session, s.Reachable → s.workspace.HasShortTexts → ∀ n : Node,
      s.workspace.Reaches n → Workspace.PlainName n → (resolve n s).1 = s.workspace.lookUp n :=
  ⟨not_resolve_eq_find?_of_dot, not_resolve_eq_lookUp_of_stale⟩

end Session

/-! ### Names with a width -/

/-- The name of a family does not end in a width itself. -/
theorem sizedTypeFamily?_of_family {name family : String} (h : sizedTypeFamily? name = some family) :
    sizedTypeFamily? family = none := by
  have families : ∀ f ∈ sizedTypeFamilies.map Prod.snd, sizedTypeFamily? f = none := by
    decide +kernel
  exact families family (sizedTypeFamily?_mem h)

namespace Workspace

variable {w : Workspace} {n : Node}

theorem ValueName.of_place (h : n.kind = .identifier ∧
    (Decl.declaredByName? n).isNone = true ∧ n.slot? ≠ some .field ∧
    n.parent?.any (·.kind == .instanceArgument) = false ∧ n.text ≠ "_") : ValueName n := by
  obtain ⟨hkind, hdecl, hslot, hentry, hnamed⟩ := h
  exact ⟨.of_place hslot hentry, hkind, Option.isNone_iff_eq_none.mp hdecl, hnamed⟩

theorem name_of_lookUpAs {wanted : String} {d : Decl} (h : w.lookUpAs wanted n = some d) :
    d.name = wanted := by
  have hnames : mayNameAs wanted n d = true := List.find?_some h
  rw [mayNameAs, Bool.and_eq_true, beq_iff_eq] at hnames
  exact hnames.1

end Workspace

namespace Session

variable {s : Session} {n : Node}

theorem Consulted.resolve_valueName (h : s.Consulted) (hshort : s.workspace.HasShortTexts)
    (hn : s.workspace.Reaches n) (hname : Workspace.ValueName n) :
    (resolve n s).1 = s.workspace.lookUpAs (Workspace.wantedName n) n :=
  (h.mayRefer hn.1).afresh 2 _ (h.reachable.sound.resolve_valueName hshort hn hname)

/-- A name that ends in a width refers to the first declaration in its environment with the name of
its family, so never to one with a name that ends in a width. Any other name, also one in backticks,
refers to the first declaration in its environment with its own name. -/
theorem Consulted.resolve_sizedName (h : s.Consulted) (hshort : s.workspace.HasShortTexts)
    (hn : s.workspace.Reaches n) (hname : Workspace.ValueName n) :
    (∀ family, sizedTypeFamily? n.text = some family →
      (resolve n s).1 = s.workspace.lookUpAs family n ∧
        ∀ d, (resolve n s).1 = some d → d.name = family ∧ sizedTypeFamily? d.name = none) ∧
      (sizedTypeFamily? n.text = none → (resolve n s).1 = s.workspace.lookUp n) := by
  rw [h.resolve_valueName hshort hn hname]
  constructor
  · intro family hsized
    rw [Workspace.wantedName, hsized, Option.getD_some]
    refine ⟨rfl, fun d hd => ?_⟩
    obtain rfl := Workspace.name_of_lookUpAs hd
    exact ⟨rfl, sizedTypeFamily?_of_family hsized⟩
  · intro hplain
    rw [Workspace.wantedName, hplain, Option.getD_none, Workspace.lookUp_eq_lookUpAs]

/-! ### A parameter that is spelled like a type -/

/-- A text with a family of types and a parameter that is spelled like one of them. -/
def widthText : String := "type bitsN=int\nfun f(bits8:int){return bits8;}"

/-- The session in which the text has been read. -/
def widths : Session := rereading "" widthText

/-- The use of the parameter. -/
def widthUse : Node := ⟨(parse 0 1 widthText).tree, 8, by decide +kernel⟩

theorem consulted_widths : widths.Consulted :=
  .blank (reachable_rereading _ _) (blank_rereading _ _)

theorem hasShortTexts_widths : widths.workspace.HasShortTexts :=
  hasShortTexts_rereading _ _ (by decide +kernel) (by decide +kernel)

theorem reaches_widthUse : widths.workspace.Reaches widthUse :=
  reaches_rereading _ _ (by decide +kernel) rfl (by decide +kernel)

theorem valueName_widthUse : Workspace.ValueName widthUse := .of_place (by decide +kernel)

theorem sizedTypeFamily?_widthUse : sizedTypeFamily? widthUse.text = some "bitsN" := by
  decide +kernel

/-- The use is looked for under the name of the family. -/
theorem resolve_widthUse :
    (resolve widthUse widths).1 = widths.workspace.lookUpAs "bitsN" widthUse ∧
      ∀ d, (resolve widthUse widths).1 = some d → d.name ≠ "bits8" := by
  obtain ⟨hsized, -⟩ := Consulted.resolve_sizedName consulted_widths hasShortTexts_widths
    reaches_widthUse valueName_widthUse
  obtain ⟨hanswer, hnames⟩ := hsized "bitsN" sizedTypeFamily?_widthUse
  refine ⟨hanswer, fun d hd hname => ?_⟩
  have hfamily := (hnames d hd).1
  rw [hname] at hfamily
  exact absurd hfamily (by decide)

/-- The use does not refer to the parameter, although that is the first declaration of its name
around it. -/
theorem not_resolve_eq_parameter :
    ¬ ∀ s : Session, s.Consulted → s.workspace.HasShortTexts → ∀ n : Node,
      s.workspace.Reaches n → Workspace.ValueName n →
      (sizedTypeFamily? (Text.withoutBackticks n.text)).isSome = true →
      ∀ d : Decl, d.kind = .parameter → s.workspace.lookUp n = some d →
        (resolve n s).1 = some d := by
  intro h
  have hparameter : ((Lookup.outward widths.workspace.introduces (some widthUse)
      widthUse.ancestors).find? (Workspace.mayName widthUse)).any (·.kind == .parameter) = true := by
    decide +kernel
  obtain ⟨d, hd, hkind⟩ := (Option.any_eq_true ..).mp hparameter
  have hlookUp : widths.workspace.lookUp widthUse = some d :=
    Workspace.lookUp_of_outward (shaped_parse 0 1 _) reaches_widthUse hd
  have hanswer := h widths consulted_widths hasShortTexts_widths widthUse reaches_widthUse
    valueName_widthUse (by decide +kernel) d (beq_iff_eq.mp hkind) hlookUp
  rw [consulted_widths.resolve_valueName hasShortTexts_widths reaches_widthUse valueName_widthUse,
    Workspace.wantedName, sizedTypeFamily?_widthUse] at hanswer
  have hfamily : d.name = "bitsN" := Workspace.name_of_lookUpAs hanswer
  have hown : d.name = Text.withoutBackticks widthUse.text := Workspace.name_of_lookUpAs hlookUp
  exact absurd (hown.symm.trans hfamily) (by decide +kernel)

end Session

end TolkAnalysis
