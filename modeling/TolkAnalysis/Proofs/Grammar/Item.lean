import Mathlib.Algebra.Group.Nat.Defs
import TolkAnalysis.Grammar.Item
import TolkAnalysis.Grammar.Parse
import TolkAnalysis.Proofs.Grammar.Statement
import TolkAnalysis.Proofs.Tree.Sound

/-!
# Nodes of declarations

Every production of declarations builds a node of its kind, and a declaration that cannot be
read leaves nothing behind but one node over the skipped tokens. So a file is a row of
declarations and of such nodes.

The tree of every text whose offsets fit a span is sound, whether or not the text follows the
grammar. `parse_wellFormed` says it of the nodes reached from the root.
-/

namespace TolkAnalysis

open ParserState TolkAnalysis.Parser

namespace Grammar

variable {text : String} {bound : Nat} {parse : Nonterminal → Parser Nat} {s s₀ : ParserState}

/-! ### Annotations and imports -/

theorem yields_annotationArguments? (hparse : ParsesAll text parse) :
    Yields text (annotationArguments? bound parse) (fun _ => false)
      [.optional .arguments (NodeKind.only .argumentList)] id := by
  intro s hs
  refine .check ?_
  split
  · refine (parses_argumentList hparse).bind hs fun args s₁ h₁ => .pure ?_
    exact ((h₁ (some .arguments)).of_fits Fits.optional_of_one).unread
  · exact .pure ((Built.nil hs).of_fits fun _ => Fits.optional_nil _ _)

theorem runs_annotationEntry (hparse : ParsesAll text parse) (s : ParserState) (hs : s.Sound text)
    (hat : s.isAt .atSign = true) :
    Runs (annotationEntry bound parse) s
      (fun c s' => Built text s true [.many (NodeKind.only .annotationEntry)] [c] s')
      (Reaches text s) := by
  refine .cursor ?_
  refine (Built.nil hs).next (by simp [Cursor.current_kind_eq_of_isAt hat]) fun h₁ => ?_
  refine h₁.node (some .name) (parses_expectName rfl) fun name s₂ h₂ => ?_
  refine h₂.seq (yields_annotationArguments? hparse) fun args s₃ h₃ => ?_
  exact .map (h₃.finish rfl (by simp) fun _ _ h => (h none).of_fits Fits.many_of)

theorem yields_annotations? (hparse : ParsesAll text parse) (hbound : 0 < bound) :
    Yields text (annotations? bound parse) (fun _ => false)
      [.optional .annotations (NodeKind.only .annotationList)] (optional .annotations) := by
  intro s hs
  refine .cursor ?_
  split
  · rename_i hat
    refine .bind ((runs_collect_whenAt (runs_annotationEntry hparse) hbound hs hat).mono
      (fun entries s₁ h₁ => ?_) fun _ hE => hE)
    refine .map (h₁.finish rfl (by simp) fun id s₂ h₂ => ?_)
    exact ((h₂ (some .annotations)).of_fits Fits.optional_of_one).unread
  · exact .pure ((Built.nil hs).of_fits fun _ => Fits.optional_nil _ _)

theorem parses_importPath : Parses text importPath (NodeKind.only .stringLiteral) := by
  intro s hs
  refine .check ?_
  split
  · rename_i hat
    exact runs_leaf hs (by simp [Cursor.current_kind_eq_of_isAt hat]) rfl rfl
  · exact .fail (.refl hs)

/-- An import keeps no annotations: what has been built before it stays aside. -/
theorem runs_importDirective {read : Bool} {parts : List Part} {children : List Child}
    (h : Built text s₀ read parts children s) :
    Runs (importDirective s₀.start) s (Made text s₀ NodeKind.isItem) (Reaches text s₀) := by
  refine h.step (yields_expect (by decide)) fun _ s₁ h₁ => ?_
  refine .bind ((parses_importPath s₁ h₁.sound).mono (fun path s₂ hpath => ?_)
    fun _ hE => h₁.toReaches.trans hE)
  have h₂ : Built text s₁ true NodeKind.importDirective.parts [⟨some .path, path⟩] s₂ :=
    hpath (some .path)
  refine .bind ((yields_eat (by decide) s₂ h₂.sound).mono (fun _ s₃ heat => ?_)
    fun _ hE => h₁.toReaches.trans (h₂.toReaches.trans hE))
  have h₃ : Built text s₁ true NodeKind.importDirective.parts [⟨some .path, path⟩] s₃ :=
    (h₂.then_reads heat).of_read fun _ => rfl
  refine .cursor ?_
  rw [Nat.max_eq_left ((h₁.append h₃).moved (by simp)).le]
  refine Made.of_only (h₁.pushAside h₃ (.refl h₃.sound) rfl fun c hc i hcarries => ?_) rfl
  -- What has been built before ends where the word `import` begins, and the path begins behind it.
  obtain ⟨inner, hinner⟩ := hcarries.exists_spans
  obtain ⟨data, hdata, -, hstart, hstop⟩ := (h₁.row.kept h₃.kept).stored c hc
  obtain ⟨pathData, hpathData, -, hbehind, -⟩ := h₃.row.stored _ (List.mem_singleton_self _)
  have hinside := h₃.sound.arena.inside_carries hcarries (.of_node? hdata) hinner
  have hbetween := h₁.sound.cursor.previousStop_le_start
  refine ⟨⟨s₀.start, s₃.previousStop⟩, _, path, pathData.span, inner, ⟨none, ?_⟩,
    List.mem_singleton_self _, (Arena.Spans.of_node? hpathData).mono (.push _ _ _ _),
    hinner.mono (.push _ _ _ _), hstart.trans hinside.1, hinside.2.trans (hstop.trans (hbetween.trans hbehind))⟩
  exact (Arena.node?_push h₃.row.lt_size _).trans (if_pos rfl)

/-! ### Functions -/

theorem yields_typeParameter (hparse : ParsesAll text parse) :
    Yields text (typeParameter bound parse) (fun _ => true)
      [⟨.one, none, NodeKind.only .typeParameter⟩] fun c => [c] := by
  intro s hs
  refine .cursor ?_
  refine (Built.nil hs).node (some .name) (parses_expectName rfl) fun name s₁ h₁ => ?_
  refine h₁.seq (yields_after? (by decide) (parses_type hparse)) fun default s₂ h₂ => ?_
  exact .map (h₂.finish rfl (by simp) fun _ _ h => h none)

theorem yields_typeParameters? (hparse : ParsesAll text parse) :
    Yields text (typeParameters? bound parse) (fun _ => false)
      [.optional .typeParameters (NodeKind.only .typeParameterList)] id := by
  intro s hs
  refine .cursor ?_
  split
  · refine (Built.nil hs).step (yields_expect (by decide)) fun _ s₁ h₁ => ?_
    refine h₁.seq (yields_commaList bound (yields_typeParameter hparse))
      fun ⟨params, _⟩ s₂ h₂ => ?_
    refine h₂.step (yields_expect (by decide)) fun _ s₃ h₃ => ?_
    refine .bind (h₃.finish rfl (by simp) fun id s₄ h₄ => .pure ?_)
    exact ((h₄ (some .typeParameters)).of_fits Fits.optional_of_one).unread
  · exact .pure ((Built.nil hs).of_fits fun _ => Fits.optional_nil _ _)

theorem yields_parameter (hparse : ParsesAll text parse) :
    Yields text (parameter bound parse) (fun _ => true)
      [⟨.one, none, NodeKind.only .parameterDeclaration⟩] fun c => [c] := by
  intro s hs
  refine .cursor ?_
  refine (Built.nil hs).seq (yields_mark? (fun _ => current_kind_ne_of_isAtMutate) rfl)
    fun mutate s₁ h₁ => ?_
  refine h₁.node (some .name) (parses_expectName rfl) fun name s₂ h₂ => ?_
  refine h₂.seq (yields_after? (by decide) (parses_type hparse)) fun typed s₃ h₃ => ?_
  refine h₃.seq (yields_after? (by decide) (parses_expression hparse)) fun default s₄ h₄ => ?_
  exact .map (h₄.finish rfl (by simp) fun _ _ h => h none)

theorem parses_parameterList (hparse : ParsesAll text parse) :
    Parses text (parameterList bound parse) (NodeKind.only .parameterList) := by
  intro s hs
  refine .cursor ?_
  refine (Built.nil hs).step (yields_expect (by decide)) fun _ s₁ h₁ => ?_
  refine h₁.seq (yields_commaList bound (yields_parameter hparse)) fun ⟨params, _⟩ s₂ h₂ => ?_
  refine h₂.step (yields_expect (by decide)) fun _ s₃ h₃ => ?_
  exact h₃.made rfl rfl (by simp)

/-- A receiver ends before its dot. Without one nothing is read. -/
theorem runs_receiver? (hparse : ParsesAll text parse) (hs : s.Sound text) :
    Runs (receiver? bound parse) s
      (fun r s' => match r with
        | some id => Made text s (NodeKind.only .methodReceiver) id s'
        | none => s' = s) (Reaches text s) := by
  refine .cursor ?_
  refine .bind ((runs_attempt (parses_type hparse) hs).mono ?_ fun _ hE => hE)
  rintro (_ | id) s₁ h₁
  · exact .pure h₁
  · refine .cursor (.bind (.next (.map (.of_push ?_))))
    exact (h₁.1 (some .receiverType)).push (.advance h₁.1.reaches.sound) rfl

theorem parses_asmBody {word : String} (hs : s.Sound text) (hat : s.isAtWord word = true) :
    Runs (asmBody bound) s (Made text s NodeKind.isBody) (Reaches text s) := by
  have hstring : ∀ s, s.Sound text → s.isAt .stringLit = true →
      Runs (Child.plain <$> leaf .stringLiteral) s
        (fun c s' => Built text s true [.many (NodeKind.only .stringLiteral)] [c] s')
        (Reaches text s) := by
    intro s hs hat
    have hleaf : Runs (leaf .stringLiteral) s (Made text s (NodeKind.only .stringLiteral))
        (Reaches text s) :=
      runs_leaf hs (by simp [Cursor.current_kind_eq_of_isAt hat]) rfl rfl
    exact .map (hleaf.mono (fun _ _ h => (h none).of_fits Fits.many_of) fun _ hE => hE)
  refine .cursor ?_
  refine (Built.nil hs).next (current_kind_ne_of_isAtWord hat) fun h₁ => ?_
  refine h₁.seq (yields_collect bound (yields_whenAt hstring)) fun strings s₂ h₂ => ?_
  refine .bind (h₂.finish rfl (by simp) fun body s₃ h₃ => ?_)
  exact h₃.step (yields_eat (by decide)) fun _ s₄ h₄ => .pure (h₄.of_only rfl)

theorem parses_functionBody (hparse : ParsesAll text parse) :
    Parses text (functionBody bound parse) NodeKind.isBody := by
  intro s hs
  refine .check ?_
  split
  · exact (parses_block hparse).of_only rfl s hs
  · refine .checkWord ?_
    split
    · exact parses_asmBody hs (by assumption)
    · refine .checkWord ?_
      split
      · rename_i hat
        refine runs_leaf_bind hs (current_kind_ne_of_isAtWord hat) rfl fun body s₁ h₁ => ?_
        exact h₁.step (yields_eat (by decide)) fun _ s₂ h₂ => .pure (h₂.of_only rfl)
      · exact .fail (.refl hs)

/-- The parts of a function from its name on. -/
def functionParts : List Part :=
  [.one .name (NodeKind.only .identifier),
   .optional .typeParameters (NodeKind.only .typeParameterList),
   .one .parameters (NodeKind.only .parameterList), .optional .returnType NodeKind.isType,
   .one .body NodeKind.isBody]

theorem runs_functionFromName (hparse : ParsesAll text parse) {read : Bool} {kind : NodeKind}
    {parts : List Part} {before : List Child} (h : Built text s₀ read parts before s)
    (hparts : parts ++ functionParts = kind.parts) (hkind : kind.isItem = true) :
    Runs (functionFromName bound parse s₀.start kind before) s (Made text s₀ NodeKind.isItem)
      (Reaches text s₀) := by
  refine h.node (some .name) (parses_expectName rfl) fun name s₁ h₁ => ?_
  refine h₁.seq (yields_typeParameters? hparse) fun typeParams s₂ h₂ => ?_
  refine h₂.node (some .parameters) (parses_parameterList hparse) fun params s₃ h₃ => ?_
  refine h₃.seq (yields_after? (by decide) (parses_type hparse)) fun result s₄ h₄ => ?_
  refine h₄.node (some .body) (parses_functionBody hparse) fun body s₅ h₅ => ?_
  exact h₅.made hkind (by rw [← hparts]; simp [functionParts, Part.one, Part.optional]) (by simp)

/-- What stands before a declaration: at most one list of annotations. -/
abbrev Annotated (text : String) (s₀ : ParserState) (read : Bool) (annotations : Option Nat)
    (s : ParserState) : Prop :=
  Built text s₀ read [.optional .annotations (NodeKind.only .annotationList)]
    (optional .annotations annotations) s

variable {read : Bool} {annotations : Option Nat}

theorem runs_function (hparse : ParsesAll text parse) {isGetMethod : Bool}
    (h : Annotated text s₀ read annotations s) :
    Runs (function bound parse s₀.start annotations isGetMethod) s (Made text s₀ NodeKind.isItem)
      (Reaches text s₀) := by
  refine h.step (yields_expect (by decide)) fun _ s₁ h₁ => ?_
  have hnone : Built text s₀ true [.optional .annotations (NodeKind.only .annotationList)]
      (optional .annotations annotations ++ optional .receiver none) s₁ := by
    rw [show optional .receiver none = [] from rfl, List.append_nil]
    exact h₁.of_read fun _ => by simp
  cases isGetMethod with
  | true => exact .bind (.pure (runs_functionFromName hparse hnone rfl rfl))
  | false =>
    refine .bind ((runs_receiver? hparse h₁.sound).mono ?_ fun _ hE => h₁.toReaches.trans hE)
    rintro (_ | receiver) s₂ h₂
    · subst h₂
      exact runs_functionFromName hparse hnone rfl rfl
    · exact runs_functionFromName hparse (h₁.append (h₂ (some .receiver))) rfl rfl

/-! ### Structs and enums -/

theorem parses_packNumber : Parses text packNumber (NodeKind.only .numberLiteral) := by
  intro s hs
  refine .check ?_
  split
  · rename_i hat
    exact runs_leaf hs (by simp [Cursor.current_kind_eq_of_isAt hat]) rfl rfl
  · exact .fail (.refl hs)

theorem yields_packPrefix? :
    Yields text packPrefix? (fun _ => false)
      [.optional .packPrefix (NodeKind.only .numberLiteral)] id := by
  intro s hs
  refine (Built.nil hs).step (yields_eat (by decide)) fun b s₁ h₁ => ?_
  split
  · refine h₁.first parses_packNumber fun number s₂ h₂ => ?_
    refine h₂.step (yields_expect (by decide)) fun _ s₃ h₃ => .pure ?_
    exact ((h₃ (some .packPrefix)).of_fits Fits.optional_of_one).unread
  · exact .pure ((h₁.of_fits fun _ => Fits.optional_nil _ _).unread)

theorem runs_fieldModifier (s : ParserState) (hs : s.Sound text)
    (hat : isAtModifier s.toCursor = true) :
    Runs fieldModifier s
      (fun c s' => Built text s true [⟨.many, some .modifiers, NodeKind.only .fieldModifier⟩] [c] s')
      (Reaches text s) := by
  have hcurrent : s.current.kind ≠ .endOfFile := by
    simp only [isAtModifier, Bool.and_eq_true, Bool.or_eq_true] at hat
    rcases hat.1 with hword | hword <;> exact current_kind_ne_of_isAtWord hword
  have hleaf : Runs (leaf .fieldModifier) s (Made text s (NodeKind.only .fieldModifier))
      (Reaches text s) := runs_leaf hs hcurrent rfl rfl
  exact .map (hleaf.mono (fun _ _ h => (h (some .modifiers)).of_fits Fits.many_of) fun _ hE => hE)

theorem yields_structField (hparse : ParsesAll text parse) :
    Yields text (structField bound parse) (fun _ => true)
      [⟨.one, none, NodeKind.only .structFieldDeclaration⟩] fun c => [c] := by
  intro s hs
  refine .cursor ?_
  refine (Built.nil hs).seq (yields_collect bound (yields_whenAt runs_fieldModifier))
    fun modifiers s₁ h₁ => ?_
  refine h₁.node (some .name) (parses_expectName rfl) fun name s₂ h₂ => ?_
  refine h₂.step (yields_expect (by decide)) fun _ s₃ h₃ => ?_
  refine h₃.node (some .typeExpr) (parses_type hparse) fun type s₄ h₄ => ?_
  refine h₄.seq (yields_after? (by decide) (parses_expression hparse)) fun default s₅ h₅ => ?_
  exact .map (h₅.finish rfl (by simp) fun _ _ h => h none)

/-- Members between braces make up the body of a declaration. -/
theorem parses_members {kind memberKind : NodeKind} {member : Parser Child}
    (hmember : Yields text member (fun _ => true) [⟨.one, none, NodeKind.only memberKind⟩]
      fun c => [c]) (hparts : kind.parts = [.many (NodeKind.only memberKind)]) :
    Parses text (members bound kind member) (NodeKind.only kind) := by
  have hseparated : ∀ s, s.Sound text → s.isInside = true → Runs (separated bound member) s
      (fun c s' => Built text s true [.many (NodeKind.only memberKind)] [c] s')
      (Reaches text s) := by
    intro s hs _
    refine (Built.nil hs).seq hmember.many fun c s₁ h₁ => ?_
    exact h₁.step (yields_skipSeparators bound) fun _ s₂ h₂ => .pure h₂
  intro s hs
  refine .cursor ?_
  refine (Built.nil hs).step (yields_expect (by decide)) fun _ s₁ h₁ => ?_
  refine h₁.seq (yields_collect bound (yields_whenAt hseparated)) fun children s₂ h₂ => ?_
  refine h₂.step (yields_expect (by decide)) fun _ s₃ h₃ => ?_
  exact h₃.made (NodeKind.only_iff.2 rfl) hparts.symm (by simp)

theorem runs_struct (hparse : ParsesAll text parse) (h : Annotated text s₀ read annotations s) :
    Runs (struct bound parse s₀.start annotations) s (Made text s₀ NodeKind.isItem)
      (Reaches text s₀) := by
  refine h.step (yields_expect (by decide)) fun _ s₁ h₁ => ?_
  refine h₁.seq yields_packPrefix? fun packing s₂ h₂ => ?_
  refine h₂.node (some .name) (parses_expectName rfl) fun name s₃ h₃ => ?_
  refine h₃.seq (yields_typeParameters? hparse) fun typeParams s₄ h₄ => ?_
  refine h₄.node (some .body) (parses_members (yields_structField hparse) rfl)
    fun body s₅ h₅ => ?_
  exact h₅.made rfl rfl (by simp)

theorem yields_enumMember (hparse : ParsesAll text parse) :
    Yields text (enumMember bound parse) (fun _ => true)
      [⟨.one, none, NodeKind.only .enumMemberDeclaration⟩] fun c => [c] := by
  intro s hs
  refine .cursor ?_
  refine (Built.nil hs).node (some .name) (parses_expectName rfl) fun name s₁ h₁ => ?_
  refine h₁.seq (yields_after? (by decide) (parses_expression hparse)) fun value s₂ h₂ => ?_
  exact .map (h₂.finish rfl (by simp) fun _ _ h => h none)

theorem runs_enum (hparse : ParsesAll text parse) (h : Annotated text s₀ read annotations s) :
    Runs (enum bound parse s₀.start annotations) s (Made text s₀ NodeKind.isItem)
      (Reaches text s₀) := by
  refine h.step (yields_expect (by decide)) fun _ s₁ h₁ => ?_
  refine h₁.node (some .name) (parses_expectName rfl) fun name s₂ h₂ => ?_
  refine h₂.seq (yields_after? (by decide) (parses_type hparse)) fun backed s₃ h₃ => ?_
  refine h₃.node (some .body) (parses_members (yields_enumMember hparse) rfl) fun body s₄ h₄ => ?_
  exact h₄.made rfl rfl (by simp)

/-! ### Aliases, constants and global variables -/

theorem parses_underlyingType (hparse : ParsesAll text parse) :
    Parses text (underlyingType bound parse)
      (NodeKind.either NodeKind.isType (NodeKind.only .builtinSpecifier)) := by
  intro s hs
  refine .cursor ?_
  split
  · rename_i hat
    simp only [Bool.and_eq_true] at hat
    exact runs_leaf hs (current_kind_ne_of_isAtWord hat.1) rfl rfl
  · exact (parses_type hparse).mono (fun _ hk => NodeKind.either_left hk) s hs

theorem runs_typeAlias (hparse : ParsesAll text parse)
    (h : Annotated text s₀ read annotations s) :
    Runs (typeAlias bound parse s₀.start annotations) s (Made text s₀ NodeKind.isItem)
      (Reaches text s₀) := by
  refine h.step (yields_expect (by decide)) fun _ s₁ h₁ => ?_
  refine h₁.node (some .name) (parses_expectName rfl) fun name s₂ h₂ => ?_
  refine h₂.seq (yields_typeParameters? hparse) fun typeParams s₃ h₃ => ?_
  refine h₃.step (yields_expect (by decide)) fun _ s₄ h₄ => ?_
  refine h₄.node (some .underlyingType) (parses_underlyingType hparse) fun underlying s₅ h₅ => ?_
  refine h₅.step (yields_eat (by decide)) fun _ s₆ h₆ => ?_
  exact (h₆.of_read fun _ => by simp).made rfl rfl (by simp)

theorem runs_constant (hparse : ParsesAll text parse)
    (h : Annotated text s₀ read annotations s) :
    Runs (constant bound parse s₀.start annotations) s (Made text s₀ NodeKind.isItem)
      (Reaches text s₀) := by
  refine h.step (yields_expect (by decide)) fun _ s₁ h₁ => ?_
  refine h₁.node (some .name) (parses_expectName rfl) fun name s₂ h₂ => ?_
  refine h₂.seq (yields_after? (by decide) (parses_type hparse)) fun typed s₃ h₃ => ?_
  refine h₃.step (yields_expect (by decide)) fun _ s₄ h₄ => ?_
  refine h₄.node (some .value) (parses_expression hparse) fun value s₅ h₅ => ?_
  refine h₅.step (yields_eat (by decide)) fun _ s₆ h₆ => ?_
  exact (h₆.of_read fun _ => by simp).made rfl rfl (by simp)

theorem runs_globalVariable (hparse : ParsesAll text parse)
    (h : Annotated text s₀ read annotations s) :
    Runs (globalVariable bound parse s₀.start annotations) s (Made text s₀ NodeKind.isItem)
      (Reaches text s₀) := by
  refine h.step (yields_expect (by decide)) fun _ s₁ h₁ => ?_
  refine h₁.node (some .name) (parses_expectName rfl) fun name s₂ h₂ => ?_
  refine h₂.step (yields_expect (by decide)) fun _ s₃ h₃ => ?_
  refine h₃.node (some .typeExpr) (parses_type hparse) fun type s₄ h₄ => ?_
  refine h₄.step (yields_eat (by decide)) fun _ s₅ h₅ => ?_
  exact (h₅.of_read fun _ => by simp).made rfl rfl (by simp)

/-! ### Files -/

theorem parses_item (hparse : ParsesAll text parse) (hbound : 0 < bound) :
    Parses text (item bound parse) NodeKind.isItem := by
  intro s hs
  refine .cursor ?_
  refine .bind ((yields_annotations? hparse hbound s hs).mono (fun annotations s₁ h₁ => ?_)
    fun _ hE => hE)
  refine .cursor ?_
  split
  · exact runs_importDirective h₁
  · exact runs_function hparse h₁
  · exact runs_struct hparse h₁
  · exact runs_enum hparse h₁
  · exact runs_typeAlias hparse h₁
  · exact runs_constant hparse h₁
  · exact runs_globalVariable hparse h₁
  · split
    · rename_i hget
      simp only [Bool.and_eq_true] at hget
      exact h₁.next (current_kind_ne_of_isAtWord hget.1) fun h₂ => runs_function hparse h₂
    · exact .fail h₁.toReaches

/-- A declaration is built, or one node over what cannot be read. -/
theorem runs_itemOrSkipped (hparse : ParsesAll text parse) (hbound : 0 < bound)
    (hs : s.Sound text) (hcurrent : s.current.kind ≠ .endOfFile) :
    Runs (itemOrSkipped bound parse) s
      (Made text s (NodeKind.either NodeKind.isItem (NodeKind.only .error)))
      (Reaches text s) := by
  refine .get (.tryCatch ?_)
  refine (parses_item hparse hbound s hs).mono
    (fun _ _ h => h.mono fun _ hk => NodeKind.either_left hk) fun s₁ hE error => ?_
  exact (runs_recover bound error hE hcurrent).mono (fun _ _ h => h.of_only rfl) fun _ hE' => hE'

theorem runs_fileItem (hparse : ParsesAll text parse) (hbound : 0 < bound) (s : ParserState)
    (hs : s.Sound text) (hmore : (!s.isAtEnd) = true) :
    Runs (fileItem bound parse) s
      (fun items s' => Built text s false
        [.many (NodeKind.either NodeKind.isItem (NodeKind.only .error))] items s')
      (Reaches text s) := by
  have hcurrent : s.current.kind ≠ .endOfFile := by
    intro hend
    simp [Cursor.isAtEnd, Cursor.isAt, hend] at hmore
  refine .bind (.check ?_)
  split
  · refine .bind (.of_modify (.pure (.pure ?_)))
    exact ((Built.advance hs hcurrent).of_fits fun _ => Fits.many_nil _ _).unread
  · refine .pure (.bind ?_)
    refine (runs_itemOrSkipped hparse hbound hs hcurrent).mono (fun id s₁ h₁ => .pure ?_)
      fun _ hE => hE
    exact ((h₁ none).of_fits Fits.many_of).unread

/-- The declarations of a file are built one after the other. -/
theorem yields_fileItems (hparse : ParsesAll text parse) (hbound : 0 < bound) :
    Yields text (fileItems bound parse) (fun _ => false)
      [.many (NodeKind.either NodeKind.isItem (NodeKind.only .error))] id := by
  intro s hs
  refine (Built.nil hs).seq (yields_collect bound (yields_whenAt (runs_fileItem hparse hbound)))
    fun items s₁ h₁ => .pure ?_
  simpa [Part.many] using h₁

end Grammar

/-! ### Trees -/

namespace Grammar

theorem sound_initialState {text : String} {tokens : List Token}
    (hlaid : Token.Laid text 0 tokens) : (initialState tokens).Sound text where
  cursor := ⟨hlaid, by simp [initialState]⟩
  arena := Arena.sound_empty text

/-- Reading tokens that are laid out in a text builds a row of declarations inside the text. -/
theorem readFile_row {text : String} {tokens : List Token} (hlaid : Token.Laid text 0 tokens) :
    (readFile tokens).2.arena.Sound text ∧
      (readFile tokens).2.arena.Row none 0 text.utf8ByteSize (readFile tokens).1 ∧
      Fits NodeKind.sourceFile.parts ((readFile tokens).2.arena.entries (readFile tokens).1) := by
  have hparse := parsesAll_grammar text (tokens.length + 1)
  have hrun := yields_fileItems hparse (Nat.succ_pos tokens.length) _ (sound_initialState hlaid)
  unfold Runs at hrun
  unfold readFile
  dsimp only
  split at hrun
  · rename_i items s hitems
    rw [hitems]
    refine ⟨hrun.sound.arena, ?_, hrun.fits⟩
    exact hrun.row.mono (Nat.zero_le _) hrun.sound.cursor.boundary_previousStop.le_size
  · rename_i error s hfail
    rw [hfail]
    exact ⟨hrun.sound.arena, .nil, Fits.many_nil _ _⟩

end Grammar

/-- The tree that is read from a text is sound. -/
theorem sound_parse (file : FileId) (stamp : Nat) {source : String}
    (hsize : source.utf8ByteSize ≤ Span.maxOffset) : (parse file stamp source).tree.Sound := by
  obtain ⟨hsound, hrow, hshape⟩ := Grammar.readFile_row (lex_laid hsize)
  have hwhole : Span.ofRange 0 source.utf8ByteSize = ⟨0, source.utf8ByteSize⟩ :=
    Span.ofRange_of_le (Nat.zero_le _) hsize
  have harena : (parse file stamp source).tree.arena =
      (Grammar.readFile (lex source)).2.arena.push .sourceFile ⟨0, source.utf8ByteSize⟩
        (Grammar.readFile (lex source)).1 := by
    rw [← hwhole]
    rfl
  exact Tree.sound_of_push harena rfl hsound hrow hshape

end TolkAnalysis
