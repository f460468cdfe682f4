import TolkAnalysis.Grammar.Item
import TolkAnalysis.Proofs.Grammar.Abreast.Twice
import TolkAnalysis.Proofs.Grammar.Walk.Statement

/-!
# How declarations are read

A declaration is a phrase up to the semicolon it may end with, its members stand between braces, and
a file is read by steps that may read any token (`walks_fileItems`).

The bound of the grammar counts both the rounds of its loops and the depth of its recursion, and the
deeper the recursion the fewer rounds are left. `wideParser` counts them apart, so that all its loops
come to their ends, and how it walks is known at every depth. Where fewer tokens are left than the
bounds it reads the same as `parser` does, so what is known of its walks is known of the grammar.
`readFile_wide` says so of a whole file.
-/

namespace TolkAnalysis

open TolkAnalysis.Parser

namespace Grammar

variable {tokens : List Token} {bound start : Nat} {parse : Nonterminal → Parser Nat} {z : Zone}

/-! ### Annotations -/

theorem walks_annotationArguments? (hparse : WalksAll tokens parse) :
    Walks tokens .phrase (annotationArguments? bound parse) :=
  .intro fun _ h => Steps.check (fun _ => h.bind (walks_argumentList hparse) fun _ _ h₁ _ => .pure h₁)
    fun _ => .pure h

/-- The annotations before a declaration, each of which begins with its sign. -/
theorem walks_annotations? (hparse : WalksAll tokens parse) :
    Walks tokens .phrase (annotations? bound parse) := by
  have hentry : Walks tokens .phrase (whenAt (·.isAt .atSign) (annotationEntry bound parse)) := by
    refine .intro fun s h => .cursor ?_
    split
    · rename_i hat
      refine .bind (.cursor (h.next (Cursor.isSilent_of_isAt hat rfl) fun _ h₁ => ?_))
      refine h₁.bind (walks_expectName rfl) fun name s₂ h₂ _ => ?_
      refine h₂.bind (walks_annotationArguments? hparse) fun args s₃ h₃ _ => ?_
      exact .map ((h₃.finish rfl).mono (fun _ _ h₄ => .pure h₄) fun _ hE => hE)
    · exact .pure h
  refine .intro fun s h => .cursor ?_
  split
  · exact h.bind (walks_collect hentry bound) fun entries s₁ h₁ _ => .map (h₁.finish rfl)
  · exact .pure h

/-! ### Imports -/

theorem walks_importPath : Walks tokens .phrase importPath :=
  .intro fun _ h => Steps.check (fun hat => h.leafLast (isPlain_of_isAt hat rfl) rfl)
    fun _ => .fail h

theorem concludes_importDirective (hz : z ≠ .phrase) :
    Concludes tokens z (importDirective start) := by
  refine .intro fun s h => h.expect rfl fun _ h₁ => ?_
  refine h₁.bind walks_importPath fun path s₂ h₂ _ => ?_
  exact h₂.weaken.eatSemi hz fun _ _ h₃ => h₃.finish rfl

/-! ### Functions -/

theorem walks_typeParameter (hparse : WalksAll tokens parse) :
    Walks tokens .phrase (typeParameter bound parse) := by
  refine .intro fun s h => .cursor (h.bind (walks_expectName rfl) fun name s₁ h₁ _ => ?_)
  refine h₁.bind (walks_after? rfl (walks_type hparse)) fun default s₂ h₂ _ => ?_
  exact .map (h₂.finish rfl)

theorem walks_typeParameters? (hparse : WalksAll tokens parse) :
    Walks tokens .phrase (typeParameters? bound parse) := by
  refine .intro fun s h => .cursor ?_
  dsimp only
  split
  · refine h.expect rfl fun _ h₁ => ?_
    refine h₁.bind (walks_commaList (walks_typeParameter hparse) bound) fun r s₂ h₂ _ => ?_
    refine h₂.expect rfl fun _ h₃ => ?_
    exact .bind ((h₃.finish rfl).mono (fun _ _ h₄ => .pure h₄) fun _ hE => hE)
  · exact .pure h

theorem walks_parameter (hparse : WalksAll tokens parse) (hbound : tokens.length < bound) :
    Walks tokens .phrase (parameter bound parse) := by
  refine .intro fun s h => .cursor ?_
  refine h.bind (walks_mark? isPlain_of_isAtMutate rfl) fun mutate s₁ h₁ _ => ?_
  refine h₁.bind (walks_expectName rfl) fun name s₂ h₂ _ => ?_
  refine h₂.bind (walks_after? rfl (walks_type hparse)) fun typed s₃ h₃ _ => ?_
  refine h₃.bind (walks_after? rfl (walks_expression hparse hbound)) fun default s₄ h₄ _ => ?_
  exact .map (h₄.finish rfl)

theorem walks_parameterList (hparse : WalksAll tokens parse) (hbound : tokens.length < bound) :
    Walks tokens .phrase (parameterList bound parse) := by
  refine .intro fun s h => .cursor (h.expect rfl fun _ h₁ => ?_)
  refine h₁.bind (walks_commaList (walks_parameter hparse hbound) bound) fun r s₂ h₂ _ => ?_
  exact h₂.expect rfl fun _ h₃ => h₃.finish rfl

theorem walks_receiver? (hparse : WalksAll tokens parse) :
    Walks tokens .phrase (receiver? bound parse) := by
  refine .intro fun s h => .cursor ?_
  refine h.attempt (walks_type hparse) (fun type s₁ h₁ _ hdot => .cursor ?_)
    fun _ h₁ _ _ => .pure h₁
  refine h₁.next (Cursor.isSilent_of_isAt hdot rfl) fun _ h₂ => ?_
  exact .map (.of_push (h₂.node (.of_isFree rfl)))

/-- Reading strings never fails. -/
theorem runs_asmStrings {s₀ s : ParserState} (h : Steps tokens z s₀ s) (rounds : Nat) :
    Runs (collect (whenAt (·.isAt .stringLit) (Child.plain <$> leaf .stringLiteral)) rounds) s
      (fun _ s' => Steps tokens z s₀ s') fun _ => False := by
  induction rounds generalizing s with
  | zero => exact .pure h
  | succ rounds ih =>
    refine .bind (.cursor ?_)
    split
    · rename_i hat
      refine .bind (.map ((h.leafLast (isPlain_of_isAt hat rfl) rfl).mono (fun _ _ h₁ => ?_)
        fun _ hE => hE))
      exact .pure (.bind ((ih h₁).mono (fun _ _ h₂ => .pure h₂) fun _ hE => hE))
    · exact .pure (.pure h)

theorem concludes_asmBody (hz : z ≠ .phrase) {s : ParserState} (h : Steps tokens .phrase s s)
    (hword : s.isAtWord "asm" = true) :
    Runs (asmBody bound) s (fun _ s' => Steps tokens z s s') (Steps tokens .phrase s) := by
  have hbegin : Steps tokens .phrase s.advance s.advance := by
    have hpass := Cursor.Passes.token (Cursor.isAt_of_isAtWord hword) (by decide)
    exact .refl (hpass.rest_suffix.trans h.rest_suffix)
  refine .cursor (.bind (.next (.bind ((runs_asmStrings hbegin bound).mono (fun strings s₁ h₁ => ?_)
    fun _ hE => hE.elim))))
  exact .bind (.finish ((h.asm hword h₁).weaken.eatSemi hz fun _ _ h₂ => .pure h₂))

theorem concludes_functionBody (hparse : WalksAll tokens parse) (hz : z ≠ .phrase) :
    Concludes tokens z (functionBody bound parse) := by
  refine .intro fun s h => Steps.check (fun _ => ?_) fun _ => .checkWord ?_
  · exact (walks_block hparse).concludes s h.rest_suffix
  · split
    · exact concludes_asmBody hz h (by assumption)
    · refine .checkWord ?_
      split
      · rename_i hword
        refine h.leafBind (isPlain_of_isAtWord hword) rfl fun body s₁ h₁ => ?_
        exact h₁.weaken.eatSemi hz fun _ _ h₂ => .pure h₂
      · exact .fail h

theorem isFree_functionKind (isGetMethod : Bool) (receiver : Option Nat) :
    (functionKind isGetMethod receiver).isFree = true := by
  unfold functionKind
  split
  · rfl
  · split <;> rfl

theorem concludes_functionFromName (hparse : WalksAll tokens parse)
    (hbound : tokens.length < bound) (hz : z ≠ .phrase) {kind : NodeKind}
    (hkind : kind.isFree = true) (before : List Child) :
    Concludes tokens z (functionFromName bound parse start kind before) := by
  refine .intro fun s h => h.bind (walks_expectName rfl) fun name s₁ h₁ _ => ?_
  refine h₁.bind (walks_typeParameters? hparse) fun typeParams s₂ h₂ _ => ?_
  refine h₂.bind (walks_parameterList hparse hbound) fun params s₃ h₃ _ => ?_
  refine h₃.bind (walks_after? rfl (walks_type hparse)) fun result s₄ h₄ _ => ?_
  exact h₄.conclude (concludes_functionBody hparse hz) fun body s₅ h₅ => h₅.finish hkind

theorem concludes_function (hparse : WalksAll tokens parse) (hbound : tokens.length < bound)
    (hz : z ≠ .phrase) {annotations : Option Nat} {isGetMethod : Bool} :
    Concludes tokens z (function bound parse start annotations isGetMethod) := by
  have hreceiver : Walks tokens .phrase (functionReceiver? bound parse isGetMethod) := by
    unfold functionReceiver?
    split
    · exact .intro fun _ h => .pure h
    · exact walks_receiver? hparse
  refine .intro fun s h => h.expect rfl fun _ h₁ => h₁.bind hreceiver fun receiver s₂ h₂ _ => ?_
  exact (concludes_functionFromName hparse hbound hz (isFree_functionKind isGetMethod receiver) _
    s₂ h₂.rest_suffix).mono (fun _ _ h₃ => h₂.weaken.trans h₃) fun _ hE => h₂.append hE

/-! ### Structs and enums -/

theorem walks_packPrefix? : Walks tokens .phrase packPrefix? := by
  have hnumber : Walks tokens .phrase packNumber :=
    .intro fun _ h => Steps.check (fun hat => h.leafLast (isPlain_of_isAt hat rfl) rfl)
      fun _ => .fail h
  refine .intro fun s h => h.eat rfl (fun h₁ => ?_) (.pure h)
  exact h₁.bind hnumber fun number s₂ h₂ _ => h₂.expect rfl fun _ h₃ => .pure h₃

theorem walks_modifiers :
    Walks tokens .phrase (collect (whenAt isAtModifier fieldModifier) bound) := by
  refine walks_collect (.intro fun s h => .cursor ?_) bound
  split
  · rename_i hat
    simp only [isAtModifier, Bool.and_eq_true, Bool.or_eq_true] at hat
    have hplain : s.current.kind.isPlain = true := by
      obtain ⟨hword | hword, -⟩ := hat
      · exact isPlain_of_isAtWord hword
      · exact isPlain_of_isAtWord hword
    exact .bind (.map ((h.leafLast hplain rfl).mono (fun _ _ h₁ => .pure h₁) fun _ hE => hE))
  · exact .pure h

theorem walks_structField (hparse : WalksAll tokens parse) (hbound : tokens.length < bound) :
    Walks tokens .phrase (structField bound parse) := by
  refine .intro fun s h => .cursor (h.bind walks_modifiers fun modifiers s₁ h₁ _ => ?_)
  refine h₁.bind (walks_expectName rfl) fun name s₂ h₂ _ => ?_
  refine h₂.expect rfl fun _ h₃ => ?_
  refine h₃.bind (walks_type hparse) fun type s₄ h₄ _ => ?_
  refine h₄.bind (walks_after? rfl (walks_expression hparse hbound)) fun default s₅ h₅ _ => ?_
  exact .map (h₅.finish rfl)

/-- Members keep to the braces around them, whatever separates them. -/
theorem walks_members {kind : NodeKind} {member : Parser Child} (hkind : kind.isFree = true)
    (hmember : Walks tokens .phrase member) : Walks tokens .phrase (members bound kind member) := by
  have hseparated : Walks tokens .body (separated bound member) := .intro fun s h =>
    h.bind hmember fun child s₁ h₁ _ =>
      h₁.bindIn (walks_skipSeparators bound) fun _ _ h₂ _ => .pure h₂
  refine .intro fun s h => .cursor (h.braces (walks_collect (walks_whenAt hseparated) bound) ?_)
  intro children _ _ s₁ h₁
  exact h₁.finish hkind

theorem walks_struct (hparse : WalksAll tokens parse) (hbound : tokens.length < bound)
    {annotations : Option Nat} : Walks tokens .phrase (struct bound parse start annotations) := by
  refine .intro fun s h => h.expect rfl fun _ h₁ => ?_
  refine h₁.bind walks_packPrefix? fun packing s₂ h₂ _ => ?_
  refine h₂.bind (walks_expectName rfl) fun name s₃ h₃ _ => ?_
  refine h₃.bind (walks_typeParameters? hparse) fun typeParams s₄ h₄ _ => ?_
  exact h₄.bind (walks_members rfl (walks_structField hparse hbound)) fun body s₅ h₅ _ =>
    h₅.finish rfl

theorem walks_enumMember (hparse : WalksAll tokens parse) (hbound : tokens.length < bound) :
    Walks tokens .phrase (enumMember bound parse) := by
  refine .intro fun s h => .cursor (h.bind (walks_expectName rfl) fun name s₁ h₁ _ => ?_)
  refine h₁.bind (walks_after? rfl (walks_expression hparse hbound)) fun value s₂ h₂ _ => ?_
  exact .map (h₂.finish rfl)

theorem walks_enum (hparse : WalksAll tokens parse) (hbound : tokens.length < bound)
    {annotations : Option Nat} : Walks tokens .phrase (enum bound parse start annotations) := by
  refine .intro fun s h => h.expect rfl fun _ h₁ => ?_
  refine h₁.bind (walks_expectName rfl) fun name s₂ h₂ _ => ?_
  refine h₂.bind (walks_after? rfl (walks_type hparse)) fun backed s₃ h₃ _ => ?_
  exact h₃.bind (walks_members rfl (walks_enumMember hparse hbound)) fun body s₄ h₄ _ =>
    h₄.finish rfl

/-! ### Aliases, constants and globals -/

theorem walks_underlyingType (hparse : WalksAll tokens parse) :
    Walks tokens .phrase (underlyingType bound parse) := by
  refine .intro fun s h => .cursor ?_
  split
  · rename_i hat
    rw [Bool.and_eq_true] at hat
    exact h.leafLast (isPlain_of_isAtWord hat.1) rfl
  · exact h.last (walks_type hparse)

theorem concludes_typeAlias (hparse : WalksAll tokens parse) (hz : z ≠ .phrase)
    {annotations : Option Nat} : Concludes tokens z (typeAlias bound parse start annotations) := by
  refine .intro fun s h => h.expect rfl fun _ h₁ => ?_
  refine h₁.bind (walks_expectName rfl) fun name s₂ h₂ _ => ?_
  refine h₂.bind (walks_typeParameters? hparse) fun typeParams s₃ h₃ _ => ?_
  refine h₃.expect rfl fun _ h₄ => ?_
  refine h₄.bind (walks_underlyingType hparse) fun underlying s₅ h₅ _ => ?_
  exact h₅.weaken.eatSemi hz fun _ _ h₆ => h₆.finish rfl

theorem concludes_constant (hparse : WalksAll tokens parse) (hbound : tokens.length < bound)
    (hz : z ≠ .phrase) {annotations : Option Nat} :
    Concludes tokens z (constant bound parse start annotations) := by
  refine .intro fun s h => h.expect rfl fun _ h₁ => ?_
  refine h₁.bind (walks_expectName rfl) fun name s₂ h₂ _ => ?_
  refine h₂.bind (walks_after? rfl (walks_type hparse)) fun typed s₃ h₃ _ => ?_
  refine h₃.expect rfl fun _ h₄ => ?_
  refine h₄.bind (walks_expression hparse hbound) fun value s₅ h₅ _ => ?_
  exact h₅.weaken.eatSemi hz fun _ _ h₆ => h₆.finish rfl

theorem concludes_globalVariable (hparse : WalksAll tokens parse) (hz : z ≠ .phrase)
    {annotations : Option Nat} :
    Concludes tokens z (globalVariable bound parse start annotations) := by
  refine .intro fun s h => h.expect rfl fun _ h₁ => ?_
  refine h₁.bind (walks_expectName rfl) fun name s₂ h₂ _ => ?_
  refine h₂.expect rfl fun _ h₃ => ?_
  refine h₃.bind (walks_type hparse) fun type s₄ h₄ _ => ?_
  exact h₄.weaken.eatSemi hz fun _ _ h₅ => h₅.finish rfl

/-! ### Files -/

theorem concludes_item (hparse : WalksAll tokens parse) (hbound : tokens.length < bound)
    (hz : z ≠ .phrase) : Concludes tokens z (item bound parse) := by
  refine .intro fun s h => .cursor ?_
  refine h.bind (walks_annotations? hparse) fun annotations s₁ h₁ _ => .cursor ?_
  have hrest : ∀ {p : Parser Nat}, Concludes tokens z p →
      Runs p s₁ (fun _ s' => Steps tokens z s s') (Steps tokens .phrase s) := fun hp =>
    (hp s₁ h₁.rest_suffix).mono (fun _ _ h₂ => h₁.weaken.trans h₂) fun _ hE => h₁.append hE
  split
  · exact hrest (concludes_importDirective hz)
  · exact hrest (concludes_function hparse hbound hz)
  · exact hrest (walks_struct hparse hbound).concludes
  · exact hrest (walks_enum hparse hbound).concludes
  · exact hrest (concludes_typeAlias hparse hz)
  · exact hrest (concludes_constant hparse hbound hz)
  · exact hrest (concludes_globalVariable hparse hz)
  · split
    · rename_i hget
      simp only [Bool.and_eq_true, beq_iff_eq] at hget
      have h₂ := h₁.get hget.1 hget.2
      refine .bind (.next ((concludes_function hparse hbound hz s₁.advance h₂.rest_suffix).mono ?_
        fun _ hE => h₂.append hE))
      exact fun _ _ h₃ => h₂.weaken.trans h₃
    · exact .fail h₁

/-- The declarations of a file are read or skipped one by one. -/
theorem walks_fileItem (hparse : WalksAll tokens parse) (hbound : tokens.length < bound) :
    Walks tokens .file (fileItem bound parse) := by
  have hitem : ∀ s, Steps tokens .file s s →
      Runs (itemOrSkipped bound parse) s (fun _ s' => Steps tokens .file s s')
        (Steps tokens .file s) := by
    intro s h
    refine .bind (.get (.tryCatch ((concludes_item hparse hbound (by decide) s
      h.rest_suffix).mono (fun _ _ h₁ => h₁) fun s₁ hE error => ?_)))
    exact h.recover (by decide) hE nofun
  refine .intro fun s h => .eat (fun hat => .pure (h.semi (by decide) hat)) fun _ => ?_
  exact .bind ((hitem s h).mono (fun _ _ h₁ => .pure h₁) fun _ hE => hE)

theorem walks_fileItems (hparse : WalksAll tokens parse) (hbound : tokens.length < bound)
    (rounds : Nat) :
    Walks tokens .file (collect (whenAt (!·.isAtEnd) (fileItem bound parse)) rounds) :=
  walks_collect (walks_whenAt (walks_fileItem hparse hbound)) rounds

end Grammar

/-! ### Loops that come to their ends -/

namespace Grammar

/-- The parser of each nonterminal, with a bound on rounds that does not change with the depth. -/
def wideParser (rounds : Nat) : Nat → Nonterminal → Parser Nat
  | 0, _ => fail .expression
  | depth + 1, nonterminal => production rounds (wideParser rounds depth) nonterminal

theorem walksAll_wideParser {tokens : List Token} {rounds : Nat} (h : tokens.length < rounds)
    (depth : Nat) : WalksAll tokens (wideParser rounds depth) := by
  induction depth with
  | zero =>
    exact ⟨fun _ _ _ hs => .fail (.refl hs), fun _ hs => .fail (.refl hs),
      fun _ hs => .fail (.refl hs), fun _ _ hs => .fail (.refl hs)⟩
  | succ depth ih => exact walksAll_production ih h

/-- Where few tokens are left, both parsers read the same. -/
theorem agree_wideParser (F : Pairing) {n bound rounds depth : Nat} (hbound : n ≤ bound)
    (hrounds : n ≤ rounds) (hdepth : n ≤ depth) :
    F.Agree n bound rounds (parser bound) (wideParser rounds depth) := by
  induction n generalizing bound depth with
  | zero => exact ⟨hbound, hrounds, fun P p _ hp => .past hp⟩
  | succ n ih =>
    cases bound with
    | zero => exact absurd hbound (Nat.not_succ_le_zero n)
    | succ bound =>
      cases depth with
      | zero => exact absurd hdepth (Nat.not_succ_le_zero n)
      | succ depth =>
        have hagree := ih (Nat.le_of_succ_le_succ hbound) (Nat.le_of_succ_le hrounds)
          (Nat.le_of_succ_le_succ hdepth)
        exact ⟨hbound, hrounds, fun P p nonterminal hp =>
          Pairing.abreast_production hagree (Nat.le_of_lt_succ hp) nonterminal⟩

/-- Reading a file with wide bounds gives its declarations and its nodes. -/
theorem readFile_wide {ts : List Token} {e : Token} (hend : e.kind = .endOfFile)
    (hkinds : ∀ t ∈ ts, t.kind ≠ .endOfFile) {rounds depth : Nat} (hrounds : ts.length < rounds)
    (hdepth : ts.length < depth) :
    ∃ items t, collect (whenAt (!·.isAtEnd) (fileItem rounds (wideParser rounds depth))) rounds
        (initialState (ts ++ [e])) = (.ok items, t) ∧ t.rest = [e] ∧
      (readFile (ts ++ [e])).1 = items.flatten ∧ (readFile (ts ++ [e])).2.rest = [e] ∧
      (readFile (ts ++ [e])).2.arena = t.arena ∧ (readFile (ts ++ [e])).2.errors = t.errors := by
  refine Pairing.readFile_of_agree hend hkinds (agree_wideParser _ ?_ hrounds hdepth) hrounds
  simp

end Grammar

end TolkAnalysis
