import TolkAnalysis.Grammar.Statement
import TolkAnalysis.Proofs.Grammar.Walk.Runs

/-!
# How types and expressions are read

Given how the parsers of the nonterminals walk, so does each production of type expressions and of
expressions: it is a phrase.

A production of expressions builds a node as tight as its place in the grammar. A loop that puts
operations around what has been read so far keeps that this is tight enough for one more operation.
The operator of a binary operation is read together with its level (`Steps.operator`).
-/

namespace TolkAnalysis

open TolkAnalysis.Parser

/-! ### Type expressions -/

namespace Grammar

variable {tokens : List Token} {bound : Nat} {parse : Nonterminal → Parser Nat}

/-- A binary operator that comes next is below a level. -/
def Below (level : Nat) (c : Cursor) : Prop := ∀ op, binaryOperator? c = some op → op.level < level

/-- A parser reads operations of at least some level, as far as there are any. -/
def WalksBinary (tokens : List Token) (level : Nat) (p : Parser Nat) : Prop :=
  ∀ s, s.rest <:+ tokens → Runs p s
    (fun id s' => Steps tokens .phrase s s' ∧ s'.arena.Rated tokens 2 level id ∧
      Below level s'.toCursor) (Steps tokens .phrase s)

/-- How the parsers of the nonterminals walk. Only a statement may end with a semicolon. -/
structure WalksAll (tokens : List Token) (parse : Nonterminal → Parser Nat) : Prop where
  phrase : ∀ nonterminal, nonterminal ≠ .statement → Walks tokens .phrase (parse nonterminal)
  statement : Concludes tokens .body (parse .statement)
  unary : WalksTo tokens 3 0 (parse .unary)
  binary : ∀ level, WalksBinary tokens level (parse (.binary level))

theorem walks_typeArguments (hparse : WalksAll tokens parse) :
    Walks tokens .phrase (typeArguments bound parse) := by
  refine .intro fun s h => .cursor ?_
  refine h.expect rfl fun _ h₁ => ?_
  refine h₁.bind (walks_commaList (walks_map (hparse.phrase .type (by simp))) bound)
    fun r s₂ h₂ _ => ?_
  exact h₂.expect rfl fun _ h₃ => h₃.finish rfl

theorem walks_bracketedType (hparse : WalksAll tokens parse) {start : Nat} {close : Span}
    {elements : List Child} {trailing : Bool} :
    Walks tokens .phrase (bracketedType parse start close elements trailing) := by
  refine .intro fun s h => h.eat rfl (fun h₁ => h₁.push rfl fun _ _ h₂ => ?_) ?_
  · exact h₂.bind (hparse.phrase .nullableType (by simp)) fun _ _ h₃ _ => h₃.finish rfl
  · split
    · exact h.finish rfl
    · exact h.finish rfl

theorem walks_primaryType (hparse : WalksAll tokens parse) :
    Walks tokens .phrase (primaryType bound parse) := by
  refine .intro fun s h => .cursor ?_
  have hlist : ∀ close, Walks tokens .phrase
      (commaList close (Child.plain <$> parse .type) bound) := fun close =>
    walks_commaList (walks_map (hparse.phrase .type (by simp))) bound
  dsimp only
  split
  · refine h.leafBind (by simp [*, TokenKind.isPlain]) rfl fun name s₁ h₁ => ?_
    refine Steps.check (fun _ => ?_) fun _ => .pure h₁
    exact h₁.bind (walks_typeArguments hparse) fun _ _ h₂ _ => h₂.finish rfl
  · exact h.leafLast (by simp [*, TokenKind.isPlain]) rfl
  · refine h.next (by simp [*, TokenKind.isSilent, TokenKind.isPlain]) fun _ h₁ => ?_
    refine h₁.bind (hlist _) fun r s₂ h₂ _ => ?_
    exact h₂.expect rfl fun _ h₃ => h₃.last (walks_bracketedType hparse)
  · refine h.next (by simp [*, TokenKind.isSilent, TokenKind.isPlain]) fun _ h₁ => ?_
    refine h₁.bind (hlist _) fun r s₂ h₂ _ => ?_
    exact h₂.expect rfl fun _ h₃ => h₃.finish rfl
  · exact .fail h

theorem walks_nullableType (hparse : WalksAll tokens parse) :
    Walks tokens .phrase (nullableType bound parse) := by
  refine .intro fun s h => .cursor (h.bind (walks_primaryType hparse) fun first s₁ h₁ _ => ?_)
  refine .iterate (I := fun _ s' => Steps tokens .phrase s s') (fun inner s₂ h₂ => ?_) bound h₁
  exact h₂.eat rfl (fun h₃ => .map (h₃.finish rfl)) (.pure h₂)

theorem walks_type (hparse : WalksAll tokens parse) : Walks tokens .phrase (type bound parse) := by
  refine .intro fun s h => .cursor (h.bind (walks_nullableType hparse) fun first s₁ h₁ _ => ?_)
  refine Steps.check (fun _ => ?_) fun _ => .pure h₁
  have hvariant : Walks tokens .phrase (variant? bound parse) := .intro fun s h =>
    h.eat rfl (fun h => .map (h.last (walks_nullableType hparse))) (.pure h)
  exact h₁.bind (walks_collect hvariant bound) fun _ _ h₂ _ => h₂.finish rfl

end Grammar

/-! ### Tokens that leave no trace -/

namespace Cursor

/-- A number of tokens come next that may be read without a trace. -/
structure Silent (c : Cursor) (count : Nat) : Prop where
  pos : 0 < count
  silent : ∀ i < count, (c.kindAt i).isSilent = true

variable {c : Cursor} {count : Nat}

theorem Silent.current (h : c.Silent count) : c.current.kind.isSilent = true := by
  have hzero := h.silent 0 h.pos
  rwa [kindAt_zero] at hzero

theorem silent_one (h : c.current.kind.isSilent = true) : c.Silent 1 where
  pos := Nat.one_pos
  silent i hi := by
    obtain rfl : i = 0 := by omega
    rwa [kindAt_zero]

theorem silent_two (h : c.current.kind.isSilent = true) (h' : (c.kindAt 1).isSilent = true) :
    c.Silent 2 where
  pos := Nat.two_pos
  silent i hi := by
    rcases (by omega : i < 1 ∨ i = 1) with hlt | rfl
    · exact (silent_one h).silent i hlt
    · exact h'

/-- After one of these tokens the others come next. -/
theorem Silent.advance (h : c.Silent (count + 1)) :
    ∀ i < count, (c.advance.kindAt i).isSilent = true := by
  intro i hi
  have hcurrent := TokenKind.ne_endOfFile_of_isPlain (TokenKind.isPlain_of_isSilent h.current)
  rw [kindAt_advance hcurrent]
  exact h.silent (i + 1) (Nat.succ_lt_succ hi)

theorem isSilent_of_isAt {kind : TokenKind} (h : c.isAt kind = true) (hkind : kind.isSilent = true) :
    c.current.kind.isSilent = true := by
  rwa [current_kind_eq_of_isAt h]

theorem kindAt_one_of_touching {kind : TokenKind}
    (h : (c.isAt .gt && c.kindAt 1 == kind && c.touches 0) = true) :
    c.current.kind.isSilent = true ∧ c.kindAt 1 = kind := by
  simp only [Bool.and_eq_true, beq_iff_eq] at h
  exact ⟨isSilent_of_isAt h.1.1 rfl, h.1.2⟩

end Cursor

namespace Grammar

open Cursor

/-! ### Operators -/

theorem silent_of_binaryOperator? {c : Cursor} {op : BinaryOperator}
    (h : binaryOperator? c = some op) : c.Silent op.tokens := by
  unfold binaryOperator? at h
  split at h
  case h_11 hkind =>
    split at h
    · cases h
    split at h
    · rename_i hshift
      obtain ⟨hcurrent, hone⟩ := kindAt_one_of_touching hshift
      cases h
      exact silent_two hcurrent (by rw [hone]; rfl)
    split at h
    · rename_i hge
      obtain ⟨hcurrent, hone⟩ := kindAt_one_of_touching hge
      cases h
      exact silent_two hcurrent (by rw [hone]; rfl)
    · cases h
      exact silent_one (by rw [hkind]; rfl)
  all_goals
    cases h
    try exact silent_one (by simp [*, TokenKind.isSilent, TokenKind.isPlain])

theorem silent_of_leveledOperator? {c : Cursor} {op : BinaryOperator}
    (h : leveledOperator? c = some op) : c.Silent op.tokens := by
  unfold leveledOperator? at h
  split at h
  · rename_i hat
    cases h
    exact silent_one (isSilent_of_isAt hat rfl)
  · exact silent_of_binaryOperator? h

theorem silent_of_assignmentOperator? {c : Cursor} {count : Nat}
    (h : assignmentOperator? c = some count) : c.Silent count := by
  unfold assignmentOperator? at h
  split at h
  · rename_i hassign
    cases h
    simp only [isAtShiftRightAssign, Bool.and_eq_true, beq_iff_eq] at hassign
    obtain ⟨⟨hshift, heq⟩, -⟩ := hassign
    obtain ⟨hcurrent, hone⟩ := kindAt_one_of_touching hshift
    refine ⟨by decide, fun i hi => ?_⟩
    rcases (by omega : i < 2 ∨ i = 2) with hlt | rfl
    · exact (silent_two hcurrent (by rw [hone]; rfl)).silent i hlt
    · rw [heq]
      rfl
  · split at h
    all_goals
      cases h
      try exact silent_one (by simp [*, TokenKind.isSilent, TokenKind.isPlain])

/-- The operator of a type test, which may be negated. -/
theorem silent_of_typeTest {c : Cursor}
    (h : (c.isAt .kwIs || c.isAt .bang && c.kindAt 1 == .kwIs) = true) :
    c.Silent (if (c.isAt .bang && c.kindAt 1 == .kwIs) = true then 2 else 1) := by
  split
  · rename_i hnegated
    simp only [Bool.and_eq_true, beq_iff_eq] at hnegated
    exact silent_two (isSilent_of_isAt hnegated.1 rfl) (by rw [hnegated.2]; rfl)
  · rename_i hplain
    have hat : c.isAt .kwIs = true := by simpa [hplain] using h
    exact silent_one (isSilent_of_isAt hat rfl)

end Grammar

namespace Steps

variable {β : Type} {tokens : List Token} {z : Zone} {s₀ s : ParserState} {f : Nat → Parser β}
  {R : β → ParserState → Prop} {E : ParserState → Prop}

/-- Skipping tokens only reads them, and answers the place of the last one. -/
theorem skip (count : Nat) {last : Span} (h : Steps tokens z s₀ s)
    (hkinds : ∀ i < count, (s.kindAt i).isSilent = true) :
    Runs (Parser.skip count last) s (fun span s' => Steps tokens z s₀ s' ∧ s'.arena = s.arena ∧
      s'.rest.length + count = s.rest.length ∧ (count = 0 → span = last) ∧
      (0 < count → (s.rest[count - 1]?).map (·.span) = some span)) E := by
  induction count generalizing s last with
  | zero => exact .pure ⟨h, rfl, rfl, fun _ => rfl, fun hpos => absurd hpos (lt_irrefl 0)⟩
  | succ count ih =>
    have hsilent : s.Silent (count + 1) := ⟨Nat.succ_pos _, hkinds⟩
    have hplain := TokenKind.isPlain_of_isSilent hsilent.current
    obtain ⟨rest, hrest, hadvance⟩ := Cursor.advance_eq (TokenKind.ne_endOfFile_of_isPlain hplain)
    have hleft : s.advance.rest = rest := congrArg Cursor.rest hadvance
    refine .bind (.next ((ih (h.read hsilent.current) hsilent.advance).mono ?_ fun _ hE => hE))
    rintro span s' ⟨h', harena, hlength, hzero, hlater⟩
    refine ⟨h', harena, ?_, nofun, fun _ => ?_⟩
    · rw [hrest, List.length_cons, ← hleft, ← hlength, Nat.add_assoc]
    rw [hrest, Nat.add_sub_cancel]
    cases count with
    | zero => simp [hzero rfl]
    | succ count =>
      rw [List.getElem?_cons_succ, ← hleft]
      exact hlater (Nat.succ_pos count)

/-- An operator is read as one node that covers its tokens. -/
theorem operator {count : Nat} (h : Steps tokens z s₀ s) (hcount : s.Silent count)
    (hf : ∀ id s', Steps tokens z s₀ s' → s.arena.Extends s'.arena →
      s'.rest.length < s.rest.length → s'.arena.Stores id .operator (s.spanOf count) [] →
      Runs (f id) s' R E) :
    Runs (Parser.operator count >>= f) s R E := by
  refine .bind (.cursor (.bind ((h.skip count hcount.silent).mono ?_ fun _ hE => hE)))
  rintro last s₁ ⟨h₁, harena, hlength, -, hlast⟩
  have hspan : s.current.span.merge last = s.spanOf count := by
    rw [Cursor.spanOf, hlast hcount.pos, Option.getD_some]
  have hstores := Arena.stores_push_last (a := s₁.arena) .operator (s.current.span.merge last) []
  refine .of_push (hf _ _ (h₁.node (.of_isFree rfl)) ?_ ?_ ?_)
  · exact harena ▸ .push _ _ _ _
  · have hpos := hcount.pos
    change s₁.rest.length < s.rest.length
    omega
  · rw [← hspan]
    exact hstores

/-- A binary operator is read together with its level. -/
theorem operatorAt {op : Grammar.BinaryOperator} (h : Steps tokens z s₀ s)
    (hop : Grammar.leveledOperator? s.toCursor = some op)
    (hf : ∀ id s', Steps tokens z s₀ s' → s.arena.Extends s'.arena →
      s'.rest.length < s.rest.length → s'.arena.OperatorAt tokens id op.level →
      Runs (f id) s' R E) :
    Runs (Parser.operator op.tokens >>= f) s R E :=
  h.operator (Grammar.silent_of_leveledOperator? hop) fun id s' h' hextends hless hstores =>
    hf id s' h' hextends hless ⟨_, hstores, s.toCursor, op.tokens, h.rest_suffix, hop, rfl⟩

end Steps

namespace Grammar

variable {tokens : List Token} {bound level start : Nat} {parse : Nonterminal → Parser Nat}
  {s s₀ : ParserState}

/-! ### Arguments and object literals -/

theorem isPlain_of_isAtWord {c : Cursor} {word : String} (h : c.isAtWord word = true) :
    c.current.kind.isPlain = true := by
  rw [Cursor.current_kind_eq_of_isAt (Cursor.isAt_of_isAtWord h)]
  rfl

theorem isPlain_of_isAtMutate (c : Cursor) (h : c.isAtMutate = true) :
    c.current.kind.isPlain = true := by
  simp only [Cursor.isAtMutate, Bool.and_eq_true] at h
  exact isPlain_of_isAtWord h.1

theorem walks_expression_of (hparse : WalksAll tokens parse) :
    Walks tokens .phrase (parse .expression) := hparse.phrase .expression (by simp)

theorem walks_callArgument (hparse : WalksAll tokens parse) :
    Walks tokens .phrase (callArgument parse) := by
  refine .intro fun s h => .cursor ?_
  refine h.bind (walks_mark? isPlain_of_isAtMutate rfl) fun mutate s₁ h₁ _ => ?_
  refine h₁.bind (walks_expression_of hparse) fun expr s₂ h₂ _ => ?_
  exact .map (h₂.finish rfl)

theorem walks_argumentList (hparse : WalksAll tokens parse) :
    Walks tokens .phrase (argumentList bound parse) := by
  refine .intro fun s h => .cursor ?_
  refine h.expect rfl fun _ h₁ => ?_
  refine h₁.bind (walks_commaList (walks_callArgument hparse) bound) fun r s₂ h₂ _ => ?_
  exact h₂.expect rfl fun _ h₃ => h₃.finish rfl

theorem walks_instanceArgument (hparse : WalksAll tokens parse) :
    Walks tokens .phrase (instanceArgument parse) := by
  refine .intro fun s h => .cursor ?_
  refine h.bind (walks_expectName rfl) fun name s₁ h₁ _ => ?_
  refine h₁.bind (walks_after? rfl (walks_expression_of hparse)) fun value s₂ h₂ _ => ?_
  exact .map (h₂.finish rfl)

theorem walks_objectLiteralBody (hparse : WalksAll tokens parse) :
    Walks tokens .phrase (objectLiteralBody bound parse) := by
  refine .intro fun s h => .cursor ?_
  have hargs : Walks tokens .body (commaList .rBrace (instanceArgument parse) bound) :=
    (walks_commaList (walks_instanceArgument hparse) bound).weaken
  refine h.braces hargs ?_
  intro r _ _ s' h'
  exact h'.finish rfl

/-- The rest of an object literal, as the last part of what is read. -/
theorem walksTo_objectLiteral (hparse : WalksAll tokens parse) {type : Option Nat}
    (h : Steps tokens .phrase s₀ s) :
    Runs (objectLiteral bound parse start type) s
      (fun id s' => Steps tokens .phrase s₀ s' ∧ s'.arena.Rated tokens 5 0 id)
      (Steps tokens .phrase s₀) :=
  h.bind (walks_objectLiteralBody hparse) fun _ _ h₁ _ =>
    h₁.finishRanks (.of_isFree rfl) le_rfl (by simp)

/-- A name, or an object literal that begins with its type. -/
theorem walksTo_nameOrObjectLiteral (hparse : WalksAll tokens parse)
    (h : Steps tokens .phrase s₀ s) (hkind : s.current.kind = .ident) :
    Runs (nameOrObjectLiteral bound parse) s
      (fun id s' => Steps tokens .phrase s₀ s' ∧ s'.arena.Rated tokens 5 0 id)
      (Steps tokens .phrase s₀) := by
  have hplain : s.current.kind.isPlain = true := by rw [hkind]; rfl
  refine .cursor ?_
  split
  · exact h.leafBind hplain rfl fun _ _ h₁ => walksTo_objectLiteral hparse h₁
  · refine h.attempt (walks_type hparse) (fun _ _ h₁ _ _ => walksTo_objectLiteral hparse h₁)
      fun s₁ h₁ _ hsame => ?_
    exact h₁.leafTo (by rw [hsame]; exact hplain) rfl le_rfl
  · exact h.leafTo hplain rfl le_rfl

/-! ### Matches -/

theorem walks_armPattern (hparse : WalksAll tokens parse) :
    Walks tokens .phrase (armPattern bound parse) := by
  refine .intro fun s h => Steps.check (fun hat => ?_) fun _ => ?_
  · exact h.leafLast (by rw [Cursor.current_kind_eq_of_isAt hat]; rfl) rfl
  · refine h.attempt (walks_type hparse) (fun _ _ h₁ _ _ => .pure h₁) fun s₁ h₁ _ _ => ?_
    exact h₁.last (walks_expression_of hparse)

theorem walks_armBody (hparse : WalksAll tokens parse) :
    Walks tokens .phrase (armBody parse) := by
  refine .intro fun s h => Steps.check (fun _ => ?_) fun _ => ?_
  · exact h.last (hparse.phrase .block (by simp))
  · exact h.last (walks_expression_of hparse)

/-- Arms stand between braces, where semicolons may follow them. -/
theorem walks_matchArm (hparse : WalksAll tokens parse) :
    Walks tokens .body (matchArm bound parse) := by
  refine .intro fun s h => .cursor ?_
  refine h.bind (walks_armPattern hparse) fun pattern s₁ h₁ _ => ?_
  refine h₁.expect rfl fun _ h₂ => ?_
  refine h₂.bind (walks_armBody hparse) fun body s₃ h₃ _ => ?_
  refine .bind ((h₃.finish rfl).mono (fun arm s₄ h₄ => ?_) fun _ hE => hE)
  exact h₄.bindIn (walks_skipSeparators bound) fun _ _ h₅ _ => .pure h₅

theorem walks_matchSubject (hparse : WalksAll tokens parse) :
    Walks tokens .phrase (matchSubject parse) := by
  refine .intro fun s h => .cursor ?_
  split
  · exact h.last (hparse.phrase .localVariables (by simp))
  · exact h.last (walks_expression_of hparse)

theorem walksTo_matchExpression (hparse : WalksAll tokens parse) :
    WalksTo tokens 5 0 (matchExpression bound parse) := by
  refine .intro fun s h => .cursor ?_
  refine h.expect rfl fun _ h₁ => ?_
  refine h₁.expect rfl fun _ h₂ => ?_
  refine h₂.bind (walks_matchSubject hparse) fun subject s₃ h₃ _ => ?_
  refine h₃.expect rfl fun _ h₄ => ?_
  refine h₄.braces (walks_collect (walks_whenAt (walks_matchArm hparse)) bound) ?_
  intro arms _ _ s₅ h₅
  exact h₅.finishRanks (.of_isFree rfl) le_rfl (by simp)

/-! ### Operations, from the tightest to the loosest -/

theorem walksTo_primary (hparse : WalksAll tokens parse) :
    WalksTo tokens 5 0 (primary bound parse) := by
  refine .intro fun s h => .cursor ?_
  have hleaf : ∀ {kind : NodeKind}, s.current.kind.isPlain = true → kind.isFree = true →
      5 ≤ kind.tightness → Runs (leaf kind) s
        (fun id s' => Steps tokens .phrase s s' ∧ s'.arena.Rated tokens 5 0 id)
        (Steps tokens .phrase s) := fun hplain hfree htight => h.leafTo hplain hfree htight
  have hlist : ∀ close, Walks tokens .phrase
      (commaList close (Child.plain <$> parse .expression) bound) := fun close =>
    walks_commaList (walks_map (walks_expression_of hparse)) bound
  dsimp only
  split
  · exact hleaf (by simp [*, TokenKind.isPlain]) rfl le_rfl
  · exact hleaf (by simp [*, TokenKind.isPlain]) rfl le_rfl
  · exact hleaf (by simp [*, TokenKind.isPlain]) rfl le_rfl
  · exact hleaf (by simp [*, TokenKind.isPlain]) rfl le_rfl
  · exact hleaf (by simp [*, TokenKind.isPlain]) rfl le_rfl
  · exact hleaf (by simp [*, TokenKind.isPlain]) rfl le_rfl
  · exact walksTo_nameOrObjectLiteral hparse h (by assumption)
  · exact walksTo_objectLiteral hparse h
  · refine h.next (by simp [*, TokenKind.isSilent, TokenKind.isPlain]) fun _ h₁ => ?_
    refine h₁.bind (hlist _) fun r s₂ h₂ _ => ?_
    refine h₂.expect rfl fun _ h₃ => ?_
    split
    · exact h₃.finishRanks (.of_isFree rfl) le_rfl (by simp)
    · exact h₃.finishRanks (.of_isFree rfl) le_rfl (by simp)
  · refine h.next (by simp [*, TokenKind.isSilent, TokenKind.isPlain]) fun _ h₁ => ?_
    refine h₁.bind (hlist _) fun r s₂ h₂ _ => ?_
    exact h₂.expect rfl fun _ h₃ => h₃.finishRanks (.of_isFree rfl) le_rfl (by simp)
  · exact walksTo_matchExpression hparse s h.rest_suffix
  · exact .fail h

theorem walks_memberName : Walks tokens .phrase memberName := by
  refine .intro fun s h => .cursor ?_
  split
  · exact h.leafLast (by simp [*, TokenKind.isPlain]) rfl
  · exact h.leafLast (by simp [*, TokenKind.isPlain]) rfl
  · exact .fail h

/-- An operation that may be put around a node leaves a node that is as tight. -/
def Wraps (tokens : List Token) (tight level : Nat) (step : Nat → Parser (Option Nat)) : Prop :=
  ∀ s₀ s expr, Steps tokens .phrase s₀ s → s.arena.Rated tokens tight level expr →
    Runs (step expr) s (fun r s' => Steps tokens .phrase s₀ s' ∧
      s'.arena.Rated tokens tight level (r.getD expr)) (Steps tokens .phrase s₀)

/-- Operations are put around a node one after the other. -/
theorem Wraps.iterate {tight level : Nat} {step : Nat → Parser (Option Nat)}
    (hstep : Wraps tokens tight level step) (h : Steps tokens .phrase s₀ s) {expr : Nat}
    (hexpr : s.arena.Rated tokens tight level expr) :
    Runs (iterate step bound expr) s (fun id s' => Steps tokens .phrase s₀ s' ∧
      s'.arena.Rated tokens tight level id) (Steps tokens .phrase s₀) :=
  .iterate (I := fun id s' => Steps tokens .phrase s₀ s' ∧ s'.arena.Rated tokens tight level id)
    (fun _ _ hI => hstep _ _ _ hI.1 hI.2) bound ⟨h, hexpr⟩

theorem wraps_postfixStep (hparse : WalksAll tokens parse) :
    Wraps tokens 5 0 (postfixStep bound parse start) := by
  intro s₀ s expr h hexpr
  refine .cursor ?_
  split
  · refine h.bind (walks_argumentList hparse) fun args s₁ h₁ hextends => ?_
    refine .map (h₁.finishRanks (.of_parts (by simp) ?_) le_rfl (by simp))
    simp [NodeKind.required, hexpr.extends hextends]
  · refine h.next (by simp [*, TokenKind.isSilent, TokenKind.isPlain]) fun _ h₁ => ?_
    refine h₁.bind walks_memberName fun member s₂ h₂ hextends => ?_
    refine .map (h₂.finishRanks (.of_parts (by simp) ?_) le_rfl (by simp))
    simp [NodeKind.required, hexpr.extends hextends]
  · split
    · exact .pure ⟨h, hexpr⟩
    · refine h.next (by simp [*, TokenKind.isSilent, TokenKind.isPlain]) fun _ h₁ => ?_
      have hexpr₁ : s.advance.arena.Rated tokens 5 0 expr := hexpr
      refine .map (h₁.finishRanks (.of_parts (by simp) ?_) le_rfl (by simp))
      simpa [NodeKind.required] using hexpr₁
  · refine h.attempt (walks_typeArguments hparse) (fun args s₁ h₁ hextends _ => ?_)
      fun s₁ h₁ hextends _ => .pure ⟨h₁, hexpr.extends hextends⟩
    refine .map (h₁.finishRanks (.of_parts (by simp) ?_) le_rfl (by simp))
    simp [NodeKind.required, hexpr.extends hextends]
  · exact .pure ⟨h, hexpr⟩

theorem walksTo_postfixed (hparse : WalksAll tokens parse) :
    WalksTo tokens 5 0 (postfixed bound parse) :=
  .intro fun _ h => .cursor (h.bindTo (walksTo_primary hparse) fun _ _ h₁ _ hfirst =>
    (wraps_postfixStep hparse).iterate h₁ hfirst)

theorem wraps_castStep (hparse : WalksAll tokens parse) :
    Wraps tokens 4 0 (castStep bound parse start) := by
  intro s₀ s expr h hexpr
  refine h.eat rfl (fun h₁ => ?_) (.cursor ?_)
  · refine h₁.bind (walks_type hparse) fun target s₂ h₂ hextends => ?_
    refine .map (h₂.finishRanks (.of_parts (by simp) ?_) le_rfl (by simp))
    simp [NodeKind.required, hexpr.extends hextends]
  · dsimp only
    split
    · rename_i htest
      refine h.operator (silent_of_typeTest htest) fun op s₁ h₁ hextends _ _ => ?_
      refine h₁.bind (walks_type hparse) fun rhs s₂ h₂ hextends₂ => ?_
      refine .map (h₂.finishRanks (.of_parts (by simp) ?_) le_rfl (by simp))
      simp [NodeKind.required, hexpr.extends (hextends.trans hextends₂)]
    · exact .pure ⟨h, hexpr⟩

theorem walksTo_cast (hparse : WalksAll tokens parse) :
    WalksTo tokens 4 0 (cast bound parse) :=
  .intro fun _ h => .cursor (h.bindTo (walksTo_postfixed hparse) fun _ _ h₁ _ hfirst =>
    (wraps_castStep hparse).iterate h₁ (hfirst.mono (by decide) le_rfl))

theorem walksTo_unary (hparse : WalksAll tokens parse) :
    WalksTo tokens 3 0 (unary bound parse) := by
  refine .intro fun s h => .cursor ?_
  have hprefix : s.current.kind.isSilent = true →
      Runs (operator 1 >>= fun op => parse .unary >>= fun argument =>
        Parser.finish .unaryOperator s.start
          [.labeled .operatorName op, .labeled .argument argument]) s
        (fun id s' => Steps tokens .phrase s s' ∧ s'.arena.Rated tokens 3 0 id)
        (Steps tokens .phrase s) := by
    intro hsilent
    refine h.operator (Cursor.silent_one hsilent) fun op s₁ h₁ _ _ _ => ?_
    refine h₁.bindTo hparse.unary fun argument s₂ h₂ _ hargument => ?_
    refine h₂.finishRanks (.of_parts (by simp) ?_) le_rfl (by simp)
    simp [NodeKind.required, hargument]
  split
  · exact hprefix (by simp [*, TokenKind.isSilent, TokenKind.isPlain])
  · exact hprefix (by simp [*, TokenKind.isSilent, TokenKind.isPlain])
  · exact hprefix (by simp [*, TokenKind.isSilent, TokenKind.isPlain])
  · exact hprefix (by simp [*, TokenKind.isSilent, TokenKind.isPlain])
  · refine h.next (by simp [*, TokenKind.isSilent, TokenKind.isPlain]) fun _ h₁ => ?_
    refine h₁.bindTo hparse.unary fun argument s₂ h₂ _ hargument => ?_
    refine h₂.finishRanks (.of_parts (by simp) ?_) le_rfl (by simp)
    simp [NodeKind.required, hargument]
  · exact (walksTo_cast hparse s h.rest_suffix).mono
      (fun id s' hid => ⟨hid.1, hid.2.mono (by decide) le_rfl⟩) fun _ hE => hE

/-- A binary operation is put above its operator and what stands on both sides of it. -/
theorem runs_binaryNode {left operator right : Nat} {Q : Nat → ParserState → Prop}
    {E : ParserState → Prop} (h : Steps tokens .phrase s₀ s)
    (hoperator : s.arena.OperatorAt tokens operator level) (hleft : s.arena.Rated tokens 2 level left)
    (hright : s.arena.Rated tokens 2 (level + 1) right)
    (hQ : ∀ id s', Steps tokens .phrase s₀ s' → s'.toCursor = s.toCursor →
      (∀ l, l ≤ level → s'.arena.Rated tokens 2 l id) → Q id s') :
    Runs (binaryNode start left operator right) s Q E := by
  refine .finish (hQ _ _ (h.node ⟨?_, fun _ => ⟨level, left, operator, right, rfl, hoperator, hleft,
    hright⟩⟩) rfl fun l hl => Arena.rated_push_binary hoperator hleft.lt hright.lt le_rfl hl)
  simp [NodeKind.required, hleft.mono le_rfl (Nat.zero_le _), hright.mono le_rfl (Nat.zero_le _)]

/-- `??` is no other binary operator. -/
theorem leveledOperator?_eq {c : Cursor} {op : BinaryOperator} (h : binaryOperator? c = some op) :
    leveledOperator? c = some op := by
  have hother : c.isAt .questionQuestion = false := by
    rw [Cursor.isAt, beq_eq_false_iff_ne]
    intro hkind
    simp [binaryOperator?, hkind] at h
  rw [leveledOperator?, hother, if_neg (by simp), h]

/-- Operations of one level after the other. The operation read so far is tight enough for the
operator that comes next: what stands right of its own operator has taken all tighter ones. -/
theorem walksBinary_binary (hparse : WalksAll tokens parse) (hbound : tokens.length < bound)
    (level : Nat) : WalksBinary tokens level (binary bound parse level) := by
  intro s hs
  have h : Steps tokens .phrase s s := .refl hs
  refine .cursor (h.bindTo (walksTo_unary hparse) fun first s₁ h₁ _ hfirst => ?_)
  have hfirst' : ∀ l, s₁.arena.Rated tokens 2 l first := fun l =>
    (hfirst.of_tight le_rfl l).mono (by decide) le_rfl
  refine .iterate_exit
    (I := fun left s' => Steps tokens .phrase s s' ∧ s'.arena.Rated tokens 2 level left ∧
      ∀ op, binaryOperator? s'.toCursor = some op → s'.arena.Rated tokens 2 op.level left)
    ?_ ⟨h₁, hfirst' level, fun op _ => hfirst' op.level⟩
    (lt_of_le_of_lt h₁.rest_suffix.length_le hbound)
  rintro left s₂ ⟨h₂, hleast, hleft⟩
  refine .cursor ?_
  split
  · rename_i op hop
    split
    · rename_i hless
      refine .pure ⟨h₂, hleast, fun op' hop' => ?_⟩
      rw [hop] at hop'
      cases hop'
      exact hless
    · rename_i hmore
      refine h₂.operatorAt (leveledOperator?_eq hop)
        fun operator s₃ h₃ hextends₃ hless hoperator => ?_
      have hright := hparse.binary (op.level + 1) s₃ h₃.rest_suffix
      refine .bind (hright.mono (fun right s₄ hr => ?_) fun _ hE => h₃.append hE)
      obtain ⟨hsteps, hrated, hbelow⟩ := hr
      have h₄ := h₃.append hsteps
      have hextends₄ := hsteps.arena_extends
      refine .map (runs_binaryNode h₄ (hoperator.extends hextends₄)
        ((hleft op hop).extends (hextends₃.trans hextends₄)) hrated ?_)
      intro id s₅ h₅ hsame hid
      refine ⟨⟨h₅, hid level (Nat.not_lt.mp hmore), fun op' hop' => ?_⟩, ?_⟩
      · rw [hsame] at hop'
        exact hid _ (Nat.lt_succ_iff.mp (hbelow op' hop'))
      · rw [hsame]
        obtain ⟨word, hpass, -⟩ := hsteps.passes
        exact lt_of_le_of_lt hpass.rest_le hless
  · rename_i hnone
    refine .pure ⟨h₂, hleast, fun op' hop' => ?_⟩
    rw [hnone] at hop'
    cases hop'

theorem walksTo_binary (hparse : WalksAll tokens parse) (hbound : tokens.length < bound)
    (level : Nat) : WalksTo tokens 2 level (binary bound parse level) :=
  fun s hs => (walksBinary_binary hparse hbound level s hs).mono (fun _ _ h => ⟨h.1, h.2.1⟩)
    fun _ hE => hE

theorem wraps_nullishStep (hparse : WalksAll tokens parse) (hbound : tokens.length < bound) :
    Wraps tokens 2 0 (nullishStep bound parse start) := by
  intro s₀ s left h hleft
  refine Steps.check (fun hat => ?_) fun _ => .pure ⟨h, hleft⟩
  have hop : leveledOperator? s.toCursor = some ⟨0, 1⟩ := if_pos hat
  refine h.operatorAt hop fun operator s₁ h₁ hextends₁ _ hoperator => ?_
  refine h₁.bindTo (walksTo_binary hparse hbound 1) fun right s₂ h₂ hextends₂ hright => ?_
  exact .map (runs_binaryNode h₂ (hoperator.extends hextends₂)
    (hleft.extends (hextends₁.trans hextends₂)) hright fun id s₃ h₃ _ hid => ⟨h₃, hid 0 le_rfl⟩)

theorem walksTo_nullish (hparse : WalksAll tokens parse) (hbound : tokens.length < bound) :
    WalksTo tokens 2 0 (nullish bound parse) :=
  .intro fun _ h => .cursor (h.bindTo (walksTo_binary hparse hbound 1) fun _ _ h₁ _ hfirst =>
    (wraps_nullishStep hparse hbound).iterate h₁ (hfirst.mono le_rfl (Nat.zero_le 1)))

theorem walksTo_ternary (hparse : WalksAll tokens parse) (hbound : tokens.length < bound) :
    WalksTo tokens 1 0 (ternary bound parse) := by
  refine .intro fun s h => .cursor ?_
  refine h.bindTo (walksTo_nullish hparse hbound) fun condition s₁ h₁ _ hcondition => ?_
  refine h₁.eat rfl (fun h₂ => ?_) (.pure ⟨h₁, hcondition.mono (by decide) le_rfl⟩)
  refine h₂.bind (walks_expression_of hparse) fun consequence s₃ h₃ hextends₃ => ?_
  refine h₃.expect rfl fun _ h₄ => ?_
  refine h₄.bind (walks_expression_of hparse) fun alternative s₅ h₅ hextends₅ => ?_
  refine h₅.finishRanks (.of_parts (by simp) ?_) le_rfl (by simp)
  have hcondition₅ := hcondition.extends (hextends₃.trans hextends₅)
  simp [NodeKind.required, hcondition₅]

theorem walks_expression (hparse : WalksAll tokens parse) (hbound : tokens.length < bound) :
    Walks tokens .phrase (expression bound parse) := by
  refine .intro fun s h => .cursor ?_
  refine h.bindTo (walksTo_ternary hparse hbound) fun left s₁ h₁ _ hleft => ?_
  refine h₁.eat rfl (fun h₂ => ?_) (.cursor ?_)
  · refine h₂.bind (walks_expression_of hparse) fun right s₃ h₃ hextends₃ => ?_
    refine .finish (h₃.node (.of_parts (by simp) ?_))
    simp [NodeKind.required, hleft.extends hextends₃]
  · split
    · rename_i count hcount
      refine h₁.operator (silent_of_assignmentOperator? hcount)
        fun operator s₂ h₂ hextends₂ _ _ => ?_
      refine h₂.bind (walks_expression_of hparse) fun right s₃ h₃ hextends₃ => ?_
      refine .finish (h₃.node (.of_parts (by simp) ?_))
      simp [NodeKind.required, hleft.extends (hextends₂.trans hextends₃)]
    · exact .pure h₁

end Grammar

end TolkAnalysis
