import TolkAnalysis.Proofs.Grammar.Walk.Expression

/-!
# How statements are read

A statement is a phrase up to the semicolon it may end with. Where it cannot be read, it has not
come to that semicolon, and what is skipped then keeps to the braces that it stands in
(`Steps.recover`). So a block is a phrase with all its statements between its braces.
-/

namespace TolkAnalysis

open TolkAnalysis.Parser

namespace Cursor

theorem Passes.eq_of_nil {c c' : Cursor} (h : c.Passes [] c') : c' = c := by
  obtain ⟨hrest, hprevious⟩ := h
  cases c
  cases c'
  simp_all

theorem Passes.cons {c c' : Cursor} {word : List Token} (hc : c.current.kind ≠ .endOfFile)
    (h : c.advance.Passes word c') : c.Passes (c.current :: word) c' :=
  (Passes.advance hc).trans h

end Cursor

namespace Parser

/-- What is skipped keeps to the braces that are open. If it is said that nothing has been consumed
then nothing has been. -/
theorem skipTo_passes {E : ParserState → Prop} {stop : TokenKind → Bool} (bound depth : Nat)
    {consumed : Bool} {s : ParserState} :
    Runs (skipTo stop bound depth consumed) s (fun b s' => ∃ word d, s.Passes word s'.toCursor ∧
      Zone.body.depth depth word = some d ∧ s'.arena = s.arena ∧ s'.errors = s.errors ∧
      (b = false → consumed = false ∧ word = [])) E := by
  induction bound generalizing s depth consumed with
  | zero => exact .pure ⟨[], depth, .refl _, rfl, rfl, rfl, fun hb => ⟨hb, rfl⟩⟩
  | succ bound ih =>
    refine .cursor ?_
    dsimp only
    split
    · exact .pure ⟨[], depth, .refl _, rfl, rfl, rfl, fun hb => ⟨hb, rfl⟩⟩
    · rename_i hgoesOn
      simp only [Bool.or_eq_true, Bool.and_eq_true, beq_iff_eq, not_or, not_and] at hgoesOn
      obtain ⟨⟨hend, -⟩, hclose⟩ := hgoesOn
      refine .bind (.of_modify ((ih _).mono ?_ fun _ hE => hE))
      rintro b s' ⟨word, d, hpass, hdepth, harena, herrors, hb⟩
      refine ⟨s.current :: word, d, .cons hend hpass, ?_, harena, herrors, fun hfalse => ?_⟩
      · rw [Zone.depth_cons, ← hdepth]
        unfold Zone.step
        split
        · simp [*]
        · simp_all
        · simp [*]
        · simp_all
      · cases (hb hfalse).1

end Parser

namespace Steps

variable {tokens : List Token} {z : Zone} {s₀ s s₁ : ParserState}

/-- What cannot be read is skipped from where it failed. -/
theorem recover {E : ParserState → Prop} {bound : Nat} {error : ParseError}
    {stop : TokenKind → Bool} (h : Steps tokens z s₀ s) (hz : z ≠ .phrase)
    (hfailed : Steps tokens .phrase s s₁) (hclose : z = .body → s.isAt .rBrace = false) :
    Runs (Parser.recover bound error s.checkpoint stop) s₁ (fun _ s' => Steps tokens z s₀ s') E := by
  have hdone : ∀ {word s₂} {E : ParserState → Prop}, s₁.Passes word s₂.toCursor → z.Fits word →
      s₂.arena = s₁.arena.truncate s.arena.size → s₂.errors = s₁.errors.push error →
      Runs (Parser.finish .error s.start []) s₂ (fun _ s' => Steps tokens z s₀ s') E := by
    rintro word ⟨c, arena, errors⟩ E hpass hfits rfl rfl
    exact .finish (.skipped h hz hfailed hpass hfits)
  refine .bind (.of_modify (.cursor (.bind ((skipTo_passes bound 0).mono ?_ fun _ hE => hE))))
  rintro b s₂ ⟨word, d, hpass, hdepth, harena, herrors, hb⟩
  have hfits : z.Fits word := by
    cases z with
    | phrase => exact absurd rfl hz
    | body => exact ⟨d, hdepth⟩
    | file => exact Zone.depth_file word 0
  refine .bind ?_
  unfold readUnless
  split
  · exact .pure (hdone hpass hfits harena herrors)
  · -- Nothing has been read since the parser began, so the next token is the one it began with.
    rename_i hfalse
    obtain ⟨hmoved, rfl⟩ := hb (by simpa using hfalse)
    have hsame : s₂.toCursor = s.toCursor := by
      obtain ⟨front, hfront, -⟩ := hfailed.passes
      have hlength : s₁.rest.length = s.rest.length :=
        le_antisymm hfront.rest_le (not_lt.mp (of_decide_eq_false hmoved))
      have hnil : front = [] := by
        by_contra hne
        exact (hfront.rest_lt hne).ne hlength
      subst hnil
      exact hpass.eq_of_nil.trans hfront.eq_of_nil
    refine .of_modify ?_
    by_cases hend : s₂.current.kind = .endOfFile
    · refine hdone ?_ (.nil z) harena herrors
      change s₁.Passes [] s₂.toCursor.advance
      rw [Cursor.advance_eq_self hend]
      exact hpass
    · refine hdone (hpass.trans (.advance hend)) ?_ harena herrors
      cases z with
      | phrase => exact absurd rfl hz
      | body =>
        have hother := hclose rfl
        rw [← hsame, Cursor.isAt, beq_eq_false_iff_ne] at hother
        refine ⟨if s₂.current.kind = .lBrace then 1 else 0, ?_⟩
        rw [List.nil_append, Zone.depth_cons]
        unfold Zone.step
        split <;> simp_all
      | file => exact Zone.depth_file _ 0

end Steps

namespace Grammar

variable {tokens : List Token} {bound : Nat} {parse : Nonterminal → Parser Nat} {z : Zone}

/-! ### Variables -/

theorem isPlain_of_isAt {c : Cursor} {kind : TokenKind} (h : c.isAt kind = true)
    (hkind : kind.isPlain = true) : c.current.kind.isPlain = true := by
  rwa [Cursor.current_kind_eq_of_isAt h]

theorem walks_variableName (hparse : WalksAll tokens parse) {kind : NodeKind}
    (hkind : kind.isFree = true) {s : ParserState} (h : Steps tokens .phrase s s)
    (hcurrent : s.current.kind.isPlain = true) :
    Runs (variableName bound parse kind) s (fun _ s' => Steps tokens .phrase s s')
      (Steps tokens .phrase s) := by
  refine .cursor (h.leafBind hcurrent hkind fun name s₁ h₁ => ?_)
  refine h₁.bind (walks_after? rfl (walks_type hparse)) fun typed s₂ h₂ _ => ?_
  refine h₂.bind (walks_mark? (fun _ => isPlain_of_isAtWord) rfl) fun redef s₃ h₃ _ => ?_
  exact h₃.finish rfl

theorem walks_patternList (hparse : WalksAll tokens parse) {kind : NodeKind} {close : TokenKind}
    (hkind : kind.isFree = true) (hclose : close.isSilent = true) {s : ParserState}
    (h : Steps tokens .phrase s s) (hcurrent : s.current.kind.isSilent = true) :
    Runs (patternList bound parse kind close) s (fun _ s' => Steps tokens .phrase s s')
      (Steps tokens .phrase s) := by
  refine .cursor (h.next hcurrent fun _ h₁ => ?_)
  refine h₁.bind (walks_commaList (walks_map (hparse.phrase .variablePattern (by simp))) bound)
    fun r s₂ h₂ _ => ?_
  exact h₂.expect hclose fun _ h₃ => h₃.finish hkind

theorem walks_variablePattern (hparse : WalksAll tokens parse) :
    Walks tokens .phrase (variablePattern bound parse) := by
  refine .intro fun s h => .cursor ?_
  split
  · exact walks_patternList hparse rfl rfl h (by simp [*, TokenKind.isSilent, TokenKind.isPlain])
  · exact walks_patternList hparse rfl rfl h (by simp [*, TokenKind.isSilent, TokenKind.isPlain])
  · exact walks_variableName hparse rfl h (by simp [*, TokenKind.isPlain])
  · exact walks_variableName hparse rfl h (by simp [*, TokenKind.isPlain])
  · exact .fail h

theorem walks_variableKeyword : Walks tokens .phrase variableKeyword :=
  .intro fun _ h => h.eat rfl (fun h₁ => .pure h₁) (h.expect rfl fun _ h₁ => .pure h₁)

theorem walks_localVariables (hparse : WalksAll tokens parse) (hbound : tokens.length < bound) :
    Walks tokens .phrase (localVariables bound parse) := by
  refine .intro fun s h => .cursor (h.bind walks_variableKeyword fun _ s₁ h₁ _ => ?_)
  refine h₁.bind (walks_variablePattern hparse) fun lhs s₂ h₂ _ => ?_
  refine h₂.bind (walks_after? rfl (walks_expression hparse hbound)) fun value s₃ h₃ _ => ?_
  exact h₃.finish rfl

/-! ### Blocks -/

/-- A statement between braces is read or skipped. -/
theorem walks_statementOrSkipped (hparse : WalksAll tokens parse) {s₀ s : ParserState}
    (h : Steps tokens .body s₀ s) (hinside : s.isInside = true) {E : ParserState → Prop} :
    Runs (statementOrSkipped bound parse) s (fun _ s' => Steps tokens .body s₀ s') E := by
  have hclose : s.isAt .rBrace = false := by
    simp only [Cursor.isInside, Bool.not_eq_true', Bool.or_eq_false_iff] at hinside
    exact hinside.1
  refine .bind (.get (.tryCatch ((hparse.statement s h.rest_suffix).mono
    (fun _ _ h₁ => h.trans h₁) fun s₁ hE error => ?_)))
  refine .bind ((h.recover (by decide) hE fun _ => hclose).mono (fun skipped s₂ h₂ => ?_)
    fun _ hE => hE)
  exact h₂.eatSemi (by decide) fun _ _ h' => .pure h'

/-- The statements of a block keep to its braces. -/
theorem walks_statements (hparse : WalksAll tokens parse) (rounds : Nat) :
    Walks tokens .body (collect (whenAt Cursor.isInside (blockItem bound parse)) rounds) := by
  refine walks_collect (.intro fun s h => .cursor ?_) rounds
  split
  · rename_i hinside
    refine .bind (.eat (fun hat => ?_) fun _ => ?_)
    · exact .pure (.pure (h.semi (by decide) hat))
    · exact .bind ((walks_statementOrSkipped hparse h hinside).mono
        (fun _ _ h₁ => .pure (.pure h₁)) fun _ hE => hE)
  · exact .pure h

theorem walks_block (hparse : WalksAll tokens parse) :
    Walks tokens .phrase (block bound parse) := by
  refine .intro fun s h => .cursor (h.braces (walks_statements hparse bound) ?_)
  intro statements _ _ s₁ h₁
  exact h₁.finish rfl

/-! ### Statements with conditions and blocks -/

theorem walks_condition (hparse : WalksAll tokens parse) (hbound : tokens.length < bound) :
    Walks tokens .phrase (condition bound parse) := by
  refine .intro fun s h => h.expect rfl fun _ h₁ => ?_
  refine h₁.bind (walks_expression hparse hbound) fun expr s₂ h₂ _ => ?_
  exact h₂.expect rfl fun _ h' => .pure h'

theorem walks_alternative (hparse : WalksAll tokens parse) :
    Walks tokens .phrase (alternative bound parse) :=
  .intro fun _ h => Steps.check (fun _ => h.last (hparse.phrase .ifStatement (by simp)))
    fun _ => h.last (walks_block hparse)

theorem walks_ifStatement (hparse : WalksAll tokens parse) (hbound : tokens.length < bound) :
    Walks tokens .phrase (ifStatement bound parse) := by
  refine .intro fun s h => .cursor (h.expect rfl fun _ h₁ => ?_)
  refine h₁.bind (walks_condition hparse hbound) fun test s₂ h₂ _ => ?_
  refine h₂.bind (walks_block hparse) fun consequence s₃ h₃ _ => ?_
  refine h₃.bind (walks_after? rfl (walks_alternative hparse)) fun other s₄ h₄ _ => ?_
  exact h₄.finish rfl

theorem walks_catchVariable : Walks tokens .phrase catchVariable :=
  .intro fun _ h => Steps.check (fun hat => h.leafLast (isPlain_of_isAt hat rfl) rfl)
    fun _ => h.last (walks_expectName rfl)

theorem walks_catchVariables : Walks tokens .phrase catchVariables := by
  refine .intro fun s h => h.eat rfl (fun h₁ => h₁.eat rfl (fun h₂ => .pure h₂) ?_) (.pure h)
  refine h₁.bind walks_catchVariable fun first s₂ h₂ _ => ?_
  refine h₂.bind (walks_after? rfl walks_catchVariable) fun second s₃ h₃ _ => ?_
  exact h₃.expect rfl fun _ h' => .pure h'

theorem walks_catchClause (hparse : WalksAll tokens parse) :
    Walks tokens .phrase (catchClause bound parse) := by
  refine .intro fun s h => .cursor (h.expect rfl fun _ h₁ => ?_)
  refine h₁.bind walks_catchVariables fun caught s₂ h₂ _ => ?_
  exact h₂.bind (walks_block hparse) fun body s₃ h₃ _ => h₃.finish rfl

theorem walks_tryStatement (hparse : WalksAll tokens parse) :
    Walks tokens .phrase (tryStatement bound parse) := by
  refine .intro fun s h => .cursor (h.expect rfl fun _ h₁ => ?_)
  refine h₁.bind (walks_block hparse) fun body s₂ h₂ _ => ?_
  exact h₂.bind (walks_catchClause hparse) fun clause s₃ h₃ _ => h₃.finish rfl

/-- A loop that begins with a keyword and a condition. -/
theorem walks_whileStatement (hparse : WalksAll tokens parse) (hbound : tokens.length < bound)
    {s : ParserState} (h : Steps tokens .phrase s s) (hcurrent : s.current.kind.isSilent = true) :
    Runs (whileStatement bound parse) s (fun _ s' => Steps tokens .phrase s s')
      (Steps tokens .phrase s) := by
  refine .cursor (h.next hcurrent fun _ h₁ => ?_)
  refine h₁.bind (walks_condition hparse hbound) fun test s₂ h₂ _ => ?_
  exact h₂.bind (walks_block hparse) fun body s₃ h₃ _ => h₃.finish rfl

theorem walks_repeatStatement (hparse : WalksAll tokens parse) (hbound : tokens.length < bound)
    {s : ParserState} (h : Steps tokens .phrase s s) (hcurrent : s.current.kind.isSilent = true) :
    Runs (repeatStatement bound parse) s (fun _ s' => Steps tokens .phrase s s')
      (Steps tokens .phrase s) := by
  refine .cursor (h.next hcurrent fun _ h₁ => ?_)
  refine h₁.bind (walks_condition hparse hbound) fun count s₂ h₂ _ => ?_
  exact h₂.bind (walks_block hparse) fun body s₃ h₃ _ => h₃.finish rfl

/-! ### Statements that end with a semicolon -/

theorem concludes_doWhileStatement (hparse : WalksAll tokens parse)
    (hbound : tokens.length < bound) (hz : z ≠ .phrase) {s : ParserState}
    (h : Steps tokens .phrase s s) (hcurrent : s.current.kind.isSilent = true) :
    Runs (doWhileStatement bound parse) s (fun _ s' => Steps tokens z s s')
      (Steps tokens .phrase s) := by
  refine .cursor (h.next hcurrent fun _ h₁ => ?_)
  refine h₁.bind (walks_block hparse) fun body s₂ h₂ _ => ?_
  refine h₂.expect rfl fun _ h₃ => ?_
  refine h₃.bind (walks_condition hparse hbound) fun test s₄ h₄ _ => ?_
  exact h₄.expectSemi hz fun _ h₅ => h₅.finish rfl

theorem concludes_assertion (hparse : WalksAll tokens parse) (hbound : tokens.length < bound)
    (hz : z ≠ .phrase) : Concludes tokens z (assertion bound parse) := by
  have hexpression := walks_expression hparse hbound
  refine .intro fun s h => .cursor (h.expect rfl fun _ h₁ => h₁.expect rfl fun _ h₂ => ?_)
  refine h₂.bind hexpression fun test s₃ h₃ _ => ?_
  refine h₃.bind (walks_after? rfl hexpression) fun inner s₄ h₄ _ => ?_
  refine h₄.expect rfl fun _ h₅ => ?_
  refine h₅.bind (walks_after? rfl hexpression) fun outer s₆ h₆ _ => ?_
  exact h₆.expectSemi hz fun _ h₇ => h₇.finish rfl

theorem walks_returnValue (hparse : WalksAll tokens parse) (hbound : tokens.length < bound) :
    Walks tokens .phrase (returnValue bound parse) :=
  .intro fun _ h => Steps.check (fun _ => .pure h)
    fun _ => h.bind (walks_expression hparse hbound) fun _ _ h₁ _ => .pure h₁

theorem concludes_returnStatement (hparse : WalksAll tokens parse)
    (hbound : tokens.length < bound) (hz : z ≠ .phrase) {s : ParserState}
    (h : Steps tokens .phrase s s) (hcurrent : s.current.kind.isSilent = true) :
    Runs (returnStatement bound parse) s (fun _ s' => Steps tokens z s s')
      (Steps tokens .phrase s) := by
  refine .cursor (h.next hcurrent fun _ h₁ => ?_)
  refine h₁.bind (walks_returnValue hparse hbound) fun value s₂ h₂ _ => ?_
  exact h₂.expectSemi hz fun _ h₃ => h₃.finish rfl

theorem concludes_throwStatement (hparse : WalksAll tokens parse)
    (hbound : tokens.length < bound) (hz : z ≠ .phrase) {s : ParserState}
    (h : Steps tokens .phrase s s) (hcurrent : s.current.kind.isSilent = true) :
    Runs (throwStatement bound parse) s (fun _ s' => Steps tokens z s s')
      (Steps tokens .phrase s) := by
  refine .cursor (h.next hcurrent fun _ h₁ => ?_)
  refine h₁.bind (walks_expression hparse hbound) fun value s₂ h₂ _ => ?_
  exact h₂.expectSemi hz fun _ h₃ => h₃.finish rfl

theorem concludes_wordStatement {kind : NodeKind} (hkind : kind.isFree = true) (hz : z ≠ .phrase)
    {s : ParserState} (h : Steps tokens .phrase s s) (hcurrent : s.current.kind.isSilent = true) :
    Runs (wordStatement kind) s (fun _ s' => Steps tokens z s s') (Steps tokens .phrase s) :=
  .cursor (h.next hcurrent fun _ h₁ => h₁.expectSemi hz fun _ h₂ => h₂.finish hkind)

/-- The semicolon may only be missing after a match. -/
theorem concludes_closeExpression (hz : z ≠ .phrase) (expr : Nat) :
    Concludes tokens z (closeExpression expr) := by
  refine .intro fun s h => .get ?_
  dsimp only
  split
  · exact h.weaken.eatSemi hz fun _ _ h' => .pure h'
  · exact h.expectSemi hz fun _ h' => .pure h'

theorem concludes_expressionStatement (hparse : WalksAll tokens parse)
    (hbound : tokens.length < bound) (hz : z ≠ .phrase) :
    Concludes tokens z (expressionStatement bound parse) := by
  refine .intro fun s h => .cursor (h.bind (walks_expression hparse hbound) fun expr s₁ h₁ _ => ?_)
  exact h₁.conclude (concludes_closeExpression hz expr) fun _ s₂ h₂ => h₂.finish rfl

theorem concludes_variableStatement (hparse : WalksAll tokens parse)
    (hbound : tokens.length < bound) (hz : z ≠ .phrase) :
    Concludes tokens z (variableStatement bound parse) :=
  .intro fun _ h => h.bind (walks_localVariables hparse hbound) fun _ _ h₁ _ =>
    h₁.expectSemi hz fun _ h' => .pure h'

theorem concludes_statement (hparse : WalksAll tokens parse) (hbound : tokens.length < bound)
    (hz : z ≠ .phrase) : Concludes tokens z (statement bound parse) := by
  refine .intro fun s h => .cursor ?_
  have hsuffix := h.rest_suffix
  have hwalks : ∀ {p : Parser Nat}, Walks tokens .phrase p →
      Runs p s (fun _ s' => Steps tokens z s s') (Steps tokens .phrase s) :=
    fun hp => hp.concludes s hsuffix
  split
  · exact concludes_variableStatement hparse hbound hz s hsuffix
  · exact concludes_variableStatement hparse hbound hz s hsuffix
  · exact hwalks (walks_block hparse)
  · exact concludes_returnStatement hparse hbound hz h
      (by simp [*, TokenKind.isSilent, TokenKind.isPlain])
  · exact hwalks (walks_ifStatement hparse hbound)
  · exact (walks_whileStatement hparse hbound h
      (by simp [*, TokenKind.isSilent, TokenKind.isPlain])).mono (fun _ _ h₁ => h₁.weaken)
      fun _ hE => hE
  · exact concludes_doWhileStatement hparse hbound hz h
      (by simp [*, TokenKind.isSilent, TokenKind.isPlain])
  · exact (walks_repeatStatement hparse hbound h
      (by simp [*, TokenKind.isSilent, TokenKind.isPlain])).mono (fun _ _ h₁ => h₁.weaken)
      fun _ hE => hE
  · exact hwalks (walks_tryStatement hparse)
  · exact concludes_throwStatement hparse hbound hz h
      (by simp [*, TokenKind.isSilent, TokenKind.isPlain])
  · exact concludes_assertion hparse hbound hz s hsuffix
  · exact concludes_wordStatement rfl hz h (by simp [*, TokenKind.isSilent, TokenKind.isPlain])
  · exact concludes_wordStatement rfl hz h (by simp [*, TokenKind.isSilent, TokenKind.isPlain])
  · exact concludes_expressionStatement hparse hbound hz s hsuffix

/-- Each production walks if the parsers of the nonterminals do. -/
theorem walksAll_production (hparse : WalksAll tokens parse) (hbound : tokens.length < bound) :
    WalksAll tokens (production bound parse) where
  phrase nonterminal hne := by
    cases nonterminal with
    | type => exact walks_type hparse
    | nullableType => exact walks_nullableType hparse
    | expression => exact walks_expression hparse hbound
    | binary level => exact (walksTo_binary hparse hbound level).walks
    | unary => exact (walksTo_unary hparse).walks
    | variablePattern => exact walks_variablePattern hparse
    | localVariables => exact walks_localVariables hparse hbound
    | block => exact walks_block hparse
    | ifStatement => exact walks_ifStatement hparse hbound
    | statement => exact absurd rfl hne
  statement := concludes_statement hparse hbound (by decide)
  unary := walksTo_unary hparse
  binary level := walksBinary_binary hparse hbound level

end Grammar

end TolkAnalysis
