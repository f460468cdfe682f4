import TolkAnalysis.Grammar.Statement
import TolkAnalysis.Proofs.Grammar.Expression

/-!
# Nodes of statements

Every production of statements builds a node of its kind. A statement that cannot be read
leaves nothing behind but one node over the skipped tokens, so a block is a row of statements
and of such nodes. `parsesAll_grammar` closes the grammar: by induction on the bound the parser
of every nonterminal builds nodes of the right kinds.
-/

namespace TolkAnalysis

open ParserState TolkAnalysis.Parser

namespace Grammar

variable {text : String} {bound : Nat} {parse : Nonterminal → Parser Nat} {s s₀ : ParserState}

/-! ### Declarations of local variables -/

theorem runs_variableName (hparse : ParsesAll text parse) {kind : NodeKind} (hs : s.Sound text)
    (hcurrent : s.current.kind ≠ .endOfFile) (hparts : kind.parts = [])
    (hkind : kind.isBinder = true) :
    Runs (variableName bound parse kind) s (Made text s NodeKind.isPattern) (Reaches text s) := by
  refine .cursor ?_
  have hname : Runs (leaf kind) s (Made text s NodeKind.isBinder) (Reaches text s) :=
    runs_leaf hs hcurrent hparts hkind
  refine (Built.nil hs).node_of (some .name) hname fun name s₁ h₁ => ?_
  refine h₁.seq (yields_after? (by decide) (parses_type hparse)) fun typed s₂ h₂ => ?_
  refine h₂.seq (yields_mark? (fun _ => current_kind_ne_of_isAtWord) rfl) fun redef s₃ h₃ => ?_
  exact h₃.made rfl rfl (by simp)

theorem runs_patternList (hparse : ParsesAll text parse) {kind : NodeKind} {close : TokenKind}
    (hs : s.Sound text) (hcurrent : s.current.kind ≠ .endOfFile) (hclose : close ≠ .endOfFile)
    (hparts : kind.parts = [.many NodeKind.isPattern]) (hkind : kind.isPattern = true) :
    Runs (patternList bound parse kind close) s (Made text s NodeKind.isPattern)
      (Reaches text s) := by
  refine .cursor ?_
  refine (Built.nil hs).next hcurrent fun h₁ => ?_
  refine h₁.seq (yields_commaList bound (hparse .variablePattern).map_plain)
    fun ⟨vars, _⟩ s₂ h₂ => ?_
  refine h₂.step (yields_expect hclose) fun _ s₃ h₃ => ?_
  exact h₃.made hkind hparts.symm (by simp)

theorem parses_variablePattern (hparse : ParsesAll text parse) :
    Parses text (variablePattern bound parse) NodeKind.isPattern := by
  intro s hs
  refine .cursor ?_
  split
  · exact runs_patternList hparse hs (by simp [*]) (by decide) rfl rfl
  · exact runs_patternList hparse hs (by simp [*]) (by decide) rfl rfl
  · exact runs_variableName hparse hs (by simp [*]) rfl rfl
  · exact runs_variableName hparse hs (by simp [*]) rfl rfl
  · exact .fail (.refl hs)

theorem yields_variableKeyword :
    Yields text variableKeyword (fun _ => true) [] fun _ => [] := by
  intro s hs
  refine (Built.nil hs).step (yields_eat (by decide)) fun b s₁ h₁ => ?_
  split
  · rename_i hb
    exact .pure (h₁.of_read fun _ => by simp [hb])
  · exact h₁.step (yields_expect (by decide)) fun _ s₂ h₂ =>
      .pure (h₂.of_read fun _ => by simp)

theorem parses_localVariables (hparse : ParsesAll text parse) :
    Parses text (localVariables bound parse) (NodeKind.only .localVarsDeclaration) := by
  intro s hs
  refine .cursor ?_
  refine (Built.nil hs).step yields_variableKeyword fun _ s₁ h₁ => ?_
  refine h₁.node (some .lhs) (parses_variablePattern hparse) fun lhs s₂ h₂ => ?_
  refine h₂.seq (yields_after? (by decide) (parses_expression hparse)) fun value s₃ h₃ => ?_
  exact h₃.made rfl rfl (by simp)

/-! ### Blocks -/

theorem current_kind_ne_of_isInside {c : Cursor} (h : c.isInside = true) :
    c.current.kind ≠ .endOfFile := by
  intro hend
  simp [Cursor.isInside, Cursor.isAtEnd, Cursor.isAt, hend] at h

/-- A statement is built, or one node over what cannot be read. -/
theorem runs_statementOrSkipped (hparse : ParsesAll text parse) (hs : s.Sound text)
    (hcurrent : s.current.kind ≠ .endOfFile) :
    Runs (statementOrSkipped bound parse) s
      (Made text s (NodeKind.either NodeKind.isStatement (NodeKind.only .error)))
      (Reaches text s) := by
  refine .get (.tryCatch ?_)
  refine (hparse .statement s hs).mono (fun _ _ h => h.mono fun _ hk => NodeKind.either_left hk)
    fun s₁ hE error => ?_
  refine .bind ((runs_recover bound error hE hcurrent).mono (fun skipped s₂ h₂ => ?_)
    fun _ hE' => hE')
  exact h₂.step (yields_eat (by decide)) fun _ s₃ h₃ => .pure (h₃.of_only rfl)

theorem runs_blockItem (hparse : ParsesAll text parse) (s : ParserState) (hs : s.Sound text)
    (hinside : s.isInside = true) :
    Runs (blockItem bound parse) s
      (fun statements s' => Built text s false
        [.many (NodeKind.either NodeKind.isStatement (NodeKind.only .error))] statements s')
      (Reaches text s) := by
  have hcurrent := current_kind_ne_of_isInside hinside
  refine .bind (.check ?_)
  split
  · refine .bind (.of_modify (.pure (.pure ?_)))
    exact ((Built.advance hs hcurrent).of_fits fun _ => Fits.many_nil _ _).unread
  · refine .pure (.bind ?_)
    refine (runs_statementOrSkipped hparse hs hcurrent).mono (fun id s₁ h₁ => .pure ?_)
      fun _ hE => hE
    exact ((h₁ none).of_fits Fits.many_of).unread

theorem parses_block (hparse : ParsesAll text parse) :
    Parses text (block bound parse) (NodeKind.only .blockStatement) := by
  intro s hs
  refine .cursor ?_
  refine (Built.nil hs).step (yields_expect (by decide)) fun _ s₁ h₁ => ?_
  refine h₁.seq (yields_collect bound (yields_whenAt (runs_blockItem hparse)))
    fun statements s₂ h₂ => ?_
  refine h₂.step (yields_expect (by decide)) fun _ s₃ h₃ => ?_
  exact h₃.made rfl rfl (by simp)

/-! ### Statements -/

theorem parses_condition (hparse : ParsesAll text parse) :
    Parses text (condition bound parse) NodeKind.isExpression := by
  intro s hs
  refine (Built.nil hs).step (yields_expect (by decide)) fun _ s₁ h₁ => ?_
  refine h₁.first (parses_expression hparse) fun expr s₂ h₂ => ?_
  exact h₂.step (yields_expect (by decide)) fun _ s₃ h₃ => .pure h₃

theorem parses_alternative (hparse : ParsesAll text parse) :
    Parses text (alternative bound parse)
      (NodeKind.either (NodeKind.only .ifStatement) (NodeKind.only .blockStatement)) := by
  intro s hs
  refine .check ?_
  split
  · exact (hparse .ifStatement).mono (fun _ hk => NodeKind.either_left hk) s hs
  · exact (parses_block hparse).mono (fun _ hk => NodeKind.either_right hk) s hs

theorem parses_ifStatement (hparse : ParsesAll text parse) :
    Parses text (ifStatement bound parse) (NodeKind.only .ifStatement) := by
  intro s hs
  refine .cursor ?_
  refine (Built.nil hs).step (yields_expect (by decide)) fun _ s₁ h₁ => ?_
  refine h₁.node (some .condition) (parses_condition hparse) fun test s₂ h₂ => ?_
  refine h₂.node (some .consequence) (parses_block hparse) fun consequence s₃ h₃ => ?_
  refine h₃.seq (yields_after? (by decide) (parses_alternative hparse)) fun other s₄ h₄ => ?_
  exact h₄.made rfl rfl (by simp)

theorem parses_catchVariable : Parses text catchVariable NodeKind.isBinder := by
  intro s hs
  refine .check ?_
  split
  · rename_i hat
    exact runs_leaf hs (by simp [Cursor.current_kind_eq_of_isAt hat]) rfl rfl
  · exact Parses.of_only (parses_expectName rfl) rfl s hs

theorem yields_catchVariables :
    Yields text catchVariables (fun _ => false)
      [.optional .catchVar1 NodeKind.isBinder, .optional .catchVar2 NodeKind.isBinder] id := by
  have hnone : Fits [.optional .catchVar1 NodeKind.isBinder, .optional .catchVar2 NodeKind.isBinder]
      [] := (Fits.optional_nil _ _).append (Fits.optional_nil _ _)
  intro s hs
  refine (Built.nil hs).step (yields_eat (by decide)) fun b s₁ h₁ => ?_
  split
  · refine h₁.step (yields_eat (by decide)) fun b' s₂ h₂ => ?_
    split
    · exact .pure ((h₂.of_fits fun _ => hnone).unread)
    · refine h₂.first parses_catchVariable fun first s₃ h₃ => ?_
      refine ((h₃ (some .catchVar1)).of_fits Fits.optional_of_one).seq
        (yields_after? (by decide) parses_catchVariable) fun second s₄ h₄ => ?_
      refine h₄.step (yields_expect (by decide)) fun _ s₅ h₅ => ?_
      exact .pure (h₅.unread)
  · exact .pure ((h₁.of_fits fun _ => hnone).unread)

theorem parses_catchClause (hparse : ParsesAll text parse) :
    Parses text (catchClause bound parse) (NodeKind.only .catchClause) := by
  intro s hs
  refine .cursor ?_
  refine (Built.nil hs).step (yields_expect (by decide)) fun _ s₁ h₁ => ?_
  refine h₁.seq yields_catchVariables fun caught s₂ h₂ => ?_
  refine h₂.node (some .catchBody) (parses_block hparse) fun body s₃ h₃ => ?_
  exact h₃.made rfl rfl (by simp)

theorem parses_tryStatement (hparse : ParsesAll text parse) :
    Parses text (tryStatement bound parse) NodeKind.isStatement := by
  intro s hs
  refine .cursor ?_
  refine (Built.nil hs).step (yields_expect (by decide)) fun _ s₁ h₁ => ?_
  refine h₁.node (some .tryBody) (parses_block hparse) fun body s₂ h₂ => ?_
  refine h₂.node (some .catchClause) (parses_catchClause hparse) fun clause s₃ h₃ => ?_
  exact h₃.made rfl rfl (by simp)

theorem parses_assertion (hparse : ParsesAll text parse) :
    Parses text (assertion bound parse) NodeKind.isStatement := by
  intro s hs
  refine .cursor ?_
  refine (Built.nil hs).step (yields_expect (by decide)) fun _ s₁ h₁ => ?_
  refine h₁.step (yields_expect (by decide)) fun _ s₂ h₂ => ?_
  refine h₂.node (some .condition) (parses_expression hparse) fun test s₃ h₃ => ?_
  refine h₃.seq (yields_after? (by decide) (parses_expression hparse)) fun inner s₄ h₄ => ?_
  refine h₄.step (yields_expect (by decide)) fun _ s₅ h₅ => ?_
  refine h₅.seq (yields_after? (by decide) (parses_expression hparse)) fun outer s₆ h₆ => ?_
  refine h₆.step (yields_expect (by decide)) fun _ s₇ h₇ => ?_
  exact h₇.made rfl rfl (by simp)

theorem yields_returnValue (hparse : ParsesAll text parse) :
    Yields text (returnValue bound parse) (fun _ => false) [.optional .body NodeKind.isExpression]
      id := by
  intro s hs
  refine .check ?_
  split
  · exact .pure ((Built.nil hs).of_fits fun _ => Fits.optional_nil _ _)
  · refine (parses_expression hparse).bind hs fun value s₁ h₁ => .pure ?_
    exact ((h₁ (some .body)).of_fits Fits.optional_of_one).unread

theorem runs_returnStatement (hparse : ParsesAll text parse) (hs : s.Sound text)
    (hcurrent : s.current.kind ≠ .endOfFile) :
    Runs (returnStatement bound parse) s (Made text s NodeKind.isStatement) (Reaches text s) := by
  refine .cursor ?_
  refine (Built.nil hs).next hcurrent fun h₁ => ?_
  refine h₁.seq (yields_returnValue hparse) fun value s₂ h₂ => ?_
  refine h₂.step (yields_expect (by decide)) fun _ s₃ h₃ => ?_
  exact h₃.made rfl rfl (by simp)

theorem runs_whileStatement (hparse : ParsesAll text parse) (hs : s.Sound text)
    (hcurrent : s.current.kind ≠ .endOfFile) :
    Runs (whileStatement bound parse) s (Made text s NodeKind.isStatement) (Reaches text s) := by
  refine .cursor ?_
  refine (Built.nil hs).next hcurrent fun h₁ => ?_
  refine h₁.node (some .condition) (parses_condition hparse) fun test s₂ h₂ => ?_
  refine h₂.node (some .body) (parses_block hparse) fun body s₃ h₃ => ?_
  exact h₃.made rfl rfl (by simp)

theorem runs_doWhileStatement (hparse : ParsesAll text parse) (hs : s.Sound text)
    (hcurrent : s.current.kind ≠ .endOfFile) :
    Runs (doWhileStatement bound parse) s (Made text s NodeKind.isStatement)
      (Reaches text s) := by
  refine .cursor ?_
  refine (Built.nil hs).next hcurrent fun h₁ => ?_
  refine h₁.node (some .body) (parses_block hparse) fun body s₂ h₂ => ?_
  refine h₂.step (yields_expect (by decide)) fun _ s₃ h₃ => ?_
  refine h₃.node (some .condition) (parses_condition hparse) fun test s₄ h₄ => ?_
  refine h₄.step (yields_expect (by decide)) fun _ s₅ h₅ => ?_
  exact h₅.made rfl rfl (by simp)

theorem runs_repeatStatement (hparse : ParsesAll text parse) (hs : s.Sound text)
    (hcurrent : s.current.kind ≠ .endOfFile) :
    Runs (repeatStatement bound parse) s (Made text s NodeKind.isStatement) (Reaches text s) := by
  refine .cursor ?_
  refine (Built.nil hs).next hcurrent fun h₁ => ?_
  refine h₁.node (some .count) (parses_condition hparse) fun count s₂ h₂ => ?_
  refine h₂.node (some .body) (parses_block hparse) fun body s₃ h₃ => ?_
  exact h₃.made rfl rfl (by simp)

theorem runs_throwStatement (hparse : ParsesAll text parse) (hs : s.Sound text)
    (hcurrent : s.current.kind ≠ .endOfFile) :
    Runs (throwStatement bound parse) s (Made text s NodeKind.isStatement) (Reaches text s) := by
  refine .cursor ?_
  refine (Built.nil hs).next hcurrent fun h₁ => ?_
  refine h₁.node (some .excNo) (parses_expression hparse) fun value s₂ h₂ => ?_
  refine h₂.step (yields_expect (by decide)) fun _ s₃ h₃ => ?_
  exact h₃.made rfl rfl (by simp)

theorem runs_wordStatement {kind : NodeKind} (hs : s.Sound text)
    (hcurrent : s.current.kind ≠ .endOfFile) (hparts : kind.parts = [])
    (hkind : kind.isStatement = true) :
    Runs (wordStatement kind) s (Made text s NodeKind.isStatement) (Reaches text s) := by
  refine .cursor ?_
  refine (Built.nil hs).next hcurrent fun h₁ => ?_
  refine h₁.step (yields_expect (by decide)) fun _ s₂ h₂ => ?_
  exact h₂.made hkind hparts.symm (by simp)

theorem yields_closeExpression (expr : Nat) :
    Yields text (closeExpression expr) (fun _ => false) [] fun _ => [] := by
  intro s hs
  refine .get ?_
  dsimp only
  split
  · exact (Built.nil hs).step (yields_eat (by decide)) fun _ s₁ h₁ => .pure (h₁.unread)
  · exact (Built.nil hs).step (yields_expect (by decide)) fun _ s₁ h₁ => .pure (h₁.unread)

theorem parses_expressionStatement (hparse : ParsesAll text parse) :
    Parses text (expressionStatement bound parse) NodeKind.isStatement := by
  intro s hs
  refine .cursor ?_
  refine (Built.nil hs).node (some .expr) (parses_expression hparse) fun expr s₁ h₁ => ?_
  refine h₁.step (yields_closeExpression expr) fun _ s₂ h₂ => ?_
  exact h₂.made rfl rfl (by simp)

theorem parses_variableStatement (hparse : ParsesAll text parse) :
    Parses text (variableStatement bound parse) NodeKind.isStatement := by
  intro s hs
  refine (parses_localVariables hparse).bind hs fun declaration s₁ h₁ => ?_
  exact h₁.step (yields_expect (by decide)) fun _ s₂ h₂ => .pure (h₂.of_only rfl)

theorem parses_statement (hparse : ParsesAll text parse) :
    Parses text (statement bound parse) NodeKind.isStatement := by
  intro s hs
  refine .cursor ?_
  split
  · exact parses_variableStatement hparse s hs
  · exact parses_variableStatement hparse s hs
  · exact (parses_block hparse).of_only rfl s hs
  · exact runs_returnStatement hparse hs (by simp [*])
  · exact (parses_ifStatement hparse).of_only rfl s hs
  · exact runs_whileStatement hparse hs (by simp [*])
  · exact runs_doWhileStatement hparse hs (by simp [*])
  · exact runs_repeatStatement hparse hs (by simp [*])
  · exact parses_tryStatement hparse s hs
  · exact runs_throwStatement hparse hs (by simp [*])
  · exact parses_assertion hparse s hs
  · exact runs_wordStatement hs (by simp [*]) rfl rfl
  · exact runs_wordStatement hs (by simp [*]) rfl rfl
  · exact parses_expressionStatement hparse s hs

/-! ### The whole grammar -/

theorem parsesAll_production (hparse : ParsesAll text parse) :
    ParsesAll text (production bound parse) := by
  intro nonterminal
  cases nonterminal with
  | type => exact parses_type hparse
  | nullableType => exact parses_nullableType hparse
  | expression => exact parses_expression hparse
  | binary level => exact parses_binary hparse level
  | unary => exact parses_unary hparse
  | variablePattern => exact parses_variablePattern hparse
  | localVariables => exact parses_localVariables hparse
  | block => exact parses_block hparse
  | ifStatement => exact parses_ifStatement hparse
  | statement => exact parses_statement hparse

/-- The parsers of the nonterminals build nodes of the right kinds. -/
theorem parsesAll_grammar (text : String) (bound : Nat) : ParsesAll text (parser bound) := by
  induction bound with
  | zero => exact fun _ s hs => .fail (.refl hs)
  | succ bound ih => exact parsesAll_production ih

end Grammar

end TolkAnalysis
