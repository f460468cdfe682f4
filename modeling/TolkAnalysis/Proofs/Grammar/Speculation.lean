import TolkAnalysis.Grammar.Parse
import TolkAnalysis.Proofs.Grammar.Passage

/-!
# What is tried and taken back

In four places the grammar tries a type or a list of type arguments and goes on in another way if
that fails (`Tries`). Going back cuts the arena off and clears the parent links that lead past the
cut. It does not restore a link that has been overwritten, so nothing of what was there may have
been put below a new node.

`s.Adds new s'` says that this holds between two states. The parsers of types only add nodes from
whatever state they are run, which is enough to take back all that they did (`Tries.undone`).
-/

namespace TolkAnalysis

open TolkAnalysis.Parser

namespace ParserState

variable {s s' s'' : ParserState} {new more : List Nat} {children : List Child}

/-- Between two states nodes are added, the `new` ones among them. No error is recorded, and what
was stored is stored unchanged. -/
structure Adds (s : ParserState) (new : List Nat) (s' : ParserState) : Prop where
  kept : s.arena.Kept s'.arena
  errors : s'.errors = s.errors
  new : ∀ i ∈ new, s.arena.size ≤ i ∧ i < s'.arena.size

namespace Adds

theorem refl (s : ParserState) : s.Adds [] s := ⟨.refl _, rfl, by simp⟩

theorem advance (h : s.Adds new s') : s.Adds new s'.advance := ⟨h.kept, h.errors, h.new⟩

theorem append (h : s.Adds new s') (h' : s'.Adds more s'') : s.Adds (new ++ more) s'' where
  kept := h.kept.trans h'.kept
  errors := h'.errors.trans h.errors
  new i hi := by
    rcases List.mem_append.mp hi with hi | hi
    · exact ⟨(h.new i hi).1, (h.new i hi).2.trans_le h'.kept.size_le⟩
    · exact ⟨h.kept.size_le.trans (h'.new i hi).1, (h'.new i hi).2⟩

theorem forget (h : s.Adds new s') : s.Adds [] s' := ⟨h.kept, h.errors, by simp⟩

/-- A node is put above the new ones. -/
theorem push (h : s.Adds new s') (kind : NodeKind) (span : Span)
    (hchildren : children.map (·.node) = new) :
    s.Adds [s'.arena.size] { s' with arena := s'.arena.push kind span children } where
  kept := by
    subst hchildren
    exact Arena.kept_push h.kept (fun c hc => (h.new _ (List.mem_map_of_mem hc)).2)
      fun c hc => (h.new _ (List.mem_map_of_mem hc)).1
  errors := h.errors
  new i hi := by
    rw [List.mem_singleton.mp hi]
    exact ⟨h.kept.size_le, by simp⟩

/-- What only adds nodes is taken back without a trace. -/
theorem rewind_eq (h : s.Adds new s') : s'.rewind s.checkpoint = s := by
  have herrors : s'.errors = s.errors ++ #[] := by rw [h.errors, Array.append_empty]
  exact rewind_of_kept h.kept herrors

end Adds

end ParserState

namespace Parser

open ParserState

variable {α β : Type} {p : Parser α} {f : α → Parser β} {s s₀ : ParserState} {new : List Nat}
  {more : α → List Nat} {R : β → ParserState → Prop} {E : ParserState → Prop} {kind : NodeKind}
  {start : Nat} {children : List Child}

/-- From any state a parser only adds nodes, and those it answers with are new. -/
def Adding (p : Parser α) (new : α → List Nat) : Prop :=
  ∀ s, Runs p s (fun a => s.Adds (new a)) (s.Adds [])

/-- What a parser adds comes behind what has been added before it. -/
theorem Adding.bind (hp : Adding p more) (h : s₀.Adds new s)
    (hf : ∀ a s', s₀.Adds (new ++ more a) s' → Runs (f a) s' R (s₀.Adds [])) :
    Runs (p >>= f) s R (s₀.Adds []) :=
  .bind ((hp s).mono (fun a s' ha => hf a s' (h.append ha)) fun _ hE => (h.forget.append hE))

/-- A parser that answers with no node keeps what has been added before it. -/
theorem Adding.step (hp : Adding p fun _ => []) (h : s₀.Adds new s)
    (hf : ∀ a s', s₀.Adds new s' → Runs (f a) s' R (s₀.Adds [])) :
    Runs (p >>= f) s R (s₀.Adds []) :=
  hp.bind h fun a s' ha => hf a s' (by simpa using ha)

theorem adding_eat (kind : TokenKind) : Adding (eat kind) fun _ => [] := by
  intro s
  refine .check ?_
  split
  · exact .bind (.of_modify (.pure (Adds.refl s).advance))
  · exact .pure (.refl s)

theorem adding_expect (kind : TokenKind) : Adding (expect kind) fun _ => [] := by
  intro s
  refine .check ?_
  split
  · exact .map (.next (Adds.refl s).advance)
  · exact .fail (.refl s)

theorem adding_next : Adding next fun _ => [] := fun s => .next (Adds.refl s).advance

theorem adding_leaf (kind : NodeKind) : Adding (leaf kind) fun id => [id] :=
  fun s => .bind (.next (.of_push ((Adds.refl s).advance.push _ _ rfl)))

/-- A node is put above all that has been added. -/
theorem runs_finish_adds (h : s₀.Adds new s) (hchildren : children.map (·.node) = new) :
    Runs (finish kind start children) s (fun id => s₀.Adds [id]) E := .finish (h.push _ _ hchildren)

theorem adding_commaList {close : TokenKind} {item : Parser Child}
    (hitem : Adding item fun c => [c.node]) (bound : Nat) :
    Adding (commaList close item bound) fun r => r.1.map (·.node) := by
  induction bound with
  | zero => exact fun s => .pure (.refl s)
  | succ bound ih =>
    intro s
    refine .check ?_
    split
    · exact .pure (.refl s)
    · refine hitem.bind (.refl s) fun c s₁ h₁ => (adding_eat .comma).step h₁ fun b s₂ h₂ => ?_
      split
      · refine .check ?_
        split
        · exact .pure h₂
        · exact ih.bind h₂ fun r s₃ h₃ => .pure h₃
      · exact .pure h₂

theorem adding_collect {item : Parser (Option Child)}
    (hitem : Adding item fun r => r.toList.map (·.node)) (bound : Nat) :
    Adding (collect item bound) fun cs => cs.map (·.node) := by
  induction bound with
  | zero => exact fun s => .pure (.refl s)
  | succ bound ih =>
    intro s
    refine hitem.bind (.refl s) fun r s₁ h₁ => ?_
    cases r with
    | none => exact .pure h₁
    | some c => exact ih.bind h₁ fun cs s₂ h₂ => .pure h₂

/-- A parser that only adds nodes leaves no trace where it is taken back. -/
theorem Adding.runs_attempt (hp : Adding p more) (accept : Cursor → Bool) (s : ParserState) :
    Runs (attempt p accept) s (fun r s' => r = none → s' = s) E := by
  refine .attempt ((hp s).mono (fun a s' ha => ?_) fun s' hE _ => hE.rewind_eq)
  split
  · nofun
  · exact fun _ => ha.rewind_eq

end Parser

namespace Grammar

variable {bound : Nat} {parse : Nonterminal → Parser Nat}

/-- The parsers of types only add nodes. -/
structure AddingTypes (parse : Nonterminal → Parser Nat) : Prop where
  type : Adding (parse .type) fun id => [id]
  nullable : Adding (parse .nullableType) fun id => [id]

theorem AddingTypes.commaList (hparse : AddingTypes parse) (close : TokenKind) (bound : Nat) :
    Adding (commaList close (Child.plain <$> parse .type) bound) fun r => r.1.map (·.node) :=
  adding_commaList (fun s => .map (hparse.type s)) bound

theorem adding_typeArguments (hparse : AddingTypes parse) :
    Adding (typeArguments bound parse) fun id => [id] := by
  intro s
  refine .cursor ((adding_expect .lt).step (.refl s) fun _ s₁ h₁ => ?_)
  refine (hparse.commaList .gt bound).bind h₁ fun r s₂ h₂ => ?_
  exact (adding_expect .gt).step h₂ fun _ s₃ h₃ => runs_finish_adds h₃ rfl

/-- What follows a list of types in brackets goes above the list. -/
theorem adding_bracketedType (hparse : AddingTypes parse) {start : Nat} {close : Span}
    {elements : List Child} {trailing : Bool} {s₀ s : ParserState}
    (h : s₀.Adds (elements.map (·.node)) s) :
    Runs (bracketedType parse start close elements trailing) s (fun id => s₀.Adds [id])
      (s₀.Adds []) := by
  refine (adding_eat .arrow).step h fun b s₁ h₁ => ?_
  split
  · -- The list goes below a node of its own before the result is read.
    refine .bind (.of_push ?_)
    have hparams := h₁.push .tensorType ⟨start, close.stop⟩ rfl
    exact hparse.nullable.bind hparams fun result s₂ h₂ => runs_finish_adds h₂ rfl
  · split
    · exact runs_finish_adds h₁ rfl
    · exact runs_finish_adds h₁ rfl

theorem adding_primaryType (hparse : AddingTypes parse) :
    Adding (primaryType bound parse) fun id => [id] := by
  intro s
  refine .cursor ?_
  dsimp only
  split
  · refine (adding_leaf .typeIdentifier).bind (.refl s) fun name s₁ h₁ => .check ?_
    split
    · exact (adding_typeArguments hparse).bind h₁ fun args s₂ h₂ => runs_finish_adds h₂ rfl
    · exact .pure h₁
  · exact adding_leaf .typeIdentifier s
  · refine adding_next.step (.refl s) fun _ s₁ h₁ => ?_
    refine (hparse.commaList .rParen bound).bind h₁ fun r s₂ h₂ => ?_
    exact (adding_expect .rParen).step h₂ fun _ s₃ h₃ => adding_bracketedType hparse h₃
  · refine adding_next.step (.refl s) fun _ s₁ h₁ => ?_
    refine (hparse.commaList .rBracket bound).bind h₁ fun r s₂ h₂ => ?_
    exact (adding_expect .rBracket).step h₂ fun _ s₃ h₃ => runs_finish_adds h₃ rfl
  · exact .fail (.refl s)

theorem adding_nullableType (hparse : AddingTypes parse) :
    Adding (nullableType bound parse) fun id => [id] := by
  intro s
  refine .cursor ((adding_primaryType hparse).bind (.refl s) fun first s₁ h₁ => ?_)
  refine .iterate (I := fun id => s.Adds [id]) (fun inner s₂ h₂ => ?_) bound h₁
  refine (adding_eat .question).step h₂ fun b s₃ h₃ => ?_
  split
  · exact .map (runs_finish_adds h₃ rfl)
  · exact .pure h₃

theorem adding_variant? (hparse : AddingTypes parse) :
    Adding (variant? bound parse) fun r => r.toList.map (·.node) := by
  intro s
  refine (adding_eat .pipe).step (.refl s) fun b s₁ h₁ => ?_
  split
  · refine .map ?_
    exact (adding_nullableType hparse s₁).mono (fun _ _ h₂ => h₁.append h₂)
      fun _ hE => h₁.append hE
  · exact .pure h₁

theorem adding_type (hparse : AddingTypes parse) : Adding (type bound parse) fun id => [id] := by
  intro s
  refine .cursor ((adding_nullableType hparse).bind (.refl s) fun first s₁ h₁ => .check ?_)
  split
  · refine (adding_collect (adding_variant? hparse) bound).bind h₁ fun others s₂ h₂ => ?_
    exact runs_finish_adds h₂ rfl
  · exact .pure h₁

theorem addingTypes_grammar (bound : Nat) : AddingTypes (parser bound) := by
  induction bound with
  | zero => exact ⟨fun s => .fail (.refl s), fun s => .fail (.refl s)⟩
  | succ bound ih => exact ⟨adding_type ih, adding_nullableType ih⟩

/-- At a place a parser of the grammar tries `p`, accepts it by what comes next, and otherwise goes
on as another parser: for the receiver of a method, the type of an object literal, a type as the
pattern of a match arm, and type arguments behind an expression. -/
inductive Tries (bound : Nat) (s : ParserState) :
    {α : Type} → (whole : Parser α) → (p : Parser Nat) → (accept : Cursor → Bool) →
      (otherwise : Parser α) → Prop
  | beforeDot : Tries bound s (receiver? bound (parser bound)) (type bound (parser bound))
      (·.isAt .dot) (pure none)
  | beforeBrace (hnext : s.kindAt 1 = .lt) :
      Tries bound s (nameOrObjectLiteral bound (parser bound)) (type bound (parser bound))
        (·.isAt .lBrace) (leaf .identifier)
  | beforeArrow (helse : s.isAt .kwElse = false) :
      Tries bound s (armPattern bound (parser bound)) (type bound (parser bound))
        (·.isAt .fatArrow) (parser bound .expression)
  | beforeCall (start expr : Nat) (hnext : s.current.kind = .lt) :
      Tries bound s (postfixStep bound (parser bound) start expr)
        (typeArguments bound (parser bound)) (fun c => c.isAt .lParen || c.isAt .dot) (pure none)

namespace Tries

variable {α : Type} {s : ParserState} {whole otherwise : Parser α} {p : Parser Nat}
  {accept : Cursor → Bool}

/-- What is tried only adds nodes. -/
theorem adding (h : Tries bound s whole p accept otherwise) : Adding p fun id => [id] := by
  have hparse := addingTypes_grammar bound
  cases h with
  | beforeDot => exact adding_type hparse
  | beforeBrace => exact adding_type hparse
  | beforeArrow => exact adding_type hparse
  | beforeCall => exact adding_typeArguments hparse

/-- Where nothing comes of what is tried, the parser goes on from the state that is left. -/
theorem whole_eq (h : Tries bound s whole p accept otherwise) {s' : ParserState}
    (hrun : attempt p accept s = (.ok none, s')) : whole s = otherwise s' := by
  cases h with
  | beforeDot =>
    rw [receiver?, run_cursor_bind, run_bind, hrun]
  | beforeBrace hnext =>
    rw [nameOrObjectLiteral, run_cursor_bind, hnext]
    dsimp only
    rw [run_bind, hrun]
  | beforeArrow helse =>
    change (if s.isAt .kwElse = true then _ else _ : Parser Nat) s = _
    rw [helse, if_neg Bool.false_ne_true, run_bind, hrun]
  | beforeCall start expr hnext =>
    rw [postfixStep, run_cursor_bind, hnext]
    dsimp only
    rw [run_bind, hrun]

/-- Where nothing comes of what is tried, the tokens, the errors and all nodes with their links are
as they were, and the parser goes on from there. -/
theorem undone (h : Tries bound s whole p accept otherwise)
    (hnone : (attempt p accept s).1 = .ok none) :
    (attempt p accept s).2 = s ∧ whole s = otherwise s := by
  obtain ⟨s', hrun⟩ : ∃ s', attempt p accept s = (.ok none, s') := ⟨_, Prod.ext hnone rfl⟩
  have hruns := h.adding.runs_attempt (E := fun _ => True) accept s
  rw [Runs, hrun] at hruns
  obtain rfl := hruns rfl
  exact ⟨congrArg Prod.snd hrun, h.whole_eq hrun⟩

/-- A comparison with a union of types behind it, which are read before the closing bracket turns
out not to be followed by a call. -/
theorem undone_comparison :
    let s := (leaf .identifier (initialState (lex "a<b|[c]>d;"))).2
    let p := typeArguments 20 (parser 20)
    let accept : Cursor → Bool := fun c => c.isAt .lParen || c.isAt .dot
    s.current.kind = .lt ∧ (p s).1.toOption = some 5 ∧ (attempt p accept s).1 = .ok none ∧
      (attempt p accept s).2 = s ∧ postfixStep 20 (parser 20) 0 0 s = (.ok none, s) := by
  intro s p accept
  have hnext : s.current.kind = .lt := by decide +kernel
  have hnone : (attempt p accept s).1 = .ok none := by decide +kernel
  have hundone := undone (.beforeCall 0 0 hnext) hnone
  exact ⟨hnext, by decide +kernel, hnone, hundone⟩

end Tries

end Grammar

end TolkAnalysis
