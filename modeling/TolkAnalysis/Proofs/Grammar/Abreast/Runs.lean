import Mathlib.Data.List.Forall2
import TolkAnalysis.Proofs.Grammar.Abreast.Pairing
import TolkAnalysis.Proofs.Grammar.Runs

/-!
# Parsers that run abreast

Two parsers `Meet` at a place of a pairing when they stand there and have built corresponding
nodes and met corresponding errors. `F.Abreast P p m m' V` says of two parsers that meet at the
place `p` with `P` braces open: both succeed or both fail, and in either case they meet again at
a later place, with as many braces open. If they succeed, `V` holds of that place and of their
answers.

There is one lemma for each combinator of the grammar. Nodes are numbered differently by the two
parsers, so answers correspond by `Pairing.node` and `Pairing.child`. The bounds on rounds may
differ as well, as long as both are above the number of tokens to come.
-/

namespace TolkAnalysis

namespace Pairing

open TolkAnalysis.Parser

variable {F : Pairing} {P p q i : Nat} {α α' β β' γ : Type}

/-- The number of a node in the second arena. -/
def node (F : Pairing) (id : Nat) : Nat := id + F.base.size

/-- A child in the second arena. -/
def child (F : Pairing) (c : Child) : Child := c.shift F.base.size

@[simp] theorem child_mk (slot : Option Field) (id : Nat) :
    F.child ⟨slot, id⟩ = ⟨slot, F.node id⟩ := rfl

/-- Corresponding nodes and errors: the second parser had some before. -/
structure Built (F : Pairing) (arena arena' : Arena) (errors errors' : Array ParseError) :
    Prop where
  arena : Arena.Beside F.base F.spans arena arena'
  errors : ∃ later, errors'.toList = F.before ++ later ∧ List.Forall₂ F.errors errors.toList later

/-- Two parsers meet at a place with a number of braces open. -/
structure Meet (F : Pairing) (P p : Nat) (s s' : ParserState) : Prop where
  cursors : F.Cursors p s.toCursor s'.toCursor
  deep : F.Deep P p
  built : F.Built s.arena s'.arena s.errors s'.errors

namespace Built

variable {arena arena' : Arena} {errors errors' : Array ParseError}

theorem push_error (h : F.Built arena arena' errors errors') {error error' : ParseError}
    (herror : F.errors error error') :
    F.Built arena arena' (errors.push error) (errors'.push error') := by
  obtain ⟨later, hlater, hall⟩ := h.errors
  refine ⟨h.arena, later ++ [error'], ?_, ?_⟩
  · rw [Array.toList_push, hlater, List.append_assoc]
  · rw [Array.toList_push]
    exact List.rel_append hall (.cons herror .nil)

theorem errors_size (h : F.Built arena arena' errors errors') :
    errors'.size = errors.size + F.before.length := by
  obtain ⟨later, hlater, hall⟩ := h.errors
  have hlength := congrArg List.length hlater
  rw [List.length_append, ← hall.length_eq, Array.length_toList, Array.length_toList] at hlength
  omega

/-- Corresponding nodes and errors are left when both parsers go back. -/
theorem rewind (h : F.Built arena arena' errors errors') (nodes count : Nat) :
    F.Built (arena.truncate nodes) (arena'.truncate (nodes + F.base.size)) (errors.take count)
      (errors'.take (count + F.before.length)) := by
  obtain ⟨later, hlater, hall⟩ := h.errors
  refine ⟨h.arena.truncate nodes, later.take count, ?_, ?_⟩
  · rw [Array.take_eq_extract, Array.toList_extract, hlater, List.extract_eq_take_drop,
      Nat.sub_zero, List.drop_zero, Nat.add_comm, List.take_length_add_append]
  · rw [Array.take_eq_extract, Array.toList_extract, List.extract_eq_take_drop, Nat.sub_zero,
      List.drop_zero]
    exact List.forall₂_take count hall

end Built

/-- What two parsers come to that go on from a place: they meet again, either with answers or with
errors. -/
inductive Ends (F : Pairing) (P p : Nat) (V : Nat → α → α' → Prop) :
    Except ParseError α × ParserState → Except ParseError α' × ParserState → Prop
  | ok {q : Nat} {a : α} {a' : α'} {t t' : ParserState} (le : p ≤ q) (meet : F.Meet P q t t')
      (value : V q a a') : Ends F P p V (.ok a, t) (.ok a', t')
  | error {q : Nat} {e e' : ParseError} {t t' : ParserState} (le : p ≤ q) (meet : F.Meet P q t t')
      (error : F.errors e e') : Ends F P p V (.error e, t) (.error e', t')

theorem Ends.of_le {V : Nat → α → α' → Prop}
    {r : Except ParseError α × ParserState} {r' : Except ParseError α' × ParserState}
    (h : F.Ends P q V r r') (hle : p ≤ q) : F.Ends P p V r r' := by
  cases h with
  | ok hq ht hV => exact .ok (hle.trans hq) ht hV
  | error hq ht he => exact .error (hle.trans hq) ht he

/-- Two parsers that meet at a place meet again. -/
structure Abreast (F : Pairing) (P p : Nat) (m : Parser α) (m' : Parser α')
    (V : Nat → α → α' → Prop) : Prop where
  run : ∀ {s s' : ParserState}, F.Meet P p s s' → F.Ends P p V (m s) (m' s')

/-- Answers correspond. -/
def Maps (f : α → α') : Nat → α → α' → Prop := fun _ a a' => a' = f a

/-- Answers correspond, and a token has been read. -/
def Moves (p : Nat) (f : α → α') : Nat → α → α' → Prop := fun q a a' => p < q ∧ a' = f a

/-- Answers correspond, and a token has been read if there is one. -/
def Advances (p : Nat) (f : α → α') : Nat → Option α → Option α' → Prop :=
  fun q o o' => o' = o.map f ∧ (o.isSome = true → p < q)

/-- Answers correspond, and one token has been read. -/
def Reads (p : Nat) (f : α → α') : Nat → α → α' → Prop := fun q a a' => q = p + 1 ∧ a' = f a

namespace Abreast

variable {V W : Nat → α → α' → Prop} {U : Nat → β → β' → Prop} {m : Parser α} {m' : Parser α'}
  {f : α → Parser β} {f' : α' → Parser β'}

theorem mono (h : F.Abreast P p m m' V)
    (hVW : ∀ q a a', p ≤ q → V q a a' → W q a a') : F.Abreast P p m m' W := by
  refine ⟨fun {s s'} hs => ?_⟩
  have hrun := h.run hs
  generalize m s = r, m' s' = r' at hrun ⊢
  cases hrun with
  | ok hq ht hV => exact .ok hq ht (hVW _ _ _ hq hV)
  | error hq ht he => exact .error hq ht he

/-- No parsers meet behind the pairs. -/
theorem past (h : F.tokens.length < p) : F.Abreast P p m m' V :=
  ⟨fun hs => absurd hs.cursors.le (Nat.not_le.2 h)⟩

theorem pure {a : α} {a' : α'} (h : V p a a') : F.Abreast P p (Pure.pure a) (Pure.pure a') V :=
  ⟨fun hs => .ok le_rfl hs h⟩

theorem fail (expected : Expected) :
    F.Abreast P p (Parser.fail expected) (Parser.fail expected) V :=
  ⟨fun hs => .error le_rfl hs (hs.cursors.mismatch expected)⟩

/-- Parsers go on abreast where they have met again. -/
theorem bind (h : F.Abreast P p m m' V)
    (hf : ∀ q a a', p ≤ q → V q a a' → F.Abreast P q (f a) (f' a') U) :
    F.Abreast P p (m >>= f) (m' >>= f') U := by
  refine ⟨fun {s s'} hs => ?_⟩
  rw [run_bind, run_bind]
  have hrun := h.run hs
  generalize m s = r, m' s' = r' at hrun ⊢
  cases hrun with
  | ok hq ht hV => exact ((hf _ _ _ hq hV).run ht).of_le hq
  | error hq ht he => exact .error hq ht he

theorem map {g : α → β} {g' : α' → β'} (h : F.Abreast P p m m' V)
    (hg : ∀ q a a', p ≤ q → V q a a' → U q (g a) (g' a')) :
    F.Abreast P p (g <$> m) (g' <$> m') U := by
  rw [map_eq_pure_bind, map_eq_pure_bind]
  exact h.bind fun _ _ _ hq hV => .pure (hg _ _ _ hq hV)

theorem cursor {f : Cursor → Parser β} {f' : Cursor → Parser β'}
    (h : ∀ {c c'}, F.Cursors p c c' → F.Deep P p → F.Abreast P p (f c) (f' c') U) :
    F.Abreast P p (Parser.cursor >>= f) (Parser.cursor >>= f') U :=
  ⟨fun hs => (h hs.cursors hs.deep).run hs⟩

/-- Where a node begins. -/
theorem start {f : Cursor → Parser β} {f' : Cursor → Parser β'}
    (h : ∀ {c c'}, F.Starts p c.start c'.start → F.Abreast P p (f c) (f' c') U) :
    F.Abreast P p (Parser.cursor >>= f) (Parser.cursor >>= f') U :=
  cursor fun hc _ => h hc.start

/-- What a parser goes on with may depend on all that has been built. -/
theorem get {f : ParserState → Parser β} {f' : ParserState → Parser β'}
    (h : ∀ {s s'}, F.Meet P p s s' → F.Abreast P p (f s) (f' s') U) :
    F.Abreast P p (MonadState.get >>= f) (MonadState.get >>= f') U :=
  ⟨fun hs => (h hs).run hs⟩

theorem check {kind : TokenKind} {f : Bool → Parser β} {f' : Bool → Parser β'}
    (hkind : kind.mayFollow = false ∨ F.Mid p) (hend : kind ≠ .endOfFile)
    (htrue : F.kind? p = some kind → F.Abreast P p (f true) (f' true) U)
    (hfalse : F.Abreast P p (f false) (f' false) U) :
    F.Abreast P p (Parser.check kind >>= f) (Parser.check kind >>= f') U := by
  refine ⟨fun {s s'} hs => ?_⟩
  change F.Ends P p U (f (s.isAt kind) s) (f' (s'.isAt kind) s')
  rw [hs.cursors.isAt_eq hkind]
  rcases hat : s.isAt kind with _ | _
  · exact hfalse.run hs
  · exact (htrue (hs.cursors.kind?_of_isAt hend hat)).run hs

/-- Two ways to go on, depending on the next token. -/
theorem ifCheck {kind : TokenKind} {yes no : Parser β} {yes' no' : Parser β'}
    (hkind : kind.mayFollow = false ∨ F.Mid p) (hend : kind ≠ .endOfFile)
    (hyes : F.kind? p = some kind → F.Abreast P p yes yes' U) (hno : F.Abreast P p no no' U) :
    F.Abreast P p (Parser.check kind >>= fun b => if b = true then yes else no)
      (Parser.check kind >>= fun b => if b = true then yes' else no') U :=
  check hkind hend hyes hno

theorem checkWord {word : String} {f : Bool → Parser β} {f' : Bool → Parser β'}
    (hword : word ∈ Token.words)
    (htrue : F.kind? p = some .ident → F.Abreast P p (f true) (f' true) U)
    (hfalse : F.Abreast P p (f false) (f' false) U) :
    F.Abreast P p (Parser.checkWord word >>= f) (Parser.checkWord word >>= f') U := by
  refine ⟨fun {s s'} hs => ?_⟩
  change F.Ends P p U (f (s.isAtWord word) s) (f' (s'.isAtWord word) s')
  rw [hs.cursors.isAtWord_eq hword]
  rcases hat : s.isAtWord word with _ | _
  · exact hfalse.run hs
  · exact (htrue (hs.cursors.kind?_of_isAtWord hat)).run hs

end Abreast

/-! ### Single tokens -/

/-- Reading a pair, the parsers meet behind it. -/
theorem Meet.advance {s s' : ParserState} (h : F.Meet P p s s') {t : Token × Token}
    (ht : F.tokens[p]? = some t) {P' : Nat} (hdeep : F.Deep P' (p + 1)) :
    F.Meet P' (p + 1) s.advance s'.advance :=
  ⟨(h.cursors.advance ht).1, hdeep, h.built⟩

/-- The tokens at a place are not closing braces. -/
def Readable (F : Pairing) (p count : Nat) : Prop :=
  ∀ j < count, ∃ kind, F.kind? (p + j) = some kind ∧ kind ≠ .rBrace

theorem readable_one {kind : TokenKind} (h : F.kind? p = some kind) (hbrace : kind ≠ .rBrace) :
    F.Readable p 1 := by
  intro j hj
  obtain rfl : j = 0 := by omega
  exact ⟨kind, h, hbrace⟩

theorem Readable.succ {kind : TokenKind} {count : Nat} (h : F.Readable (p + 1) count)
    (hkind : F.kind? p = some kind) (hbrace : kind ≠ .rBrace) : F.Readable p (count + 1) := by
  intro j hj
  cases j with
  | zero => exact ⟨kind, hkind, hbrace⟩
  | succ j =>
    rw [show p + (j + 1) = p + 1 + j by omega]
    exact h j (by omega)

namespace Abreast

variable {U : Nat → β → β' → Prop} {kind : TokenKind} {f : Token → Parser β}
  {f' : Token → Parser β'}

/-- The next tokens are read. -/
theorem next (hkind : F.kind? p = some kind) (hbrace : kind ≠ .rBrace)
    (h : ∀ {t}, F.tokens[p]? = some t → F.Abreast P (p + 1) (f t.1) (f' t.2) U) :
    F.Abreast P p (Parser.next >>= f) (Parser.next >>= f') U := by
  refine ⟨fun {s s'} hs => ?_⟩
  obtain ⟨t, ht, -⟩ := exists_token hkind
  obtain ⟨hc, hc'⟩ := hs.cursors.current ht
  have hnext := (h ht).run (hs.advance ht (hs.deep.succ hkind hbrace))
  rw [← hc, ← hc'] at hnext
  exact hnext.of_le (Nat.le_succ p)

theorem expect {f : Span → Parser β} {f' : Span → Parser β'}
    (hkind : kind.mayFollow = false ∨ F.Mid p) (hend : kind ≠ .endOfFile) (hbrace : kind ≠ .rBrace)
    (h : ∀ {t}, F.tokens[p]? = some t → F.kind? p = some kind →
      F.Abreast P (p + 1) (f t.1.span) (f' t.2.span) U) :
    F.Abreast P p (Parser.expect kind >>= f) (Parser.expect kind >>= f') U := by
  unfold Parser.expect
  rw [bind_assoc, bind_assoc]
  refine check hkind hend (fun hat => ?_) ?_
  · simp only [if_true, bind_assoc, pure_bind]
    exact next hat hbrace fun ht => h ht hat
  · simp only [Bool.false_eq_true, if_false]
    exact bind (V := fun _ _ _ => False) (.fail _) fun _ _ _ _ hV => hV.elim

theorem eat {f : Bool → Parser β} {f' : Bool → Parser β'}
    (hkind : kind.mayFollow = false ∨ F.Mid p) (hend : kind ≠ .endOfFile) (hbrace : kind ≠ .rBrace)
    (htrue : F.kind? p = some kind → F.Abreast P (p + 1) (f true) (f' true) U)
    (hfalse : F.Abreast P p (f false) (f' false) U) :
    F.Abreast P p (Parser.eat kind >>= f) (Parser.eat kind >>= f') U := by
  unfold Parser.eat
  rw [bind_assoc, bind_assoc]
  refine check hkind hend (fun hat => ?_) ?_
  · simp only [if_true, bind_assoc, pure_bind]
    refine ⟨fun {s s'} hs => ?_⟩
    obtain ⟨t, ht, -⟩ := exists_token hat
    exact ((htrue hat).run (hs.advance ht (hs.deep.succ hat hbrace))).of_le (Nat.le_succ p)
  · simp only [Bool.false_eq_true, if_false, pure_bind]
    exact hfalse

/-- Two ways to go on, depending on whether a token is read. -/
theorem ifEat {yes no : Parser β} {yes' no' : Parser β'}
    (hkind : kind.mayFollow = false) (hbrace : kind ≠ .rBrace)
    (hyes : F.kind? p = some kind → F.Abreast P (p + 1) yes yes' U)
    (hno : F.Abreast P p no no' U) :
    F.Abreast P p (Parser.eat kind >>= fun b => if b = true then yes else no)
      (Parser.eat kind >>= fun b => if b = true then yes' else no') U :=
  eat (.inl hkind) (by rintro rfl; cases hkind) hbrace hyes hno

/-- A token is read, and the answer is one from before. -/
theorem eat_pure {a : β} {a' : β'} (hkind : kind.mayFollow = false) (hbrace : kind ≠ .rBrace)
    (hread : U (p + 1) a a') (hnone : U p a a') :
    F.Abreast P p (Parser.eat kind >>= fun _ => Pure.pure a)
      (Parser.eat kind >>= fun _ => Pure.pure a') U :=
  .eat (.inl hkind) (by rintro rfl; cases hkind) hbrace (fun _ => .pure hread) (.pure hnone)

end Abreast

/-! ### Nodes -/

namespace Abreast

variable {kind : NodeKind} {token : TokenKind} {children children' : List Child}

theorem push {span span' : Span} (hspan : F.spans span span')
    (hchildren : children' = children.map F.child) :
    F.Abreast P p (Parser.push kind span children) (Parser.push kind span' children')
      (fun q id id' => q = p ∧ id' = F.node id) := by
  subst hchildren
  refine ⟨fun {s s'} hs => ?_⟩
  have hmeet : F.Meet P p { s with arena := s.arena.push kind span children }
      { s' with arena := s'.arena.push kind span' (children.map F.child) } :=
    ⟨hs.cursors, hs.deep, hs.built.arena.push hspan, hs.built.errors⟩
  exact .ok le_rfl hmeet ⟨rfl, hs.built.arena.size_eq⟩

/-- A node above what has been built since a place, behind which a token has been read. Nothing is
read for it. -/
theorem finish_here {start start' : Nat} (hstart : F.Starts i start start') (hi : i < p)
    (hchildren : children' = children.map F.child) :
    F.Abreast P p (Parser.finish kind start children) (Parser.finish kind start' children')
      (fun q id id' => q = p ∧ id' = F.node id) := by
  refine cursor fun {c c'} hc _ => ?_
  obtain ⟨j, rfl⟩ := Nat.exists_eq_succ_of_ne_zero (Nat.ne_of_gt (Nat.lt_of_le_of_lt (Nat.zero_le i) hi))
  have hj : j < F.tokens.length := hc.le
  have hu := List.getElem?_eq_getElem hj
  have ht := List.getElem?_eq_getElem (Nat.lt_of_le_of_lt (Nat.le_of_lt_succ hi) hj)
  obtain ⟨hstop, hstop'⟩ := hc.previousStop hu
  obtain ⟨rfl, rfl⟩ := hstart _ ht
  have hspan := (F.between (Nat.le_of_lt_succ hi) ht hu).2.1
  rw [hstop, hstop']
  exact push hspan hchildren

/-- A node above what has been built since a place, behind which a token has been read. -/
theorem finish {start start' : Nat} (hstart : F.Starts i start start') (hi : i < p)
    (hchildren : children' = children.map F.child) :
    F.Abreast P p (Parser.finish kind start children) (Parser.finish kind start' children')
      (Moves i F.node) := by
  refine (finish_here hstart hi hchildren).mono ?_
  rintro q id id' - ⟨rfl, hid⟩
  exact ⟨hi, hid⟩

/-- A node that a loop over operators puts above what it has read. -/
theorem some_finish {start start' : Nat} (hstart : F.Starts i start start') (hiq : i ≤ q)
    (hq : q < p) (hchildren : children' = children.map F.child) :
    F.Abreast P p (some <$> Parser.finish kind start children)
      (some <$> Parser.finish kind start' children') (Advances q F.node) :=
  (finish_here hstart (Nat.lt_of_le_of_lt hiq hq) hchildren).map fun _ id _ _ ⟨hr, hid⟩ =>
    ⟨by rw [hid]; rfl, fun _ => hr ▸ hq⟩

theorem leaf (htoken : F.kind? p = some token) (hbrace : token ≠ .rBrace) :
    F.Abreast P p (Parser.leaf kind) (Parser.leaf kind) (Reads p F.node) :=
  next htoken hbrace fun ht => push (F.between le_rfl ht ht).1 rfl

theorem leaf_moves (htoken : F.kind? p = some token) (hbrace : token ≠ .rBrace) :
    F.Abreast P p (Parser.leaf kind) (Parser.leaf kind) (Moves p F.node) :=
  (leaf htoken hbrace).mono fun _ _ _ _ ⟨hq, hid⟩ => ⟨hq ▸ Nat.lt_succ_self p, hid⟩

theorem expectName :
    F.Abreast P p (Parser.expectName kind) (Parser.expectName kind)
      (fun q id id' => F.kind? p = some .ident ∧ Reads p F.node q id id') := by
  refine check (.inl rfl) (by decide) (fun hat => ?_) (.fail _)
  exact (leaf hat (by decide)).mono fun _ _ _ _ hV => ⟨hat, hV⟩

/-! ### Optional and repeated parts -/

/-- A parser that is taken back leaves both parsers where they were. -/
theorem attempt {m m' : Parser Nat} (h : F.Abreast P p m m' (Moves p F.node))
    {accept : Cursor → Bool} {A : Nat → Prop}
    (haccept : ∀ q c c', p < q → F.Cursors q c c' →
      accept c' = accept c ∧ (accept c = true → A q)) :
    F.Abreast P p (Parser.attempt m accept) (Parser.attempt m' accept)
      (fun q o o' => o' = o.map F.node ∧ (o.isSome = true → p < q ∧ A q) ∧
        (o.isSome = false → q = p)) := by
  refine ⟨fun {s s'} hs => ?_⟩
  have hback : ∀ {q t t'}, F.Meet P q t t' →
      F.Meet P p (t.rewind s.checkpoint) (t'.rewind s'.checkpoint) := by
    intro q t t' ht
    refine ⟨hs.cursors, hs.deep, ?_⟩
    have hbuilt := ht.built.rewind s.arena.size s.errors.size
    rw [← hs.built.arena.size_eq, ← hs.built.errors_size] at hbuilt
    exact hbuilt
  have hrun := h.run hs
  unfold Parser.attempt
  dsimp only
  generalize m s = r, m' s' = r' at hrun ⊢
  cases hrun with
  | @ok q a a' t t' hq ht hV =>
      obtain ⟨hlt, rfl⟩ := hV
      obtain ⟨hsame, hA⟩ := haccept q _ _ hlt ht.cursors
      dsimp only
      rw [hsame]
      rcases haccepts : accept t.toCursor with _ | _
      · exact .ok le_rfl (hback ht) ⟨rfl, nofun, fun _ => rfl⟩
      · exact .ok hq ht ⟨rfl, fun _ => ⟨hlt, hA haccepts⟩, nofun⟩
  | error hq ht he => exact .ok le_rfl (hback ht) ⟨rfl, nofun, fun _ => rfl⟩

/-- A loop with a node as its value. -/
theorem iterate {step step' : Nat → Parser (Option Nat)} {bound bound' : Nat}
    (hstep : ∀ q id, p ≤ q →
      F.Abreast P q (step id) (step' (F.node id)) (Advances q F.node))
    (hb : F.tokens.length < p + bound) (hb' : F.tokens.length < p + bound') (id : Nat) :
    F.Abreast P p (Parser.iterate step bound id) (Parser.iterate step' bound' (F.node id))
      (Maps F.node) := by
  induction bound generalizing p bound' id with
  | zero => exact past hb
  | succ bound ih =>
    cases bound' with
    | zero => exact past hb'
    | succ bound' =>
      refine bind (hstep p id le_rfl) fun q o _ hq ⟨ho, hlt⟩ => ?_
      subst ho
      cases o with
      | none => exact .pure rfl
      | some id₁ =>
        have hlt := hlt rfl
        exact ih (fun r id₂ hr => hstep r id₂ (hq.trans hr)) (by omega) (by omega) id₁

/-- Items that are read as long as a property of the place is kept. -/
theorem collect_keeping {A : Nat → Prop} {item : Parser (Option α)} {item' : Parser (Option α')}
    {f : α → α'} {bound bound' : Nat}
    (hitem : ∀ q, p ≤ q → A q →
      F.Abreast P q item item' fun r o o' => Advances q f r o o' ∧ A r)
    (hb : F.tokens.length < p + bound) (hb' : F.tokens.length < p + bound') (hA : A p) :
    F.Abreast P p (Parser.collect item bound) (Parser.collect item' bound')
      (fun q as as' => Maps (List.map f) q as as' ∧ A q) := by
  induction bound generalizing p bound' with
  | zero => exact past hb
  | succ bound ih =>
    cases bound' with
    | zero => exact past hb'
    | succ bound' =>
      refine bind (hitem p le_rfl hA) fun q o _ hq ⟨⟨ho, hlt⟩, hAq⟩ => ?_
      subst ho
      cases o with
      | none => exact .pure ⟨rfl, hAq⟩
      | some a =>
        have hlt := hlt rfl
        refine bind (ih (fun r hr => hitem r (hq.trans hr)) (by omega) (by omega) hAq)
          fun r as _ _ ⟨has, hAr⟩ => ?_
        subst has
        exact .pure ⟨rfl, hAr⟩

/-- Where there is an item, some token is read. -/
theorem collect_first {A : Nat → Prop} {item : Parser (Option α)} {item' : Parser (Option α')}
    {f : α → α'} {bound bound' : Nat}
    (hfirst : F.Abreast P p item item' fun q o o' =>
      ∃ a, o = some a ∧ o' = some (f a) ∧ p < q ∧ A q)
    (hitem : ∀ q, p ≤ q → A q →
      F.Abreast P q item item' fun r o o' => Advances q f r o o' ∧ A r)
    (hb : F.tokens.length < p + bound) (hb' : F.tokens.length < p + bound') :
    F.Abreast P p (Parser.collect item bound) (Parser.collect item' bound')
      (fun q as as' => p < q ∧ Maps (List.map f) q as as' ∧ A q) := by
  cases bound with
  | zero => exact past hb
  | succ bound =>
    cases bound' with
    | zero => exact past hb'
    | succ bound' =>
      refine bind hfirst ?_
      rintro q _ _ - ⟨a, rfl, rfl, hlt, hAq⟩
      refine bind (collect_keeping (fun r hr => hitem r (by omega)) (by omega) (by omega) hAq)
        fun r as _ hr ⟨has, hAr⟩ => ?_
      subst has
      exact .pure ⟨by omega, rfl, hAr⟩

theorem collect {item : Parser (Option α)} {item' : Parser (Option α')} {f : α → α'}
    {bound bound' : Nat} (hitem : ∀ q, p ≤ q → F.Abreast P q item item' (Advances q f))
    (hb : F.tokens.length < p + bound) (hb' : F.tokens.length < p + bound') :
    F.Abreast P p (Parser.collect item bound) (Parser.collect item' bound')
      (Maps (List.map f)) :=
  (collect_keeping (A := fun _ => True)
    (fun q hq _ => (hitem q hq).mono fun _ _ _ _ hV => ⟨hV, trivial⟩) hb hb' trivial).mono
    fun _ _ _ _ hV => hV.1

theorem commaList {close : TokenKind} {item : Parser α} {item' : Parser α'} {f : α → α'}
    {bound bound' : Nat} (hclose : close.mayFollow = false)
    (hitem : ∀ q, p ≤ q → F.Abreast P q item item' (Moves q f))
    (hb : F.tokens.length < p + bound) (hb' : F.tokens.length < p + bound') :
    F.Abreast P p (Parser.commaList close item bound) (Parser.commaList close item' bound')
      (Maps (Prod.map (List.map f) id)) := by
  have hend : close ≠ .endOfFile := by
    rintro rfl
    cases hclose
  induction bound generalizing p bound' with
  | zero => exact past hb
  | succ bound ih =>
    cases bound' with
    | zero => exact past hb'
    | succ bound' =>
      refine ifCheck (.inl hclose) hend (fun _ => .pure rfl) ?_
      refine bind (hitem p le_rfl) fun q a _ hq ⟨hlt, ha⟩ => ?_
      subst ha
      refine ifEat rfl (by decide) (fun _ => ?_) (.pure rfl)
      refine ifCheck (.inl hclose) hend (fun _ => .pure rfl) ?_
      refine bind (ih (fun r hr => hitem r (by omega)) (by omega) (by omega))
        fun r as _ _ has => ?_
      subst has
      exact .pure rfl

/-- An item that is read where `here` holds, as long as a property of the place is kept. -/
theorem whenAt_keeping {A : Nat → Prop} {here : Cursor → Bool} {item : Parser α}
    {item' : Parser α'} {f : α → α'}
    (hitem : ∀ c c', F.Cursors p c c' → F.Deep P p → here c' = here c ∧
      (here c = true → F.Abreast P p item item' fun q a a' => Moves p f q a a' ∧ A q))
    (hA : A p) :
    F.Abreast P p (Parser.whenAt here item) (Parser.whenAt here item')
      (fun q o o' => Advances p f q o o' ∧ A q) := by
  refine cursor fun {c c'} hc hdeep => ?_
  obtain ⟨hsame, hmoves⟩ := hitem c c' hc hdeep
  rw [hsame]
  rcases hhere : here c with _ | _
  · exact .pure ⟨⟨rfl, nofun⟩, hA⟩
  · refine bind (hmoves hhere) fun q a _ _ ⟨⟨hlt, ha⟩, hAq⟩ => .pure ⟨⟨?_, fun _ => hlt⟩, hAq⟩
    rw [ha]
    rfl

theorem whenAt {here : Cursor → Bool} {item : Parser α} {item' : Parser α'} {f : α → α'}
    (hitem : ∀ c c', F.Cursors p c c' → F.Deep P p →
      here c' = here c ∧ (here c = true → F.Abreast P p item item' (Moves p f))) :
    F.Abreast P p (Parser.whenAt here item) (Parser.whenAt here item') (Advances p f) :=
  (whenAt_keeping (A := fun _ => True) (fun c c' hc hdeep =>
    ⟨(hitem c c' hc hdeep).1, fun hhere =>
      ((hitem c c' hc hdeep).2 hhere).mono fun _ _ _ _ hV => ⟨hV, trivial⟩⟩) trivial).mono
    fun _ _ _ _ hV => hV.1

theorem mark? {slot : Field} {here : Cursor → Bool}
    (hhere : ∀ c c', F.Cursors p c c' → here c' = here c ∧ (here c = true → F.kind? p = some .ident)) :
    F.Abreast P p (Parser.mark? slot kind here) (Parser.mark? slot kind here)
      (Maps (List.map F.child)) := by
  refine cursor fun {c c'} hc _ => ?_
  obtain ⟨hsame, hident⟩ := hhere c c' hc
  rw [hsame]
  rcases hat : here c with _ | _
  · exact .pure rfl
  · refine bind (leaf (hident hat) (by decide)) fun q id _ _ ⟨_, hid⟩ => .pure ?_
    rw [hid]
    rfl

theorem after? {slot : Field} {m m' : Parser Nat}
    (htoken : token.mayFollow = false) (hbrace : token ≠ .rBrace)
    (h : ∀ q, p < q → F.Abreast P q m m' (Moves q F.node)) :
    F.Abreast P p (Parser.after? token slot m) (Parser.after? token slot m')
      (Maps (List.map F.child)) := by
  have hend : token ≠ .endOfFile := by
    rintro rfl
    cases htoken
  refine eat (.inl htoken) hend hbrace (fun _ => ?_) (.pure rfl)
  refine bind (h (p + 1) (Nat.lt_succ_self p)) fun q id _ _ ⟨_, hid⟩ => .pure ?_
  rw [hid]
  rfl

theorem skipSeparators {bound bound' : Nat} (hb : F.tokens.length < p + bound)
    (hb' : F.tokens.length < p + bound') :
    F.Abreast P p (Parser.skipSeparators bound) (Parser.skipSeparators bound') (Maps id) := by
  induction bound generalizing p bound' with
  | zero => exact past hb
  | succ bound ih =>
    cases bound' with
    | zero => exact past hb'
    | succ bound' =>
      refine eat (.inl rfl) (by decide) (by decide) (fun _ => ih (by omega) (by omega)) ?_
      exact eat (.inl rfl) (by decide) (by decide) (fun _ => ih (by omega) (by omega)) (.pure rfl)

/-! ### Operators of several tokens -/

/-- Skipping tokens ends with the place of the last one. -/
theorem skip {count : Nat} (hkinds : F.Readable p count)
    {j : Nat} (hij : i ≤ j) {u : Token × Token} (hu : F.tokens[j]? = some u) (hip : i ≤ p) :
    F.Abreast P p (Parser.skip count u.1.span) (Parser.skip count u.2.span)
      (fun q span span' => q = p + count ∧ ∃ j t, i ≤ j ∧ F.tokens[j]? = some t ∧
        span = t.1.span ∧ span' = t.2.span) := by
  induction count generalizing p j u with
  | zero => exact .pure ⟨rfl, j, u, hij, hu, rfl, rfl⟩
  | succ count ih =>
    obtain ⟨k, hk, hbrace⟩ := hkinds 0 (Nat.succ_pos count)
    refine next hk hbrace fun {t} ht => ?_
    refine (ih (fun j hj => ?_) hip ht (by omega)).mono ?_
    · rw [Nat.add_right_comm]
      exact hkinds (j + 1) (Nat.succ_lt_succ hj)
    · rintro q span span' - ⟨rfl, h⟩
      exact ⟨by omega, h⟩

theorem operator {count : Nat} (hcount : 0 < count)
    (hkinds : F.Readable p count) :
    F.Abreast P p (Parser.operator count) (Parser.operator count) (Moves p F.node) := by
  obtain ⟨k, hk, -⟩ := hkinds 0 hcount
  obtain ⟨t, ht, -⟩ := exists_token hk
  refine cursor fun {c c'} hc _ => ?_
  obtain ⟨hcurrent, hcurrent'⟩ := hc.current ht
  dsimp only
  rw [hcurrent, hcurrent']
  refine bind (skip hkinds le_rfl ht le_rfl) ?_
  rintro q span span' - ⟨rfl, j, u, hj, hu, rfl, rfl⟩
  refine (push (F.between hj ht hu).2.2 rfl).mono ?_
  rintro r id id' - ⟨rfl, hid⟩
  exact ⟨by omega, hid⟩

end Abreast

/-! ### Braces -/

theorem Meet.weaken {s s' : ParserState} {P' : Nat} (h : F.Meet P p s s') (hle : P' ≤ P) :
    F.Meet P' p s s' := { h with deep := h.deep.mono hle }

/-- Parsers that meet with one more brace open than there are open in the end. -/
structure Closes (F : Pairing) (P p : Nat) (m : Parser α) (m' : Parser α')
    (V : Nat → α → α' → Prop) : Prop where
  run : ∀ {s s' : ParserState}, F.Meet (P + 1) p s s' → F.Ends P p V (m s) (m' s')

section

variable {V : Nat → α → α' → Prop} {U : Nat → β → β' → Prop} {m : Parser α} {m' : Parser α'}
  {f : α → Parser β} {f' : α' → Parser β'} {g : Span → Parser β} {g' : Span → Parser β'}

/-- An opening brace is read. -/
theorem Abreast.expect_lBrace (h : F.kind? p = some .lBrace → ∀ {t}, F.tokens[p]? = some t →
      F.Closes P (p + 1) (g t.1.span) (g' t.2.span) U) :
    F.Abreast P p (Parser.expect .lBrace >>= g) (Parser.expect .lBrace >>= g') U := by
  unfold Parser.expect
  rw [bind_assoc, bind_assoc]
  refine .check (.inl rfl) (by decide) (fun hat => ?_) ?_
  · refine ⟨fun {s s'} hs => ?_⟩
    obtain ⟨t, ht, -⟩ := exists_token hat
    obtain ⟨hc, hc'⟩ := hs.cursors.current ht
    have hrun := (h hat ht).run (hs.advance ht (hs.deep.succ_of_lBrace hat))
    rw [← hc, ← hc'] at hrun
    exact hrun.of_le (Nat.le_succ p)
  · simp only [Bool.false_eq_true, if_false]
    exact .bind (V := fun _ _ _ => False) (.fail _) fun _ _ _ _ hV => hV.elim

/-- What stands between braces is read with one more brace open. -/
theorem Closes.bind (h : F.Abreast (P + 1) p m m' V)
    (hf : ∀ q a a', p ≤ q → V q a a' → F.Closes P q (f a) (f' a') U) :
    F.Closes P p (m >>= f) (m' >>= f') U := by
  refine ⟨fun {s s'} hs => ?_⟩
  rw [run_bind, run_bind]
  have hrun := h.run hs
  generalize m s = r, m' s' = r' at hrun ⊢
  cases hrun with
  | ok hq ht hV => exact ((hf _ _ _ hq hV).run ht).of_le hq
  | error hq ht he => exact .error hq (ht.weaken (Nat.le_succ P)) he

/-- A closing brace is read. -/
theorem Closes.expect_rBrace (h : ∀ {t}, F.tokens[p]? = some t →
      F.Abreast P (p + 1) (g t.1.span) (g' t.2.span) U) :
    F.Closes P p (Parser.expect .rBrace >>= g) (Parser.expect .rBrace >>= g') U := by
  refine ⟨fun {s s'} hs => ?_⟩
  have hsame : s'.isAt .rBrace = s.isAt .rBrace := hs.cursors.isAt_eq (.inl rfl)
  unfold Parser.expect
  rw [bind_assoc, bind_assoc]
  change F.Ends P p U (((if s.isAt .rBrace = true then _ else _) >>= g) s)
    (((if s'.isAt .rBrace = true then _ else _) >>= g') s')
  rw [hsame]
  split
  · rename_i hat
    have hkind := hs.cursors.kind?_of_isAt (by decide) hat
    obtain ⟨t, ht, -⟩ := exists_token hkind
    obtain ⟨hc, hc'⟩ := hs.cursors.current ht
    have hrun := (h ht).run (hs.advance ht (hs.deep.pred_of_rBrace hkind))
    rw [← hc, ← hc'] at hrun
    exact hrun.of_le (Nat.le_succ p)
  · exact .error le_rfl (hs.weaken (Nat.le_succ P)) (hs.cursors.mismatch _)

end

/-! ### What cannot be read -/

namespace Abreast

/-- An error is handled where both parsers have failed. -/
theorem tryCatch {V : Nat → α → α' → Prop} {m : Parser α} {m' : Parser α'}
    {handle : ParseError → Parser α} {handle' : ParseError → Parser α'}
    (h : F.Abreast P p m m' V)
    (hhandle : ∀ q e e', p ≤ q → F.errors e e' → F.Abreast P q (handle e) (handle' e') V) :
    F.Abreast P p (MonadExcept.tryCatch m handle) (MonadExcept.tryCatch m' handle') V := by
  refine ⟨fun {s s'} hs => ?_⟩
  rw [run_tryCatch, run_tryCatch]
  have hrun := h.run hs
  generalize m s = r, m' s' = r' at hrun ⊢
  cases hrun with
  | ok hq ht hV => exact .ok hq ht hV
  | error hq ht he => exact ((hhandle _ _ _ hq he).run ht).of_le hq

end Abreast

/-- One round of skipping. -/
theorem run_skipTo (stop : TokenKind → Bool) (bound depth : Nat) (consumed : Bool)
    (s : ParserState) :
    Parser.skipTo stop (bound + 1) depth consumed s =
      if s.current.kind = .endOfFile ∨ (depth = 0 ∧ consumed = true ∧ stop s.current.kind = true) ∨
          (s.current.kind = .rBrace ∧ depth = 0) then (.ok consumed, s)
      else Parser.skipTo stop bound
        (if s.current.kind = .lBrace then depth + 1
          else if s.current.kind = .rBrace then depth - 1 else depth) true s.advance := by
  rw [Parser.skipTo]
  change (if _ then Pure.pure consumed else _ : Parser Bool) s = _
  simp only [Bool.or_eq_true, Bool.and_eq_true, beq_iff_eq, or_assoc, and_assoc]
  split
  · rfl
  · rfl

/-- Skipping ends at the same place, with no more braces open than before the construct that
cannot be read. The lists do not part before it ends: between braces they go on, and outside
braces skipping stops before a declaration. -/
theorem Meet.skipTo {stop : TokenKind → Bool}
    (hstop : 0 < P ∨ ∀ kind, kind.startsItem = true → stop kind = true) {bound bound' depth : Nat}
    {consumed : Bool} {s s' : ParserState} (hs : F.Meet (P + depth) p s s')
    (hb : F.tokens.length < p + bound) (hb' : F.tokens.length < p + bound')
    (hconsumed : consumed = true ∨ p < F.tokens.length) :
    ∃ b q t t', Parser.skipTo stop bound depth consumed s = (.ok b, t) ∧
      Parser.skipTo stop bound' depth consumed s' = (.ok b, t') ∧ p ≤ q ∧ F.Meet P q t t' ∧
      (b = true ∧ (consumed = true ∨ p < q) ∨ b = false ∧ consumed = false ∧ q = p) := by
  induction bound generalizing bound' p depth consumed s s' with
  | zero => exact absurd hs.cursors.le (Nat.not_le.2 hb)
  | succ bound ih =>
    obtain ⟨bound', rfl⟩ : ∃ n, bound' = n + 1 := by
      have hle := hs.cursors.le
      exact ⟨bound' - 1, by omega⟩
    rw [run_skipTo, run_skipTo]
    obtain ⟨t, ht, hc, hc'⟩ | ⟨rfl, hc, hc'⟩ := hs.cursors.cases
    · have hkind := kind?_of_token ht
      rw [hc, hc', ← (same_of_token ht).1]
      generalize t.1.kind = kind at hkind
      split
      · refine ⟨consumed, p, s, s', rfl, rfl, le_rfl, hs.weaken (Nat.le_add_right P depth), ?_⟩
        cases consumed with
        | true => exact .inl ⟨rfl, .inl rfl⟩
        | false => exact .inr ⟨rfl, rfl, rfl⟩
      · rename_i hgoesOn
        simp only [not_or, not_and] at hgoesOn
        have hdeep : F.Deep (P + if kind = .lBrace then depth + 1
            else if kind = .rBrace then depth - 1 else depth) (p + 1) := by
          split
          · subst kind
            exact hs.deep.succ_of_lBrace hkind
          · split
            · subst kind
              obtain ⟨depth, rfl⟩ := Nat.exists_eq_succ_of_ne_zero (hgoesOn.2.2 rfl)
              exact hs.deep.pred_of_rBrace hkind
            · exact hs.deep.succ hkind ‹_›
        have hb₁ : F.tokens.length < p + 1 + bound := by omega
        have hb₁' : F.tokens.length < p + 1 + bound' := by omega
        obtain ⟨b, q, u, u', hu, hu', hq, hmeet, hread⟩ :=
          ih (hs.advance ht hdeep) hb₁ hb₁' (.inl rfl)
        obtain rfl : b = true := hread.elim (·.1) fun hfalse => absurd hfalse.2.1 nofun
        exact ⟨true, q, u, u', hu, hu', by omega, hmeet, .inl ⟨rfl, .inr hq⟩⟩
    · obtain rfl : consumed = true := hconsumed.resolve_right (lt_irrefl _)
      have hends' : F.stop'.kind = .endOfFile ∨ (depth = 0 ∧ true = true ∧ stop F.stop'.kind = true) ∨
          (F.stop'.kind = .rBrace ∧ depth = 0) := by
        have hkind := F.stop'_kind
        rcases hgoes : F.goesOn with _ | _
        · rw [hgoes] at hkind
          exact .inl hkind
        · rw [hgoes] at hkind
          have hzero : P + depth = 0 := hs.deep.eq_zero hgoes
          have hstopAll := hstop.resolve_left (Nat.not_lt.2 (by omega))
          exact .inr (.inl ⟨by omega, rfl, hstopAll _ hkind⟩)
      rw [hc, hc', if_pos (.inl F.stop_kind), if_pos hends']
      exact ⟨true, _, s, s', rfl, rfl, le_rfl, hs.weaken (Nat.le_add_right P depth),
        .inl ⟨rfl, .inl rfl⟩⟩

namespace Abreast

variable {stop : TokenKind → Bool} {bound bound' : Nat}

/-- The state is changed in a corresponding way. -/
theorem modify {g g' : ParserState → ParserState} {f : Unit → Parser β} {f' : Unit → Parser β'}
    {U : Nat → β → β' → Prop} (hg : ∀ {s s'}, F.Meet P p s s' → F.Meet P q (g s) (g' s'))
    (hpq : p ≤ q) (h : F.Abreast P q (f ()) (f' ()) U) :
    F.Abreast P p (modify g >>= f) (modify g' >>= f') U :=
  ⟨fun hs => (h.run (hg hs)).of_le hpq⟩

theorem skipTo (hstop : 0 < P ∨ ∀ kind, kind.startsItem = true → stop kind = true)
    (hb : F.tokens.length < p + bound) (hb' : F.tokens.length < p + bound') {consumed : Bool}
    (hconsumed : consumed = true ∨ p < F.tokens.length) :
    F.Abreast P p (Parser.skipTo stop bound 0 consumed) (Parser.skipTo stop bound' 0 consumed)
      (fun q b b' => b' = b ∧
        (b = true ∧ (consumed = true ∨ p < q) ∨ b = false ∧ consumed = false ∧ q = p)) := by
  refine ⟨fun {s s'} hs => ?_⟩
  have hs₀ : F.Meet (P + 0) p s s' := hs
  obtain ⟨b, q, t, t', ht, ht', hq, hmeet, hread⟩ := Meet.skipTo hstop hs₀ hb hb' hconsumed
  rw [ht, ht']
  exact .ok hq hmeet ⟨rfl, hread⟩

/-- What cannot be read is covered by corresponding nodes. At least one token has been read
then. -/
theorem recover (hstop : 0 < P ∨ ∀ kind, kind.startsItem = true → stop kind = true)
    {error error' : ParseError} {earlier earlier' : Checkpoint} (herror : F.errors error error')
    (hcursors : F.Cursors i earlier.toCursor earlier'.toCursor)
    (hnodes : earlier'.nodes = earlier.nodes + F.base.size) (hip : i ≤ p)
    (hi : i < F.tokens.length) (hbrace : P = 0 ∨ F.kind? i ≠ some .rBrace)
    (hb : F.tokens.length < p + bound) (hb' : F.tokens.length < p + bound') :
    F.Abreast P p (Parser.recover bound error earlier stop)
      (Parser.recover bound' error' earlier' stop) (Moves i F.node) := by
  refine modify (q := p) (fun {s s'} hs => ?_) le_rfl ?_
  · have hbuilt := hs.built.push_error herror
    refine ⟨hs.cursors, hs.deep, ?_, hbuilt.errors⟩
    dsimp only
    rw [hnodes]
    exact hbuilt.arena.truncate _
  · refine cursor fun {c c'} hc _ => ?_
    dsimp only
    have hmoved : decide (c.rest.length < earlier.rest.length) = decide (i < p) ∧
        decide (c'.rest.length < earlier'.rest.length) = decide (i < p) := by
      have hrest := hc.rest_length
      have hearlier := hcursors.rest_length
      constructor <;> rw [decide_eq_decide] <;> omega
    rw [hmoved.1, hmoved.2]
    refine bind (skipTo hstop hb hb' (by rw [decide_eq_true_eq]; omega)) ?_
    rintro q _ b hq ⟨rfl, hread⟩
    have hread' : b = true ∧ i < q ∨ b = false ∧ q = i := by
      rcases hread with ⟨hread, hmoved | hlt⟩ | ⟨hread, hmoved, rfl⟩
      · rw [decide_eq_true_eq] at hmoved
        exact .inl ⟨hread, by omega⟩
      · exact .inl ⟨hread, by omega⟩
      · rw [decide_eq_false_iff_not] at hmoved
        exact .inr ⟨hread, by omega⟩
    rcases hread' with ⟨rfl, hlt⟩ | ⟨rfl, rfl⟩
    · exact finish hcursors.start hlt rfl
    · -- Nothing has been skipped: the token at which reading has failed is read.
      have ht := List.getElem?_eq_getElem hi
      refine modify (q := q + 1) (fun {s s'} hs => hs.advance ht ?_) (Nat.le_succ q)
        (finish hcursors.start (Nat.lt_succ_self q) rfl)
      rcases hbrace with rfl | hbrace
      · exact deep_zero _
      · exact hs.deep.succ (kind?_of_token ht) fun heq => hbrace (heq ▸ kind?_of_token ht)

end Abreast

end Pairing

end TolkAnalysis
