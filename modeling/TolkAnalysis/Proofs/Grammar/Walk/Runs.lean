import TolkAnalysis.Proofs.Grammar.Walk.Steps

/-!
# How parsers walk

`Walks tokens z p` says that a parser keeps to the steps of a zone, `WalksTo` says in addition how
tight the node is that it builds, and `Concludes` is for what may end with a semicolon: until then it
is a phrase, and where the parser fails it has not come to the semicolon.

There is one lemma for each combinator of the grammar. The lemmas about `Steps` put them together:
they go on from the steps that have been made.
-/

namespace TolkAnalysis

open TolkAnalysis.Parser

variable {α β : Type} {tokens : List Token} {z : Zone} {s₀ s s' : ParserState} {p q : Parser α}
  {f : α → Parser β} {R : β → ParserState → Prop} {E : ParserState → Prop} {kind : TokenKind}
  {tight level : Nat}

/-- A parser keeps to the steps of a zone. -/
def Walks (tokens : List Token) (z : Zone) (p : Parser α) : Prop :=
  ∀ s, s.rest <:+ tokens → Runs p s (fun _ s' => Steps tokens z s s') (Steps tokens z s)

/-- A parser keeps to the steps of a phrase and builds a node that is tight enough. -/
def WalksTo (tokens : List Token) (tight level : Nat) (p : Parser Nat) : Prop :=
  ∀ s, s.rest <:+ tokens → Runs p s
    (fun id s' => Steps tokens .phrase s s' ∧ s'.arena.Rated tokens tight level id)
    (Steps tokens .phrase s)

/-- A parser that fails has kept to the steps of a phrase. -/
def Concludes (tokens : List Token) (z : Zone) (p : Parser α) : Prop :=
  ∀ s, s.rest <:+ tokens → Runs p s (fun _ s' => Steps tokens z s s') (Steps tokens .phrase s)

theorem WalksTo.walks {p : Parser Nat} (h : WalksTo tokens tight level p) :
    Walks tokens .phrase p :=
  fun s hs => (h s hs).mono (fun _ _ hid => hid.1) fun _ hE => hE

theorem Walks.intro (h : ∀ s, Steps tokens z s s →
    Runs p s (fun _ s' => Steps tokens z s s') (Steps tokens z s)) : Walks tokens z p :=
  fun s hs => h s (.refl hs)

theorem WalksTo.intro {p : Parser Nat} (h : ∀ s, Steps tokens .phrase s s → Runs p s
    (fun id s' => Steps tokens .phrase s s' ∧ s'.arena.Rated tokens tight level id)
    (Steps tokens .phrase s)) : WalksTo tokens tight level p :=
  fun s hs => h s (.refl hs)

theorem Concludes.intro (h : ∀ s, Steps tokens .phrase s s →
    Runs p s (fun _ s' => Steps tokens z s s') (Steps tokens .phrase s)) : Concludes tokens z p :=
  fun s hs => h s (.refl hs)

theorem Walks.weaken (h : Walks tokens .phrase p) : Walks tokens z p :=
  fun s hs => (h s hs).mono (fun _ _ ha => (Steps.refl hs).append ha)
    fun _ hE => (Steps.refl hs).append hE

theorem Walks.concludes (h : Walks tokens .phrase p) : Concludes tokens z p :=
  fun s hs => (h s hs).mono (fun _ _ ha => (Steps.refl hs).append ha) fun _ hE => hE

namespace Steps

/-! ### Going on after some steps -/

theorem bindIn (h : Steps tokens z s₀ s) (hp : Walks tokens z p)
    (hf : ∀ a s', Steps tokens z s₀ s' → s.arena.Extends s'.arena →
      Runs (f a) s' R (Steps tokens z s₀)) : Runs (p >>= f) s R (Steps tokens z s₀) :=
  .bind ((hp s h.rest_suffix).mono (fun a s' ha => hf a s' (h.trans ha) ha.arena_extends)
    fun _ hE => h.trans hE)

theorem bind (h : Steps tokens z s₀ s) (hp : Walks tokens .phrase p)
    (hf : ∀ a s', Steps tokens z s₀ s' → s.arena.Extends s'.arena →
      Runs (f a) s' R (Steps tokens z s₀)) : Runs (p >>= f) s R (Steps tokens z s₀) :=
  h.bindIn hp.weaken hf

/-- A node is built that is tight enough. -/
theorem bindTo {p : Parser Nat} {f : Nat → Parser β} (h : Steps tokens z s₀ s)
    (hp : WalksTo tokens tight level p)
    (hf : ∀ id s', Steps tokens z s₀ s' → s.arena.Extends s'.arena →
      s'.arena.Rated tokens tight level id → Runs (f id) s' R (Steps tokens z s₀)) :
    Runs (p >>= f) s R (Steps tokens z s₀) :=
  .bind ((hp s h.rest_suffix).mono
    (fun id s' hid => hf id s' (h.append hid.1) hid.1.arena_extends hid.2) fun _ hE => h.append hE)

/-- The last one of several parsers. -/
theorem last (h : Steps tokens z s₀ s) (hp : Walks tokens .phrase p) :
    Runs p s (fun _ s' => Steps tokens z s₀ s') (Steps tokens z s₀) :=
  (hp s h.rest_suffix).mono (fun _ _ ha => h.append ha) fun _ hE => h.append hE

theorem weaken (h : Steps tokens .phrase s₀ s) : Steps tokens z s₀ s :=
  (Steps.refl h.begin_suffix).append h

/-- What ends with a semicolon comes last. -/
theorem conclude (h : Steps tokens .phrase s₀ s) (hp : Concludes tokens z p)
    (hf : ∀ a s', Steps tokens z s₀ s' → Runs (f a) s' R (Steps tokens .phrase s₀)) :
    Runs (p >>= f) s R (Steps tokens .phrase s₀) :=
  .bind ((hp s h.rest_suffix).mono (fun a s' ha => hf a s' (h.weaken.trans ha))
    fun _ hE => h.append hE)

/-! ### Single tokens -/

theorem advance (h : Steps tokens z s₀ s) (hat : s.isAt kind = true)
    (hkind : kind.isSilent = true) : Steps tokens z s₀ s.advance :=
  h.read (by rwa [Cursor.current_kind_eq_of_isAt hat])

theorem eat {p q : Parser β} (h : Steps tokens z s₀ s) (hkind : kind.isSilent = true)
    (hp : Steps tokens z s₀ s.advance → Runs p s.advance R E) (hq : Runs q s R E) :
    Runs (Parser.eat kind >>= fun b => if b = true then p else q) s R E :=
  .eat (fun hat => hp (h.advance hat hkind)) fun _ => hq

theorem expect {f : Span → Parser β} (h : Steps tokens z s₀ s) (hkind : kind.isSilent = true)
    (hf : ∀ span, Steps tokens z s₀ s.advance →
      Runs (f span) s.advance R (Steps tokens z s₀)) :
    Runs (Parser.expect kind >>= f) s R (Steps tokens z s₀) :=
  .expect (fun hat => hf _ (h.advance hat hkind)) fun _ => h

theorem next {f : Token → Parser β} (h : Steps tokens z s₀ s)
    (hkind : s.current.kind.isSilent = true)
    (hf : ∀ t, Steps tokens z s₀ s.advance → Runs (f t) s.advance R E) :
    Runs (Parser.next >>= f) s R E := .bind (.next (hf _ (h.read hkind)))

/-- It is only looked whether a token comes next. -/
theorem check {p q : Parser β} (hp : s.isAt kind = true → Runs p s R E)
    (hq : s.isAt kind = false → Runs q s R E) :
    Runs (Parser.check kind >>= fun b => if b = true then p else q) s R E := by
  refine .check ?_
  cases hat : s.isAt kind with
  | true => exact hp hat
  | false => exact hq hat

/-- The semicolon at the end. -/
theorem expectSemi {f : Span → Parser β} (h : Steps tokens .phrase s₀ s) (hz : z ≠ .phrase)
    (hf : ∀ span, Steps tokens z s₀ s.advance →
      Runs (f span) s.advance R (Steps tokens .phrase s₀)) :
    Runs (Parser.expect .semi >>= f) s R (Steps tokens .phrase s₀) :=
  .expect (fun hat => hf _ (h.weaken.semi hz hat)) fun _ => h

/-- A semicolon that may be missing. -/
theorem eatSemi {f : Bool → Parser β} (h : Steps tokens z s₀ s) (hz : z ≠ .phrase)
    (hf : ∀ b s', Steps tokens z s₀ s' → Runs (f b) s' R E) :
    Runs (Parser.eat .semi >>= f) s R E := by
  refine .bind (.check ?_)
  cases hat : s.isAt .semi with
  | true => exact .bind (.of_modify (hf true _ (h.semi hz hat)))
  | false => exact hf false _ h

/-! ### Nodes -/

theorem push {kind : NodeKind} {span : Span} {children : List Child} {f : Nat → Parser β}
    (h : Steps tokens z s₀ s) (hkind : kind.isFree = true)
    (hf : ∀ id s', Steps tokens z s₀ s' → Runs (f id) s' R E) :
    Runs (Parser.push kind span children >>= f) s R E :=
  .bind (.of_push (hf _ _ (h.node (.of_isFree hkind))))

theorem finish {kind : NodeKind} {start : Nat} {children : List Child} (h : Steps tokens z s₀ s)
    (hkind : kind.isFree = true) :
    Runs (Parser.finish kind start children) s (fun _ s' => Steps tokens z s₀ s') E :=
  .finish (h.node (.of_isFree hkind))

/-- A node is put above parts that are tight enough. -/
theorem finishRanks {kind : NodeKind} {start : Nat} {children : List Child}
    (h : Steps tokens z s₀ s) (hranks : s.arena.Ranks tokens kind children)
    (htight : tight ≤ kind.tightness) (hkind : kind ≠ .binaryOperator) :
    Runs (Parser.finish kind start children) s
      (fun id s' => Steps tokens z s₀ s' ∧ s'.arena.Rated tokens tight level id) E :=
  .finish ⟨h.node hranks, Arena.rated_push htight hkind⟩

theorem leafTo {kind : NodeKind} (h : Steps tokens z s₀ s)
    (hcurrent : s.current.kind.isPlain = true) (hkind : kind.isFree = true)
    (htight : tight ≤ kind.tightness) :
    Runs (Parser.leaf kind) s
      (fun id s' => Steps tokens z s₀ s' ∧ s'.arena.Rated tokens tight level id) E := by
  refine .bind (.next (.of_push ⟨h.leaf hcurrent hkind, Arena.rated_push htight ?_⟩))
  rintro rfl
  cases hkind

theorem leafLast {kind : NodeKind} (h : Steps tokens z s₀ s)
    (hcurrent : s.current.kind.isPlain = true) (hkind : kind.isFree = true) :
    Runs (Parser.leaf kind) s (fun _ s' => Steps tokens z s₀ s') E :=
  .bind (.next (.of_push (h.leaf hcurrent hkind)))

theorem leafBind {kind : NodeKind} {f : Nat → Parser β} (h : Steps tokens z s₀ s)
    (hcurrent : s.current.kind.isPlain = true) (hkind : kind.isFree = true)
    (hf : ∀ id s', Steps tokens z s₀ s' → Runs (f id) s' R E) :
    Runs (Parser.leaf kind >>= f) s R E :=
  .leaf (hf _ _ (h.leaf hcurrent hkind))

/-- What stands between braces is read in any zone. -/
theorem braces {f : Span → α → Span → Parser β} (h : Steps tokens z s₀ s)
    (hp : Walks tokens .body p)
    (hf : ∀ a span span' s', Steps tokens z s₀ s' →
      Runs (f span a span') s' R (Steps tokens z s₀)) :
    Runs (do
      let span ← Parser.expect .lBrace
      let a ← p
      let span' ← Parser.expect .rBrace
      f span a span') s R (Steps tokens z s₀) := by
  refine .expect (fun hopen => ?_) fun _ => h
  have hsuffix : s.advance.rest <:+ tokens :=
    (Cursor.Passes.token hopen (by decide)).rest_suffix.trans h.rest_suffix
  refine .bind ((hp s.advance hsuffix).mono (fun a s₁ hinside => ?_) fun _ hE => h.opened hopen hE)
  exact .expect (fun hclose => hf _ _ _ _ (h.closed hopen hinside hclose))
    fun _ => h.opened hopen hinside

end Steps

/-! ### Optional and repeated parts -/

theorem walks_map {f : α → β} (hp : Walks tokens z p) : Walks tokens z (f <$> p) :=
  fun s hs => .map (hp s hs)

theorem walks_expectName {kind : NodeKind} (hkind : kind.isFree = true) :
    Walks tokens .phrase (expectName kind) := by
  refine .intro fun s h => Steps.check (fun hat => ?_) fun _ => .fail h
  exact h.leafLast (by rw [Cursor.current_kind_eq_of_isAt hat]; rfl) hkind

theorem walks_after? {slot : Field} {p : Parser Nat} (hkind : kind.isSilent = true)
    (hp : Walks tokens .phrase p) : Walks tokens .phrase (after? kind slot p) := by
  exact .intro fun s h => h.eat hkind (fun h => h.bind hp fun _ _ h' _ => .pure h') (.pure h)

theorem walks_mark? {slot : Field} {kind : NodeKind} {here : Cursor → Bool}
    (hhere : ∀ c, here c = true → c.current.kind.isPlain = true) (hkind : kind.isFree = true) :
    Walks tokens .phrase (mark? slot kind here) := by
  refine .intro fun s h => .cursor ?_
  split
  · exact h.leafBind (hhere _ (by assumption)) hkind fun _ _ h => .pure h
  · exact .pure h

/-- What is tried either is read, or the parser stands where it stood. -/
theorem Steps.attempt {accept : Cursor → Bool} {f : Option α → Parser β}
    (h : Steps tokens z s₀ s) (hp : Walks tokens .phrase p)
    (hsome : ∀ a s', Steps tokens z s₀ s' → s.arena.Extends s'.arena →
      accept s'.toCursor = true → Runs (f (some a)) s' R E)
    (hnone : ∀ s', Steps tokens z s₀ s' → s.arena.Extends s'.arena →
      s'.toCursor = s.toCursor → Runs (f none) s' R E) :
    Runs (Parser.attempt p accept >>= f) s R E := by
  have hback : ∀ s₁, Steps tokens .phrase s s₁ →
      Runs (f none) (s₁.rewind s.checkpoint) R E := fun s₁ h₁ =>
    hnone _ (h.back h₁) (h₁.arena_extends.truncate le_rfl) rfl
  refine .bind (.attempt ((hp s h.rest_suffix).mono (fun a s' ha => ?_) hback))
  split
  · exact hsome a s' (h.append ha) ha.arena_extends (by assumption)
  · exact hback s' ha

theorem walks_whenAt {here : Cursor → Bool} (hp : Walks tokens z p) :
    Walks tokens z (whenAt here p) := by
  refine .intro fun s h => .cursor ?_
  split
  · exact h.bindIn hp fun _ _ h _ => .pure h
  · exact .pure h

theorem walks_collect {p : Parser (Option α)} (hp : Walks tokens z p) (bound : Nat) :
    Walks tokens z (collect p bound) := by
  induction bound with
  | zero => exact fun s hs => .pure (.refl hs)
  | succ bound ih =>
    refine .intro fun s h => h.bindIn hp fun r s₁ h₁ _ => ?_
    cases r with
    | none => exact .pure h₁
    | some a => exact h₁.bindIn ih fun _ _ h₂ _ => .pure h₂

theorem walks_commaList {close : TokenKind} (hp : Walks tokens .phrase p) (bound : Nat) :
    Walks tokens .phrase (commaList close p bound) := by
  induction bound with
  | zero => exact fun s hs => .pure (.refl hs)
  | succ bound ih =>
    refine .intro fun s h => Steps.check (fun _ => .pure h) fun _ => ?_
    refine h.bind hp fun a s₁ h₁ _ => ?_
    refine h₁.eat rfl (fun h₂ => Steps.check (fun _ => .pure h₂) fun _ => ?_) (.pure h₁)
    exact h₂.bind ih fun _ _ h₃ _ => .pure h₃

/-- Between braces, semicolons are read as well. -/
theorem walks_skipSeparators (bound : Nat) : Walks tokens .body (skipSeparators bound) := by
  induction bound with
  | zero => exact fun s hs => .pure (.refl hs)
  | succ bound ih =>
    refine .intro fun s hbegin => ?_
    have hagain : ∀ {s'}, Steps tokens .body s s' →
        Runs (skipSeparators bound) s' (fun _ s'' => Steps tokens .body s s'')
          (Steps tokens .body s) := fun h =>
      (ih _ h.rest_suffix).mono (fun _ _ h' => h.trans h') fun _ hE => h.trans hE
    refine hbegin.eat rfl hagain (.eat (fun hat => ?_) fun _ => .pure hbegin)
    exact hagain (hbegin.semi (by decide) hat)

end TolkAnalysis
