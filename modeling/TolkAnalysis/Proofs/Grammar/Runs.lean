import TolkAnalysis.Proofs.Grammar.Built

/-!
# What parsers build

`Runs p s Q E` is the outcome of a parser: `Q` of its answer and the state after it, or `E` of
the state where it fails. `Yields text p read parts children` says what a parser builds from
any sound state, and `Parses text p kinds` that it builds a single node.

There is one lemma for each combinator of the grammar. `Built.seq` puts them together: what a
parser builds is added to what has been built before it.
-/

namespace TolkAnalysis

namespace Parser

open ParserState

variable {α β : Type} {text : String}

/-- How a parser runs that is followed by another one. -/
theorem run_bind (p : Parser α) (f : α → Parser β) (s : ParserState) :
    (p >>= f) s = match p s with
      | (.ok a, s') => f a s'
      | (.error e, s') => (.error e, s') := by
  change (match p s with | (r, s') => ExceptT.bindCont f r s') = _
  rcases p s with ⟨_ | _, _⟩ <;> rfl

theorem run_get_bind (f : ParserState → Parser β) (s : ParserState) :
    (MonadState.get >>= f) s = f s s := rfl

theorem run_cursor_bind (f : Cursor → Parser β) (s : ParserState) :
    (cursor >>= f) s = f s.toCursor s := rfl

/-- How a parser runs whose failure is handled. -/
theorem run_tryCatch (p : Parser α) (handle : ParseError → Parser α) (s : ParserState) :
    (MonadExcept.tryCatch p handle : Parser α) s = match p s with
      | (.ok a, s') => (.ok a, s')
      | (.error e, s') => handle e s' := by
  change ExceptT.tryCatch p handle s = _
  rcases hp : p s with ⟨_ | _, _⟩
  · simp [ExceptT.tryCatch, ExceptT.mk, StateT.bind, Bind.bind, hp]
  · simp [ExceptT.tryCatch, ExceptT.mk, StateT.bind, Bind.bind, hp]
    rfl

/-- The outcome of a parser: `Q` of its answer and the state after it, or `E` of the state
where it fails. -/
def Runs (p : Parser α) (s : ParserState) (Q : α → ParserState → Prop)
    (E : ParserState → Prop) : Prop :=
  match p s with
  | (.ok a, s') => Q a s'
  | (.error _, s') => E s'

/-- What a parser builds from any sound state. -/
def Yields (text : String) (p : Parser α) (read : α → Bool) (parts : List Part)
    (children : α → List Child) : Prop :=
  ∀ s, s.Sound text →
    Runs p s (fun a s' => Built text s (read a) parts (children a) s') (Reaches text s)

/-- From any sound state a parser builds one node. -/
def Parses (text : String) (p : Parser Nat) (kinds : NodeKind → Bool) : Prop :=
  ∀ s, s.Sound text → Runs p s (Made text s kinds) (Reaches text s)

namespace Runs

variable {p : Parser α} {f : α → Parser β} {s : ParserState} {Q Q' : α → ParserState → Prop}
  {R : β → ParserState → Prop} {E E' : ParserState → Prop}

theorem mono (h : Runs p s Q E) (hQ : ∀ a s', Q a s' → Q' a s') (hE : ∀ s', E s' → E' s') :
    Runs p s Q' E' := by
  unfold Runs at *
  split <;> simp_all

theorem pure {a : α} (h : Q a s) : Runs (Pure.pure a) s Q E := h

theorem bind (h : Runs p s (fun a s' => Runs (f a) s' R E) E) : Runs (p >>= f) s R E := by
  unfold Runs at h ⊢
  rw [run_bind]
  rcases hp : p s with ⟨_ | _, _⟩ <;> simpa [hp] using h

theorem map {g : α → β} (h : Runs p s (fun a s' => R (g a) s') E) : Runs (g <$> p) s R E := by
  rw [map_eq_pure_bind]
  exact bind h

theorem cursor {f : Cursor → Parser β} (h : Runs (f s.toCursor) s R E) :
    Runs (Parser.cursor >>= f) s R E := bind h

theorem get {f : ParserState → Parser β} (h : Runs (f s) s R E) :
    Runs (MonadState.get >>= f) s R E := bind h

theorem of_modify {g : ParserState → ParserState} {Q : Unit → ParserState → Prop}
    (h : Q () (g s)) : Runs (modify g) s Q E := h

theorem of_push {kind : NodeKind} {span : Span} {children : List Child}
    {Q : Nat → ParserState → Prop}
    (h : Q s.arena.size { s with arena := s.arena.push kind span children }) :
    Runs (push kind span children) s Q E := h

theorem check {kind : TokenKind} {f : Bool → Parser β} (h : Runs (f (s.isAt kind)) s R E) :
    Runs (Parser.check kind >>= f) s R E := bind h

theorem checkWord {word : String} {f : Bool → Parser β}
    (h : Runs (f (s.isAtWord word)) s R E) : Runs (Parser.checkWord word >>= f) s R E := bind h

theorem fail {expected : Expected} (h : E s) : Runs (Parser.fail expected) s Q E := h

theorem next {Q : Token → ParserState → Prop} (h : Q s.current s.advance) :
    Runs Parser.next s Q E := h

theorem attempt {accept : Cursor → Bool} {Q : Option α → ParserState → Prop}
    (h : Runs p s (fun a s' => if accept s'.toCursor then Q (some a) s'
      else Q none (s'.rewind s.checkpoint)) (fun s' => Q none (s'.rewind s.checkpoint))) :
    Runs (Parser.attempt p accept) s Q E := by
  unfold Runs Parser.attempt at *
  rcases hp : p s with ⟨_ | a, s'⟩
  · simpa [hp] using h
  · by_cases haccept : accept s'.toCursor = true <;> simpa [hp, haccept] using h

theorem tryCatch {handle : ParseError → Parser α}
    (h : Runs p s Q fun s' => ∀ error, Runs (handle error) s' Q E) :
    Runs (MonadExcept.tryCatch p handle) s Q E := by
  unfold Runs at h ⊢
  rw [run_tryCatch]
  rcases hp : p s with ⟨_ | _, _⟩
  · simp only [hp] at h ⊢
    exact h _
  · simpa [hp] using h

/-- A loop keeps what each of its rounds keeps. -/
theorem iterate {step : α → Parser (Option α)} {I : α → ParserState → Prop}
    (hstep : ∀ a s, I a s → Runs (step a) s (fun r s' => I (r.getD a) s') E) (bound : Nat)
    {a : α} {s : ParserState} (h : I a s) : Runs (Parser.iterate step bound a) s I E := by
  induction bound generalizing a s with
  | zero => exact h
  | succ bound ih =>
    refine bind ((hstep a s h).mono ?_ fun _ hE => hE)
    rintro (_ | a') s' hI
    · exact hI
    · exact ih hI

end Runs

end Parser

namespace ParserState

open TolkAnalysis.Parser

variable {α β : Type} {text : String} {s s₀ s' : ParserState} {read : Bool}
  {parts parts' : List Part} {children children' : List Child} {kinds kinds' : NodeKind → Bool}
  {kind : NodeKind} {p : Parser α} {f : α → Parser β} {R : β → ParserState → Prop}
  {E : ParserState → Prop}

theorem Made.of_only {id : Nat} (h : Made text s (NodeKind.only kind) id s')
    (hkind : kinds kind = true) : Made text s kinds id s' :=
  h.mono fun k hk => by rwa [NodeKind.only_iff.1 hk]

/-- Reading on after a node is built. -/
theorem Made.step {id : Nat} {reads : α → Bool} (h : Made text s₀ kinds id s)
    (hp : Yields text p reads [] fun _ => [])
    (hf : ∀ a s', Made text s₀ kinds id s' → Runs (f a) s' R (Reaches text s₀)) :
    Runs (p >>= f) s R (Reaches text s₀) :=
  .bind ((hp s h.reaches.sound).mono (fun a s' ha => hf a s' (h.then_reads ha))
    fun _ hE => h.reaches.trans hE)

namespace Built

/-- What a parser builds is added to what has been built before it. -/
theorem seq {reads : α → Bool} {new : α → List Child}
    (h : Built text s₀ read parts children s) (hp : Yields text p reads parts' new)
    (hf : ∀ a s', Built text s₀ (read || reads a) (parts ++ parts') (children ++ new a) s' →
      Runs (f a) s' R (Reaches text s₀)) : Runs (p >>= f) s R (Reaches text s₀) :=
  .bind ((hp s h.sound).mono (fun a s' ha => hf a s' (h.append ha))
    fun _ hE => h.toReaches.trans hE)

/-- What a parser builds of a part is added to what has been built of it before. -/
theorem seq_many {slot : Option Field} {reads : α → Bool} {new : α → List Child}
    (h : Built text s₀ read [⟨.many, slot, kinds⟩] children s)
    (hp : Yields text p reads [⟨.many, slot, kinds⟩] new)
    (hf : ∀ a s', Built text s₀ (read || reads a) [⟨.many, slot, kinds⟩] (children ++ new a) s' →
      Runs (f a) s' R (Reaches text s₀)) : Runs (p >>= f) s R (Reaches text s₀) :=
  .bind ((hp s h.sound).mono (fun a s' ha => hf a s' (h.append_many ha))
    fun _ hE => h.toReaches.trans hE)

/-- A parser that builds nothing only reads on. -/
theorem step {reads : α → Bool} (h : Built text s₀ read parts children s)
    (hp : Yields text p reads [] fun _ => [])
    (hf : ∀ a s', Built text s₀ (read || reads a) parts children s' →
      Runs (f a) s' R (Reaches text s₀)) : Runs (p >>= f) s R (Reaches text s₀) :=
  .bind ((hp s h.sound).mono (fun a s' ha => hf a s' (h.then_reads ha))
    fun _ hE => h.toReaches.trans hE)

/-- A node that a parser builds becomes the next child. -/
theorem node_of {p : Parser Nat} {f : Nat → Parser β} (h : Built text s₀ read parts children s)
    (slot : Option Field) (hp : Runs p s (Made text s kinds) (Reaches text s))
    (hf : ∀ id s', Built text s₀ true (parts ++ [⟨.one, slot, kinds⟩])
      (children ++ [⟨slot, id⟩]) s' → Runs (f id) s' R (Reaches text s₀)) :
    Runs (p >>= f) s R (Reaches text s₀) :=
  .bind (hp.mono (fun id s' hid => hf id s' ((h.append (hid slot)).of_read fun _ => by simp))
    fun _ hE => h.toReaches.trans hE)

/-- A node that a parser builds from any state becomes the next child. -/
theorem node {p : Parser Nat} {f : Nat → Parser β} (h : Built text s₀ read parts children s)
    (slot : Option Field) (hp : Parses text p kinds)
    (hf : ∀ id s', Built text s₀ true (parts ++ [⟨.one, slot, kinds⟩])
      (children ++ [⟨slot, id⟩]) s' → Runs (f id) s' R (Reaches text s₀)) :
    Runs (p >>= f) s R (Reaches text s₀) :=
  h.node_of slot (hp s h.sound) hf

/-- The first node that is built, after tokens have been read. -/
theorem first {p : Parser Nat} {f : Nat → Parser β} (h : Built text s₀ read [] [] s)
    (hp : Parses text p kinds)
    (hf : ∀ id s', Made text s₀ kinds id s' → Runs (f id) s' R (Reaches text s₀)) :
    Runs (p >>= f) s R (Reaches text s₀) :=
  .bind ((hp s h.sound).mono (fun id s' hid => hf id s' (hid.after h))
    fun _ hE => h.toReaches.trans hE)

/-- The next token, which does not end the file, is read. -/
theorem next {f : Token → Parser β} (h : Built text s₀ read parts children s)
    (hkind : s.current.kind ≠ .endOfFile)
    (hf : Built text s₀ true parts children s.advance →
      Runs (f s.current) s.advance R E) : Runs (Parser.next >>= f) s R E :=
  .bind (.next (hf ((h.then_reads (.advance h.sound hkind)).of_read fun _ => by simp)))

/-- A node is put above everything that is built. -/
theorem finish {R : Nat → ParserState → Prop} (h : Built text s₀ true parts children s)
    (hparts : parts = kind.parts) (hchildren : children' = children)
    (hR : ∀ id s', Made text s₀ (NodeKind.only kind) id s' → R id s') :
    Runs (Parser.finish kind s₀.start children') s R E := by
  subst hparts hchildren
  refine .cursor ?_
  rw [Nat.max_eq_left (h.moved rfl).le]
  exact hR _ _ (h.push (.refl h.sound) rfl)

/-- A node is put above everything that is built, as the last step of a parser. -/
theorem made (h : Built text s₀ true parts children s) (hkind : kinds kind = true)
    (hparts : parts = kind.parts) (hchildren : children' = children) :
    Runs (Parser.finish kind s₀.start children') s (Made text s₀ kinds) E :=
  h.finish hparts hchildren fun _ _ hmade => hmade.of_only hkind

end Built

end ParserState

namespace Parser

open ParserState

variable {α β : Type} {text : String} {s s' : ParserState} {kinds kinds' : NodeKind → Bool}
  {kind : NodeKind} {slot : Option Field}

/-! ### Single tokens -/

theorem yields_eat {kind : TokenKind} (hkind : kind ≠ .endOfFile) :
    Yields text (eat kind) id [] fun _ => [] := by
  intro s hs
  refine .check ?_
  split
  · rename_i hat
    refine .bind (.of_modify (.pure (Built.advance hs ?_)))
    rwa [Cursor.current_kind_eq_of_isAt hat]
  · exact .pure (.nil hs)

/-- A token that is expected is read, up to where it ends. -/
theorem runs_expect {kind : TokenKind} (hkind : kind ≠ .endOfFile) (hs : s.Sound text) :
    Runs (expect kind) s
      (fun span s' => Built text s true [] [] s' ∧ span.stop = s'.previousStop)
      (Reaches text s) := by
  refine .check ?_
  split
  · rename_i hat
    have hcurrent : s.current.kind ≠ .endOfFile := by
      rwa [Cursor.current_kind_eq_of_isAt hat]
    refine .bind (.next (.pure ⟨.advance hs hcurrent, ?_⟩))
    rw [(hs.cursor.current_span hcurrent).2.1]
    rfl
  · exact .fail (.refl hs)

/-- A token is expected after what has been built before it. -/
theorem runs_expect_bind {f : Span → Parser β} {R : β → ParserState → Prop} {s₀ : ParserState}
    {read : Bool} {parts : List Part} {children : List Child} {kind : TokenKind}
    (h : Built text s₀ read parts children s) (hkind : kind ≠ .endOfFile)
    (hf : ∀ span s', span.stop = s'.previousStop → Built text s₀ true parts children s' →
      Runs (f span) s' R (Reaches text s₀)) :
    Runs (expect kind >>= f) s R (Reaches text s₀) :=
  .bind ((runs_expect hkind h.sound).mono
    (fun span s' hspan => hf span s' hspan.2 ((h.then_reads hspan.1).of_read fun _ => by simp))
    fun _ hE => h.toReaches.trans hE)

theorem yields_expect {kind : TokenKind} (hkind : kind ≠ .endOfFile) :
    Yields text (expect kind) (fun _ => true) [] fun _ => [] :=
  fun _ hs => (runs_expect hkind hs).mono (fun _ _ h => h.1) fun _ hE => hE

/-- A token that does not end the file is read as a node. -/
theorem runs_leaf {E : ParserState → Prop} (hs : s.Sound text)
    (hcurrent : s.current.kind ≠ .endOfFile) (hparts : kind.parts = [])
    (hkind : kinds kind = true) : Runs (leaf kind) s (Made text s kinds) E := by
  have hbuilt : Built text s true kind.parts [] s.advance := hparts ▸ .advance hs hcurrent
  refine .bind (.next ?_)
  rw [(hs.cursor.current_span hcurrent).2.1]
  exact (hbuilt.push (.refl hbuilt.sound) rfl).of_only hkind

/-- A token read as a node, with more to follow. -/
theorem runs_leaf_bind {f : Nat → Parser β} {R : β → ParserState → Prop} {E : ParserState → Prop}
    (hs : s.Sound text) (hcurrent : s.current.kind ≠ .endOfFile) (hparts : kind.parts = [])
    (hf : ∀ id s', Made text s (NodeKind.only kind) id s' → Runs (f id) s' R E) : Runs (leaf kind >>= f) s R E := by
  have hleaf : Runs (leaf kind) s (Made text s (NodeKind.only kind)) E :=
    runs_leaf hs hcurrent hparts (by simp [NodeKind.only])
  exact .bind (hleaf.mono hf fun _ hE => hE)

/-- The first node that a parser builds, with more to follow. -/
theorem Parses.bind {p : Parser Nat} {f : Nat → Parser β} {R : β → ParserState → Prop}
    (hp : Parses text p kinds) (hs : s.Sound text)
    (hf : ∀ id s', Made text s kinds id s' → Runs (f id) s' R (Reaches text s)) :
    Runs (p >>= f) s R (Reaches text s) :=
  .bind ((hp s hs).mono hf fun _ hE => hE)

theorem Parses.mono {p : Parser Nat} (hp : Parses text p kinds)
    (hkinds : ∀ k, kinds k = true → kinds' k = true) : Parses text p kinds' :=
  fun s hs => (hp s hs).mono (fun _ _ h => h.mono hkinds) fun _ hE => hE

/-- A node of one kind is of any class that the kind belongs to. -/
theorem Parses.of_only {p : Parser Nat} (hp : Parses text p (NodeKind.only kind))
    (hkind : kinds kind = true) : Parses text p kinds :=
  fun s hs => (hp s hs).mono (fun _ _ h => h.of_only hkind) fun _ hE => hE

theorem parses_expectName (hparts : kind.parts = []) :
    Parses text (expectName kind) (NodeKind.only kind) := by
  intro s hs
  refine .check ?_
  split
  · rename_i hat
    refine runs_leaf hs ?_ hparts (by simp [NodeKind.only])
    rw [Cursor.current_kind_eq_of_isAt hat]
    decide
  · exact .fail (.refl hs)

/-! ### Optional and repeated parts -/

/-- A parser that is taken back leaves the state as it was. -/
theorem runs_attempt {E : ParserState → Prop} {p : Parser Nat} {accept : Cursor → Bool}
    (hp : Parses text p kinds) (hs : s.Sound text) :
    Runs (attempt p accept) s
      (fun r s' => match r with
        | some id => Made text s kinds id s' ∧ accept s'.toCursor = true
        | none => s' = s) E := by
  refine .attempt ((hp s hs).mono (fun id s' hid => ?_) fun s' hE => hE.rewind_eq)
  split
  · exact ⟨hid, by assumption⟩
  · exact hid.reaches.rewind_eq

theorem Parses.map_plain {p : Parser Nat} (hp : Parses text p kinds) :
    Yields text (Child.plain <$> p) (fun _ => true) [⟨.one, none, kinds⟩] fun c => [c] :=
  fun s hs => .map ((hp s hs).mono (fun _ _ h => h none) fun _ hE => hE)

/-- One child is among any number of children. -/
theorem Yields.many {α : Type} {p : Parser α} {read : α → Bool} {new : α → List Child}
    {count : Multiplicity} (hp : Yields text p read [⟨count, slot, kinds⟩] new) :
    Yields text p read [⟨.many, slot, kinds⟩] new :=
  fun s hs => (hp s hs).mono (fun _ _ h => h.of_fits Fits.many_of) fun _ hE => hE

theorem yields_after? {close : TokenKind} {p : Parser Nat} {slot : Field}
    (hclose : close ≠ .endOfFile) (hp : Parses text p kinds) :
    Yields text (after? close slot p) (fun _ => false) [.optional slot kinds] id := by
  intro s hs
  refine (Built.nil hs).step (yields_eat hclose) fun b s₁ h₁ => ?_
  split
  · refine h₁.node (some slot) hp fun id s₂ h₂ => .pure ?_
    exact (h₂.of_fits Fits.optional_of_one).of_read (by simp)
  · exact .pure ((h₁.of_fits fun _ => Fits.optional_nil _ _).unread)

theorem yields_mark? {slot : Field} {here : Cursor → Bool}
    (hhere : ∀ c, here c = true → c.current.kind ≠ .endOfFile)
    (hparts : kind.parts = []) :
    Yields text (mark? slot kind here) (fun _ => false) [.optional slot (NodeKind.only kind)]
      id := by
  intro s hs
  refine .cursor ?_
  split
  · refine runs_leaf_bind hs (hhere _ (by assumption)) hparts fun id s' h => .pure ?_
    exact ((h (some slot)).of_fits Fits.optional_of_one).unread
  · exact .pure ((Built.nil hs).of_fits fun _ => Fits.optional_nil _ _)

theorem yields_whenAt {α : Type} {item : Parser α} {here : Cursor → Bool} {read : α → Bool}
    {new : α → List Child} {slot : Option Field}
    (hitem : ∀ s, s.Sound text → here s.toCursor = true → Runs item s
      (fun a s' => Built text s (read a) [⟨.many, slot, kinds⟩] (new a) s') (Reaches text s)) :
    Yields text (whenAt here item) (fun _ => false) [⟨.many, slot, kinds⟩]
      fun r => (r.map new).getD [] := by
  intro s hs
  refine .cursor ?_
  split
  · refine .bind ((hitem s hs (by assumption)).mono (fun a s' h => .pure ?_) fun _ hE => hE)
    exact h.of_read (by simp)
  · exact .pure ((Built.nil hs).of_fits fun _ => Fits.many_nil _ _)

/-- What is collected is built one after the other. -/
theorem yields_collect {α : Type} {item : Parser (Option α)} {new : α → List Child}
    {slot : Option Field} (bound : Nat)
    (hitem : Yields text item (fun _ => false) [⟨.many, slot, kinds⟩]
      fun r => (r.map new).getD []) :
    Yields text (collect item bound) (fun _ => false) [⟨.many, slot, kinds⟩]
      fun as => as.flatMap new := by
  induction bound with
  | zero => exact fun s hs => .pure ((Built.nil hs).of_fits fun _ => Fits.many_nil _ _)
  | succ bound ih =>
    intro s hs
    refine .bind ((hitem s hs).mono (fun r s₁ h₁ => ?_) fun _ hE => hE)
    cases r with
    | none => exact .pure h₁
    | some a =>
      refine .bind ((ih s₁ h₁.sound).mono (fun as s₂ h₂ => .pure ?_)
        fun _ hE => h₁.toReaches.trans hE)
      simpa using h₁.append_many h₂

/-- Where an item comes next, collecting reads it. -/
theorem runs_collect_whenAt {α : Type} {item : Parser α} {here : Cursor → Bool} {bound : Nat}
    {new : α → List Child} {slot : Option Field}
    (hitem : ∀ s, s.Sound text → here s.toCursor = true → Runs item s
      (fun a s' => Built text s true [⟨.many, slot, kinds⟩] (new a) s') (Reaches text s))
    (hbound : 0 < bound) (hs : s.Sound text) (hhere : here s.toCursor = true) :
    Runs (collect (whenAt here item) bound) s
      (fun as s' => Built text s true [⟨.many, slot, kinds⟩] (as.flatMap new) s')
      (Reaches text s) := by
  obtain ⟨bound, rfl⟩ := Nat.exists_eq_succ_of_ne_zero hbound.ne'
  refine .bind (.cursor ?_)
  rw [if_pos hhere]
  refine .bind ((hitem s hs hhere).mono (fun a s₁ h₁ => .pure ?_) fun _ hE => hE)
  refine h₁.seq_many (yields_collect bound (yields_whenAt hitem)) fun as s₂ h₂ => .pure ?_
  simpa using h₂

/-- Items between commas are built one after the other. -/
theorem yields_commaList {close : TokenKind} {item : Parser Child} (bound : Nat)
    (hitem : Yields text item (fun _ => true) [⟨.one, none, kinds⟩] fun c => [c]) :
    Yields text (commaList close item bound) (fun _ => false) [.many kinds] fun r => r.1 := by
  induction bound with
  | zero => exact fun s hs => .pure ((Built.nil hs).of_fits fun _ => Fits.many_nil _ _)
  | succ bound ih =>
    intro s hs
    refine .check ?_
    split
    · exact .pure ((Built.nil hs).of_fits fun _ => Fits.many_nil _ _)
    · refine (Built.nil hs).seq hitem.many fun a s₁ h₁ => ?_
      refine h₁.step (yields_eat (by decide)) fun b s₂ h₂ => ?_
      split
      · refine .check ?_
        split
        · exact .pure (h₂.of_read (by simp))
        · refine .bind ((ih s₂ h₂.sound).mono (fun r s₃ h₃ => .pure ?_)
            fun _ hE => h₂.toReaches.trans hE)
          exact (h₂.append_many h₃).of_read (by simp)
      · exact .pure (h₂.of_read (by simp))

theorem yields_skipSeparators (bound : Nat) :
    Yields text (skipSeparators bound) (fun _ => false) [] fun _ => [] := by
  induction bound with
  | zero => exact fun s hs => .pure (.nil hs)
  | succ bound ih =>
    intro s hs
    have hskip : ∀ {b : Bool} {s₁ : ParserState}, Built text s b [] [] s₁ →
        Runs (skipSeparators bound) s₁ (fun _ => Built text s false [] []) (Reaches text s) :=
      fun h₁ => (ih _ h₁.sound).mono (fun _ _ h₂ => (h₁.then_reads h₂).of_read (by simp))
        fun _ hE => h₁.toReaches.trans hE
    refine (Built.nil hs).step (yields_eat (by decide)) fun b s₁ h₁ => ?_
    split
    · exact hskip h₁
    · refine h₁.step (yields_eat (by decide)) fun b' s₂ h₂ => ?_
      split
      · exact hskip h₂
      · exact .pure (h₂.of_read (by simp))

/-! ### Operators of several tokens -/

/-- Skipping tokens before the end of the file ends with the place of the last one. -/
theorem runs_skip {s₀ : ParserState} {E : ParserState → Prop} (count : Nat) {last : Span}
    (h : Built text s₀ true [] [] s) (hstart : s₀.start ≤ last.start)
    (hstop : last.stop = s.previousStop) (hkinds : ∀ i < count, s.kindAt i ≠ .endOfFile) :
    Runs (skip count last) s (fun span s' => Built text s₀ true [] [] s' ∧
      s₀.start ≤ span.start ∧ last.stop ≤ span.stop ∧ span.stop = s'.previousStop) E := by
  induction count generalizing s last with
  | zero => exact .pure ⟨h, hstart, le_rfl, hstop⟩
  | succ count ih =>
    have hcurrent : s.current.kind ≠ .endOfFile := by
      rw [← Cursor.kindAt_zero]
      exact hkinds 0 (Nat.succ_pos count)
    have hspan := (h.sound.cursor.current_span hcurrent).2.1
    have hforward := (h.sound.cursor.forward (Cursor.reads_advance _)).1
    refine h.next hcurrent fun h' => (ih h' ?_ ?_ fun i hi => ?_).mono ?_ fun _ hE => hE
    · rw [hspan]
      exact h.forward.2
    · rw [hspan]
      rfl
    · rw [show s.advance.kindAt i = s.kindAt (i + 1) from Cursor.kindAt_advance hcurrent i]
      exact hkinds (i + 1) (Nat.succ_lt_succ hi)
    · rintro span s' ⟨hbuilt, hfirst, hlater, hspanStop⟩
      refine ⟨hbuilt, hfirst, le_trans ?_ hlater, hspanStop⟩
      rw [hstop, hspan]
      exact hforward

/-- The tokens of an operator are read as one node. -/
theorem runs_operator {E : ParserState → Prop} {count : Nat} (hs : s.Sound text)
    (hcount : 0 < count) (hkinds : ∀ i < count, s.kindAt i ≠ .endOfFile) :
    Runs (operator count) s (Made text s (NodeKind.only .operator)) E := by
  obtain ⟨count, rfl⟩ := Nat.exists_eq_succ_of_ne_zero hcount.ne'
  have hcurrent : s.current.kind ≠ .endOfFile := by
    rw [← Cursor.kindAt_zero]
    exact hkinds 0 hcount
  have hspan := (hs.cursor.current_span hcurrent).2.1
  have hfirst : Built text s true [] [] s.advance := .advance hs hcurrent
  have hskip : Runs (skip count s.current.span) s.advance (fun span s' =>
      Built text s true [] [] s' ∧ s.start ≤ span.start ∧ s.current.span.stop ≤ span.stop ∧
        span.stop = s'.previousStop) E := by
    refine runs_skip count hfirst (hspan ▸ le_rfl) (hspan ▸ rfl) fun i hi => ?_
    rw [show s.advance.kindAt i = s.kindAt (i + 1) from Cursor.kindAt_advance hcurrent i]
    exact hkinds (i + 1) (Nat.succ_lt_succ hi)
  refine .cursor (.bind (.bind (.next (hskip.mono ?_ fun _ hE => hE))))
  rintro last s' ⟨hbuilt, hstart, hlater, hstop⟩
  have hmerge : s.current.span.merge last = ⟨s.start, s'.previousStop⟩ := by
    rw [Span.merge, Nat.max_eq_right hlater, hstop, hspan, Nat.min_eq_left hstart]
  change Made text s _ _ _
  rw [hmerge]
  exact hbuilt.push (.refl hbuilt.sound) rfl

/-! ### What cannot be read -/

/-- Skipping only reads on. It says that something has been consumed only if a token has been
read, and that nothing has only where it began. -/
theorem runs_skipTo {s₀ : ParserState} {E : ParserState → Prop} {stop : TokenKind → Bool}
    (bound depth : Nat) {consumed : Bool} (h : Built text s₀ consumed [] [] s)
    (hcursor : consumed = false → s.toCursor = s₀.toCursor) :
    Runs (skipTo stop bound depth consumed) s (fun b s' => Built text s₀ b [] [] s' ∧
      (b = false → s'.toCursor = s₀.toCursor)) E := by
  induction bound generalizing s depth consumed with
  | zero => exact .pure ⟨h, hcursor⟩
  | succ bound ih =>
    refine .cursor ?_
    dsimp only
    split
    · exact .pure ⟨h, hcursor⟩
    · rename_i hgoesOn
      have hcurrent : s.current.kind ≠ .endOfFile := by
        intro hend
        simp [hend] at hgoesOn
      refine .bind (.of_modify (ih _ ?_ nofun))
      exact (h.then_reads (.advance h.sound hcurrent)).of_read (by simp)

/-- What cannot be read is covered by one node, and nothing is left of what was built. -/
theorem runs_recover {s₀ : ParserState} {E : ParserState → Prop} {stop : TokenKind → Bool}
    (bound : Nat) (error : ParseError) (h : Reaches text s₀ s)
    (hcurrent : s₀.current.kind ≠ .endOfFile) :
    Runs (recover bound error s₀.checkpoint stop) s (Made text s₀ (NodeKind.only .error)) E := by
  have harena : s.arena.truncate s₀.arena.size = s₀.arena := Arena.truncate_kept h.kept
  obtain ⟨later, hlater⟩ := h.errors
  refine .bind (.of_modify (.cursor ?_))
  generalize hs₁ : ({ s with
    errors := s.errors.push error
    arena := s.arena.truncate s₀.checkpoint.nodes } : ParserState) = s₁
  have hreaches : Reaches text s₀ s₁ := by
    subst hs₁
    refine ⟨h.before, ⟨h.sound.cursor, ?_⟩, h.reads, ?_, later.push error, ?_⟩
    · exact harena.symm ▸ h.before.arena
    · exact harena.symm ▸ .refl _
    · simp [hlater]
  have hmoved := h.before.cursor.eq_or_moved hreaches.reads
  have hstays : s₁.arena = s₀.arena := by
    subst hs₁
    exact harena
  have hbuilt : Built text s₀ (decide (s₁.rest.length < s₀.rest.length)) [] [] s₁ :=
    { hreaches with
      row := .nil
      new := by simp
      fits := rfl
      moved := by
        intro hless
        rcases hmoved with heq | hmoved
        · simp [heq] at hless
        · exact hmoved.1
      carried := fun _ hi hlt => absurd hlt (Nat.not_lt.mpr (hstays ▸ hi)) }
  refine .bind ((runs_skipTo bound 0 hbuilt ?_).mono ?_ fun _ hE => hE)
  · intro hless
    rcases hmoved with heq | hmoved
    · exact heq
    · simp [hmoved.2] at hless
  · rintro b s₂ ⟨h₂, hcursor⟩
    refine .bind ?_
    unfold readUnless
    split
    · rename_i hb
      subst hb
      exact .pure (h₂.made rfl rfl rfl)
    · rename_i hb
      have hsame : s₂.toCursor = s₀.toCursor := hcursor (by simpa using hb)
      have hnext : s₂.current.kind ≠ .endOfFile := by rwa [hsame]
      exact .of_modify ((((h₂.then_reads (.advance h₂.sound hnext)).of_read
        (by simp))).made rfl rfl rfl)

end Parser

end TolkAnalysis
