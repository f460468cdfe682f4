import TolkAnalysis.Proofs.Grammar.Passage
import TolkAnalysis.Proofs.Grammar.Walk.Rank
import TolkAnalysis.Proofs.Grammar.Walk.Zone

/-!
# What parsers do between two states

`Steps tokens z s s'` records what a parser does on the way from one state to another: which tokens
are read, which nodes are built, and where the parser goes back. Outside of the braces that it
opens on the way, it reads only tokens that may stand in the zone `z`. A name or a literal is only
read as a leaf, except for two words that are no names where they stand. A node is only built above
children that are as tight as they have to be.

Three things follow by induction: the tokens that have been read fit the zone (`Steps.passes`), the
arena extends the one before (`Steps.arena_extends`), and it stays ranked (`Steps.ranked`).
-/

namespace TolkAnalysis

namespace TokenKind

/-- The token stands for no more than itself: it is no brace, no semicolon and not the end of the
file. -/
def isPlain : TokenKind → Bool
  | .lBrace | .rBrace | .semi | .endOfFile => false
  | _ => true

/-- The token may be read without a trace: it is plain, and neither a name nor a literal. -/
def isSilent : TokenKind → Bool
  | .ident | .underscore | .number | .stringLit | .kwTrue | .kwFalse => false
  | kind => kind.isPlain

theorem isPlain_of_isSilent {kind : TokenKind} (h : kind.isSilent = true) :
    kind.isPlain = true := by
  cases kind <;> first | rfl | cases h

theorem ne_endOfFile_of_isPlain {kind : TokenKind} (h : kind.isPlain = true) :
    kind ≠ .endOfFile := by
  rintro rfl
  cases h

end TokenKind

theorem Zone.step_of_isPlain {z : Zone} {d : Nat} {kind : TokenKind} (h : kind.isPlain = true) :
    z.step d kind = some d := by
  cases kind <;> first | rfl | cases h

/-- What a parser does between two states. -/
inductive Steps (tokens : List Token) : Zone → ParserState → ParserState → Prop
  | refl {z : Zone} {s : ParserState} : s.rest <:+ tokens → Steps tokens z s s
  | read {z : Zone} {s₀ s : ParserState} :
      Steps tokens z s₀ s → s.current.kind.isSilent = true → Steps tokens z s₀ s.advance
  /-- `get` before a function is no name. -/
  | get {z : Zone} {s₀ s : ParserState} :
      Steps tokens z s₀ s → s.isAtWord "get" = true → s.kindAt 1 = .kwFun →
      Steps tokens z s₀ s.advance
  /-- `asm` is no name where the body of a function begins. -/
  | asm {z : Zone} {s₀ s s₁ : ParserState} {stop : Nat} {children : List Child} :
      Steps tokens z s₀ s → s.isAtWord "asm" = true → Steps tokens .phrase s.advance s₁ →
      Steps tokens z s₀ { s₁ with arena := s₁.arena.push .asmBody ⟨s.start, stop⟩ children }
  | leaf {z : Zone} {s₀ s : ParserState} {kind : NodeKind} :
      Steps tokens z s₀ s → s.current.kind.isPlain = true → kind.isFree = true →
      Steps tokens z s₀
        { s.advance with arena := s.arena.push kind s.current.span [] }
  | node {z : Zone} {s₀ s : ParserState} {kind : NodeKind} {span : Span} {children : List Child} :
      Steps tokens z s₀ s → s.arena.Ranks tokens kind children →
      Steps tokens z s₀ { s with arena := s.arena.push kind span children }
  /-- What has been tried is taken back. -/
  | back {z : Zone} {s₀ s s₁ : ParserState} :
      Steps tokens z s₀ s → Steps tokens .phrase s s₁ → Steps tokens z s₀ (s₁.rewind s.checkpoint)
  /-- The parser is between braces, or it fails there. -/
  | opened {z : Zone} {s₀ s s₁ : ParserState} :
      Steps tokens z s₀ s → s.isAt .lBrace = true → Steps tokens .body s.advance s₁ →
      Steps tokens z s₀ s₁
  | closed {z : Zone} {s₀ s s₁ : ParserState} :
      Steps tokens z s₀ s → s.isAt .lBrace = true → Steps tokens .body s.advance s₁ →
      s₁.isAt .rBrace = true → Steps tokens z s₀ s₁.advance
  | semi {z : Zone} {s₀ s : ParserState} :
      Steps tokens z s₀ s → z ≠ .phrase → s.isAt .semi = true → Steps tokens z s₀ s.advance
  /-- What cannot be read is covered by one node, with the tokens skipped behind it. -/
  | skipped {z : Zone} {s₀ s s₁ : ParserState} {word : List Token} {c : Cursor}
      {error : ParseError} {span : Span} :
      Steps tokens z s₀ s → z ≠ .phrase → Steps tokens .phrase s s₁ → s₁.Passes word c →
      z.Fits word → Steps tokens z s₀
        ⟨c, (s₁.arena.truncate s.arena.size).push .error span [], s₁.errors.push error⟩

namespace Steps

variable {tokens : List Token} {z : Zone} {s₀ s s' : ParserState}

/-- A phrase may stand anywhere. -/
theorem append (h : Steps tokens z s₀ s) (h' : Steps tokens .phrase s s') :
    Steps tokens z s₀ s' := by
  generalize hz : Zone.phrase = z' at h'
  induction h' with
  | refl => exact h
  | read _ hkind ih => exact (ih h hz).read hkind
  | get _ hword hfun ih => exact (ih h hz).get hword hfun
  | asm _ hword hbody ih => exact (ih h hz).asm hword hbody
  | leaf _ hkind hfree ih => exact (ih h hz).leaf hkind hfree
  | node _ hranks ih => exact (ih h hz).node hranks
  | back _ htried ih => exact (ih h hz).back htried
  | opened _ hopen hinside ih => exact (ih h hz).opened hopen hinside
  | closed _ hopen hinside hclose ih => exact (ih h hz).closed hopen hinside hclose
  | semi _ hne => exact absurd hz.symm hne
  | skipped _ hne => exact absurd hz.symm hne

theorem trans (h : Steps tokens z s₀ s) (h' : Steps tokens z s s') : Steps tokens z s₀ s' := by
  induction h' with
  | refl => exact h
  | read _ hkind ih => exact (ih h).read hkind
  | get _ hword hfun ih => exact (ih h).get hword hfun
  | asm _ hword hbody ih => exact (ih h).asm hword hbody
  | leaf _ hkind hfree ih => exact (ih h).leaf hkind hfree
  | node _ hranks ih => exact (ih h).node hranks
  | back _ htried ih => exact (ih h).back htried
  | opened _ hopen hinside ih => exact (ih h).opened hopen hinside
  | closed _ hopen hinside hclose ih => exact (ih h).closed hopen hinside hclose
  | semi _ hne hsemi ih => exact (ih h).semi hne hsemi
  | skipped _ hne hfailed hpass hfits ih => exact (ih h).skipped hne hfailed hpass hfits

/-- The tokens between two states fit the zone. -/
theorem passes (h : Steps tokens z s₀ s) :
    ∃ word, s₀.Passes word s.toCursor ∧ z.Fits word := by
  induction h with
  | refl => exact ⟨[], .refl _, .nil _⟩
  | read _ hkind ih =>
    obtain ⟨word, hpass, hfits⟩ := ih
    have hplain := TokenKind.isPlain_of_isSilent hkind
    exact ⟨_, hpass.trans (.advance (TokenKind.ne_endOfFile_of_isPlain hplain)),
      hfits.append (.one (Zone.step_of_isPlain hplain))⟩
  | get _ hword _ ih =>
    obtain ⟨word, hpass, hfits⟩ := ih
    have hident := Cursor.isAt_of_isAtWord hword
    have hkind := Cursor.current_kind_eq_of_isAt hident
    exact ⟨_, hpass.trans (.token hident (by decide)),
      hfits.append (.one (Zone.step_of_isPlain (hkind ▸ rfl)))⟩
  | asm _ hword _ ih ihBody =>
    obtain ⟨word, hpass, hfits⟩ := ih
    obtain ⟨body, hbody, hfitsBody⟩ := ihBody
    have hident := Cursor.isAt_of_isAtWord hword
    have hkind := Cursor.current_kind_eq_of_isAt hident
    exact ⟨_, (hpass.trans (.token hident (by decide))).trans hbody,
      (hfits.append (.one (Zone.step_of_isPlain (hkind ▸ rfl)))).append hfitsBody.of_phrase⟩
  | leaf _ hkind _ ih =>
    obtain ⟨word, hpass, hfits⟩ := ih
    exact ⟨_, hpass.trans (.advance (TokenKind.ne_endOfFile_of_isPlain hkind)),
      hfits.append (.one (Zone.step_of_isPlain hkind))⟩
  | node _ _ ih => exact ih
  | back _ _ ih => exact ih
  | opened _ hopen _ ih ihInside =>
    obtain ⟨word, hpass, hfits⟩ := ih
    obtain ⟨inside, hinside, hfitsInside⟩ := ihInside
    exact ⟨_, hpass.trans ((Cursor.Passes.token hopen (by decide)).trans hinside),
      hfits.append (hfitsInside.opened (Cursor.current_kind_eq_of_isAt hopen))⟩
  | closed _ hopen _ hclose ih ihInside =>
    obtain ⟨word, hpass, hfits⟩ := ih
    obtain ⟨inside, hinside, hfitsInside⟩ := ihInside
    exact ⟨_, hpass.trans (((Cursor.Passes.token hopen (by decide)).trans hinside).trans
        (.token hclose (by decide))),
      hfits.append (hfitsInside.closed (Cursor.current_kind_eq_of_isAt hopen)
        (Cursor.current_kind_eq_of_isAt hclose))⟩
  | @semi z s₀ s _ hne hsemi ih =>
    obtain ⟨word, hpass, hfits⟩ := ih
    have hstep : z.step 0 .semi = some 0 := by simp [Zone.step, hne]
    exact ⟨_, hpass.trans (.token hsemi (by decide)),
      hfits.append (.one (Cursor.current_kind_eq_of_isAt hsemi ▸ hstep))⟩
  | skipped _ _ _ hskip hfitsSkip ih ihFailed =>
    obtain ⟨word, hpass, hfits⟩ := ih
    obtain ⟨front, hfront, hfitsFront⟩ := ihFailed
    exact ⟨_, hpass.trans (hfront.trans hskip), hfits.append (hfitsFront.of_phrase.append hfitsSkip)⟩

theorem begin_suffix (h : Steps tokens z s₀ s) : s₀.rest <:+ tokens := by
  induction h with
  | refl hsuffix => exact hsuffix
  | _ => assumption

/-- The tokens that are left are the last ones of all. -/
theorem rest_suffix (h : Steps tokens z s₀ s) : s.rest <:+ tokens := by
  obtain ⟨word, hpass, -⟩ := h.passes
  exact hpass.rest_suffix.trans h.begin_suffix

theorem arena_extends (h : Steps tokens z s₀ s) : s₀.arena.Extends s.arena := by
  induction h with
  | refl => exact .refl _
  | read _ _ ih => exact ih
  | get _ _ _ ih => exact ih
  | asm _ _ _ ih ihBody => exact (ih.trans ihBody).trans (.push _ _ _ _)
  | leaf _ _ _ ih => exact ih.trans (.push _ _ _ _)
  | node _ _ ih => exact ih.trans (.push _ _ _ _)
  | back _ _ ih ihTried => exact ih.trans (ihTried.truncate le_rfl)
  | opened _ _ _ ih ihInside => exact ih.trans ihInside
  | closed _ _ _ _ ih ihInside => exact ih.trans ihInside
  | semi _ _ _ ih => exact ih
  | skipped _ _ _ _ _ ih ihFailed =>
    exact (ih.trans (ihFailed.truncate le_rfl)).trans (.push _ _ _ _)

theorem ranked (h : Steps tokens z s₀ s) (h₀ : s₀.arena.Ranked tokens) :
    s.arena.Ranked tokens := by
  -- Cutting back to where an attempt began leaves what was ranked there.
  have hback : ∀ {z' : Zone} {s s₁ : ParserState}, Steps tokens z' s s₁ → s.arena.Ranked tokens →
      (s₁.arena.truncate s.arena.size).Ranked tokens := by
    intro z' s s₁ htried hranked
    refine hranked.of_size_le (htried.arena_extends.truncate le_rfl) ?_
    rw [Arena.size_truncate]
    exact Nat.min_le_right _ _
  induction h with
  | refl => exact h₀
  | read _ _ ih => exact ih h₀
  | get _ _ _ ih => exact ih h₀
  | asm _ _ _ ih ihBody => exact (ihBody (ih h₀)).push (.of_isFree rfl) _
  | leaf _ _ hfree ih => exact (ih h₀).push (.of_isFree hfree) _
  | node _ hranks ih => exact (ih h₀).push hranks _
  | back _ htried ih => exact hback htried (ih h₀)
  | opened _ _ _ ih ihInside => exact ihInside (ih h₀)
  | closed _ _ _ _ ih ihInside => exact ihInside (ih h₀)
  | semi _ _ _ ih => exact ih h₀
  | skipped _ _ hfailed _ _ ih => exact (hback hfailed (ih h₀)).push (.of_isFree rfl) _

end Steps

end TolkAnalysis
