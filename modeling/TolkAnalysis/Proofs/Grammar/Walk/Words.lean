import TolkAnalysis.Proofs.Grammar.Walk.Steps

/-!
# Names and literals that have been read

Where no error has been met, every name and every literal between two states of a parser has been
read as a leaf that covers it, but for `get` before a function and `asm` where a body in assembly
begins (`Steps.recorded`).
-/

namespace TolkAnalysis

/-- The token is a name or a literal. -/
def TokenKind.isNameOrLiteral : TokenKind → Bool
  | .ident | .underscore | .number | .stringLit | .kwTrue | .kwFalse => true
  | _ => false

theorem TokenKind.isNameOrLiteral_of_isSilent {kind : TokenKind} (h : kind.isSilent = true) :
    kind.isNameOrLiteral = false := by
  cases kind <;> first | rfl | cases h

theorem Cursor.text_of_isAtWord {c : Cursor} {word : String} (h : c.isAtWord word = true) :
    c.current.text = word := by
  simp only [isAtWord, Bool.and_eq_true, beq_iff_eq] at h
  exact h.2

/-- The word `get` stands before a function. -/
def Token.IsGet (t : Token) (later : List Token) : Prop :=
  t.text = "get" ∧ later.head?.map (·.kind) = some .kwFun

/-- What an arena has of a token that has been read in front of some others. -/
inductive Arena.Records (a : Arena) (t : Token) (later : List Token) : Prop
  | get : t.IsGet later → Records a t later
  | asm {i stop : Nat} {children : List Child} :
      t.text = "asm" → a.Stores i .asmBody ⟨t.span.start, stop⟩ children → Records a t later
  | leaf {i : Nat} {kind : NodeKind} : a.Stores i kind t.span [] → Records a t later

theorem Arena.Records.mono {a b : Arena} {t : Token} {later : List Token}
    (h : a.Records t later) (hab : a.Extends b) : b.Records t later := by
  cases h with
  | get hget => exact .get hget
  | asm htext hstores => exact .asm htext (hab _ _ _ _ hstores)
  | leaf hstores => exact .leaf (hab _ _ _ _ hstores)

section

variable {t : Token} {later rest tokens : List Token} {s : ParserState}

/-- A place is behind a token or not. -/
theorem suffix_of_suffix_cons (h : t :: later <:+ tokens) (hrest : rest <:+ tokens) :
    rest <:+ later ∨ t :: later <:+ rest := by
  rcases Nat.lt_or_ge later.length rest.length with hlt | hge
  · exact .inr (List.suffix_of_suffix_length_le h hrest hlt)
  · exact .inl (List.suffix_of_suffix_length_le hrest ((List.suffix_cons t later).trans h) hge)

/-- Going back drops the errors that have been added. -/
theorem size_errors_rewind {s₁ : ParserState} (h : s.errors.size ≤ s₁.errors.size) :
    (s₁.rewind s.checkpoint).errors.size = s.errors.size := by
  change (s₁.errors.take s.errors.size).size = _
  rw [Array.take_eq_extract, Array.size_extract]
  omega

/-- Reading on passes one token or none. -/
theorem rest_advance (s : ParserState) :
    s.advance.rest = s.rest ∨ ∃ t, s.rest = t :: s.advance.rest := by
  change s.toCursor.advance.rest = _ ∨ ∃ t, _ = t :: s.toCursor.advance.rest
  unfold Cursor.advance
  split
  · rename_i t rest hrest
    split
    · exact .inl rfl
    · exact .inr ⟨t, hrest⟩
  · exact .inl rfl

theorem advance_suffix (s : ParserState) : s.advance.rest <:+ s.rest := by
  rcases rest_advance s with heq | ⟨t, ht⟩
  · exact heq ▸ List.suffix_refl s.rest
  · rw [ht]
    exact List.suffix_cons t _

/-- A token that is behind the place after the next token, but not behind the next one, is next. -/
theorem rest_eq_of_advance (h : t :: later <:+ s.rest) (hread : s.advance.rest <:+ later) :
    s.rest = t :: later := by
  refine (h.eq_of_length_le ?_).symm
  have hlength := hread.length_le
  rw [List.length_cons]
  rcases rest_advance s with heq | ⟨u, hu⟩
  · rw [← heq]
    omega
  · rw [hu, List.length_cons]
    omega

theorem current_of_rest (h : s.rest = t :: later) : s.current = t := by
  rw [Cursor.current, h]
  rfl

theorem isGet_of_rest (h : s.rest = t :: later) (hword : s.isAtWord "get" = true)
    (hfun : s.kindAt 1 = .kwFun) : t.IsGet later := by
  refine ⟨?_, ?_⟩
  · rw [← current_of_rest h]
    exact Cursor.text_of_isAtWord hword
  · rw [Cursor.kindAt, h] at hfun
    cases later with
    | nil => cases hfun
    | cons u later => exact congrArg some hfun

end

namespace Steps

variable {tokens : List Token} {z : Zone} {s₀ s : ParserState} {t : Token} {later : List Token}

/-- Errors are only added. -/
theorem errors_le (h : Steps tokens z s₀ s) : s₀.errors.size ≤ s.errors.size := by
  induction h with
  | refl => exact le_rfl
  | read _ _ ih => exact ih
  | get _ _ _ ih => exact ih
  | asm _ _ _ ih ihBody => exact ih.trans ihBody
  | leaf _ _ _ ih => exact ih
  | node _ _ ih => exact ih
  | back _ _ ih ihTried => exact ih.trans (size_errors_rewind ihTried).ge
  | opened _ _ _ ih ihInside => exact ih.trans ihInside
  | closed _ _ _ _ ih ihInside => exact ih.trans ihInside
  | semi _ _ _ ih => exact ih
  | skipped _ _ _ _ _ ih ihFailed =>
    refine (ih.trans ihFailed).trans ?_
    simp

/-- A token that is neither read before the next one nor is the next one has not been read. -/
theorem before_or_next (h : Steps tokens z s₀ s) (ht : t :: later <:+ s₀.rest)
    (hread : s.advance.rest <:+ later) : s.rest <:+ later ∨ s.rest = t :: later := by
  obtain ⟨word, hpass, -⟩ := h.passes
  exact (suffix_of_suffix_cons ht hpass.rest_suffix).imp_right fun hnext =>
    rest_eq_of_advance hnext hread

/-- What has been read up to a place behind a token and on from there. -/
theorem records_through {z' : Zone} {s₁ : ParserState} (h : Steps tokens z s₀ s)
    (h₁ : Steps tokens z' s.advance s₁) (hok : s₁.errors.size = s₀.errors.size)
    (ht : t :: later <:+ s₀.rest)
    (before : s.errors.size = s₀.errors.size → s.rest <:+ later → s.arena.Records t later)
    (behind : s₁.errors.size = s.errors.size → t :: later <:+ s.advance.rest →
      s₁.arena.Records t later) :
    s₁.arena.Records t later ∨ s.rest = t :: later := by
  have hfirst := h.errors_le
  have hlast : s.errors.size ≤ s₁.errors.size := h₁.errors_le
  obtain ⟨word, hpass, -⟩ := h.passes
  rcases suffix_of_suffix_cons ht ((advance_suffix s).trans hpass.rest_suffix) with hread | hleft
  · rcases h.before_or_next ht hread with hbefore | hnext
    · exact .inl ((before (by omega) hbefore).mono h₁.arena_extends)
    · exact .inr hnext
  · exact .inl (behind (by omega) hleft)

/-- A name or a literal that has been read has a leaf, unless it is `get` before a function or the
`asm` of a body. -/
theorem recorded (h : Steps tokens z s₀ s) (hok : s.errors.size = s₀.errors.size)
    (ht : t :: later <:+ s₀.rest) (hread : s.rest <:+ later)
    (hkind : t.kind.isNameOrLiteral = true) : s.arena.Records t later := by
  -- The token is read before the last step or by it. No brace and no semicolon is a name.
  have hother : ∀ {s : ParserState} {kind : TokenKind}, s.isAt kind = true →
      kind.isNameOrLiteral = false → s.rest ≠ t :: later := by
    intro s kind hat hno hnext
    rw [← current_of_rest hnext, Cursor.current_kind_eq_of_isAt hat, hno] at hkind
    cases hkind
  induction h with
  | refl => exact absurd (ht.length_le.trans hread.length_le) (by simp)
  | read h hsilent ih =>
    rcases h.before_or_next ht hread with hbefore | hnext
    · exact ih hok ht hbefore
    · rw [← current_of_rest hnext, TokenKind.isNameOrLiteral_of_isSilent hsilent] at hkind
      cases hkind
  | get h hword hfun ih =>
    rcases h.before_or_next ht hread with hbefore | hnext
    · exact ih hok ht hbefore
    · exact .get (isGet_of_rest hnext hword hfun)
  | asm h hword hbody ih ihBody =>
    have hthrough := h.records_through hbody hok ht (fun hok hread => ih hok ht hread)
      fun hok hleft => ihBody hok hleft hread
    rcases hthrough with hrecords | hnext
    · exact hrecords.mono (.push _ _ _ _)
    · rw [← current_of_rest hnext]
      exact .asm (Cursor.text_of_isAtWord hword) (Arena.stores_push_last _ _ _)
  | leaf h _ _ ih =>
    rcases h.before_or_next ht hread with hbefore | hnext
    · exact (ih hok ht hbefore).mono (.push _ _ _ _)
    · rw [← current_of_rest hnext]
      exact .leaf (Arena.stores_push_last _ _ _)
  | node _ _ ih => exact (ih hok ht hread).mono (.push _ _ _ _)
  | back h htried ih =>
    rw [size_errors_rewind htried.errors_le] at hok
    exact (ih hok ht hread).mono (htried.arena_extends.truncate le_rfl)
  | opened h hopen hinside ih ihInside =>
    refine (h.records_through hinside hok ht (fun hok hread => ih hok ht hread)
      fun hok hleft => ihInside hok hleft hread).resolve_right (hother hopen rfl)
  | @closed z s₀ s s₁ h hopen hinside hclose ih ihInside =>
    have hread : s₁.rest <:+ later := ((h.opened hopen hinside).before_or_next ht hread).resolve_right
      (hother hclose rfl)
    exact (h.records_through hinside hok ht (fun hok hread => ih hok ht hread)
      fun hok hleft => ihInside hok hleft hread).resolve_right (hother hopen rfl)
  | semi h _ hsemi ih =>
    exact ih hok ht ((h.before_or_next ht hread).resolve_right (hother hsemi rfl))
  | skipped h _ hfailed _ _ ih =>
    have hfirst := h.errors_le
    have hlast := hfailed.errors_le
    rw [Array.size_push] at hok
    omega

end Steps

end TolkAnalysis
