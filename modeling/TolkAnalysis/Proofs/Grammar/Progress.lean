import TolkAnalysis.Proofs.Grammar.Covered
import TolkAnalysis.Proofs.Token.Lossless

/-!
# Progress

`Grammar.Progress ts e` collects what keeps the parsers of the grammar going on tokens that end with
the end of the file: they go forward and stay inside the tokens, every round of a loop reads a token
or is the last one, skipping what cannot be read goes beyond where it began, and no production uses
a nonterminal where it began itself. So no bound is ever met, a file is read up to its end, and its
declarations take up all its tokens. `progress` says that this is so for all tokens.
-/

namespace TolkAnalysis

open TolkAnalysis.Parser

/-- The tokens of a source stand apart. -/
theorem Token.Apart.of_lossless {source : String} {tokens : List Token}
    (h : Lossless source tokens) : Apart tokens where
  ordered := ⟨fun t ht => (h.nonempty t ht).le, h.apart⟩
  covers := h.nonempty

namespace Grammar

/-- How the grammar goes on over the tokens `ts` up to the token `e` that ends the file. A bound is
enough at a place if no fewer tokens have been read or are allowed by it than there are. -/
structure Progress (ts : List Token) (e : Token) : Prop where
  nonterminal : ∀ {p bound : Nat} (n : Nonterminal), (ts ++ [e]).length ≤ p + bound →
    Progresses (ts ++ [e]) p (parser bound n)
  declaration : ∀ {p bound : Nat}, (ts ++ [e]).length ≤ p + bound →
    Progresses (ts ++ [e]) p (item bound (parser bound))
  /-- The loop over the declarations of a file. -/
  fileRound : ∀ {p bound : Nat}, (ts ++ [e]).length ≤ p + bound →
    ProgressesOrLeaves (ts ++ [e]) p (whenAt (!·.isAtEnd) (fileItem bound (parser bound)))
  /-- The loop over the statements of a block. -/
  blockRound : ∀ {p bound : Nat}, (ts ++ [e]).length ≤ p + bound →
    ProgressesOrLeaves (ts ++ [e]) p (whenAt Cursor.isInside (blockItem bound (parser bound)))
  /-- The loop over the arms of a match. -/
  matchRound : ∀ {p bound : Nat}, (ts ++ [e]).length ≤ p + bound →
    ProgressesOrLeaves (ts ++ [e]) p (whenAt Cursor.isInside (matchArm bound (parser bound)))
  /-- The loops over the members of structs and enums. -/
  memberRound : ∀ {p bound : Nat}, (ts ++ [e]).length ≤ p + bound →
    ∀ member ∈ [structField bound (parser bound), enumMember bound (parser bound)],
      ProgressesOrLeaves (ts ++ [e]) p (whenAt Cursor.isInside (separated bound member))
  /-- What stands between commas. -/
  listItem : ∀ {p bound : Nat}, (ts ++ [e]).length ≤ p + bound →
    ∀ m ∈ [callArgument (parser bound), instanceArgument (parser bound),
        typeParameter bound (parser bound), parameter bound (parser bound),
        Child.plain <$> parser bound .type, Child.plain <$> parser bound .expression,
        Child.plain <$> parser bound .variablePattern], Progresses (ts ++ [e]) p m
  /-- Loops of such rounds do not come to their bounds. -/
  loop : ∀ {α : Type} {p bound bound' : Nat} {round : Parser (Option α)} {s : ParserState},
    (∀ q, p ≤ q → ProgressesOrLeaves (ts ++ [e]) q round) → (ts ++ [e]).length ≤ p + bound →
    (ts ++ [e]).length ≤ p + bound' → s.StandsAt (ts ++ [e]) p →
    collect round bound s = collect round bound' s
  /-- Lists of such items do not come to their bounds. -/
  list : ∀ {α : Type} {p bound bound' : Nat} {m : Parser α} {close : TokenKind} {s : ParserState},
    (∀ q, p ≤ q → Progresses (ts ++ [e]) q m) → (ts ++ [e]).length ≤ p + bound →
    (ts ++ [e]).length ≤ p + bound' → s.StandsAt (ts ++ [e]) p →
    commaList close m bound s = commaList close m bound' s
  /-- A statement of a block that cannot be read is skipped. -/
  statementSkipped : ∀ {p bound : Nat} {s s' : ParserState} {error : ParseError},
    (ts ++ [e]).length ≤ p + bound → s.StandsAt (ts ++ [e]) p → s.isInside = true →
    parser bound .statement s = (.error error, s') →
    Runs (recover bound error s.checkpoint (· == .semi)) s'
      (fun _ s'' => ∃ q, p < q ∧ s''.StandsAt (ts ++ [e]) q) fun _ => False
  /-- A declaration that cannot be read is skipped. -/
  declarationSkipped : ∀ {p bound : Nat} {s s' : ParserState} {error : ParseError},
    (ts ++ [e]).length ≤ p + bound → s.StandsAt (ts ++ [e]) p → s.isAtEnd = false →
    item bound (parser bound) s = (.error error, s') →
    Runs (recover bound error s.checkpoint TokenKind.startsItem) s'
      (fun _ s'' => ∃ q, p < q ∧ s''.StandsAt (ts ++ [e]) q) fun _ => False
  /-- A production uses the parsers of nonterminals only behind the place where it began. -/
  guarded : ∀ {p bound : Nat} {s : ParserState} (other : Nonterminal → Parser Nat)
    (n : Nonterminal), (ts ++ [e]).length ≤ p + bound → s.StandsAt (ts ++ [e]) p →
    Alike (production bound (parser bound) n s)
      (production bound (guarded s.rest.length (parser bound) other) n s)
  /-- The recursion does not come to its bound. -/
  boundless : ∀ {p bound bound' : Nat} {s : ParserState} (n : Nonterminal),
    (ts ++ [e]).length ≤ p + bound → (ts ++ [e]).length ≤ p + bound' → s.StandsAt (ts ++ [e]) p →
    Alike (parser bound n s) (parser bound' n s)
  /-- A file is read up to its end, whatever the bound. -/
  file : ∀ {bound : Nat}, (ts ++ [e]).length ≤ bound →
    ∃ s, fileItems bound (parser bound) (initialState (ts ++ [e])) =
        (.ok (readFile (ts ++ [e])).1, s) ∧ s.rest = [e] ∧
      s.arena = (readFile (ts ++ [e])).2.arena ∧ s.errors = (readFile (ts ++ [e])).2.errors
  /-- The declarations take up all tokens but the semicolons between them. -/
  covered : (readFile (ts ++ [e])).2.arena.Covers ts (readFile (ts ++ [e])).1
  /-- If tokens stand apart then each is in the span of one declaration, or it is a semicolon. -/
  once : Token.Apart ts → ∀ t ∈ ts,
    (readFile (ts ++ [e])).1.countP ((readFile (ts ++ [e])).2.arena.holds t) = 1 ∨
      t.kind = .semi ∧
        (readFile (ts ++ [e])).1.countP ((readFile (ts ++ [e])).2.arena.holds t) = 0

variable {ts : List Token} {e : Token}

/-- Parsing makes progress. -/
theorem progress (hend : e.kind = .endOfFile) (hkinds : ∀ t ∈ ts, t.kind ≠ .endOfFile) :
    Progress ts e where
  nonterminal n hbound s hs := runs_of_agree (P := 0) hend hkinds hbound hs
    fun h hp _ _ _ => h.abreast 0 _ n hp
  declaration hbound s hs := runs_of_agree (P := 0) hend hkinds hbound hs
    fun h hp _ hmid _ => Pairing.abreast_item h hp hmid
  fileRound hbound := progressesOrLeaves_whenAt fun s hs hhere =>
    runs_of_agree (P := 0) hend hkinds hbound hs fun h hp hlength _ _ =>
      Pairing.abreast_fileItem h hp (hlength ▸ lt_of_not_isAtEnd hend hs hhere)
  blockRound hbound := progressesOrLeaves_whenAt fun s hs hhere =>
    runs_of_agree (P := 1) hend hkinds hbound hs fun h hp _ _ hc =>
      Pairing.abreast_blockItem h hp (hc.kind?_of_isInside hhere)
  matchRound hbound := progressesOrLeaves_whenAt fun s hs _ =>
    runs_of_agree (P := 0) hend hkinds hbound hs fun h hp _ _ _ => Pairing.abreast_matchArm h hp
  memberRound hbound := by
    simp only [List.forall_mem_cons, List.not_mem_nil, false_imp_iff, implies_true, and_true]
    refine ⟨progressesOrLeaves_whenAt fun s hs _ => ?_, progressesOrLeaves_whenAt fun s hs _ => ?_⟩
    · exact runs_of_agree (P := 0) hend hkinds hbound hs fun h hp _ _ _ =>
        Pairing.abreast_separated hp hp (Pairing.abreast_structField h hp)
    · exact runs_of_agree (P := 0) hend hkinds hbound hs fun h hp _ _ _ =>
        Pairing.abreast_separated hp hp (Pairing.abreast_enumMember h hp)
  listItem hbound := by
    simp only [List.forall_mem_cons, List.not_mem_nil, false_imp_iff, implies_true, and_true]
    refine ⟨?_, ?_, ?_, ?_, ?_, ?_, ?_⟩ <;> intro s hs <;>
      refine runs_of_agree (P := 0) (f := Pairing.child) hend hkinds hbound hs
        fun h hp _ _ _ => ?_
    · exact Pairing.abreast_callArgument h hp
    · exact Pairing.abreast_instanceArgument h hp
    · exact Pairing.abreast_typeParameter h hp
    · exact Pairing.abreast_parameter h hp
    · exact (h.abreast 0 _ .type hp).map fun _ _ _ _ hV => ⟨hV.1, congrArg Child.plain hV.2⟩
    · exact (h.abreast 0 _ .expression hp).map fun _ _ _ _ hV => ⟨hV.1, congrArg Child.plain hV.2⟩
    · exact (h.abreast 0 _ .variablePattern hp).map
        fun _ _ _ _ hV => ⟨hV.1, congrArg Child.plain hV.2⟩
  loop := collect_eq_of_progresses
  list := commaList_eq_of_progresses hend
  statementSkipped {_ _ s} _ _ hbound hs hhere hfails := by
    have hinside : s.isAt .rBrace = false ∧ (!s.isAtEnd) = true := by
      simpa [Cursor.isInside] using hhere
    exact recover_of_agree (P := 1) hend hkinds hbound hs hfails
      (lt_of_not_isAtEnd hend hs hinside.2) (.inl Nat.one_pos) (.inr hinside.1)
      fun h hp _ => h.abreast 1 _ .statement hp
  declarationSkipped hbound hs hhere hfails :=
    recover_of_agree (P := 0) hend hkinds hbound hs hfails
      (lt_of_not_isAtEnd hend hs (by simp [hhere])) (.inr fun _ hkind => hkind) (.inl rfl)
      fun h hp hmid => Pairing.abreast_item h hp hmid
  guarded other n hbound hs := production_guarded hend hkinds hbound hs other n
  boundless {p bound bound'} s n hbound hbound' hs := by
    rw [List.length_append, List.length_singleton] at hbound hbound'
    have hlength : (Pairing.twice [] hend hkinds s.arena s.errors.toList).tokens.length =
        ts.length := Pairing.length_tokens_twice
    have hagree : ∀ {bound' : Nat}, ts.length < p + bound' →
        (Pairing.twice [] hend hkinds s.arena s.errors.toList).Abreast 0 p (parser bound n)
          (parser bound' n) (Pairing.Moves p (Pairing.node _)) := fun {bound'} hbound' =>
      (Pairing.agree_grammar (Nat.min_le_left bound bound') (Nat.min_le_right bound bound')).abreast
        0 p n (by omega)
    exact (hagree hbound).alike (hagree hbound') (fun _ _ _ hV => hV.2) (fun _ _ _ hV => hV.2)
      (hs.meet hend hkinds)
  file {bound} hbound := by
    have hlength : ts.length + 1 ≤ bound := by simpa using hbound
    obtain ⟨items, t, hitems, hrest, hread, -, harena, herrors⟩ :=
      Pairing.readFile_of_agree hend hkinds (Pairing.agree_grammar (by simp) hlength) hlength
    refine ⟨t, ?_, hrest, harena.symm, herrors.symm⟩
    rw [hread, fileItems, run_bind, hitems]
    rfl
  covered := covers_readFile hend hkinds
  once hapart := (covers_readFile hend hkinds).countP_eq hapart

/-- A statement and a declaration that cannot be read, with stray semicolons and a closing brace
that is left over. -/
theorem progress_stray :
    let source := "fun f() \x7b a b; return 1; \x7d ;; const = 2; \x7d get x"
    ∃ ts e, lex source = ts ++ [e] ∧ e.kind = .endOfFile ∧ (∀ t ∈ ts, t.kind ≠ .endOfFile) ∧
      Token.Apart ts ∧ Progress ts e := by
  intro source
  obtain ⟨ts, hlex, hlossless⟩ := lex_lossless source (by decide)
  exact ⟨ts, _, hlex, rfl, hlossless.kind_ne, .of_lossless hlossless,
    progress rfl hlossless.kind_ne⟩

end Grammar

end TolkAnalysis
