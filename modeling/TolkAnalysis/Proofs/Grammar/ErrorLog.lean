import TolkAnalysis.Proofs.Grammar.Composed
import TolkAnalysis.Proofs.Grammar.Layout
import TolkAnalysis.Proofs.Grammar.Progress

/-!
# The errors of a file

An error is recorded where a parser has come to, and reading goes on from there, so the errors of a
file stand in the order of its tokens (`Cursor.Log`). With each error that is recorded a node of the
kind `error` is pushed. It may be dropped again where what holds it cannot be read either, but then
another such node comes in its place, while the error stays; where a parser is taken back both are
dropped. `s.Gains new later s'` says so of the nodes and errors that come in between two states, and
`parse_errors` of those of a file.
-/

namespace TolkAnalysis

open TolkAnalysis.Parser

/-! ### Kinds of stored nodes -/

namespace Arena

/-- The kinds of the stored nodes. -/
def kinds (a : Arena) : List NodeKind := a.nodes.toList.map (·.kind)

theorem getElem?_kinds (a : Arena) (i : Nat) : a.kinds[i]? = (a.node? i).map (·.kind) := by
  simp [kinds, node?]

theorem length_kinds (a : Arena) : a.kinds.length = a.size := by
  simp [kinds, size]

/-- Adopting a node does not change its kind. -/
theorem kinds_push (a : Arena) (kind : NodeKind) (span : Span) (children : List Child) :
    (a.push kind span children).kinds = a.kinds ++ [kind] := by
  have hadopted : ((a.stored children).foldl (adopt a.size) a.nodes).toList.map (·.kind) =
      a.kinds := by
    refine List.ext_getElem? fun i => ?_
    rw [List.getElem?_map, Array.getElem?_toList, getElem?_foldl_adopt, getElem?_kinds,
      Option.map_map]
    refine congrArg (Option.map · (a.node? i)) (funext fun data => ?_)
    simp only [Function.comp]
    split <;> rfl
  change (pushedNodes a kind span children).toList.map (·.kind) = _
  rw [pushedNodes, Array.toList_push, List.map_append, hadopted]
  rfl

theorem kinds_truncate (a : Arena) (length : Nat) :
    (a.truncate length).kinds = a.kinds.take length := by
  unfold truncate
  split
  · rename_i h
    rw [List.take_of_length_le (by rwa [length_kinds])]
  · have horphan : (fun data : NodeData => data.kind) ∘ orphan length = (·.kind) := by
      funext data
      simp only [Function.comp, orphan]
      split
      · split <;> rfl
      · rfl
    simp only [kinds, Array.toList_map, List.map_map, horphan, List.map_take, Array.take_eq_extract,
      Array.toList_extract, List.extract_eq_take_drop, List.drop_zero, Nat.sub_zero]

end Arena

/-! ### Errors in order -/

namespace Cursor

variable {a b c : Cursor} {errors later : List ParseError}

/-- Between two places errors are recorded, each for the next token of a place in between. -/
inductive Log : Cursor → List ParseError → Cursor → Prop
  | nil {a b : Cursor} (h : a.Reads b) : Log a [] b
  | cons {a mid b : Cursor} {errors : List ParseError} (h : a.Reads mid) (expected : Expected)
      (hlater : Log mid errors b) : Log a (mid.mismatch expected :: errors) b

namespace Log

theorem after (h : a.Reads b) (hlog : b.Log errors c) : a.Log errors c := by
  cases hlog with
  | nil h' => exact .nil (h.trans h')
  | cons h' expected hlater => exact .cons (h.trans h') expected hlater

theorem append (h : a.Log errors b) (h' : b.Log later c) : a.Log (errors ++ later) c := by
  induction h with
  | nil hreads => exact h'.after hreads
  | cons hreads expected _ ih => exact .cons hreads expected (ih h')

theorem rest_suffix (h : a.Log errors b) : b.rest <:+ a.rest := by
  induction h with
  | nil hreads =>
    obtain ⟨word, hword⟩ := hreads.exists_passes
    exact hword.rest_suffix
  | cons hreads _ _ ih =>
    obtain ⟨word, hword⟩ := hreads.exists_passes
    exact ih.trans hword.rest_suffix

/-- Each error is recorded for a token. -/
theorem exists_mismatch (h : a.Log errors b) (hlast : b.rest ≠ []) :
    ∀ e ∈ errors, ∃ t ∈ a.rest, ∃ expected, e = t.mismatch expected := by
  induction h with
  | nil => simp
  | @cons a mid b errors hreads expected hlater ih =>
    obtain ⟨word, hword⟩ := hreads.exists_passes
    obtain ⟨t, rest, hrest⟩ : ∃ t rest, mid.rest = t :: rest := by
      refine List.exists_cons_of_ne_nil fun hnil => hlast ?_
      exact List.suffix_nil.mp (hnil ▸ hlater.rest_suffix)
    have hsub : mid.rest ⊆ a.rest := hword.rest_suffix.subset
    refine List.forall_mem_cons.mpr ⟨⟨t, hsub (by simp [hrest]), expected, ?_⟩, fun e he => ?_⟩
    · rw [← current_of_rest hrest]
      rfl
    · obtain ⟨u, hu, hmismatch⟩ := ih hlast e he
      exact ⟨u, hsub hu, hmismatch⟩

/-- If no token begins before the one before it, then neither does an error. -/
theorem sorted (h : a.Log errors b) (hlast : b.rest ≠ [])
    (hrest : a.rest.Pairwise fun t u => t.span.start ≤ u.span.start) :
    errors.Pairwise fun e e' => e.span.start ≤ e'.span.start := by
  induction h with
  | nil => exact .nil
  | @cons a mid b errors hreads expected hlater ih =>
    obtain ⟨word, hword⟩ := hreads.exists_passes
    have hmid := hrest.sublist hword.rest_suffix.sublist
    refine .cons (fun e he => ?_) (ih hlast hmid)
    obtain ⟨u, hu, expected', rfl⟩ := hlater.exists_mismatch hlast e he
    obtain ⟨t, rest, hcons⟩ := List.exists_cons_of_ne_nil (List.ne_nil_of_mem hu)
    rw [show mid.mismatch expected = mid.current.mismatch expected from rfl, Token.span_mismatch,
      Token.span_mismatch, current_of_rest hcons]
    rw [hcons] at hu hmid
    rcases List.mem_cons.mp hu with rfl | hu
    · exact le_rfl
    · exact List.rel_of_pairwise_cons hmid hu

end Log

end Cursor

/-! ### Errors and nodes -/

namespace ParserState

variable {s s' s'' : ParserState} {new more : List NodeKind} {later last : List ParseError}

/-- Between two states nodes are pushed and errors are recorded. -/
structure Gains (s : ParserState) (new : List NodeKind) (later : List ParseError)
    (s' : ParserState) : Prop where
  log : s.Log later s'.toCursor
  kinds : s'.arena.kinds = s.arena.kinds ++ new
  errors : s'.errors.toList = s.errors.toList ++ later
  /-- What could not be read is covered by a node. -/
  covered : later ≠ [] → .error ∈ new
  count_le : new.count .error ≤ later.length

namespace Gains

theorem of_reads (h : s.Reads s'.toCursor) (harena : s'.arena = s.arena)
    (herrors : s'.errors = s.errors) : s.Gains [] [] s' :=
  ⟨.nil h, by simp [harena], by simp [herrors], by simp, by simp⟩

theorem refl (s : ParserState) : s.Gains [] [] s := of_reads (.refl _) rfl rfl

theorem append (h : s.Gains new later s') (h' : s'.Gains more last s'') :
    s.Gains (new ++ more) (later ++ last) s'' where
  log := h.log.append h'.log
  kinds := by rw [h'.kinds, h.kinds, List.append_assoc]
  errors := by rw [h'.errors, h.errors, List.append_assoc]
  covered hne := by
    rw [List.mem_append]
    by_cases hlater : later = []
    · subst hlater
      exact .inr (h'.covered hne)
    · exact .inl (h.covered hlater)
  count_le := by
    rw [List.count_append, List.length_append]
    exact Nat.add_le_add h.count_le h'.count_le

theorem push {kind : NodeKind} (hkind : kind ≠ .error) (span : Span) (children : List Child) :
    s.Gains [kind] [] { s with arena := s.arena.push kind span children } where
  log := .nil (.refl _)
  kinds := Arena.kinds_push _ _ _ _
  errors := by simp
  covered := by simp
  count_le := by simp [hkind]

/-- Going back drops the errors and the nodes. -/
theorem rewind (h : s.Gains new later s') : s.Gains [] [] (s'.rewind s.checkpoint) where
  log := .nil (.refl _)
  kinds := by
    change (s'.arena.truncate s.arena.size).kinds = _
    rw [Arena.kinds_truncate, h.kinds, ← Arena.length_kinds, List.take_left, List.append_nil]
  errors := by
    change (s'.errors.take s.errors.size).toList = _
    simp [h.errors]
  covered := by simp
  count_le := by simp

end Gains

/-- Between two states some nodes are pushed and some errors are recorded. -/
def Logs (s s' : ParserState) : Prop := ∃ new later, s.Gains new later s'

theorem Logs.trans (h : s.Logs s') (h' : s'.Logs s'') : s.Logs s'' := by
  obtain ⟨new, later, h⟩ := h
  obtain ⟨more, last, h'⟩ := h'
  exact ⟨_, _, h.append h'⟩

end ParserState

namespace Parser

open ParserState

variable {α β : Type} {s s' : ParserState} {new : List NodeKind} {later : List ParseError}

/-- Skipping only reads. -/
theorem runs_skipTo_reads {stop : TokenKind → Bool} {E : ParserState → Prop} (bound depth : Nat)
    (consumed : Bool) (s : ParserState) : Runs (skipTo stop bound depth consumed) s
      (fun _ s' => s.Reads s'.toCursor ∧ s'.arena = s.arena ∧ s'.errors = s.errors) E := by
  induction bound generalizing depth consumed s with
  | zero => exact .pure ⟨.refl _, rfl, rfl⟩
  | succ bound ih =>
    refine .cursor ?_
    dsimp only
    split
    · exact .pure ⟨.refl _, rfl, rfl⟩
    · refine .bind (.of_modify ((ih _ _ s.advance).mono (fun _ s' h => ?_) fun _ hE => hE))
      exact ⟨(Cursor.reads_advance _).trans h.1, h.2⟩

/-- What could not be read is covered by one node. The nodes that were pushed are dropped, and the
error is recorded behind those that were met before. -/
theorem runs_recover_gains {E : ParserState → Prop} (h : s.Gains new later s') (bound : Nat)
    (stop : TokenKind → Bool) (expected : Expected) :
    Runs (recover bound (s'.mismatch expected) s.checkpoint stop) s'
      (fun _ s'' => s.Gains [.error] (later ++ [s'.mismatch expected]) s'') E := by
  refine .bind (.of_modify (.cursor (.bind ?_)))
  refine (runs_skipTo_reads bound 0 _ _).mono ?_ fun _ hE => hE
  rintro consumed s₁ ⟨hreads, harena, herrors⟩
  have hgains (s₂ : ParserState) (hreads' : s₁.Reads s₂.toCursor) (harena' : s₂.arena = s₁.arena)
      (herrors' : s₂.errors = s₁.errors) (span : Span) :
      s.Gains [.error] (later ++ [s'.mismatch expected])
        { s₂ with arena := s₂.arena.push .error span [] } :=
    { log := h.log.append (.cons (.refl _) expected (.nil (hreads.trans hreads')))
      kinds := by
        -- Covering drops the same nodes as going back does.
        have hback := h.rewind.kinds
        rw [List.append_nil] at hback
        rw [Arena.kinds_push, harena', harena]
        exact congrArg (· ++ [NodeKind.error]) hback
      errors := by simp [herrors', herrors, h.errors]
      covered := by simp
      count_le := by simp }
  refine .bind ?_
  unfold readUnless
  split
  · exact .pure (.finish (hgains s₁ (.refl _) rfl rfl _))
  · exact .of_modify (.finish (hgains s₁.advance (Cursor.reads_advance _) rfl rfl _))

/-- How a parser comes out that has been run from a state: nodes have been pushed and errors
recorded, and if it has failed, it expects something else than the next token. -/
def Logged (s : ParserState) : Except ParseError α × ParserState → Prop
  | (.ok _, s') => s.Logs s'
  | (.error error, s') => s.Logs s' ∧ ∃ expected, error = s'.mismatch expected

/-- A parser only pushes nodes and records errors. -/
def Logging (p : Parser α) : Prop := ∀ s : ParserState, Logged s (p s)

theorem Logged.trans {r : Except ParseError α × ParserState} (h : s.Logs s') (h' : Logged s' r) :
    Logged s r := by
  obtain ⟨error | a, s''⟩ := r
  · exact ⟨h.trans h'.1, h'.2⟩
  · exact ParserState.Logs.trans h h'

theorem Logging.bind {p : Parser α} {f : α → Parser β} (hp : Logging p)
    (hf : ∀ a, Logging (f a)) : Logging (p >>= f) := by
  intro s
  have hrun := hp s
  rw [run_bind]
  generalize p s = r at hrun ⊢
  obtain ⟨error | a, s₁⟩ := r
  · exact hrun
  · exact .trans hrun (hf a s₁)

theorem Logging.attempt {p : Parser α} (hp : Logging p) (accept : Cursor → Bool) :
    Logging (Parser.attempt p accept) := by
  intro s
  have hrun := hp s
  unfold Parser.attempt
  generalize p s = r at hrun ⊢
  obtain ⟨error | a, s₁⟩ := r
  · obtain ⟨⟨new, later, hgains⟩, -⟩ := hrun
    exact ⟨_, _, hgains.rewind⟩
  · obtain ⟨new, later, hgains⟩ := hrun
    dsimp only
    split
    · exact ⟨_, _, hgains⟩
    · exact ⟨_, _, hgains.rewind⟩

theorem Logging.recovered {p : Parser Nat} {f : Nat → Parser Nat} (hp : Logging p)
    (hf : ∀ a, Logging (f a)) (bound : Nat) (stop : TokenKind → Bool) :
    Logging (MonadState.get >>= fun s =>
      tryCatch p fun error => recover bound error s.checkpoint stop >>= f) := by
  intro s
  have hrun := hp s
  rw [run_get_bind, run_tryCatch]
  generalize p s = r at hrun ⊢
  obtain ⟨error | a, s₁⟩ := r
  · obtain ⟨⟨new, later, hgains⟩, expected, rfl⟩ := hrun
    have hrecover := runs_recover_gains (E := fun _ => False) hgains bound stop expected
    dsimp only
    rw [run_bind]
    unfold Runs at hrecover
    generalize recover bound (s₁.mismatch expected) s.checkpoint stop s₁ = r at hrecover ⊢
    obtain ⟨error | id, s₂⟩ := r
    · exact hrecover.elim
    · exact .trans ⟨_, _, hrecover⟩ (hf id s₂)
  · exact hrun

theorem Composed.logging {p : Parser α} (hp : Composed p) : Logging p := by
  induction hp with
  | pure a => exact fun s => ⟨_, _, .refl s⟩
  | bind _ _ ihp ihf => exact ihp.bind ihf
  | get => exact fun s => ⟨_, _, .refl s⟩
  | advance =>
    intro s
    have hgains : s.Gains [] [] s.advance := .of_reads (Cursor.reads_advance _) rfl rfl
    exact ⟨_, _, hgains⟩
  | fail expected => exact fun s => ⟨⟨_, _, .refl s⟩, expected, rfl⟩
  | leaf hkind =>
    intro s
    have hgains : s.Gains [] [] s.advance := .of_reads (Cursor.reads_advance _) rfl rfl
    exact ⟨_, _, hgains.append (.push hkind s.current.span [])⟩
  | push hkind span children =>
    exact fun s => ⟨_, _, .push (NodeKind.ne_error_of_isPushed hkind) span children⟩
  | attempt _ accept ih => exact ih.attempt accept
  | recovered bound stop _ _ ihp ihf => exact ihp.recovered ihf bound stop

end Parser

/-- What reading a file records and pushes, up to the token that ends the file. -/
theorem Grammar.gains_readFile (source : String) : ∃ new later s,
    (initialState (lex source)).Gains new later s ∧ s.rest ≠ [] ∧
      s.arena = (readFile (lex source)).2.arena ∧ s.errors = (readFile (lex source)).2.errors := by
  obtain ⟨tokens, stop, hlex, hkinds, -⟩ := exists_lex source
  have hprogress := progress (e := .endOfFile stop) rfl hkinds
  obtain ⟨s, hread, hrest, harena, herrors⟩ := hprogress.file le_rfl
  rw [← hlex] at hread harena herrors
  have hlogged := (composed_fileItems (lex source).length).logging (initialState (lex source))
  rw [hread] at hlogged
  obtain ⟨new, later, hgains⟩ := hlogged
  exact ⟨new, later, s, hgains, by simp [hrest], harena, herrors⟩

/-- The errors of a file stand in the order of its tokens, and each is recorded for a token, which
may be the end of the file. There are errors just if a node covers what could not be read, and there
are not more such nodes than errors. -/
theorem parse_errors (file : FileId) (stamp : Nat) (source : String) :
    (parse file stamp source).errors.Pairwise (fun e e' => e.span.start ≤ e'.span.start) ∧
      (∀ e ∈ (parse file stamp source).errors, ∃ t ∈ lex source, e.span = t.span ∧
        ∃ expected, e = t.mismatch expected) ∧
      ((parse file stamp source).errors = [] ↔
        .error ∉ (parse file stamp source).tree.arena.kinds) ∧
      (parse file stamp source).tree.arena.kinds.count .error ≤
        (parse file stamp source).errors.length := by
  obtain ⟨new, later, s, hgains, hrest, harena, herrors⟩ := Grammar.gains_readFile source
  have hlater : (parse file stamp source).errors = later := by
    change (Grammar.readFile (lex source)).2.errors.toList = later
    rw [← herrors, hgains.errors]
    rfl
  have hkinds : (parse file stamp source).tree.arena.kinds = new ++ [.sourceFile] := by
    change ((Grammar.readFile (lex source)).2.arena.push _ _ _).kinds = _
    rw [Arena.kinds_push, ← harena, hgains.kinds]
    rfl
  rw [hlater, hkinds]
  refine ⟨?ordered, fun e he => ?located, ⟨?clean, ?covered⟩, ?count⟩
  case ordered => exact hgains.log.sorted hrest (Token.sorted_lexFrom 0 source.toList).2
  case located =>
    obtain ⟨t, ht, expected, rfl⟩ := hgains.log.exists_mismatch hrest e he
    exact ⟨t, ht, Token.span_mismatch t expected, expected, rfl⟩
  case clean =>
    rintro rfl
    have hcount := hgains.count_le
    simpa using List.count_eq_zero.mp (Nat.le_zero.mp hcount)
  case covered =>
    intro hnone
    by_contra hsome
    exact hnone (List.mem_append_left _ (hgains.covered hsome))
  case count =>
    rw [List.count_append]
    simpa using hgains.count_le

/-- A statement that cannot be read, in a function that is not closed: what covers the statement is
dropped where the function is covered, and its error stays. -/
theorem parse_errors_unclosed :
    let source := "fun f() \x7b a b;"
    let statement := ParseError.unexpectedToken (.token .semi) .ident ⟨12, 13⟩
    let function := ParseError.unexpectedToken (.token .rBrace) .endOfFile ⟨14, 14⟩
    (parse 0 0 source).errors = [statement, function] ∧
      statement.span.start ≤ function.span.start ∧ (∃ t ∈ lex source, function.span = t.span) ∧
      (parse 0 0 source).tree.arena.kinds.count .error = 1 ∧
      .error ∈ (parse 0 0 source).tree.arena.kinds := by
  intro source statement function
  have herrors : (parse 0 0 source).errors = [statement, function] := by decide +kernel
  obtain ⟨hsorted, hlocated, hclean, -⟩ := parse_errors 0 0 source
  rw [herrors] at hsorted hlocated hclean
  obtain ⟨t, ht, hspan, -⟩ := hlocated function (by simp)
  refine ⟨herrors, List.rel_of_pairwise_cons hsorted (by simp), ⟨t, ht, hspan⟩, by decide +kernel,
    ?_⟩
  exact not_not.mp fun hnone => absurd (hclean.mpr hnone) (by simp)

end TolkAnalysis
