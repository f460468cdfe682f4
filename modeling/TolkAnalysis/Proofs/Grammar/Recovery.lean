import TolkAnalysis.Proofs.Grammar.Skipping

/-!
# What a malformed statement costs

A word between the statements of a block that is no statement, with balanced braces and up to a
semicolon, is covered by one node, and the block goes on behind the semicolon, if the braces are
balanced up to the place where the parser fails (`block_recovers`). If some of them are open there
then the first brace that closes one of them is taken for the end of the block.
-/

namespace TolkAnalysis

open TolkAnalysis.Parser

/-- As many braces are closed in a word as are opened, and none before it is opened. -/
def Token.Balanced (word : List Token) : Prop := Zone.body.depth 0 word = some 0

instance (word : List Token) : Decidable (Token.Balanced word) :=
  inferInstanceAs (Decidable (Zone.body.depth 0 word = some 0))

theorem Token.Balanced.head_ne {word later : List Token} {t : Token}
    (h : Balanced (word ++ later)) (ht : t ∈ word.head?) : t.kind ≠ .rBrace := by
  intro hkind
  obtain ⟨rest, rfl⟩ := List.head?_eq_some_iff.mp ht
  rw [Balanced, List.cons_append, Zone.depth_cons, hkind] at h
  cases h

namespace Grammar

variable {bound left : Nat} {parse : Nonterminal → Parser Nat} {s t : ParserState} {id : Nat}

/-! ### Rounds of a block -/

theorem run_statementOrSkipped (h : parse .statement s = (.ok id, t)) :
    statementOrSkipped bound parse s = (.ok id, t) := by
  unfold statementOrSkipped
  rw [run_bind]
  change (MonadExcept.tryCatch _ _ : Parser Nat) s = _
  rw [run_tryCatch, h]

/-- A semicolon is read behind what is skipped. -/
theorem run_statementOrSkipped_of_fails {error : ParseError} {u : ParserState}
    (h : parse .statement s = (.error error, t))
    (hskip : recover bound error s.checkpoint (· == .semi) t = (.ok id, u)) :
    statementOrSkipped bound parse s = (.ok id, if u.isAt .semi = true then u.advance else u) := by
  unfold statementOrSkipped
  rw [run_bind]
  change (MonadExcept.tryCatch _ _ : Parser Nat) s = _
  rw [run_tryCatch, h]
  dsimp only
  rw [run_bind, hskip]
  change ((eat .semi >>= fun _ => pure id : Parser Nat)) u = _
  rw [eat, bind_assoc, run_bind]
  change (((if u.isAt .semi = true then _ else _) >>= _ : Parser Nat) u) = _
  split <;> rfl

/-- The statements of a block. -/
def statements (bound rounds : Nat) : Parser (List (List Child)) :=
  collect (whenAt Cursor.isInside (blockItem bound (parser bound))) rounds

/-- One round of the loop over statements. -/
theorem run_statements_cons {u : Token} {rest : List Token} {items : List (List Child)}
    {t' : ParserState} (hrest : s.rest = u :: rest) (hsemi : u.kind ≠ .semi)
    (hbrace : u.kind ≠ .rBrace) (hend : u.kind ≠ .endOfFile)
    (hread : statementOrSkipped bound (parser bound) s = (.ok id, t))
    (hlater : statements bound left t = (.ok items, t')) :
    statements bound (left + 1) s = (.ok ([.plain id] :: items), t') := by
  have hcurrent := Cursor.current_of_rest hrest
  refine run_collect_cons (by simp [Cursor.isInside, Cursor.isAtEnd, Cursor.isAt, *]) ?_ hlater
  unfold blockItem
  rw [run_eat, if_neg (by simp [Cursor.isAt, *]), run_bind, hread]
  rfl

/-- The loop ends in front of a closing brace. -/
theorem run_statements_nil {u : Token} {rest : List Token} (hrest : s.rest = u :: rest)
    (hbrace : u.kind = .rBrace) : statements bound left s = (.ok [], s) := by
  have hcurrent := Cursor.current_of_rest hrest
  exact run_collect_nil (by simp [Cursor.isInside, Cursor.isAt, *])

namespace Reading

/-- The words of statements, one after the other. -/
def words (rs : List Reading) : List Token := rs.flatMap Reading.word

/-- Words that are read as statements, each in front of what follows it. -/
def Row (later : List Token) : List Reading → Prop
  | [] => True
  | r :: rs => r.Before (words rs ++ later) ∧ Row later rs

variable {later : List Token} {rs : List Reading}

theorem words_cons (r : Reading) (rs : List Reading) : words (r :: rs) = r.word ++ words rs := rfl

theorem Row.length_le (h : Row later rs) (hlater : later ≠ [])
    (hended : Token.Ended (words rs ++ later)) : rs.length ≤ (words rs).length := by
  induction rs with
  | nil => exact Nat.zero_le _
  | cons r rs ih =>
    rw [words_cons, List.append_assoc] at hended
    obtain ⟨u, word, hword, -⟩ := h.1.first hended
    have hlength := ih h.2 (hended.split (by simp [hlater])).1
    rw [words_cons, hword, List.length_cons, List.length_append, List.length_cons]
    omega

theorem Row.node_lt (h : Row later rs) : ∀ r ∈ rs, r.node < r.arena.size := by
  induction rs with
  | nil => exact fun _ hr => absurd hr List.not_mem_nil
  | cons r rs ih =>
    rintro r (_ | ⟨_, hr⟩)
    · exact h.1.node_lt
    · exact ih h.2 r hr

/-- The children that belong to statements are stored. -/
theorem children_lt {a : Arena} {children : List Child}
    (h : List.Forall₂ (Reading.Below a) rs children) (hnode : ∀ r ∈ rs, r.node < r.arena.size) :
    ∀ c ∈ children, c.node < a.size := by
  induction h with
  | nil => exact fun _ hc => absurd hc List.not_mem_nil
  | cons hbelow _ ih =>
    rintro c (_ | ⟨_, hc⟩)
    · exact hbelow.lt (hnode _ List.mem_cons_self)
    · exact ih (fun r hr => hnode r (List.mem_cons_of_mem _ hr)) c hc

/-- The statements of a row are read one after the other. -/
theorem Row.run (h : Row later rs) (hlater : later ≠ [])
    (hended : Token.Ended (words rs ++ later)) (hrest : s.rest = words rs ++ later)
    (hbound : (words rs ++ later).length ≤ bound) :
    ∃ children t, t.rest = later ∧ s.arena.Extends t.arena ∧
      List.Forall₂ (Below t.arena) rs children ∧
      ∀ {left items t'}, statements bound left t = (.ok items, t') →
        statements bound (rs.length + left) s = (.ok (children.map ([·]) ++ items), t') := by
  induction rs generalizing s with
  | nil =>
    refine ⟨[], s, hrest, .refl _, .nil, fun {left items t'} hgo => ?_⟩
    rw [List.length_nil, Nat.zero_add]
    exact hgo
  | cons r rs ih =>
    rw [words_cons, List.append_assoc] at hended hrest hbound
    obtain ⟨u, word, hword, hsemi, hbrace, hend⟩ := h.1.first hended
    obtain ⟨id, t, hread, ht, hextends, hbelow⟩ := h.1.run hended hrest hbound
    have hshorter : (words rs ++ later).length ≤ bound := by
      rw [List.length_append] at hbound
      omega
    obtain ⟨children, t', ht', hextends', hall, hgo⟩ :=
      ih h.2 (hended.split (by simp [hlater])).1 ht hshorter
    refine ⟨.plain id :: children, t', ht', hextends.trans hextends',
      .cons (hbelow.extends hextends') hall, fun {left items t''} hitems => ?_⟩
    have hfirst : s.rest = u :: (word ++ (words rs ++ later)) := by rw [hrest, hword]; rfl
    rw [List.length_cons, Nat.succ_add]
    exact run_statements_cons hfirst hsemi hbrace hend (run_statementOrSkipped hread) (hgo hitems)

end Reading

/-! ### A word that is skipped -/

section

variable {front word rest : List Token} {u : Token} {error : ParseError} {failed : ParserState}

/-- What a word covers that has been read in part before the parser failed. -/
theorem passes_of_fails {tokens : List Token} {q : Nat} {c : Cursor} (hrest : s.rest = tokens)
    (ht : t.StandsAt tokens q) (hpass : t.Passes word c)
    (htokens : tokens = front ++ word ++ c.rest) (hne : front ++ word ≠ []) :
    s.Passes (front ++ word) c := by
  have hsame : ∀ {a : List Token}, s.Passes a c → a = front ++ word := fun ha =>
    List.append_cancel_right (ha.rest.symm.trans (hrest.trans htokens))
  rcases Nat.eq_zero_or_pos q with rfl | hq
  · have hword : word = front ++ word := by
      have hstays : t.rest = tokens := ht.rest.trans List.drop_zero
      exact List.append_cancel_right (hpass.rest.symm.trans (hstays.trans htokens))
    rw [← hword] at hne ⊢
    exact hpass.of_rest_eq (hrest.trans (ht.rest.trans List.drop_zero).symm) hne
  · have hbegin : s.StandsAt tokens 0 := ⟨ht.lt.trans_le' (Nat.zero_le q), hrest, .inl rfl⟩
    have hall := (hbegin.passes ht hq).trans hpass
    exact hsame hall ▸ hall

/-- A word that cannot be read is covered by one node, if it is skipped up to a semicolon or a
closing brace. -/
theorem run_skipped (hu : u.kind = .rBrace ∨ u.kind = .semi)
    (hended : Token.Ended (front ++ word ++ u :: rest)) (hsemi : ∀ t ∈ word, t.kind ≠ .semi)
    (hne : front ++ word ≠ []) (hbalanced : Token.Balanced word)
    (hrest : s.rest = front ++ word ++ u :: rest)
    (hbound : (front ++ word ++ u :: rest).length ≤ bound)
    (hfails : parser (front ++ word ++ u :: rest).length .statement
      (initialState (front ++ word ++ u :: rest)) = (.error error, failed))
    (hfailed : failed.rest = word ++ u :: rest) :
    ∃ id t, statementOrSkipped bound (parser bound) s = (.ok id, t) ∧
      t.rest = (if u.kind = .semi then rest else u :: rest) ∧ s.arena.Extends t.arena ∧
      t.arena.Stores id .error (Token.cover (front ++ word)) [] := by
  obtain ⟨error', t', q, hread, ht', hstands, hkept⟩ := fails_among hended hfails hrest hbound
  have hkinds := (hended.split (List.cons_ne_nil u rest)).2
  have hskipped : ∀ t ∈ word, (t.kind == .semi) = false := fun t ht =>
    beq_eq_false_iff_ne.mpr (hsemi t ht)
  have hmoved : t'.rest.length < s.rest.length ∨ word ≠ [] := by
    rw [ht', hfailed, hrest]
    rcases front with _ | ⟨v, front⟩
    · exact .inr hne
    · left
      rw [List.append_assoc, List.cons_append, List.length_cons]
      exact Nat.lt_succ_of_le (List.suffix_append front _).length_le
  have hshort : word.length < bound := by
    rw [List.length_append, List.length_append, List.length_cons] at hbound
    omega
  obtain ⟨c, hpass, hc, hskip⟩ := run_recover (· == .semi) s.checkpoint error'
    (hu.imp_right fun h => by simp [h]) (fun t ht => hkinds t (List.mem_append_right _ ht))
    (ht'.trans hfailed) (fun _ t ht => hskipped t (List.mem_of_mem_head? ht))
    (fun t ht => hskipped t (List.mem_of_mem_tail ht)) hbalanced hmoved hshort
  have hcover : (⟨s.start, max c.previousStop s.start⟩ : Span) = Token.cover (front ++ word) :=
    (passes_of_fails hrest hstands hpass (by rw [hc]) hne).finish hne
  refine ⟨_, _, run_statementOrSkipped_of_fails hread hskip, ?_, ?_, ?_⟩
  · have hcurrent := Cursor.current_of_rest hc
    by_cases hkind : u.kind = .semi
    · have hat : c.isAt .semi = true := by simp [Cursor.isAt, hcurrent, hkind]
      rw [if_pos hat, if_pos hkind]
      exact (Cursor.Passes.of_rest hc (by simp [hkind])).2
    · have hat : c.isAt .semi = false := by simp [Cursor.isAt, hcurrent, hkind]
      rw [if_neg hkind]
      simp [hat, hc]
  · have hextends := (hkept.extends.truncate le_rfl).trans
      (.push _ .error ⟨s.start, max c.previousStop s.start⟩ [])
    split <;> exact hextends
  · have hstores := Arena.stores_push_last (a := t'.arena.truncate s.arena.size) .error
      ⟨s.start, max c.previousStop s.start⟩ []
    rw [hcover] at hstores
    rw [show s.checkpoint.start = s.start from rfl, hcover]
    split <;> exact hstores

end

/-! ### Blocks -/

open Reading

/-- A block is read as a word. The children of its node are the nodes of statements, one node that
covers what has been skipped, and the nodes of further statements. -/
def BlockReads (bound : Nat) (s : ParserState) (word : List Token) (before : List Reading)
    (skipped : List Token) (after : List Reading) : Prop :=
  ∃ id t children error later, block bound (parser bound) s = (.ok id, t) ∧
    s.Passes word t.toCursor ∧
    t.arena.Stores id .blockStatement (Token.cover word) (children ++ .plain error :: later) ∧
    List.Forall₂ (Reading.Below t.arena) before children ∧
    t.arena.Stores error .error (Token.cover skipped) [] ∧
    List.Forall₂ (Reading.Below t.arena) after later

theorem BlockReads.unique {word word' : List Token} {before before' after after' : List Reading}
    {skipped skipped' : List Token} (h : BlockReads bound s word before skipped after)
    (h' : BlockReads bound s word' before' skipped' after') : word = word' := by
  obtain ⟨id, t, _, _, _, hrun, hpass, -⟩ := h
  obtain ⟨id', t', _, _, _, hrun', hpass', -⟩ := h'
  rw [hrun] at hrun'
  cases hrun'
  exact List.append_cancel_right (hpass.rest.symm.trans hpass'.rest)

theorem run_expect {kind : TokenKind} (h : s.isAt kind = true) :
    expect kind s = (.ok s.current.span, s.advance) := by
  unfold expect
  rw [run_check, if_pos h]
  rfl

/-- A block ends in front of the first closing brace that its statements leave. -/
theorem run_block {opening close : Token} {inside later : List Token}
    {items : List (List Child)} (hopening : opening.kind = .lBrace) (hclose : close.kind = .rBrace)
    (hrest : s.rest = opening :: inside ++ close :: later)
    (hitems : statements bound bound s.advance = (.ok items, t)) (ht : t.rest = close :: later) :
    ∃ u, block bound (parser bound) s = (.ok t.arena.size, u) ∧
      s.Passes (opening :: inside ++ [close]) u.toCursor ∧
      u.arena = t.arena.push .blockStatement (Token.cover (opening :: inside ++ [close]))
        items.flatten := by
  have hfirst : s.isAt .lBrace = true := by
    simp [Cursor.isAt, Cursor.current_of_rest hrest, hopening]
  have hlast : t.isAt .rBrace = true := by simp [Cursor.isAt, Cursor.current_of_rest ht, hclose]
  obtain ⟨hadvance, hlater⟩ := Cursor.Passes.of_rest ht (by simp [hclose])
  have hpass : s.Passes (opening :: inside ++ [close]) t.advance.toCursor := by
    refine ⟨?_, ?_⟩
    · change s.rest = _ ++ t.toCursor.advance.rest
      rw [hrest, hlater, List.append_assoc, List.singleton_append]
    · change t.toCursor.advance.previous = _
      rw [hadvance.previous, List.getLast?_concat]
      rfl
  have hcover := hpass.finish (by simp)
  unfold statements at hitems
  refine ⟨{ t.advance with
    arena := t.arena.push .blockStatement (Token.cover (opening :: inside ++ [close]))
      items.flatten }, ?_, hpass, rfl⟩
  unfold block
  rw [run_bind]
  change (expect .lBrace >>= _ : Parser Nat) s = _
  rw [run_bind, run_expect hfirst]
  dsimp only
  rw [run_bind, hitems]
  dsimp only
  rw [run_bind, run_expect hlast, ← hcover]
  rfl

/-- What stands behind a word that is skipped: the end of the block, or further statements behind a
semicolon. -/
theorem run_behind {after : List Reading} {u close : Token} {later more : List Token}
    (hclose : close.kind = .rBrace) (hended : Token.Ended (u :: later))
    (hbound : (u :: later).length ≤ bound)
    (hu : u.kind = .rBrace ∧ u :: later = close :: more ∧ after = [] ∨
      u.kind = .semi ∧ later = words after ++ close :: more ∧ Row (close :: more) after)
    (hrest : s.rest = if u.kind = .semi then later else u :: later) :
    ∃ children t, t.rest = close :: more ∧ s.arena.Extends t.arena ∧
      List.Forall₂ (Reading.Below t.arena) after children ∧ after.length ≤ later.length ∧
      ∀ left, statements bound (after.length + left) s = (.ok (children.map ([·])), t) := by
  obtain ⟨hbrace, hlater, rfl⟩ | ⟨hsemi, hlater, hafter⟩ := hu
  · have hstays : s.rest = close :: more := by
      rw [hrest, if_neg (by simp [hbrace]), hlater]
    exact ⟨[], s, hstays, .refl _, .nil, Nat.zero_le _,
      fun left => run_statements_nil hstays hclose⟩
  · rw [if_pos hsemi, hlater] at hrest
    have hended' : Token.Ended ([u] ++ (words after ++ close :: more)) := by rwa [← hlater]
    have hended'' := (hended'.split (by simp)).1
    rw [hlater, List.length_cons] at hbound
    obtain ⟨children, t, ht, hextends, hall, hgo⟩ :=
      hafter.run (List.cons_ne_nil _ _) hended'' hrest (Nat.le_of_succ_le hbound)
    refine ⟨children, t, ht, hextends, hall, ?_, fun left => ?_⟩
    · rw [hlater, List.length_append]
      exact (hafter.length_le (List.cons_ne_nil _ _) hended'').trans (Nat.le_add_right _ _)
    · rw [hgo (run_statements_nil ht hclose), List.append_nil]

/-- The statements before a word that is skipped, the word, and the statements behind it. -/
theorem blockReads {before after : List Reading} {opening u close : Token}
    {front word later more : List Token} {error : ParseError} {failed : ParserState}
    (hopening : opening.kind = .lBrace)
    (hrest : s.rest = opening :: (words before ++ (front ++ word ++ u :: later)))
    (hended : Token.Ended s.rest) (hbound : s.rest.length ≤ bound)
    (hbefore : Row (front ++ word ++ u :: later) before)
    (hu : u.kind = .rBrace ∧ u :: later = close :: more ∧ after = [] ∨
      u.kind = .semi ∧ later = words after ++ close :: more ∧ Row (close :: more) after)
    (hfirst : ∀ t ∈ (front ++ word).head?, t.kind ≠ .semi ∧ t.kind ≠ .rBrace)
    (hsemi : ∀ t ∈ word, t.kind ≠ .semi) (hne : front ++ word ≠ [])
    (hbalanced : Token.Balanced word) (hclose : close.kind = .rBrace)
    (hfails : parser (front ++ word ++ u :: later).length .statement
      (initialState (front ++ word ++ u :: later)) = (.error error, failed))
    (hfailed : failed.rest = word ++ u :: later) :
    ∃ behind, u :: later = behind ++ close :: more ∧
      BlockReads bound s (opening :: (words before ++ (front ++ word ++ behind)) ++ [close]) before
        (front ++ word) after := by
  have hleft : front ++ word ++ u :: later ≠ [] := by simp
  have hrest₀ : s.advance.rest = words before ++ (front ++ word ++ u :: later) :=
    (Cursor.Passes.of_rest hrest (by simp [hopening])).2
  rw [hrest] at hended hbound
  have hwhole : Token.Ended ([opening] ++ (words before ++ (front ++ word ++ u :: later))) := hended
  have hended₀ := (hwhole.split (by simp)).1
  have hended₁ := (hended₀.split hleft).1
  rw [List.length_cons] at hbound
  have hlength := hbefore.length_le hleft hended₀
  -- The statements in front, the word that is skipped, and what stands behind it.
  obtain ⟨children, t₁, hrest₁, hextends₁, hall₁, hgo⟩ :=
    hbefore.run hleft hended₀ hrest₀ (Nat.le_of_succ_le hbound)
  have hbound₁ : (front ++ word ++ u :: later).length ≤ bound := by
    rw [List.length_append] at hbound
    omega
  obtain ⟨skipped, t₂, hskip, hrest₂, hextends₂, hstores⟩ := run_skipped
    (hu.imp (·.1) (·.1)) hended₁ hsemi hne hbalanced hrest₁ hbound₁ hfails hfailed
  have hbound₂ : (u :: later).length ≤ bound := by
    rw [List.length_append] at hbound₁
    omega
  obtain ⟨children', t₃, hrest₃, hextends₃, hall₃, hlength', hbehind⟩ := run_behind hclose
    (hended₁.split (List.cons_ne_nil _ _)).1 hbound₂ hu hrest₂
  obtain ⟨v, rest, hv⟩ := List.exists_cons_of_ne_nil hne
  obtain ⟨hvsemi, hvbrace⟩ := hfirst v (by rw [hv]; rfl)
  have hvend : v.kind ≠ .endOfFile :=
    (hended₁.split (List.cons_ne_nil u later)).2 v (by rw [hv]; exact List.mem_cons_self)
  have hrest₁' : t₁.rest = v :: (rest ++ u :: later) := by rw [hrest₁, hv]; rfl
  -- There are rounds enough for them.
  obtain ⟨left, hrounds⟩ : ∃ left, bound = before.length + (after.length + left + 1) := by
    refine ⟨bound - before.length - after.length - 1, ?_⟩
    rw [List.length_append, List.length_append, hv, List.length_cons, List.length_cons] at hbound
    omega
  have hitems := hgo (run_statements_cons hrest₁' hvsemi hvbrace hvend hskip (hbehind left))
  rw [← hrounds] at hitems
  obtain ⟨behind, hlater⟩ : ∃ behind, u :: later = behind ++ close :: more := by
    obtain ⟨-, hlater, -⟩ | ⟨-, rfl, -⟩ := hu
    · exact ⟨[], hlater⟩
    · exact ⟨u :: words after, rfl⟩
  have hword : s.rest =
      opening :: (words before ++ (front ++ word ++ behind)) ++ close :: more := by
    rw [hrest, hlater]
    simp
  obtain ⟨w, hrun, hpass, harena⟩ := run_block hopening hclose hword hitems hrest₃
  refine ⟨behind, hlater, t₃.arena.size, w, children, skipped, children', hrun, hpass, ?_⟩
  have hextends : t₃.arena.Extends w.arena := harena ▸ .push _ _ _ _
  have hall := hall₁.imp fun _ _ h => (h.extends hextends₂).extends hextends₃
  have hnodes : ∀ c ∈ children ++ .plain skipped :: children', c.node < t₃.arena.size := by
    have hafter : ∀ r ∈ after, r.node < r.arena.size := by
      obtain ⟨-, -, rfl⟩ | ⟨-, -, hafter⟩ := hu
      · exact fun _ hr => absurd hr List.not_mem_nil
      · exact hafter.node_lt
    intro c hc
    obtain hc | hc := List.mem_append.mp hc
    · exact children_lt hall hbefore.node_lt c hc
    · obtain rfl | hc := List.mem_cons.mp hc
      · exact (hextends₃ _ _ _ _ hstores).lt
      · exact children_lt hall₃ hafter c hc
  have hblock := Arena.stores_push_last (a := t₃.arena) .blockStatement
    (Token.cover (opening :: (words before ++ (front ++ word ++ behind)) ++ [close]))
    (children ++ .plain skipped :: children')
  rw [Arena.stored_eq_self hnodes] at hblock
  refine ⟨?_, hall.imp fun _ _ h => h.extends hextends,
    hextends _ _ _ _ (hextends₃ _ _ _ _ hstores), hall₃.imp fun _ _ h => h.extends hextends⟩
  have hflatten : (children.map ([·]) ++ ([.plain skipped] :: children'.map ([·]))).flatten =
      children ++ .plain skipped :: children' := by
    rw [List.flatten_append, List.flatten_cons, ← List.flatMap_def, ← List.flatMap_def,
      List.flatMap_singleton', List.flatMap_singleton', List.singleton_append]
  rw [harena, hflatten]
  exact hblock

/-- A word that cannot be read as a statement, between the statements of a block and with a
semicolon behind it, costs no more than itself if and only if the braces are balanced up to the place
where the parser fails. Otherwise a brace of the word is taken for the end of the block. -/
theorem block_recovers {before after : List Reading} {opening semi close : Token}
    {bad more : List Token} {error : ParseError} {failed : ParserState}
    (hopening : opening.kind = .lBrace) (hsemi : semi.kind = .semi) (hclose : close.kind = .rBrace)
    (hrest : s.rest = opening :: (words before ++ (bad ++ semi :: (words after ++ close :: more))))
    (hended : Token.Ended s.rest) (hbound : s.rest.length ≤ bound)
    (hbefore : Row (bad ++ semi :: (words after ++ close :: more)) before)
    (hafter : Row (close :: more) after) (hne : bad ≠ []) (hbalanced : Token.Balanced bad)
    (hbad : ∀ t ∈ bad, t.kind ≠ .semi)
    (hfails : parser (bad ++ semi :: (words after ++ close :: more)).length .statement
      (initialState (bad ++ semi :: (words after ++ close :: more))) = (.error error, failed)) :
    ∃ front back, bad = front ++ back ∧
      failed.rest = back ++ semi :: (words after ++ close :: more) ∧
      (BlockReads bound s (opening :: (words before ++ (bad ++ semi :: words after)) ++ [close])
        before bad after ↔ Token.Balanced front) ∧
      (¬ Token.Balanced front → ∃ inner brace later, bad = inner ++ brace :: later ∧
        brace.kind = .rBrace ∧ front <+: inner ∧
        BlockReads bound s (opening :: (words before ++ inner) ++ [brace]) before inner []) := by
  have hended' : Token.Ended (bad ++ semi :: (words after ++ close :: more)) := by
    rw [hrest, ← List.cons_append] at hended
    exact (hended.split (by simp)).1
  obtain ⟨front, htokens, hfits⟩ := exists_front_of_fails hended' hfails
  obtain ⟨back, rfl, hfailed⟩ := exists_back hsemi hbalanced hbad htokens hfits
  obtain ⟨d, hd⟩ := hfits
  have hfront : Zone.body.depth 0 front = some d := Zone.depth_of_phrase hd
  have hback : Zone.body.depth d back = some 0 := by
    rwa [Token.Balanced, Zone.depth_append, hfront] at hbalanced
  have hclosed : ¬ Token.Balanced front → ∃ inner brace later,
      front ++ back = inner ++ brace :: later ∧ brace.kind = .rBrace ∧ front <+: inner ∧
      BlockReads bound s (opening :: (words before ++ inner) ++ [brace]) before inner [] := by
    intro hopen
    have hpos : d ≠ 0 := by
      rintro rfl
      exact hopen hfront
    have hnonempty : front ≠ [] := by
      rintro rfl
      exact hopen rfl
    obtain ⟨k, rfl⟩ := Nat.exists_eq_add_one_of_ne_zero hpos
    rw [show k + 1 = 0 + k + 1 by omega] at hback
    obtain ⟨inner, brace, later, rfl, hbrace, hinner⟩ := Zone.exists_closing hback (Nat.zero_le k)
    have hshape : front ++ (inner ++ brace :: later) ++ semi :: (words after ++ close :: more) =
        front ++ inner ++ brace :: (later ++ semi :: (words after ++ close :: more)) := by simp
    rw [hshape] at hrest hbefore hfails
    have hfirst : ∀ t ∈ (front ++ inner).head?, t.kind ≠ .semi ∧ t.kind ≠ .rBrace := by
      have hwhole : Token.Balanced (front ++ inner ++ brace :: later) := by rwa [List.append_assoc]
      refine fun t ht => ⟨hbad t ?_, hwhole.head_ne ht⟩
      rw [← List.append_assoc]
      exact List.mem_append_left _ (List.mem_of_head? ht)
    obtain ⟨behind, hbehind, hreads⟩ := blockReads hopening hrest hended hbound hbefore
      (.inl ⟨hbrace, rfl, rfl⟩) hfirst (fun t ht => hbad t (by simp [ht])) (by simp [hnonempty])
      hinner hbrace hfails (hfailed.trans (by simp))
    obtain rfl : behind = [] := by simpa using hbehind
    rw [List.append_nil] at hreads
    exact ⟨front ++ inner, brace, later, by simp, hbrace, List.prefix_append _ _, hreads⟩
  refine ⟨front, back, rfl, hfailed, ⟨fun hreads => ?_, fun hfront' => ?_⟩, hclosed⟩
  · by_contra hopen
    obtain ⟨inner, brace, later, hsplit, -, -, hreads'⟩ := hclosed hopen
    have hlength := congrArg List.length (hreads.unique hreads')
    simp [hsplit] at hlength
  · obtain rfl : d = 0 := Option.some.inj (hfront.symm.trans hfront')
    have hwhole : Token.Balanced (front ++ back ++ []) := by rwa [List.append_nil]
    obtain ⟨behind, hbehind, hreads⟩ := blockReads hopening hrest hended hbound hbefore
      (.inr ⟨hsemi, rfl, hafter⟩)
      (fun t ht => ⟨hbad t (List.mem_of_head? ht), hwhole.head_ne ht⟩)
      (fun t ht => hbad t (List.mem_append_right _ ht)) hne hback hclose hfails hfailed
    obtain rfl : behind = semi :: words after :=
      List.append_cancel_right (hbehind.symm.trans (List.cons_append).symm)
    exact hreads

/-- What a word is read as in front of other tokens. -/
def Reading.read (word later : List Token) : Reading :=
  let (answer, s) := parser (word ++ later).length .statement (initialState (word ++ later))
  ⟨word, s.arena, answer.toOption.getD 0⟩

theorem Reading.before_read {word later : List Token} (id : Nat)
    (h : (parser (word ++ later).length .statement (initialState (word ++ later))).1 = .ok id)
    (hrest : (parser (word ++ later).length .statement
      (initialState (word ++ later))).2.rest = later) : (read word later).Before later := by
  refine ⟨_, Prod.ext ?_ rfl, hrest, rfl⟩
  change (parser (word ++ later).length .statement (initialState (word ++ later))).1 = .ok
    ((parser (word ++ later).length .statement (initialState (word ++ later))).1.toOption.getD 0)
  rw [h]
  rfl

/-- The parser fails behind `a` within the braces of the object, and the brace that closes them is
taken for the end of the block. -/
theorem block_recovers_inside :
    let tokens := lex "\x7b a; x = Foo \x7b a b \x7d; return 1; \x7d"
    let before := Reading.read ((tokens.drop 1).take 2) (tokens.drop 3)
    let bad := (tokens.drop 3).take 7
    let after := Reading.read ((tokens.drop 11).take 3) (tokens.drop 14)
    ¬ BlockReads 16 (initialState tokens) (tokens.take 15) [before] bad [after] ∧
      ∃ inner brace later, bad = inner ++ brace :: later ∧ brace.kind = .rBrace ∧
        BlockReads 16 (initialState tokens) (tokens.take 3 ++ inner ++ [brace]) [before] inner
          [] := by
  intro tokens before bad after
  let opening : Token := ⟨.lBrace, "\x7b", ⟨0, 1⟩⟩
  let semi : Token := ⟨.semi, ";", ⟨20, 21⟩⟩
  let close : Token := ⟨.rBrace, "\x7d", ⟨32, 33⟩⟩
  let last : Token := ⟨.endOfFile, "", ⟨33, 33⟩⟩
  have hfrom : bad ++ semi :: (words [after] ++ close :: [last]) = tokens.drop 3 := by
    decide +kernel
  have hrest : (initialState tokens).rest =
      opening :: (words [before] ++ (bad ++ semi :: (words [after] ++ close :: [last]))) := by
    decide +kernel
  have hended : Token.Ended (initialState tokens).rest :=
    ⟨tokens.take 15, last, by decide +kernel, rfl, by decide +kernel⟩
  have hbefore : Row (bad ++ semi :: (words [after] ++ close :: [last])) [before] :=
    ⟨hfrom ▸ before_read 1 (by decide +kernel) (by decide +kernel), trivial⟩
  have hafter : Row (close :: [last]) [after] := by
    have hend : words [] ++ close :: [last] = tokens.drop 14 := by decide +kernel
    exact ⟨hend ▸ before_read 1 (by decide +kernel) (by decide +kernel), trivial⟩
  have hfails : parser (tokens.drop 3).length .statement (initialState (tokens.drop 3)) =
      (.error (.unexpectedToken (.token .rBrace) .ident ⟨17, 18⟩), _) :=
    Prod.ext (by decide +kernel) rfl
  obtain ⟨front, back, hsplit, hfailed, hiff, hopen⟩ := block_recovers rfl rfl rfl hrest hended
    (show _ ≤ 16 by decide +kernel) hbefore hafter (by decide +kernel) (by decide +kernel)
    (by decide +kernel) (hfrom ▸ hfails)
  -- The parser stops in front of `b`.
  have hback : back = (tokens.drop 8).take 2 :=
    List.append_cancel_right (hfailed.symm.trans (by decide +kernel))
  have hfront : front = bad.take 5 := by
    refine List.append_cancel_right (hsplit.symm.trans ?_)
    rw [hback]
    decide +kernel
  have hunbalanced : ¬ Token.Balanced front := by
    rw [hfront]
    decide +kernel
  have hword : opening :: (words [before] ++ (bad ++ semi :: words [after])) ++ [close] =
      tokens.take 15 := by decide +kernel
  have hstart : opening :: words [before] = tokens.take 3 := by decide +kernel
  rw [hword] at hiff
  refine ⟨fun hreads => hunbalanced (hiff.mp hreads), ?_⟩
  obtain ⟨inner, brace, later, hinner, hbrace, -, hreads⟩ := hopen hunbalanced
  rw [← List.cons_append, hstart] at hreads
  exact ⟨inner, brace, later, hinner, hbrace, hreads⟩

end Grammar

end TolkAnalysis
