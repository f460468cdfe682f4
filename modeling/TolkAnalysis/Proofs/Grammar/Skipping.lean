import TolkAnalysis.Proofs.Grammar.Forward
import TolkAnalysis.Proofs.Grammar.Walk.Item

/-!
# Statements that are read and words that are skipped

A statement of a block is read as it is read alone: what has been built before it only moves the
numbers of its nodes (`Reading.Before.run`). Where no statement can be read the parser fails within
a phrase (`exists_front_of_fails`). A balanced word that stands there in front of a semicolon or a
closing brace is skipped, and one node covers it (`run_recover`).
-/

namespace TolkAnalysis

open TolkAnalysis.Parser TolkAnalysis.Grammar

/-- Tokens end with the only one that ends the file. -/
def Token.Ended (tokens : List Token) : Prop :=
  ∃ ts e, tokens = ts ++ [e] ∧ e.kind = .endOfFile ∧ ∀ t ∈ ts, t.kind ≠ .endOfFile

/-- What is left of such tokens ends with that token as well, and what stands before it does not end
the file. -/
theorem Token.Ended.split {word later : List Token} (h : Ended (word ++ later))
    (hlater : later ≠ []) : Ended later ∧ ∀ t ∈ word, t.kind ≠ .endOfFile := by
  obtain ⟨ts, e, htokens, hend, hkinds⟩ := h
  obtain ⟨front, last, hlast⟩ := later.eq_nil_or_concat.resolve_left hlater
  rw [List.concat_eq_append] at hlast
  rw [hlast, ← List.append_assoc] at htokens
  obtain ⟨rfl, hlast'⟩ := List.append_inj' htokens rfl
  cases hlast'
  exact ⟨⟨front, _, hlast, hend, fun t ht => hkinds t (List.mem_append_right _ ht)⟩,
    fun t ht => hkinds t (List.mem_append_left _ ht)⟩

namespace Cursor

/-- What is passed does not depend on the token read last. -/
theorem Passes.of_rest_eq {a b c : Cursor} {word : List Token} (h : a.Passes word c)
    (hrest : b.rest = a.rest) (hword : word ≠ []) : b.Passes word c where
  rest := hrest.trans h.rest
  previous := by
    rw [h.previous, List.getLast?_eq_some_getLast hword]
    rfl

end Cursor

/-! ### Skipping -/

namespace Parser

variable {stop : TokenKind → Bool} {word later : List Token} {u : Token} {bound : Nat}

/-- A word that closes the braces that are open is skipped up to where `stop` holds or a brace is
closed. `stop` may hold of its first token if nothing has been consumed before. -/
theorem run_skipTo (hu : u.kind = .rBrace ∨ stop u.kind = true)
    (hword : ∀ t ∈ word, t.kind ≠ .endOfFile) {d : Nat} {consumed : Bool}
    (hfirst : consumed = true → ∀ t ∈ word.head?, stop t.kind = false)
    (htail : ∀ t ∈ word.tail, stop t.kind = false)
    {s : ParserState} (hrest : s.rest = word ++ u :: later)
    (hdepth : Zone.body.depth d word = some 0) (hconsumed : consumed = true ∨ word ≠ [])
    (hbound : word.length < bound) :
    ∃ c, s.Passes word c ∧ c.rest = u :: later ∧
      skipTo stop bound d consumed s = (.ok true, { s with toCursor := c }) := by
  induction word generalizing bound d consumed s with
  | nil =>
    obtain ⟨bound, rfl⟩ := Nat.exists_eq_add_one_of_ne_zero (Nat.ne_of_gt hbound)
    obtain rfl : d = 0 := Option.some.inj hdepth
    obtain rfl : consumed = true := by simpa using hconsumed
    refine ⟨s.toCursor, .refl _, hrest, ?_⟩
    rw [Pairing.run_skipTo, if_pos]
    rw [Cursor.current_of_rest hrest]
    exact .inr (hu.symm.imp (fun hu => ⟨rfl, rfl, hu⟩) fun hu => ⟨hu, rfl⟩)
  | cons t word ih =>
    obtain ⟨bound, rfl⟩ := Nat.exists_eq_add_one_of_ne_zero (Nat.ne_zero_of_lt hbound)
    have hne := hword t List.mem_cons_self
    obtain ⟨hadvance, hlater⟩ := Cursor.Passes.of_rest hrest hne
    rw [Zone.depth_cons] at hdepth
    obtain ⟨b, hb, hdepth⟩ := Option.bind_eq_some_iff.mp hdepth
    obtain ⟨c, hpass, hc, hskip⟩ := ih (s := s.advance)
      (fun v hv => hword v (List.mem_cons_of_mem t hv))
      (fun _ v hv => htail v (List.mem_of_mem_head? hv))
      (fun v hv => htail v (List.mem_of_mem_tail hv)) hlater hdepth (.inl (Eq.refl true))
      (Nat.lt_of_succ_lt_succ hbound)
    refine ⟨c, hadvance.trans hpass, hc, ?_⟩
    have hgoesOn : ¬ (t.kind = .endOfFile ∨ (d = 0 ∧ consumed = true ∧ stop t.kind = true) ∨
        (t.kind = .rBrace ∧ d = 0)) := by
      rintro (hkind | ⟨-, hread, hkind⟩ | ⟨hkind, rfl⟩)
      · exact hne hkind
      · rw [hfirst hread t rfl] at hkind
        cases hkind
      · rw [hkind] at hb
        cases hb
    have hstep : (if t.kind = .lBrace then d + 1 else if t.kind = .rBrace then d - 1 else d) =
        b := by
      unfold Zone.step at hb
      split at hb
      · cases hb
        simp [*]
      · split at hb
        · cases hb
        · cases hb
          simp [*]
      · rw [if_neg (by simp)] at hb
        cases hb
        simp [*]
      · cases hb
        rename_i hopen hclose _
        rw [if_neg hopen, if_neg hclose]
    rw [Pairing.run_skipTo, Cursor.current_of_rest hrest, if_neg hgoesOn, hstep, hskip]
    rfl

/-- What cannot be read is covered by one node, together with a balanced word behind the place where
the parser has failed. -/
theorem run_recover (stop : TokenKind → Bool) (earlier : Checkpoint) (error : ParseError)
    (hu : u.kind = .rBrace ∨ stop u.kind = true) (hword : ∀ t ∈ word, t.kind ≠ .endOfFile)
    {s : ParserState} (hrest : s.rest = word ++ u :: later)
    (hfirst : s.rest.length < earlier.rest.length → ∀ t ∈ word.head?, stop t.kind = false)
    (htail : ∀ t ∈ word.tail, stop t.kind = false) (hdepth : Zone.body.depth 0 word = some 0)
    (hmoved : s.rest.length < earlier.rest.length ∨ word ≠ []) (hbound : word.length < bound) :
    ∃ c, s.Passes word c ∧ c.rest = u :: later ∧ recover bound error earlier stop s =
      (.ok (s.arena.truncate earlier.nodes).size,
        ⟨c, (s.arena.truncate earlier.nodes).push .error
          ⟨earlier.start, max c.previousStop earlier.start⟩ [], s.errors.push error⟩) := by
  have hconsumed : decide (s.rest.length < earlier.rest.length) = true ∨ word ≠ [] :=
    hmoved.imp_left fun h => decide_eq_true h
  obtain ⟨c, hpass, hc, hskip⟩ := run_skipTo hu hword
    (fun hread => hfirst (of_decide_eq_true hread)) htail
    (s := ⟨s.toCursor, s.arena.truncate earlier.nodes, s.errors.push error⟩) hrest hdepth
    hconsumed hbound
  refine ⟨c, hpass, hc, ?_⟩
  unfold recover
  rw [run_bind]
  change (skipTo stop bound 0 (decide (s.rest.length < earlier.rest.length)) >>= _) _ = _
  rw [run_bind, hskip]
  rfl

/-- A closing brace that stands where the parser began is covered by itself. -/
theorem run_recover_brace (stop : TokenKind → Bool) (error : ParseError) (hu : u.kind = .rBrace)
    {s : ParserState} (hrest : s.rest = u :: later) :
    recover bound error s.checkpoint stop s =
      (.ok (s.arena.truncate s.arena.size).size,
        ⟨s.toCursor.advance, (s.arena.truncate s.arena.size).push .error
          ⟨s.start, max s.toCursor.advance.previousStop s.start⟩ [], s.errors.push error⟩) := by
  have hstays : ∀ arena errors, skipTo stop bound 0 false ⟨s.toCursor, arena, errors⟩ =
      (.ok false, ⟨s.toCursor, arena, errors⟩) := by
    intro arena errors
    cases bound with
    | zero => rfl
    | succ bound =>
      rw [Pairing.run_skipTo, if_pos]
      rw [Cursor.current_of_rest hrest]
      exact .inr (.inr ⟨hu, rfl⟩)
  have hmoved : decide (s.rest.length < s.checkpoint.rest.length) = false :=
    decide_eq_false (Nat.lt_irrefl s.rest.length)
  unfold recover
  rw [run_bind]
  change (skipTo stop bound 0 (decide (s.rest.length < s.checkpoint.rest.length)) >>= _)
    ⟨s.toCursor, s.arena.truncate s.arena.size, s.errors.push error⟩ = _
  rw [hmoved, run_bind, hstays]
  rfl

/-- Skipping goes on from where the parser has failed, and what cannot be read is covered by one
node. -/
theorem runs_recover_forward (stop : TokenKind → Bool) (earlier : Checkpoint) (error : ParseError)
    {s : ParserState} : Runs (recover bound error earlier stop) s
      (fun id t => t.rest <:+ s.rest ∧ (s.arena.truncate earlier.nodes).Extends t.arena ∧
        (∃ span, t.arena.Stores id .error span []) ∧ t.errors = s.errors.push error)
      fun _ => False := by
  refine .bind (.of_modify (.cursor (.bind ((skipTo_passes bound 0).mono ?_ fun _ hE => hE))))
  rintro b s₁ ⟨word, -, hpass, -, harena, herrors, -⟩
  have hfinish : ∀ s₂ : ParserState, s₂.rest <:+ s.rest →
      s₂.arena = s.arena.truncate earlier.nodes → s₂.errors = s.errors.push error →
      Runs (finish .error earlier.start []) s₂ (fun id t => t.rest <:+ s.rest ∧
        (s.arena.truncate earlier.nodes).Extends t.arena ∧
        (∃ span, t.arena.Stores id .error span []) ∧ t.errors = s.errors.push error)
        fun _ => False := by
    intro s₂ hrest₂ harena₂ herrors₂
    exact .finish
      ⟨hrest₂, harena₂ ▸ .push _ _ _ _, ⟨_, Arena.stores_push_last _ _ _⟩, herrors₂⟩
  refine .bind ?_
  unfold readUnless
  split
  · exact .pure (hfinish s₁ hpass.rest_suffix harena herrors)
  · refine .of_modify (hfinish s₁.advance ?_ harena herrors)
    obtain ⟨later, hlater⟩ := (Cursor.reads_advance s₁.toCursor).exists_passes
    exact hlater.rest_suffix.trans hpass.rest_suffix

end Parser

/-! ### What can be read as a statement -/

namespace Grammar

variable {bound : Nat} {parse : Nonterminal → Parser Nat} {s : ParserState}

/-- A parser that only goes on where another one has failed fails. -/
theorem runs_bind_of_fails {α β : Type} {p : Parser α} {f : α → Parser β}
    {Q : β → ParserState → Prop} (h : Runs p s (fun _ _ => False) fun _ => True) :
    Runs (p >>= f) s Q fun _ => True :=
  .bind (h.mono (fun _ _ hfalse => hfalse.elim) fun _ hE => hE)

/-- No statement begins with a semicolon or a closing brace, or at the end of the file. -/
theorem fails_statement
    (h : s.current.kind = .semi ∨ s.current.kind = .rBrace ∨ s.current.kind = .endOfFile) :
    Runs (statement bound parse) s (fun _ _ => False) fun _ => True := by
  have hprimary : Runs (primary bound parse) s (fun _ _ => False) fun _ => True := by
    refine .cursor ?_
    rcases h with h | h | h <;> rw [h] <;> exact .fail trivial
  have hcast : Runs (cast bound parse) s (fun _ _ => False) fun _ => True :=
    .cursor (runs_bind_of_fails (.cursor (runs_bind_of_fails hprimary)))
  have hunary : Runs (unary bound parse) s (fun _ _ => False) fun _ => True := by
    refine .cursor ?_
    rcases h with h | h | h <;> rw [h] <;> exact hcast
  have hternary : Runs (ternary bound parse) s (fun _ _ => False) fun _ => True :=
    .cursor (runs_bind_of_fails (.cursor (runs_bind_of_fails
      (.cursor (runs_bind_of_fails hunary)))))
  have hexpression : Runs (expressionStatement bound parse) s (fun _ _ => False) fun _ => True :=
    .cursor (runs_bind_of_fails (.cursor (runs_bind_of_fails hternary)))
  refine .cursor ?_
  rcases h with h | h | h <;> rw [h] <;> exact hexpression

theorem exists_run_statement {n id : Nat} {t : ParserState}
    (h : parser n .statement s = (.ok id, t)) :
    ∃ bound, statement bound (parser bound) s = (.ok id, t) := by
  cases n with
  | zero => cases h
  | succ bound => exact ⟨bound, h⟩

/-- A parser answers the number of a node that is stored. -/
def StoresLast (p : Parser Nat) : Prop :=
  ∀ s, Runs p s (fun id s' => id < s'.arena.size) fun _ => True

theorem storesLast_finish (kind : NodeKind) (start : Nat) (children : List Child) :
    StoresLast (finish kind start children) :=
  fun _ => .finish (by simp)

theorem StoresLast.bind {α : Type} {p : Parser α} {f : α → Parser Nat}
    (h : ∀ a, StoresLast (f a)) : StoresLast (p >>= f) := fun _ => .last h

theorem storesLast_variableStatement : StoresLast (variableStatement bound parse) := by
  have hdeclaration : StoresLast (localVariables bound parse) :=
    .bind fun _ => .bind fun _ => .bind fun _ => .bind fun _ => storesLast_finish _ _ _
  refine fun s => .bind ((hdeclaration s).mono (fun id s' hid => ?_) fun _ hE => hE)
  exact .expect (fun _ => .pure hid) fun _ => trivial

/-- The node of a statement is stored. -/
theorem storesLast_statement : StoresLast (statement bound parse) := by
  refine .bind fun c => ?_
  split
  · exact storesLast_variableStatement
  · exact storesLast_variableStatement
  · exact .bind fun _ => .bind fun _ => .bind fun _ => .bind fun _ => storesLast_finish _ _ _
  · exact .bind fun _ => .bind fun _ => .bind fun _ => .bind fun _ => storesLast_finish _ _ _
  · exact .bind fun _ => .bind fun _ => .bind fun _ => .bind fun _ => .bind fun _ =>
      storesLast_finish _ _ _
  · exact .bind fun _ => .bind fun _ => .bind fun _ => .bind fun _ => storesLast_finish _ _ _
  · exact .bind fun _ => .bind fun _ => .bind fun _ => .bind fun _ => .bind fun _ =>
      .bind fun _ => storesLast_finish _ _ _
  · exact .bind fun _ => .bind fun _ => .bind fun _ => .bind fun _ => storesLast_finish _ _ _
  · exact .bind fun _ => .bind fun _ => .bind fun _ => .bind fun _ => storesLast_finish _ _ _
  · exact .bind fun _ => .bind fun _ => .bind fun _ => .bind fun _ => storesLast_finish _ _ _
  · exact .bind fun _ => .bind fun _ => .bind fun _ => .bind fun _ => .bind fun _ =>
      .bind fun _ => .bind fun _ => .bind fun _ => storesLast_finish _ _ _
  · exact .bind fun _ => .bind fun _ => .bind fun _ => storesLast_finish _ _ _
  · exact .bind fun _ => .bind fun _ => .bind fun _ => storesLast_finish _ _ _
  · exact .bind fun _ => .bind fun _ => .bind fun _ => storesLast_finish _ _ _

end Grammar

/-! ### Statements among others -/

namespace Arena

/-- An arena stores what another one stores, a number of positions later. -/
def Includes (a : Arena) (offset : Nat) (b : Arena) : Prop :=
  ∀ i kind span children, b.Stores i kind span children →
    a.Stores (i + offset) kind span (children.map (Child.shift offset))

theorem Includes.extends {a a' b : Arena} {offset : Nat} (h : a.Includes offset b)
    (ha : a.Extends a') : a'.Includes offset b :=
  fun i kind span children hi => ha _ _ _ _ (h i kind span children hi)

theorem Beside.includes {base a b : Arena} (h : Beside base Eq a b) :
    b.Includes base.size a := by
  rintro i kind span children ⟨parent, hnode⟩
  obtain ⟨⟨kind', span', parent', children'⟩, hnode', hlike⟩ := h.node i _ hnode
  obtain ⟨hkind, hspan, -, hchildren⟩ := hlike
  dsimp only at hkind hspan hchildren
  subst hkind hspan hchildren
  exact ⟨parent', hnode'⟩

end Arena

namespace Grammar

open Pairing

variable {tokens later : List Token} {bound : Nat} {s : ParserState}

/-- A parser that has built nothing meets one that has. -/
theorem meet_initialState_twice {ts : List Token} {e : Token} (hend : e.kind = .endOfFile)
    (hkinds : ∀ t ∈ ts, t.kind ≠ .endOfFile) (hrest : s.rest = ts ++ [e]) :
    (twice [] hend hkinds s.arena s.errors.toList).Meet 0 0 (initialState (ts ++ [e])) s := by
  have hmeet : (twice [] hend hkinds s.arena s.errors.toList).Meet 0 0 s.fresh s :=
    meet_twice (Nat.zero_le _) hrest nofun
  exact ⟨⟨Nat.zero_le _, hrest.symm.trans hmeet.cursors.rest, hmeet.cursors.rest', nofun⟩, nofun,
    hmeet.built⟩

/-- A statement among others is read as it is read alone. -/
theorem ends_statement {ts : List Token} {e : Token} (hend : e.kind = .endOfFile)
    (hkinds : ∀ t ∈ ts, t.kind ≠ .endOfFile) (hrest : s.rest = ts ++ [e])
    (hbound : (ts ++ [e]).length ≤ bound) :
    (twice [] hend hkinds s.arena s.errors.toList).Ends 0 0
      (Moves 0 (twice [] hend hkinds s.arena s.errors.toList).node)
      (parser (ts ++ [e]).length .statement (initialState (ts ++ [e])))
      (parser bound .statement s) := by
  have hagree : (twice [] hend hkinds s.arena s.errors.toList).Agree (ts ++ [e]).length
      (ts ++ [e]).length bound (parser (ts ++ [e]).length) (parser bound) :=
    agree_grammar le_rfl hbound
  exact (hagree.abreast 0 0 .statement (by simp)).run (meet_initialState_twice hend hkinds hrest)

/-- A word that is read as a statement, with what is built for it and the node of the statement. -/
structure Reading where
  word : List Token
  arena : Arena
  node : Nat

namespace Reading

/-- The word is read as a statement where it stands alone in front of other tokens. -/
def Before (later : List Token) (r : Reading) : Prop :=
  ∃ s, parser (r.word ++ later).length .statement (initialState (r.word ++ later)) =
    (.ok r.node, s) ∧ s.rest = later ∧ s.arena = r.arena

/-- A child is the node of the statement, above what is built for it. -/
def Below (a : Arena) (r : Reading) (c : Child) : Prop :=
  ∃ offset, a.Includes offset r.arena ∧ c = .plain (r.node + offset)

variable {r : Reading}

theorem Below.extends {a b : Arena} {c : Child} (h : r.Below a c) (hab : a.Extends b) :
    r.Below b c := by
  obtain ⟨offset, hincludes, hc⟩ := h
  exact ⟨offset, hincludes.extends hab, hc⟩

/-- The node of a statement that is read is stored. -/
theorem Before.node_lt (h : r.Before later) : r.node < r.arena.size := by
  obtain ⟨t, hrun, -, harena⟩ := h
  rw [← harena]
  obtain ⟨n, hstatement⟩ := exists_run_statement hrun
  have hstores : Runs (statement n (parser n)) (initialState (r.word ++ later)) _ _ :=
    storesLast_statement _
  unfold Runs at hstores
  rwa [hstatement] at hstores

theorem Below.lt {a : Arena} {c : Child} (h : r.Below a c) (hnode : r.node < r.arena.size) :
    c.node < a.size := by
  obtain ⟨offset, hincludes, rfl⟩ := h
  obtain ⟨kind, span, children, hstores⟩ := Arena.exists_stores hnode
  exact (hincludes _ _ _ _ hstores).lt

/-- A statement begins with a token that neither separates nor closes statements. -/
theorem Before.first (h : r.Before later) (hended : Token.Ended (r.word ++ later)) :
    ∃ t word, r.word = t :: word ∧ t.kind ≠ .semi ∧ t.kind ≠ .rBrace ∧ t.kind ≠ .endOfFile := by
  obtain ⟨s, hrun, hrest, -⟩ := h
  obtain ⟨ts, e, htokens, hend, hkinds⟩ := hended
  have hends := ends_statement hend hkinds (s := initialState (ts ++ [e])) rfl le_rfl
  rw [← htokens, hrun] at hends
  have hfirst : (initialState (r.word ++ later)).current.kind ≠ .semi ∧
      (initialState (r.word ++ later)).current.kind ≠ .rBrace ∧
      (initialState (r.word ++ later)).current.kind ≠ .endOfFile := by
    by_contra hnot
    obtain ⟨n, hstatement⟩ := exists_run_statement hrun
    have hfails : Runs (statement n (parser n)) (initialState (r.word ++ later)) _ _ :=
      fails_statement (by tauto)
    unfold Runs at hfails
    rwa [hstatement] at hfails
  cases hends with
  | @ok q _ _ _ _ _ hmeet hmoves =>
    cases hword : r.word with
    | nil =>
      have hleft := hmeet.rest_twice.1
      have hlength : (ts ++ [e]).length = ts.length + 1 := List.length_append
      have hlater : (ts ++ [e]).length = ((ts ++ [e]).drop q).length := by
        rw [← hleft, hrest, ← htokens, hword, List.nil_append]
      have hpos : 0 < q := hmoves.1
      rw [List.length_drop] at hlater
      omega
    | cons t word =>
      rw [hword] at hfirst
      exact ⟨t, word, rfl, hfirst⟩

/-- A statement among others is read. -/
theorem Before.run (h : r.Before later) (hended : Token.Ended (r.word ++ later))
    (hrest : s.rest = r.word ++ later) (hbound : (r.word ++ later).length ≤ bound) :
    ∃ id t, parser bound .statement s = (.ok id, t) ∧ t.rest = later ∧ s.arena.Extends t.arena ∧
      r.Below t.arena (.plain id) := by
  obtain ⟨s₀, hrun, hlater, harena⟩ := h
  obtain ⟨ts, e, htokens, hend, hkinds⟩ := hended
  rw [htokens] at hrest hbound hrun
  have hends := ends_statement hend hkinds hrest hbound
  rw [hrun] at hends
  generalize hread : parser bound .statement s = r' at hends
  cases hends with
  | ok _ hmeet hmoves =>
    refine ⟨_, _, rfl, hmeet.rest_eq.trans hlater, hmeet.built.arena.kept.extends, s.arena.size, ?_,
      congrArg Child.plain hmoves.2⟩
    rw [← harena]
    exact hmeet.built.arena.includes

end Reading

/-! ### Words that are no statements -/

/-- A parser fails within a phrase. -/
theorem exists_front_of_fails (hended : Token.Ended tokens) {error : ParseError} {t : ParserState}
    (hfails : parser tokens.length .statement (initialState tokens) = (.error error, t)) :
    ∃ front, tokens = front ++ t.rest ∧ Zone.phrase.Fits front := by
  obtain ⟨ts, e, rfl, hend, hkinds⟩ := hended
  have hrounds : (ts ++ [e]).length < (ts ++ [e]).length + 1 := Nat.lt_succ_self _
  have hagree := agree_wideParser
    (twice [] hend hkinds (initialState (ts ++ [e])).arena [])
    (le_refl (ts ++ [e]).length) hrounds.le (le_refl (ts ++ [e]).length)
  have hends := (hagree.abreast 0 0 .statement (by simp)).run
    (meet_initialState_twice hend hkinds (s := initialState (ts ++ [e])) rfl)
  have hwalks := (walksAll_wideParser hrounds (ts ++ [e]).length).statement
    (initialState (ts ++ [e])) List.suffix_rfl
  unfold Runs at hwalks
  rw [hfails] at hends
  generalize wideParser _ _ .statement (initialState (ts ++ [e])) = r' at hends hwalks
  cases hends with
  | error _ hmeet _ =>
    obtain ⟨front, hpass, hfits⟩ := Steps.passes hwalks
    exact ⟨front, hpass.rest.trans (congrArg (front ++ ·) hmeet.rest_eq), hfits⟩

/-- A parser that fails before a semicolon, fails in front of the semicolon or before. -/
theorem exists_back {bad front rest : List Token} {u : Token} (hu : u.kind = .semi)
    (hbalanced : Zone.body.depth 0 bad = some 0) (hsemi : ∀ t ∈ bad, t.kind ≠ .semi)
    (htokens : bad ++ u :: later = front ++ rest) (hfits : Zone.phrase.Fits front) :
    ∃ back, bad = front ++ back ∧ rest = back ++ u :: later := by
  obtain ⟨past, rfl, hpast⟩ | ⟨back, hbad, hrest⟩ := List.append_eq_append_iff.mp htokens
  · cases past with
    | nil => exact ⟨[], by simp, hpast.symm⟩
    | cons v past =>
      -- The semicolon stands outside of the braces.
      cases hpast
      obtain ⟨d, hd⟩ := hfits
      rw [Zone.depth_append, Zone.depth_phrase hbalanced hsemi, Option.bind_some, Zone.depth_cons,
        hu] at hd
      cases hd
  · exact ⟨back, hbad, hrest⟩

/-- What cannot be read among others is what cannot be read alone. -/
theorem fails_among {error : ParseError} {t : ParserState} (hended : Token.Ended tokens)
    (hfails : parser tokens.length .statement (initialState tokens) = (.error error, t))
    (hrest : s.rest = tokens) (hbound : tokens.length ≤ bound) :
    ∃ error' t' q, parser bound .statement s = (.error error', t') ∧ t'.rest = t.rest ∧
      t'.StandsAt tokens q ∧ s.arena.Kept t'.arena := by
  obtain ⟨ts, e, rfl, hend, hkinds⟩ := hended
  have hends := ends_statement hend hkinds hrest hbound
  rw [hfails] at hends
  generalize hread : parser bound .statement s = r' at hends
  cases hends with
  | error _ hmeet _ => exact ⟨_, _, _, rfl, hmeet.rest_eq, hmeet.standsAt, hmeet.built.arena.kept⟩

end Grammar

end TolkAnalysis
