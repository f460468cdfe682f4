import Mathlib.Data.List.Basic
import TolkAnalysis.Proofs.Grammar.Runs

/-!
# The word between two places

`c.Passes word c'` says that the tokens `word` stand between `c` and `c'`: they come next at `c`,
and behind the last of them comes `c'`. A node that is finished at `c'` after it was begun at `c`
covers the word, `Token.cover`. Words are put together by `Passes.trans`.
-/

namespace TolkAnalysis

/-- What a node covers that is read as the given tokens. A node ends where its last token ends, and
not before it begins. -/
def Token.cover (word : List Token) : Span :=
  let start := (word.head?.map (·.span.start)).getD 0
  ⟨start, max ((word.getLast?.map (·.span.stop)).getD 0) start⟩

/-- The last one of the tokens between two places. -/
theorem Token.getLast?_slice {tokens : List Token} {p j : Nat} {u : Token} (hpj : p ≤ j)
    (hu : tokens[j]? = some u) : ((tokens.drop p).take (j + 1 - p)).getLast? = some u := by
  have hpos : j + 1 - p ≠ 0 := by omega
  have hindex : p + (j + 1 - p - 1) = j := by omega
  rw [List.getLast?_take, if_neg hpos, List.getElem?_drop, hindex, hu, Option.some_or]

/-- The tokens from one position to another one cover what lies between them. -/
theorem Token.cover_slice {tokens : List Token} {i j : Nat} {t u : Token} (hij : i ≤ j)
    (ht : tokens[i]? = some t) (hu : tokens[j]? = some u) :
    Token.cover ((tokens.drop i).take (j + 1 - i)) =
      ⟨t.span.start, max u.span.stop t.span.start⟩ := by
  have hpos : j + 1 - i ≠ 0 := by omega
  have hfirst : ((tokens.drop i).take (j + 1 - i)).head? = some t := by
    rw [List.head?_take, if_neg hpos, List.head?_drop, ht]
  simp [Token.cover, hfirst, getLast?_slice hij hu]

namespace Cursor

theorem current_of_rest {c : Cursor} {t : Token} {rest : List Token} (h : c.rest = t :: rest) :
    c.current = t := by
  rw [Cursor.current, h]
  rfl

/-- The tokens `word` stand between two places. -/
structure Passes (c : Cursor) (word : List Token) (c' : Cursor) : Prop where
  rest : c.rest = word ++ c'.rest
  previous : c'.previous = word.getLast?.or c.previous

namespace Passes

variable {a b c : Cursor} {word later : List Token}

theorem refl (c : Cursor) : c.Passes [] c := ⟨rfl, rfl⟩

theorem trans (hab : a.Passes word b) (hbc : b.Passes later c) : a.Passes (word ++ later) c where
  rest := by rw [hab.rest, hbc.rest, List.append_assoc]
  previous := by
    rw [hbc.previous, hab.previous, List.getLast?_append, Option.or_assoc]

/-- One token is passed. -/
theorem one {t : Token} (h : a.rest = t :: b.rest) (hprevious : b.previous = some t) :
    a.Passes [t] b := ⟨h, hprevious⟩

theorem advance (h : c.current.kind ≠ .endOfFile) : c.Passes [c.current] c.advance := by
  obtain ⟨rest, hrest, hadvance⟩ := advance_eq h
  rw [hadvance]
  exact .one hrest rfl

/-- The next token is read, unless it ends the file. -/
theorem of_rest {t : Token} {rest : List Token} (h : c.rest = t :: rest) (ht : t.kind ≠ .endOfFile) :
    c.Passes [t] c.advance ∧ c.advance.rest = rest := by
  have hpass : c.Passes [c.current] c.advance := .advance (by rwa [current_of_rest h])
  rw [current_of_rest h] at hpass
  exact ⟨hpass, (List.cons.inj (hpass.rest.symm.trans h)).2⟩

theorem token {kind : TokenKind} (h : c.isAt kind = true) (hkind : kind ≠ .endOfFile) :
    c.Passes [c.current] c.advance :=
  .advance (by rwa [current_kind_eq_of_isAt h])

theorem length_rest (h : a.Passes word b) : a.rest.length = word.length + b.rest.length := by
  rw [h.rest, List.length_append]

theorem rest_suffix (h : a.Passes word b) : b.rest <:+ a.rest := by
  rw [h.rest]
  exact List.suffix_append word b.rest

theorem rest_le (h : a.Passes word b) : b.rest.length ≤ a.rest.length := by
  rw [h.length_rest]
  exact Nat.le_add_left _ _

theorem rest_lt (h : a.Passes word b) (hword : word ≠ []) : b.rest.length < a.rest.length := by
  rw [h.length_rest]
  exact Nat.lt_add_of_pos_left (List.length_pos_of_ne_nil hword)

/-- A word begins with the next token. -/
theorem current (h : a.Passes word b) {t : Token} (ht : t ∈ word.head?) : a.current = t := by
  obtain ⟨rest, rfl⟩ := List.head?_eq_some_iff.mp ht
  simp [Cursor.current, h.rest]

/-- What is finished after a word covers it. -/
theorem finish (h : a.Passes word b) (hword : word ≠ []) :
    (⟨a.start, max b.previousStop a.start⟩ : Span) = Token.cover word := by
  obtain ⟨t, rest, rfl⟩ := List.exists_cons_of_ne_nil hword
  have hstart : a.start = t.span.start := by rw [Cursor.start, h.current rfl]
  have hlast := List.getLast?_eq_getLast_of_ne_nil hword
  have hstop : b.previousStop = ((t :: rest).getLast hword).span.stop := by
    simp [Cursor.previousStop, h.previous, hlast]
  simp [Token.cover, hstart, hstop, hlast]

end Passes

/-- The word between a place and one that is reached from it by reading. -/
theorem Reads.exists_passes {c c' : Cursor} (h : c.Reads c') : ∃ word, c.Passes word c' := by
  obtain ⟨n, rfl⟩ := h
  induction n with
  | zero => exact ⟨[], .refl c⟩
  | succ n ih =>
    obtain ⟨word, hword⟩ := ih
    rw [Function.iterate_succ_apply']
    by_cases hkind : (advance^[n] c).current.kind = .endOfFile
    · rw [advance_eq_self hkind]
      exact ⟨word, hword⟩
    · exact ⟨_, hword.trans (.advance hkind)⟩

end Cursor

namespace Parser.Runs

variable {β : Type} {kind : TokenKind} {s : ParserState} {R : β → ParserState → Prop}
  {E : ParserState → Prop}

/-- A token is read if it is of the given kind, with more to follow in each case. -/
theorem eat {p q : Parser β} (hread : s.isAt kind = true → Runs p s.advance R E)
    (hnone : s.isAt kind = false → Runs q s R E) :
    Runs (Parser.eat kind >>= fun b => if b = true then p else q) s R E := by
  refine .bind (.check ?_)
  cases hat : s.isAt kind with
  | true => exact .bind (.of_modify (hread hat))
  | false => exact hnone hat

/-- A token of the given kind is read, or the parser fails. -/
theorem expect {f : Span → Parser β}
    (hread : s.isAt kind = true → Runs (f s.current.span) s.advance R E)
    (hnone : s.isAt kind = false → E s) : Runs (Parser.expect kind >>= f) s R E := by
  refine .bind (.check ?_)
  cases hat : s.isAt kind with
  | true => exact .map (.next (hread hat))
  | false => exact .fail (hnone hat)

/-- The next token is read as a node. -/
theorem leaf {kind : NodeKind} {f : Nat → Parser β}
    (h : Runs (f s.arena.size)
      { s.advance with arena := s.arena.push kind s.current.span [] } R E) :
    Runs (Parser.leaf kind >>= f) s R E := h

/-- A node is put above what is built. -/
theorem finish {kind : NodeKind} {start : Nat} {children : List Child}
    {Q : Nat → ParserState → Prop}
    (h : Q s.arena.size
      { s with arena := s.arena.push kind ⟨start, max s.previousStop start⟩ children }) :
    Runs (Parser.finish kind start children) s Q E := h

/-- Only the last one of several parsers counts. -/
theorem last {α : Type} {p : Parser α} {f : α → Parser β} {Q : β → ParserState → Prop}
    (h : ∀ a s, Runs (f a) s Q fun _ => True) : Runs (p >>= f) s Q fun _ => True := by
  refine .bind ?_
  unfold Runs
  split
  · exact h _ _
  · trivial

/-- A loop that reads a token in each round goes on until a round answers nothing, if its bound is
above the number of tokens. -/
theorem iterate_exit {α : Type} {step : α → Parser (Option α)} {I J : α → ParserState → Prop}
    {bound : Nat} (hstep : ∀ a s, I a s → Runs (step a) s (fun r s' => match r with
      | some a' => I a' s' ∧ s'.rest.length < s.rest.length
      | none => J a s') E) {a : α} {s : ParserState} (h : I a s) (hbound : s.rest.length < bound) :
    Runs (Parser.iterate step bound a) s J E := by
  induction bound generalizing a s with
  | zero => exact absurd hbound (Nat.not_lt_zero _)
  | succ bound ih =>
    refine .bind ((hstep a s h).mono ?_ fun _ hE => hE)
    rintro (_ | a') s' hr
    · exact hr
    · exact ih hr.1 (by omega)

end Parser.Runs

end TolkAnalysis
