import TolkAnalysis.Proofs.Grammar.Forward
import TolkAnalysis.Proofs.Token.Respaced
import TolkAnalysis.Proofs.Tree.Extends

/-!
# What declarations cover

A declaration is finished where it has been read, so its node covers the word that has been read
(`finishes_itemOrSkipped`). `a.Covers tokens children` says that some children take up some tokens
one after the other, each of them a word and with semicolons between them. The declarations of a
file take up all its tokens (`covers_readFile`). If tokens stand apart then each of them is in the
span of one child, or it is one of those semicolons (`Covers.countP_eq`).
-/

namespace TolkAnalysis

open TolkAnalysis.Parser TolkAnalysis.Grammar

namespace Grammar

variable {α : Type} {bound : Nat}

/-! ### What a declaration covers -/

/-- The node that a parser builds begins at an offset and ends where the parser comes to. -/
def Finishes (start : Nat) (m : Parser Nat) : Prop :=
  ∀ s, Runs m s (fun id s' => ∃ kind children,
    s'.arena.Stores id kind ⟨start, max s'.previousStop start⟩ children) fun _ => True

section

variable {start : Nat} {parse : Nonterminal → Parser Nat} {annotations : Option Nat}

theorem finishes_finish (kind : NodeKind) (children : List Child) :
    Finishes start (finish kind start children) :=
  fun _ => .finish ⟨_, _, Arena.stores_push_last _ _ _⟩

theorem Finishes.bind {m : Parser α} {f : α → Parser Nat} (h : ∀ a, Finishes start (f a)) :
    Finishes start (m >>= f) := fun _ => .last h

theorem Finishes.fail (expected : Expected) : Finishes start (Parser.fail expected) :=
  fun _ => .fail trivial

theorem finishes_function {isGetMethod : Bool} :
    Finishes start (function bound parse start annotations isGetMethod) :=
  .bind fun _ => .bind fun _ => .bind fun _ => .bind fun _ => .bind fun _ => .bind fun _ =>
    .bind fun _ => finishes_finish _ _

/-- A declaration covers what is read of it. -/
theorem finishes_item (s : ParserState) : Runs (item bound parse) s (fun id s' => ∃ kind children,
    s'.arena.Stores id kind ⟨s.start, max s'.previousStop s.start⟩ children) fun _ => True := by
  refine .cursor (Finishes.bind (fun annotations => ?_) s)
  refine .bind fun c => ?_
  split
  · exact .bind fun _ => .bind fun _ => .bind fun _ => finishes_finish _ _
  · exact finishes_function
  · exact .bind fun _ => .bind fun _ => .bind fun _ => .bind fun _ => .bind fun _ =>
      finishes_finish _ _
  · exact .bind fun _ => .bind fun _ => .bind fun _ => .bind fun _ => finishes_finish _ _
  · exact .bind fun _ => .bind fun _ => .bind fun _ => .bind fun _ => .bind fun _ =>
      .bind fun _ => finishes_finish _ _
  · exact .bind fun _ => .bind fun _ => .bind fun _ => .bind fun _ => .bind fun _ =>
      .bind fun _ => finishes_finish _ _
  · exact .bind fun _ => .bind fun _ => .bind fun _ => .bind fun _ => .bind fun _ =>
      finishes_finish _ _
  · split
    · exact .bind fun _ => finishes_function
    · exact .fail _

theorem finishes_recover (error : ParseError) (earlier : Checkpoint) (stop : TokenKind → Bool) :
    Finishes earlier.start (recover bound error earlier stop) :=
  .bind fun _ => .bind fun _ => .bind fun _ => .bind fun _ => finishes_finish _ _

/-- A declaration that cannot be read is covered by a node as well. -/
theorem finishes_itemOrSkipped (s : ParserState) :
    Runs (itemOrSkipped bound parse) s (fun id s' => ∃ kind children,
      s'.arena.Stores id kind ⟨s.start, max s'.previousStop s.start⟩ children) fun _ => True := by
  refine .get (.tryCatch ((finishes_item s).mono (fun _ _ h => h) fun s₁ _ error => ?_))
  exact finishes_recover error s.checkpoint _ s₁

end

end Grammar

/-- The children of a root take up some tokens one after the other, with semicolons between them. -/
inductive Arena.Covers (a : Arena) : List Token → List Child → Prop
  | nil : Covers a [] []
  | semi {t : Token} {tokens : List Token} {children : List Child} :
      t.kind = .semi → Covers a tokens children → Covers a (t :: tokens) children
  | child {word tokens : List Token} {id : Nat} {kind : NodeKind} {below children : List Child} :
      word ≠ [] → a.Stores id kind (Token.cover word) below → Covers a tokens children →
      Covers a (word ++ tokens) (.plain id :: children)

namespace Grammar

open Pairing

variable {ts : List Token} {e : Token} {p bound : Nat} {s : ParserState}

/-- A declaration takes up the tokens that are read of it. What stands between declarations is a
semicolon. -/
theorem covers_fileItem (hend : e.kind = .endOfFile) (hkinds : ∀ t ∈ ts, t.kind ≠ .endOfFile)
    (hbound : (ts ++ [e]).length ≤ bound) (hs : s.StandsAt (ts ++ [e]) p) (hlt : p < ts.length) :
    ∃ items t q, fileItem bound (parser bound) s = (.ok items, t) ∧ p < q ∧
      t.StandsAt (ts ++ [e]) q ∧ s.arena.Kept t.arena ∧
      ∀ {a : Arena} {later : List Child}, t.arena.Kept a → a.Covers (ts.drop q) later →
        a.Covers (ts.drop p) (items ++ later) := by
  have hlength : (twice [] hend hkinds s.arena s.errors.toList).tokens.length = ts.length :=
    length_tokens_twice
  have hagree : (twice [] hend hkinds s.arena s.errors.toList).Agree bound bound bound
      (parser bound) (parser bound) := agree_grammar le_rfl le_rfl
  rw [List.length_append, List.length_singleton] at hbound
  have hrun := hs.run (abreast_fileItem hagree (p := p) (by omega) (by omega))
  have htotal : Total (fileItem bound (parser bound)) := total_fileItem
  obtain ⟨items, t, hitems⟩ := htotal.exists_ok s
  unfold Runs at hrun
  rw [hitems] at hrun
  obtain ⟨q, _, -, hread, hq, hkept⟩ := hrun
  have hpq : p < q := hread.1
  refine ⟨items, t, q, hitems, hpq, hq, hkept, fun {a later} ha hlater => ?_⟩
  -- The tokens that have been read are a word in front of those that are left.
  generalize hword : (ts.drop p).take (q - p) = word
  have hsplit : ts.drop p = word ++ ts.drop q := by
    have h := (List.take_append_drop (q - p) (ts.drop p)).symm
    rwa [List.drop_drop, Nat.add_sub_cancel' hpq.le, hword] at h
  have hpasses : s.Passes word t.toCursor := by
    have h := hs.passes hq hpq
    rwa [List.drop_append_of_le_length hlt.le,
      List.take_append_of_le_length (by simp; have := hq.le; omega), hword] at h
  have hne : word ≠ [] := by
    rintro rfl
    have h := hpasses.length_rest
    rw [hs.rest, hq.rest, List.length_drop, List.length_drop] at h
    have := hq.lt
    simp at h
    omega
  rw [hsplit]
  unfold fileItem at hitems
  rw [run_eat] at hitems
  split at hitems
  · rename_i hsemi
    cases hitems
    have hone : s.Passes [s.current] s.advance.toCursor := .token hsemi (by decide)
    obtain rfl : word = [s.current] :=
      List.append_cancel_right (hpasses.rest.symm.trans hone.rest)
    exact .semi (Cursor.current_kind_eq_of_isAt hsemi) hlater
  · rw [run_bind] at hitems
    have hcover : Runs (itemOrSkipped bound (parser bound)) s _ _ := finishes_itemOrSkipped s
    unfold Runs at hcover
    generalize itemOrSkipped bound (parser bound) s = r at hitems hcover
    obtain ⟨_ | id, s'⟩ := r
    · cases hitems
    · cases hitems
      obtain ⟨kind, below, hstores⟩ := hcover
      rw [hpasses.finish hne] at hstores
      exact .child hne (ha.extends _ _ _ _ hstores) hlater

/-- The declarations of a file take up all its tokens. -/
theorem covers_fileItems (hend : e.kind = .endOfFile) (hkinds : ∀ t ∈ ts, t.kind ≠ .endOfFile)
    (hbound : (ts ++ [e]).length ≤ bound) {rounds : Nat} (hrounds : (ts ++ [e]).length ≤ p + rounds)
    (hs : s.StandsAt (ts ++ [e]) p) :
    ∃ items t, collect (whenAt (!·.isAtEnd) (fileItem bound (parser bound))) rounds s =
        (.ok items, t) ∧ s.arena.Kept t.arena ∧ t.arena.Covers (ts.drop p) items.flatten := by
  induction rounds generalizing p s with
  | zero => exact absurd hs.lt (Nat.not_lt.mpr hrounds)
  | succ rounds ih =>
    rcases hs.le.lt_or_eq with hlt | rfl
    · have hhere : (!s.isAtEnd) = true := by
        have hcurrent : s.current = ts[p] := by
          rw [Cursor.current, hs.rest, List.head?_drop, List.getElem?_append_left hlt,
            List.getElem?_eq_getElem hlt]
          rfl
        simpa [Cursor.isAtEnd, Cursor.isAt, hcurrent] using hkinds _ (List.getElem_mem hlt)
      obtain ⟨first, t, q, hfirst, hpq, hq, hkept, hcovers⟩ :=
        covers_fileItem hend hkinds hbound hs hlt
      obtain ⟨items, u, hitems, hkept', hlater⟩ := ih (by omega) hq
      exact ⟨first :: items, u, run_collect_cons hhere hfirst hitems, hkept.trans hkept',
        hcovers hkept' hlater⟩
    · have hhere : (!s.isAtEnd) = false := by
        simp [Cursor.isAtEnd, Cursor.isAt, hs.current_stop, hend]
      refine ⟨[], s, run_collect_nil hhere, .refl _, ?_⟩
      rw [List.drop_length]
      exact .nil

theorem standsAt_initialState (ts : List Token) (e : Token) :
    (initialState (ts ++ [e])).StandsAt (ts ++ [e]) 0 :=
  ⟨by simp, rfl, .inl rfl⟩

theorem covers_readFile (hend : e.kind = .endOfFile) (hkinds : ∀ t ∈ ts, t.kind ≠ .endOfFile) :
    (readFile (ts ++ [e])).2.arena.Covers ts (readFile (ts ++ [e])).1 := by
  have hrounds : (ts ++ [e]).length ≤ 0 + ((ts ++ [e]).length + 1) := by omega
  obtain ⟨items, t, hitems, -, hcovers⟩ := covers_fileItems hend hkinds
    (Nat.le_succ (ts ++ [e]).length) hrounds (standsAt_initialState ts e)
  rw [readFile_eq hitems]
  exact hcovers

end Grammar

/-! ### Tokens in the spans of children -/

/-- A child covers a token. -/
def Arena.holds (a : Arena) (t : Token) (c : Child) : Bool :=
  (a.node? c.node).any fun data => data.span.containsSpan t.span

/-- Tokens that cover something stand one after the other. -/
structure Token.Apart (tokens : List Token) : Prop where
  ordered : Token.Ordered tokens
  covers : ∀ t ∈ tokens, t.span.start < t.span.stop

namespace Token.Apart

variable {word later : List Token} {t u : Token}

theorem left (h : Apart (word ++ later)) : Apart word where
  ordered := ⟨fun t ht => h.ordered.forward t (List.mem_append_left _ ht),
    (List.pairwise_append.mp h.ordered.sorted).1⟩
  covers t ht := h.covers t (List.mem_append_left _ ht)

theorem right (h : Apart (word ++ later)) : Apart later where
  ordered := ⟨fun t ht => h.ordered.forward t (List.mem_append_right _ ht),
    (List.pairwise_append.mp h.ordered.sorted).2.1⟩
  covers t ht := h.covers t (List.mem_append_right _ ht)

theorem between (h : Apart (word ++ later)) (ht : t ∈ word) (hu : u ∈ later) :
    t.span.stop ≤ u.span.start :=
  (List.pairwise_append.mp h.ordered.sorted).2.2 t ht u hu

/-- What a word covers, from its first token to its last one. -/
theorem exists_cover (h : Apart word) (hne : word ≠ []) : ∃ first ∈ word, ∃ last ∈ word,
    cover word = ⟨first.span.start, last.span.stop⟩ ∧
      ∀ t ∈ word, first.span.start ≤ t.span.start ∧ t.span.stop ≤ last.span.stop := by
  have hpos : 0 < word.length := List.length_pos_of_ne_nil hne
  have hfirst : word[0]? = some word[0] := List.getElem?_eq_getElem hpos
  have hlast : word[word.length - 1]? = some word[word.length - 1] :=
    List.getElem?_eq_getElem (by omega)
  refine ⟨_, List.mem_of_getElem? hfirst, _, List.mem_of_getElem? hlast, ?_, fun t ht => ?_⟩
  · have hcover := cover_slice (Nat.zero_le _) hfirst hlast
    rwa [List.drop_zero, Nat.sub_zero, Nat.sub_add_cancel hpos, List.take_length,
      h.ordered.max_eq (Nat.zero_le _) hfirst hlast] at hcover
  · obtain ⟨i, hi⟩ := List.getElem?_of_mem ht
    have hlt := (List.getElem?_eq_some_iff.mp hi).1
    exact ⟨(h.ordered.le (Nat.zero_le i) hfirst hi).1, (h.ordered.le (by omega) hi hlast).2.1⟩

end Token.Apart

namespace Arena

variable {a : Arena} {tokens : List Token} {children : List Child} {t : Token}

theorem holds_of_stores {id : Nat} {kind : NodeKind} {span : Span} {below : List Child}
    (h : a.Stores id kind span below) (t : Token) :
    a.holds t (.plain id) = span.containsSpan t.span := by
  obtain ⟨parent, hnode⟩ := h
  simp [holds, hnode]

/-- What stands before some tokens is covered by none of the children. -/
theorem Covers.countP_eq_zero (h : a.Covers tokens children) (hapart : Token.Apart tokens)
    (ht : t.span.start < t.span.stop) (hbefore : ∀ u ∈ tokens, t.span.stop ≤ u.span.start) :
    children.countP (a.holds t) = 0 := by
  induction h with
  | nil => rfl
  | @semi u tokens children _ _ ih =>
    have happend : Token.Apart ([u] ++ tokens) := hapart
    exact ih happend.right fun v hv => hbefore v (List.mem_cons_of_mem u hv)
  | child hne hstores _ ih =>
    obtain ⟨first, hfirst, last, -, hcover, -⟩ := hapart.left.exists_cover hne
    have hstart := hbefore first (List.mem_append_left _ hfirst)
    have houtside : ¬ first.span.start ≤ t.span.start := by omega
    rw [List.countP_cons_of_neg, ih hapart.right fun v hv => hbefore v (List.mem_append_right _ hv)]
    rw [holds_of_stores hstores, hcover]
    simp [Span.containsSpan, houtside]

/-- A token is covered by one child, or it is a semicolon between children. -/
theorem Covers.countP_eq (h : a.Covers tokens children) (hapart : Token.Apart tokens) :
    ∀ t ∈ tokens, children.countP (a.holds t) = 1 ∨
      t.kind = .semi ∧ children.countP (a.holds t) = 0 := by
  induction h with
  | nil => exact fun t ht => absurd ht List.not_mem_nil
  | @semi u tokens children hkind hlater ih =>
    have happend : Token.Apart ([u] ++ tokens) := hapart
    rintro t (_ | ⟨_, ht⟩)
    · refine .inr ⟨hkind, hlater.countP_eq_zero happend.right ?_ fun v hv => ?_⟩
      · exact hapart.covers u List.mem_cons_self
      · exact happend.between (List.mem_singleton_self u) hv
    · exact ih happend.right t ht
  | child hne hstores hlater ih =>
    intro t ht
    obtain ⟨first, -, last, hlast, hcover, hinside⟩ := hapart.left.exists_cover hne
    have hpos := hapart.covers t ht
    obtain ht | ht := List.mem_append.mp ht
    · left
      rw [List.countP_cons_of_pos, hlater.countP_eq_zero hapart.right hpos
        fun v hv => hapart.between ht hv]
      rw [holds_of_stores hstores, hcover]
      simp [Span.containsSpan, hinside t ht]
    · have hbetween := hapart.between hlast ht
      have houtside : ¬ t.span.stop ≤ last.span.stop := by omega
      rw [List.countP_cons_of_neg]
      · exact ih hapart.right t ht
      · rw [holds_of_stores hstores, hcover]
        simp [Span.containsSpan, houtside]

end Arena

end TolkAnalysis
