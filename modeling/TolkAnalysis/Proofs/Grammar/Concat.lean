import Mathlib.Data.List.Infix
import TolkAnalysis.Proofs.Grammar.Spread

/-!
# Declarations are read one by one

Tokens with balanced braces that end with a closing brace or a semicolon are read as if nothing
followed, whether or not they follow the grammar, if what follows begins with a token that begins a
declaration. `readFile_append` says so of two lists of tokens: the declarations, the nodes and the
errors of both together are those of the first list and after them those of the second.

The first list is read abreast with itself, where what follows it is the end of the file in one
case and the second list in the other. The second list is read abreast with itself further on.
-/

namespace TolkAnalysis

open TolkAnalysis.Grammar TolkAnalysis.Parser

/-- A span further on in the text. -/
def Span.shift (distance : Nat) (s : Span) : Span := ⟨s.start + distance, s.stop + distance⟩

namespace Token

/-- A token further on in the text. -/
def shift (distance : Nat) (t : Token) : Token := { t with span := t.span.shift distance }

/-- Number of tokens of a kind. -/
def count (kind : TokenKind) (tokens : List Token) : Nat := tokens.countP (·.kind == kind)

/-- Tokens after which another declaration may begin. Their braces are balanced: as many are opened
as closed, and in front no more are closed than opened. -/
structure Closed (tokens : List Token) : Prop where
  kind_ne : ∀ t ∈ tokens, t.kind ≠ .endOfFile
  prefixes : ∀ front ∈ tokens.inits, count .rBrace front ≤ count .lBrace front
  total : count .rBrace tokens = count .lBrace tokens
  last : ∃ t ∈ tokens.getLast?, t.kind = .rBrace ∨ t.kind = .semi

variable {tokens : List Token}

theorem count_append (kind : TokenKind) (front back : List Token) :
    count kind (front ++ back) = count kind front + count kind back := List.countP_append

/-- In the back no more braces are opened than closed. -/
theorem Closed.count_drop (h : Closed tokens) (p : Nat) :
    count .lBrace (tokens.drop p) ≤ count .rBrace (tokens.drop p) := by
  have hfront := h.prefixes (tokens.take p) ((List.mem_inits _ _).mpr (List.take_prefix p tokens))
  have htotal := h.total
  have hopen := count_append .lBrace (tokens.take p) (tokens.drop p)
  have hclose := count_append .rBrace (tokens.take p) (tokens.drop p)
  rw [List.take_append_drop] at hopen hclose
  omega

/-! ### The same tokens further on -/

variable {distance : Nat} {e e' : Token}

theorem joins_shift (t u : Token) : joins (t.shift distance) (u.shift distance) = joins t u := by
  have htouch : (t.span.stop + distance == u.span.start + distance) =
      (t.span.stop == u.span.start) := by
    rw [Bool.eq_iff_iff, beq_iff_eq, beq_iff_eq, Nat.add_right_cancel_iff]
  simp only [joins, shift, Span.shift, htouch]

theorem joined_shift (hend : e.kind = .endOfFile) (hend' : e'.kind = .endOfFile)
    (tokens : List Token) :
    joined (tokens.map (shift distance) ++ [e']) = joined (tokens ++ [e]) := by
  induction tokens with
  | nil => rfl
  | cons t rest ih =>
    cases rest with
    | nil => simp [joined, joins_eq_false hend, joins_eq_false hend']
    | cons u rest =>
      simp only [List.map_cons, List.cons_append, joined_cons, joins_shift] at ih ⊢
      rw [ih]

theorem respaced_shift (hend : e.kind = .endOfFile) (hend' : e'.kind = .endOfFile)
    (htext : e'.text = e.text) (distance : Nat) (tokens : List Token) :
    Respaced (tokens ++ [e]) (tokens.map (shift distance) ++ [e']) := by
  refine ⟨?_, joined_shift hend hend' tokens⟩
  rw [List.map_append, List.map_append, List.map_map, List.map_singleton, List.map_singleton, hend,
    hend', htext]
  rfl

end Token

namespace Pairing

/-- Nodes further on have their spans further on. -/
theorem compares_shift (distance : Nat) (tokens : List Token) (e e' : Token) :
    Compares tokens (tokens.map (Token.shift distance)) e e' (fun s s' => s' = s.shift distance)
      fun _ _ => True where
  between {i j t u t' u'} _ ht hu ht' hu' := by
    rw [List.getElem?_map, ht] at ht'
    rw [List.getElem?_map, hu] at hu'
    cases ht'
    cases hu'
    simp only [Token.shift, Span.shift, Span.merge, Nat.add_max_add_right, Nat.add_min_add_right,
      and_self]
  mismatch _ _ _ := trivial

variable {tokens : List Token} {e next : Token}

/-- Tokens after which the file ends, and the same tokens after which a declaration begins. -/
def followed (h : Token.Closed tokens) (more : List Token) (hend : e.kind = .endOfFile)
    (hnext : next.kind.startsItem = true) : Pairing where
  tokens := tokens.map fun t => (t, t)
  stop := e
  more := []
  stop' := next
  more' := more
  goesOn := true
  base := .empty
  before := []
  spans := fun s s' => s' = id s
  errors := fun _ _ => True
  same t ht := by
    obtain ⟨x, hx, rfl⟩ := List.mem_map.mp ht
    exact ⟨rfl, fun _ _ => rfl, h.kind_ne x hx⟩
  touch {p t u} ht hu _ _ := by
    rw [List.getElem?_map] at ht hu
    obtain ⟨x, -, rfl⟩ := Option.map_eq_some_iff.mp ht
    obtain ⟨y, -, rfl⟩ := Option.map_eq_some_iff.mp hu
    exact Iff.rfl
  stop_kind := hend
  stop'_kind := hnext
  balanced _ p := by
    have hcount : ∀ kind, countKind kind ((tokens.map fun t => (t, t)).drop p) =
        Token.count kind (tokens.drop p) := by
      intro kind
      rw [← List.map_drop, countKind, List.countP_map]
      rfl
    rw [hcount, hcount]
    exact h.count_drop p
  last _ t ht := by
    obtain ⟨x, hx, hlast⟩ := h.last
    rw [List.length_map, List.getElem?_map, ← List.getLast?_eq_getElem?, hx] at ht
    cases ht
    exact hlast
  between {i j t u} _ ht hu := by
    rw [List.getElem?_map] at ht hu
    obtain ⟨x, -, rfl⟩ := Option.map_eq_some_iff.mp ht
    obtain ⟨y, -, rfl⟩ := Option.map_eq_some_iff.mp hu
    exact ⟨rfl, rfl, rfl⟩
  mismatch _ _ _ := trivial

/-- The tokens of a file, read at the beginning of a longer one: the parser comes to what follows
with the nodes and the number of errors of the file. -/
theorem meet_followed (h : Token.Closed tokens) (more : List Token) (hend : e.kind = .endOfFile)
    (hnext : next.kind.startsItem = true) {bound' rounds' : Nat} (hbound' : tokens.length < bound')
    (hrounds' : tokens.length < rounds') :
    ∃ (items : List (List Child)) (t t' : ParserState) (left : Nat),
      readFile (tokens ++ [e]) = (items.flatten, t) ∧ t'.rest = next :: more ∧
      t'.arena.nodes = t.arena.nodes ∧ t'.errors.size = t.errors.size ∧
      rounds' ≤ left + tokens.length ∧
      ∀ later u, collect (whenAt (!·.isAtEnd) (fileItem bound' (parser bound'))) left t' =
          (.ok later, u) →
        collect (whenAt (!·.isAtEnd) (fileItem bound' (parser bound'))) rounds'
          (initialState (tokens ++ next :: more)) = (.ok (items ++ later), u) := by
  generalize hF : followed h more hend hnext = F
  have hmap : F.tokens = tokens.map fun t => (t, t) := by rw [← hF]; rfl
  have hfst : F.tokens.map Prod.fst ++ F.stop :: F.more = tokens ++ [e] := by
    rw [hmap, List.map_map, ← hF]
    exact congrArg (· ++ [e]) (List.map_id tokens)
  have hsnd : F.tokens.map Prod.snd ++ F.stop' :: F.more' = tokens ++ next :: more := by
    rw [hmap, List.map_map, ← hF]
    exact congrArg (· ++ next :: more) (List.map_id tokens)
  have hlength : F.tokens.length = tokens.length := by rw [hmap, List.length_map]
  have hbase : F.base = .empty := by rw [← hF]; rfl
  have hbefore : F.before = [] := by rw [← hF]; rfl
  obtain ⟨items, t, t', left, hitems, hmeet, hleft, hgo⟩ :=
    F.readFile_abreast (initialState (tokens ++ next :: more)) hsnd.symm hbase.symm hbefore.symm
      (hlength ▸ hbound') (hlength ▸ hrounds')
  have hchild : F.child = id := by
    funext c
    simp [Pairing.child, hbase, Arena.empty, Arena.size]
  have hrest := hmeet.cursors.rest'
  have hspans : F.spans = fun s s' => s' = id s := by rw [← hF]; rfl
  have harena := hmeet.built.arena
  rw [hspans, hbase] at harena
  refine ⟨items, t, t', left, hfst ▸ hitems, ?_, ?_, ?_, hlength ▸ hleft, ?_⟩
  · rw [hrest, List.drop_length, ← hF]
    rfl
  · rw [harena.nodes_eq]
    simp [Arena.empty, Arena.size]
  · have hsize := hmeet.built.errors_size
    rw [hbefore] at hsize
    exact hsize
  · simp only [hchild, List.map_id_fun, id] at hgo
    exact hgo

end Pairing

namespace Grammar

/-- What is read of a file is what is read of two files, one after the other: the declarations of
both, with all nodes below them, where those of the second one are stored later and stand further
on. -/
structure Concatenates (distance : Nat) (first second both : List Child × ParserState) : Prop where
  items : both.1 = first.1 ++ second.1.map (Child.shift first.2.arena.size)
  stored : ∀ c ∈ first.1, c.node < first.2.arena.size
  nodes : both.2.arena.nodes = first.2.arena.nodes ++
    second.2.arena.nodes.map (NodeData.shift first.2.arena.size (Span.shift distance))
  errors : both.2.errors.size = first.2.errors.size + second.2.errors.size

/-- Declarations that are followed by others are read as if nothing followed, and the others as if
nothing stood before. -/
theorem readFile_append {before after : List Token} (hbefore : Token.Closed before)
    (hafter : ∀ t ∈ after, t.kind ≠ .endOfFile)
    (hbegins : ∃ t ∈ after.head?, t.kind.startsItem = true) (distance stop stop' stop'' : Nat) :
    Concatenates distance (readFile (before ++ [Token.endOfFile stop]))
      (readFile (after ++ [Token.endOfFile stop']))
      (readFile (before ++ after.map (Token.shift distance) ++ [Token.endOfFile stop''])) := by
  have hend : (Token.endOfFile stop).kind = .endOfFile := rfl
  have hstored := stored_readFile hend hbefore.kind_ne
  obtain ⟨first, hfirst, hstarts⟩ := hbegins
  obtain ⟨others, rfl⟩ := List.head?_eq_some_iff.mp hfirst
  generalize htokens : before ++ (first :: others).map (Token.shift distance) ++
    [Token.endOfFile stop''] = tokens
  have hlength : tokens.length = before.length + (first :: others).length + 1 := by
    simp [← htokens, Nat.add_assoc]
  have hbound : before.length < tokens.length + 1 := by omega
  have hends : ∀ offset, (Token.endOfFile offset).kind = .endOfFile := fun _ => rfl
  have hstarts' : (first.shift distance).kind.startsItem = true := hstarts
  -- The parser of both comes to the second list with what it has read of the first one.
  obtain ⟨items, t, t', left, hitems, hrest, hnodes, herrors, hleft, hgo⟩ :=
    Pairing.meet_followed hbefore (others.map (Token.shift distance) ++ [Token.endOfFile stop''])
      (hends stop) hstarts' hbound hbound
  -- From there it reads the second list.
  have hbound' : (first :: others).length < tokens.length + 1 := by omega
  have hleft' : (first :: others).length < left := by omega
  obtain ⟨items', u, u', hitems', hcollect, harena, later, hlater, hall⟩ :=
    Pairing.meet_readAlike
      (Token.respaced_shift (hends stop') (hends stop'') rfl distance (first :: others)).readAlike
      (hends stop') hafter (Pairing.compares_shift distance _ _ _) t' hrest hbound' hleft'
  have hboth := hgo _ _ hcollect
  rw [← List.cons_append, ← List.map_cons, ← List.append_assoc, htokens] at hboth
  have hsize : t'.arena.size = t.arena.size := congrArg Array.size hnodes
  rw [readFile_eq hboth, hitems, hitems']
  rw [hitems] at hstored
  refine ⟨?_, hstored, ?_, ?_⟩
  · rw [hsize, List.flatten_append, List.map_flatten]
  · rw [← hnodes, ← hsize]
    exact harena.nodes_eq
  · have hcount := congrArg List.length hlater
    rw [List.length_append, ← hall.length_eq, Array.length_toList, Array.length_toList,
      Array.length_toList, herrors] at hcount
    exact hcount

/-- The tokens of a function that breaks off inside its braces: `fun f( { const }`. -/
def brokenFunction : List Token :=
  [⟨.kwFun, "fun", ⟨0, 3⟩⟩, ⟨.ident, "f", ⟨4, 5⟩⟩, ⟨.lParen, "(", ⟨5, 6⟩⟩, ⟨.lBrace, "\x7b", ⟨7, 8⟩⟩,
    ⟨.kwConst, "const", ⟨9, 14⟩⟩, ⟨.rBrace, "\x7d", ⟨15, 16⟩⟩]

/-- The tokens of a constant: `const a=1`. -/
def constantAfter : List Token :=
  [⟨.kwConst, "const", ⟨0, 5⟩⟩, ⟨.ident, "a", ⟨6, 7⟩⟩, ⟨.eq, "=", ⟨7, 8⟩⟩, ⟨.number, "1", ⟨8, 9⟩⟩]

theorem closed_brokenFunction : Token.Closed brokenFunction where
  kind_ne := by decide
  prefixes := by decide
  total := by decide
  last := ⟨⟨.rBrace, "\x7d", ⟨15, 16⟩⟩, by decide, .inl rfl⟩

theorem readFile_append_broken :
    Token.Closed brokenFunction ∧ (∀ t ∈ constantAfter, t.kind ≠ .endOfFile) ∧
      (∃ t ∈ constantAfter.head?, t.kind.startsItem = true) ∧
      Concatenates 16 (readFile (brokenFunction ++ [Token.endOfFile 16]))
        (readFile (constantAfter ++ [Token.endOfFile 9]))
        (readFile (brokenFunction ++ constantAfter.map (Token.shift 16) ++
          [Token.endOfFile 25])) := by
  have hafter : ∀ t ∈ constantAfter, t.kind ≠ .endOfFile := by decide
  have hbegins : ∃ t ∈ constantAfter.head?, t.kind.startsItem = true :=
    ⟨⟨.kwConst, "const", ⟨0, 5⟩⟩, by decide, rfl⟩
  exact ⟨closed_brokenFunction, hafter, hbegins,
    readFile_append closed_brokenFunction hafter hbegins 16 16 9 25⟩

end Grammar

end TolkAnalysis
