import TolkAnalysis.Proofs.Grammar.Abreast.File

/-!
# Tokens read twice

Tokens up to the end of the file are a pairing with themselves, `Pairing.twice`. The first parser
has built nothing before, the second one may have. So what a parser makes of some tokens does not
depend on what has been built (`Pairing.Meet.beside`), and parsers that read abreast make the same of
them (`Pairing.Abreast.alike`).
-/

namespace TolkAnalysis

open TolkAnalysis.Parser TolkAnalysis.Grammar

/-- Two outcomes that are the same but for the token read last. -/
structure Parser.Alike {α : Type} (r r' : Except ParseError α × ParserState) : Prop where
  answer : r'.1 = r.1
  rest : r'.2.rest = r.2.rest
  arena : r'.2.arena = r.2.arena
  errors : r'.2.errors = r.2.errors

theorem Arena.eq_of_nodes {a b : Arena} (h : a.nodes = b.nodes) : a = b := by
  cases a
  cases b
  cases h
  rfl

/-- The state of a parser that stands at a place and has built nothing. -/
def Cursor.fresh (c : Cursor) : ParserState := ⟨c, .empty, #[]⟩

namespace Pairing

variable {ts more : List Token} {e : Token} {hend : e.kind = .endOfFile}
  {hkinds : ∀ t ∈ ts, t.kind ≠ .endOfFile} {base : Arena} {before : List ParseError} {P p q : Nat}

/-- Tokens touch each other in both lists or in none if both lists are the same. -/
theorem touch_self {p : Nat} {t u : Token × Token} (ht : (ts.map fun t => (t, t))[p]? = some t)
    (hu : (ts.map fun t => (t, t))[p + 1]? = some u) (_ : t.1.kind = .gt)
    (_ : u.1.kind = .gt ∨ u.1.kind = .eq) :
    t.1.span.stop = u.1.span.start ↔ t.2.span.stop = u.2.span.start := by
  rw [List.getElem?_map, Option.map_eq_some_iff] at ht hu
  obtain ⟨t, -, rfl⟩ := ht
  obtain ⟨u, -, rfl⟩ := hu
  exact Iff.rfl

/-- Tokens up to the end of the file, read from the beginning and after something else has been
built. -/
def twice (more : List Token) (hend : e.kind = .endOfFile) (hkinds : ∀ t ∈ ts, t.kind ≠ .endOfFile)
    (base : Arena) (before : List ParseError) : Pairing where
  tokens := ts.map fun t => (t, t)
  stop := e
  more := more
  stop' := e
  more' := more
  goesOn := false
  base := base
  before := before
  spans := Eq
  errors := Eq
  same pair hpair := by
    obtain ⟨t, ht, rfl⟩ := List.mem_map.mp hpair
    exact ⟨rfl, fun _ _ => rfl, hkinds t ht⟩
  touch := @touch_self ts
  stop_kind := hend
  stop'_kind := hend
  balanced := nofun
  last := nofun
  between _ ht hu := by
    rw [List.getElem?_map, Option.map_eq_some_iff] at ht hu
    obtain ⟨t, -, rfl⟩ := ht
    obtain ⟨u, -, rfl⟩ := hu
    exact ⟨rfl, rfl, rfl⟩
  mismatch t ht expected := by
    obtain ht | ht := List.mem_append.mp ht
    · obtain ⟨t, -, rfl⟩ := List.mem_map.mp ht
      rfl
    · obtain rfl := List.mem_singleton.mp ht
      rfl

@[simp] theorem length_tokens_twice :
    (twice more hend hkinds base before).tokens.length = ts.length := List.length_map _

/-- A place that is reached from the beginning of some tokens. -/
theorem cursors_twice {c : Cursor} (hp : p ≤ ts.length) (hrest : c.rest = (ts ++ e :: more).drop p)
    (hprevious : ∀ {i t}, p = i + 1 → ts[i]? = some t → c.previous = some t) :
    (twice more hend hkinds base before).Cursors p c c := by
  have hdrop : c.rest = ((ts.map fun t => (t, t)).drop p).map Prod.fst ++ e :: more := by
    rw [hrest, List.drop_append_of_le_length hp, ← List.map_drop, List.map_map]
    exact congrArg (· ++ e :: more) (List.map_id _).symm
  refine ⟨hp.trans length_tokens_twice.ge, hdrop, ?_, fun hi ht => ?_⟩
  · rw [hdrop, twice]
    simp only [← List.map_drop, List.map_map]
    rfl
  · rw [twice, List.getElem?_map, Option.map_eq_some_iff] at ht
    obtain ⟨t, ht, rfl⟩ := ht
    exact ⟨hprevious hi ht, hprevious hi ht⟩

/-- A parser meets one that stands at the same place and has built nothing. -/
theorem meet_twice {s : ParserState} (hp : p ≤ ts.length)
    (hrest : s.rest = (ts ++ e :: more).drop p)
    (hprevious : ∀ {i t}, p = i + 1 → ts[i]? = some t → s.previous = some t) :
    (twice more hend hkinds s.arena s.errors.toList).Meet P p s.fresh s where
  cursors := cursors_twice hp hrest hprevious
  deep := nofun
  built := ⟨.refl Eq s.arena, [], (List.append_nil _).symm, .nil⟩

namespace Meet

variable {s s' : ParserState} (h : (twice more hend hkinds base before).Meet P p s s')

include h

/-- How many tokens have been read is known from those that are left. -/
theorem rest_twice : s.rest = (ts ++ e :: more).drop p ∧ s'.rest = (ts ++ e :: more).drop p := by
  have hp : p ≤ ts.length := h.cursors.le.trans length_tokens_twice.le
  have hrest := h.cursors.rest
  have hrest' := h.cursors.rest'
  rw [twice] at hrest hrest'
  simp only [← List.map_drop, List.map_map] at hrest hrest'
  rw [List.drop_append_of_le_length hp]
  exact ⟨hrest.trans (congrArg (· ++ e :: more) (List.map_id _)),
    hrest'.trans (congrArg (· ++ e :: more) (List.map_id _))⟩

/-- Both parsers have the same tokens left. -/
theorem rest_eq : s'.rest = s.rest := h.rest_twice.2.trans h.rest_twice.1.symm

/-- What the second parser has built are the nodes of the first one, and so with the errors. -/
theorem beside : s'.arena.nodes = base.nodes ++ s.arena.nodes.map (NodeData.shift base.size id) ∧
    s'.errors.toList = before ++ s.errors.toList := by
  refine ⟨(h.built.arena.mono fun _ _ hspan => hspan.symm).nodes_eq, ?_⟩
  obtain ⟨later, hlater, hall⟩ := h.built.errors
  obtain rfl : s.errors.toList = later := List.forall₂_eq_eq_eq ▸ hall
  exact hlater

end Meet

/-- Parsers that read abreast have the same outcome. -/
theorem Abreast.alike {α β : Type} {f : α → β} {V V' : Nat → α → β → Prop} {m : Parser α}
    {m₁ m₂ : Parser β} {s : ParserState}
    (h₁ : (twice more hend hkinds s.arena s.errors.toList).Abreast P p m m₁ V)
    (h₂ : (twice more hend hkinds s.arena s.errors.toList).Abreast P p m m₂ V')
    (hV : ∀ q a b, V q a b → b = f a) (hV' : ∀ q a b, V' q a b → b = f a)
    (hs : (twice more hend hkinds s.arena s.errors.toList).Meet P p s.fresh s) :
    Alike (m₁ s) (m₂ s) := by
  -- Both outcomes correspond to the one of a parser that has built nothing.
  have hsame : ∀ {q q' t t₁ t₂}, (twice more hend hkinds s.arena s.errors.toList).Meet P q t t₁ →
      (twice more hend hkinds s.arena s.errors.toList).Meet P q' t t₂ →
      t₂.rest = t₁.rest ∧ t₂.arena = t₁.arena ∧ t₂.errors = t₁.errors := by
    intro q q' t t₁ t₂ ht₁ ht₂
    refine ⟨?_, Arena.eq_of_nodes (ht₂.beside.1.trans ht₁.beside.1.symm), ?_⟩
    · rw [ht₂.rest_eq, ht₁.rest_eq]
    · exact Array.toList_inj.mp (ht₂.beside.2.trans ht₁.beside.2.symm)
  have hrun₁ := h₁.run hs
  have hrun₂ := h₂.run hs
  generalize m s.fresh = r, m₁ s = r₁, m₂ s = r₂ at hrun₁ hrun₂ ⊢
  cases hrun₁ with
  | ok _ ht₁ hb₁ =>
    cases hrun₂ with
    | ok _ ht₂ hb₂ =>
      obtain ⟨hrest, harena, herrors⟩ := hsame ht₁ ht₂
      exact ⟨congrArg Except.ok ((hV' _ _ _ hb₂).trans (hV _ _ _ hb₁).symm), hrest, harena, herrors⟩
  | error _ ht₁ he₁ =>
    cases hrun₂ with
    | error _ ht₂ he₂ =>
      obtain ⟨hrest, harena, herrors⟩ := hsame ht₁ ht₂
      exact ⟨congrArg Except.error (he₂.symm.trans he₁), hrest, harena, herrors⟩

/-- A file is read in the same way by any parser that agrees with the grammar. -/
theorem readFile_of_agree (hend : e.kind = .endOfFile) (hkinds : ∀ t ∈ ts, t.kind ≠ .endOfFile)
    {bound rounds : Nat} {parse : Nonterminal → Parser Nat}
    (hagree : (twice [] hend hkinds .empty []).Agree (ts.length + 1) ((ts ++ [e]).length + 1) bound
      (parser ((ts ++ [e]).length + 1)) parse) (hrounds : ts.length < rounds) :
    ∃ items t, collect (whenAt (!·.isAtEnd) (fileItem bound parse)) rounds
        (initialState (ts ++ [e])) = (.ok items, t) ∧ t.rest = [e] ∧
      (readFile (ts ++ [e])).1 = items.flatten ∧ (readFile (ts ++ [e])).2.rest = [e] ∧
      (readFile (ts ++ [e])).2.arena = t.arena ∧ (readFile (ts ++ [e])).2.errors = t.errors := by
  have hmeet : (twice [] hend hkinds .empty []).Meet 0 0 (initialState (ts ++ [e]))
      (initialState (ts ++ [e])) :=
    meet_twice (s := initialState (ts ++ [e])) (Nat.zero_le _) rfl nofun
  have hlength : (ts ++ [e]).length = ts.length + 1 := List.length_append
  have hpairs : (twice [] hend hkinds .empty []).tokens.length = ts.length := length_tokens_twice
  have hr : (twice [] hend hkinds .empty []).tokens.length < 0 + ((ts ++ [e]).length + 1) := by
    omega
  have hr' : (twice [] hend hkinds .empty []).tokens.length < 0 + rounds := by omega
  obtain ⟨items, t, t', left, hitems, hlast, -, hgo⟩ :=
    meet_fileItems hagree hmeet (by omega) hr hr'
  rw [length_tokens_twice] at hlast
  have hrest : t.rest = [e] := hlast.rest_twice.1.trans List.drop_left
  have hatEnd : (!t'.isAtEnd) = false := by
    simp [Cursor.isAtEnd, Cursor.isAt, Cursor.current, hlast.rest_eq, hrest, hend]
  have hsecond := hgo [] t' (run_collect_nil hatEnd)
  rw [List.append_nil] at hsecond
  obtain ⟨hnodes, herrors⟩ := hlast.beside
  have harena : t.arena = t'.arena :=
    Arena.eq_of_nodes (by simpa [Arena.empty, Arena.size] using hnodes.symm)
  have hchild : (twice [] hend hkinds .empty []).child = id := Child.shift_zero
  rw [readFile_eq hitems]
  refine ⟨_, t', hsecond, hlast.rest_eq.trans hrest, ?_, hrest, harena, ?_⟩
  · simp [hchild]
  · exact Array.toList_inj.mp (herrors.symm.trans (List.nil_append _))

end Pairing

end TolkAnalysis
