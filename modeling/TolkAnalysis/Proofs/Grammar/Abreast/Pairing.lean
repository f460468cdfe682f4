import Mathlib.Data.List.Basic
import TolkAnalysis.Proofs.Grammar.Cursor
import TolkAnalysis.Proofs.Token.Respaced
import TolkAnalysis.Proofs.Tree.Beside

/-!
# Two lists of tokens read abreast

Two parsers read abreast when the tokens before them have the same kinds, and no rule tells their
spellings apart, one by one, up to a point where both parsers are to be left. A `Pairing` is such a
pair of lists, given as one list of pairs, with what follows it in either list. It also says how the
spans of nodes and the errors of the two parsers are to be related.

What follows is the end of the file in both lists, or it is the end of the file in the first
list only, while the second list goes on with a declaration. To see that the two parsers do not
part before they have come that far, it matters how many braces are open. `Pairing.Deep P p`
says that of the pairs from `p` on so many close a brace that `P` braces may be open before them.

`Pairing.Cursors p c c'` says that two parsers stand at the same place of a pairing. The lemmas
about it say that every test of the next tokens has the same outcome in both.
-/

namespace TolkAnalysis

namespace TokenKind

/-- A token of this kind may stand after a declaration: it ends the file or begins another
declaration. Inside of a declaration no rule of the grammar accepts such a token. -/
def mayFollow (kind : TokenKind) : Bool := kind == .endOfFile || kind.startsItem

end TokenKind

/-- The error of a parser that expects something else than a token. -/
def Token.mismatch (t : Token) (expected : Expected) : ParseError :=
  if t.kind == .unrecognized then .unknownToken t.span else .unexpectedToken expected t.kind t.span

/-- The number of tokens of a kind among the first ones of some pairs. -/
def countKind (kind : TokenKind) (pairs : List (Token × Token)) : Nat :=
  pairs.countP (·.1.kind == kind)

/-- Two lists of tokens that agree up to some point. -/
structure Pairing where
  /-- The tokens that both lists begin with. -/
  tokens : List (Token × Token)
  /-- The token after them in either list, and the others. -/
  stop : Token
  more : List Token
  stop' : Token
  more' : List Token
  /-- The second list goes on with a declaration where the first one ends. -/
  goesOn : Bool
  /-- What the second parser has built and the errors it has met before. -/
  base : Arena
  before : List ParseError
  /-- How spans of corresponding nodes are related. -/
  spans : Span → Span → Prop
  /-- How corresponding errors are related. -/
  errors : ParseError → ParseError → Prop
  same : ∀ t ∈ tokens, t.1.kind = t.2.kind ∧ t.1.SameWord t.2 ∧ t.1.kind ≠ .endOfFile
  touch : ∀ {p : Nat} {t u : Token × Token}, tokens[p]? = some t → tokens[p + 1]? = some u → t.1.kind = .gt →
    u.1.kind = .gt ∨ u.1.kind = .eq →
      (t.1.span.stop = u.1.span.start ↔ t.2.span.stop = u.2.span.start)
  stop_kind : stop.kind = .endOfFile
  stop'_kind : if goesOn then stop'.kind.startsItem = true else stop'.kind = .endOfFile
  balanced : goesOn = true → ∀ p,
    countKind .lBrace (tokens.drop p) ≤ countKind .rBrace (tokens.drop p)
  last : goesOn = true → ∀ t : Token × Token, tokens[tokens.length - 1]? = some t →
    t.1.kind = .rBrace ∨ t.1.kind = .semi
  between : ∀ {i j : Nat} {t u : Token × Token}, i ≤ j → tokens[i]? = some t → tokens[j]? = some u →
    spans ⟨t.1.span.start, u.1.span.stop⟩ ⟨t.2.span.start, u.2.span.stop⟩ ∧
    spans ⟨t.1.span.start, max u.1.span.stop t.1.span.start⟩
      ⟨t.2.span.start, max u.2.span.stop t.2.span.start⟩ ∧
    spans (t.1.span.merge u.1.span) (t.2.span.merge u.2.span)
  mismatch : ∀ t ∈ tokens ++ [(stop, stop')], ∀ expected,
    errors (t.1.mismatch expected) (t.2.mismatch expected)

namespace Pairing

variable {F : Pairing} {p q P : Nat} {kind : TokenKind} {c c' : Cursor} {t : Token × Token}

/-- The kind of the tokens at a place. -/
def kind? (F : Pairing) (p : Nat) : Option TokenKind := (F.tokens[p]?).map (·.1.kind)

/-- The parsers see the same kind of token at a place: it lies before the point where the lists
part, or they do not part. -/
def Mid (F : Pairing) (p : Nat) : Prop := p < F.tokens.length ∨ F.goesOn = false

/-- As many braces may be open before a place if the second list goes on. -/
def Deep (F : Pairing) (P p : Nat) : Prop :=
  F.goesOn = true →
    P + countKind .lBrace (F.tokens.drop p) ≤ countKind .rBrace (F.tokens.drop p)

theorem kind?_of_token (h : F.tokens[p]? = some t) : F.kind? p = some t.1.kind := by
  rw [kind?, h, Option.map_some]

theorem exists_token (h : F.kind? p = some kind) : ∃ t, F.tokens[p]? = some t ∧ t.1.kind = kind :=
  Option.map_eq_some_iff.mp h

theorem lt_of_token (h : F.tokens[p]? = some t) : p < F.tokens.length :=
  (List.getElem?_eq_some_iff.mp h).1

theorem lt_of_kind? (h : F.kind? p = some kind) : p < F.tokens.length := by
  obtain ⟨t, ht, -⟩ := exists_token h
  exact lt_of_token ht

theorem same_of_token (h : F.tokens[p]? = some t) :
    t.1.kind = t.2.kind ∧ t.1.SameWord t.2 ∧ t.1.kind ≠ .endOfFile :=
  F.same t (List.mem_of_getElem? h)

/-- After any other token than a closing brace or a semicolon the lists do not part. -/
theorem mid_succ (h : F.kind? p = some kind) (hbrace : kind ≠ .rBrace) (hsemi : kind ≠ .semi) :
    F.Mid (p + 1) := by
  obtain ⟨t, ht, rfl⟩ := exists_token h
  have hlt := lt_of_token ht
  rcases hgoes : F.goesOn with _ | _
  · exact .inr hgoes
  · left
    by_contra hend
    have hlast := F.last hgoes t (by rwa [show F.tokens.length - 1 = p by omega])
    exact hlast.elim hbrace hsemi

/-! ### Open braces -/

theorem Deep.mono {P' : Nat} (h : F.Deep P p) (hle : P' ≤ P) : F.Deep P' p :=
  fun hgoes => (Nat.add_le_add_right hle _).trans (h hgoes)

theorem deep_zero (p : Nat) : F.Deep 0 p := fun hgoes => (Nat.zero_add _).trans_le (F.balanced hgoes p)

theorem countKind_drop (h : F.tokens[p]? = some t) :
    countKind kind (F.tokens.drop p) =
      countKind kind (F.tokens.drop (p + 1)) + if t.1.kind = kind then 1 else 0 := by
  obtain ⟨hlt, rfl⟩ := List.getElem?_eq_some_iff.mp h
  rw [List.drop_eq_getElem_cons hlt, countKind, List.countP_cons]
  simp only [beq_iff_eq]
  rfl

/-- An opening brace may be one more that is open. -/
theorem Deep.succ_of_lBrace (h : F.Deep P p) (hkind : F.kind? p = some .lBrace) :
    F.Deep (P + 1) (p + 1) := by
  obtain ⟨t, ht, htkind⟩ := exists_token hkind
  intro hgoes
  have hdeep := h hgoes
  rw [countKind_drop ht, countKind_drop ht, htkind] at hdeep
  simp only [reduceCtorEq, if_true, if_false] at hdeep
  omega

theorem Deep.pred_of_rBrace (h : F.Deep (P + 1) p) (hkind : F.kind? p = some .rBrace) :
    F.Deep P (p + 1) := by
  obtain ⟨t, ht, htkind⟩ := exists_token hkind
  intro hgoes
  have hdeep := h hgoes
  rw [countKind_drop ht, countKind_drop ht, htkind] at hdeep
  simp only [reduceCtorEq, if_true, if_false] at hdeep
  omega

/-- Any token but a closing brace leaves what is open. -/
theorem Deep.succ (h : F.Deep P p) (hkind : F.kind? p = some kind) (hbrace : kind ≠ .rBrace) :
    F.Deep P (p + 1) := by
  obtain ⟨t, ht, rfl⟩ := exists_token hkind
  intro hgoes
  have hdeep := h hgoes
  rw [countKind_drop ht, countKind_drop ht, if_neg hbrace] at hdeep
  omega

/-- Where the second list goes on, no brace is open. -/
theorem Deep.eq_zero (h : F.Deep P F.tokens.length) (hgoes : F.goesOn = true) : P = 0 := by
  have hdeep := h hgoes
  simp only [List.drop_length, countKind, List.countP_nil] at hdeep
  omega

theorem Deep.mid (h : F.Deep (P + 1) p) (hle : p ≤ F.tokens.length) : F.Mid p := by
  rcases hgoes : F.goesOn with _ | _
  · exact .inr hgoes
  · left
    by_contra hend
    obtain rfl : p = F.tokens.length := by omega
    exact absurd (h.eq_zero hgoes) (Nat.succ_ne_zero P)

/-! ### Places of two parsers -/

/-- Two parsers stand at the same place. What they have read last is known once they have read
a pair. -/
structure Cursors (F : Pairing) (p : Nat) (c c' : Cursor) : Prop where
  le : p ≤ F.tokens.length
  rest : c.rest = (F.tokens.drop p).map Prod.fst ++ F.stop :: F.more
  rest' : c'.rest = (F.tokens.drop p).map Prod.snd ++ F.stop' :: F.more'
  previous : ∀ {i : Nat} {t : Token × Token}, p = i + 1 → F.tokens[i]? = some t →
    c.previous = some t.1 ∧ c'.previous = some t.2

/-- Offsets at which a pair begins. -/
def Starts (F : Pairing) (p start start' : Nat) : Prop :=
  ∀ t, F.tokens[p]? = some t → start = t.1.span.start ∧ start' = t.2.span.start

namespace Cursors

theorem rest_cons (h : F.Cursors p c c') (ht : F.tokens[p]? = some t) :
    c.rest = t.1 :: ((F.tokens.drop (p + 1)).map Prod.fst ++ F.stop :: F.more) ∧
      c'.rest = t.2 :: ((F.tokens.drop (p + 1)).map Prod.snd ++ F.stop' :: F.more') := by
  obtain ⟨hlt, rfl⟩ := List.getElem?_eq_some_iff.mp ht
  rw [h.rest, h.rest', List.drop_eq_getElem_cons hlt]
  exact ⟨rfl, rfl⟩

theorem current (h : F.Cursors p c c') (ht : F.tokens[p]? = some t) :
    c.current = t.1 ∧ c'.current = t.2 := by
  obtain ⟨hrest, hrest'⟩ := h.rest_cons ht
  rw [Cursor.current, Cursor.current, hrest, hrest']
  exact ⟨rfl, rfl⟩

theorem current_stop (h : F.Cursors F.tokens.length c c') :
    c.current = F.stop ∧ c'.current = F.stop' := by
  have hrest := h.rest
  have hrest' := h.rest'
  rw [List.drop_length] at hrest hrest'
  simp [Cursor.current, hrest, hrest']

/-- Either there is a pair at a place, or it is where the lists may part. -/
theorem cases (h : F.Cursors p c c') :
    (∃ t, F.tokens[p]? = some t ∧ c.current = t.1 ∧ c'.current = t.2) ∨
      p = F.tokens.length ∧ c.current = F.stop ∧ c'.current = F.stop' := by
  rcases h.le.lt_or_eq with hlt | rfl
  · have ht := List.getElem?_eq_getElem hlt
    exact .inl ⟨_, ht, h.current ht⟩
  · exact .inr ⟨rfl, h.current_stop⟩

/-- The next tokens are of one kind, unless the lists part. -/
theorem kinds (h : F.Cursors p c c') : c'.current.kind = c.current.kind ∨
    c.current.kind = .endOfFile ∧ c'.current.kind.startsItem = true := by
  obtain ⟨t, ht, hc, hc'⟩ | ⟨-, hc, hc'⟩ := h.cases
  · left
    rw [hc, hc', (same_of_token ht).1]
  · have hkind := F.stop'_kind
    rw [hc, hc', F.stop_kind]
    split at hkind
    · exact .inr ⟨rfl, hkind⟩
    · exact .inl hkind

theorem kind_eq_of_mid (h : F.Cursors p c c') (hmid : F.Mid p) :
    c'.current.kind = c.current.kind := by
  obtain ⟨t, ht, hc, hc'⟩ | ⟨rfl, hc, hc'⟩ := h.cases
  · rw [hc, hc', (same_of_token ht).1]
  · have hgoes : F.goesOn = false := hmid.resolve_left (lt_irrefl _)
    have hkind := F.stop'_kind
    rw [hgoes] at hkind
    rw [hc, hc', F.stop_kind]
    exact hkind

/-- A next token that does not end the file belongs to a pair. -/
theorem kind?_eq (h : F.Cursors p c c') (hkind : c.current.kind ≠ .endOfFile) :
    F.kind? p = some c.current.kind := by
  obtain ⟨t, ht, hc, -⟩ | ⟨-, hc, -⟩ := h.cases
  · rw [kind?_of_token ht, hc]
  · rw [hc] at hkind
    exact absurd F.stop_kind hkind

theorem kind?_of_eq (h : F.Cursors p c c') (hkind : c.current.kind = kind)
    (hend : kind ≠ .endOfFile) : F.kind? p = some kind := by
  subst hkind
  exact h.kind?_eq hend

theorem kind_eq (h : F.Cursors p c c') (hkind : F.kind? p = some kind) :
    c.current.kind = kind ∧ c'.current.kind = kind := by
  obtain ⟨t, ht, rfl⟩ := exists_token hkind
  obtain ⟨hc, hc'⟩ := h.current ht
  exact ⟨by rw [hc], by rw [hc', (same_of_token ht).1]⟩

/-- The end of the file and the beginning of a declaration are told apart only where the lists
do not part. -/
theorem isAt_eq (h : F.Cursors p c c') (hkind : kind.mayFollow = false ∨ F.Mid p) :
    c'.isAt kind = c.isAt kind := by
  unfold Cursor.isAt
  obtain hkind | hmid := hkind
  · obtain hsame | ⟨hc, hc'⟩ := h.kinds
    · rw [hsame]
    · have hne : ∀ k : TokenKind, k.mayFollow = true → (k == kind) = false := by
        rintro k hk
        rw [beq_eq_false_iff_ne]
        rintro rfl
        rw [hk] at hkind
        cases hkind
      rw [hne c'.current.kind (by rw [TokenKind.mayFollow, hc', Bool.or_true]), hc, hne _ rfl]
  · rw [h.kind_eq_of_mid hmid]

theorem kind?_of_isAt (h : F.Cursors p c c') (hkind : kind ≠ .endOfFile)
    (hat : c.isAt kind = true) : F.kind? p = some kind := by
  obtain rfl := Cursor.current_kind_eq_of_isAt hat
  exact h.kind?_eq hkind

theorem isAt_of_kind? (h : F.Cursors p c c') (hkind : F.kind? p = some kind) :
    c.isAt kind = true ∧ c'.isAt kind = true := by
  obtain ⟨hc, hc'⟩ := h.kind_eq hkind
  exact ⟨beq_iff_eq.mpr hc, beq_iff_eq.mpr hc'⟩

/-- Reading a pair leads to the next place. -/
theorem advance (h : F.Cursors p c c') (ht : F.tokens[p]? = some t) :
    F.Cursors (p + 1) c.advance c'.advance ∧ c.advance.previous = some t.1 := by
  have hlt := lt_of_token ht
  obtain ⟨hsame, -, hne⟩ := same_of_token ht
  obtain ⟨hrest, hrest'⟩ := h.rest_cons ht
  have hadvance : c.advance = ⟨some t.1, (F.tokens.drop (p + 1)).map Prod.fst ++ F.stop :: F.more⟩ := by
    simp [Cursor.advance, hrest, hne]
  have hadvance' :
      c'.advance = ⟨some t.2, (F.tokens.drop (p + 1)).map Prod.snd ++ F.stop' :: F.more'⟩ := by
    simp [Cursor.advance, hrest', ← hsame, hne]
  rw [hadvance, hadvance']
  refine ⟨⟨hlt, rfl, rfl, ?_⟩, rfl⟩
  rintro i u hi hu
  obtain rfl : i = p := by omega
  rw [ht] at hu
  cases hu
  exact ⟨rfl, rfl⟩

theorem start (h : F.Cursors p c c') : F.Starts p c.start c'.start := by
  intro t ht
  obtain ⟨hc, hc'⟩ := h.current ht
  exact ⟨by rw [Cursor.start, hc], by rw [Cursor.start, hc']⟩

/-- Where the pair read last ends. -/
theorem previousStop (h : F.Cursors (p + 1) c c') (ht : F.tokens[p]? = some t) :
    c.previousStop = t.1.span.stop ∧ c'.previousStop = t.2.span.stop := by
  obtain ⟨hprevious, hprevious'⟩ := h.previous rfl ht
  rw [Cursor.previousStop, Cursor.previousStop, hprevious, hprevious']
  exact ⟨rfl, rfl⟩

theorem mismatch (h : F.Cursors p c c') (expected : Expected) :
    F.errors (c.mismatch expected) (c'.mismatch expected) := by
  change F.errors (c.current.mismatch expected) (c'.current.mismatch expected)
  obtain ⟨t, ht, hc, hc'⟩ | ⟨-, hc, hc'⟩ := h.cases
  · rw [hc, hc']
    exact F.mismatch t (List.mem_append_left _ (List.mem_of_getElem? ht)) expected
  · rw [hc, hc']
    exact F.mismatch (F.stop, F.stop') (by simp) expected

theorem isAtWord_eq (h : F.Cursors p c c') {word : String} (hword : word ∈ Token.words) :
    c'.isAtWord word = c.isAtWord word := by
  unfold Cursor.isAtWord
  obtain ⟨t, ht, hc, hc'⟩ | ⟨-, hc, hc'⟩ := h.cases
  · rw [h.isAt_eq (.inl rfl), hc, hc', (same_of_token ht).2.1 word hword]
  · have hne : c.isAt .ident = false := by
      rw [Cursor.isAt, hc, F.stop_kind]
      rfl
    rw [h.isAt_eq (.inl rfl), hne, Bool.false_and, Bool.false_and]

theorem kind?_of_isAtWord (h : F.Cursors p c c') {word : String}
    (hat : c.isAtWord word = true) : F.kind? p = some .ident :=
  h.kind?_of_isAt (by decide) (Cursor.isAt_of_isAtWord hat)

theorem rest_length (h : F.Cursors p c c') :
    c.rest.length + p = F.tokens.length + 1 + F.more.length ∧
      c'.rest.length + p = F.tokens.length + 1 + F.more'.length := by
  have hle := h.le
  rw [h.rest, h.rest']
  simp only [List.length_append, List.length_map, List.length_drop, List.length_cons]
  omega

/-! ### Tokens further on -/

theorem kindAt_succ (h : F.Cursors p c c') (ht : F.tokens[p]? = some t) (distance : Nat) :
    c.kindAt (distance + 1) = c.advance.kindAt distance ∧
      c'.kindAt (distance + 1) = c'.advance.kindAt distance := by
  obtain ⟨hsame, -, hne⟩ := same_of_token ht
  obtain ⟨hc, hc'⟩ := h.current ht
  exact ⟨(Cursor.kindAt_advance (by rwa [hc]) distance).symm,
    (Cursor.kindAt_advance (by rwa [hc', ← hsame]) distance).symm⟩

/-- After a pair that no declaration ends with, the next tokens are of one kind. -/
theorem kindAt_one (h : F.Cursors p c c') (hkind : F.kind? p = some kind)
    (hbrace : kind ≠ .rBrace) (hsemi : kind ≠ .semi) : c'.kindAt 1 = c.kindAt 1 := by
  obtain ⟨t, ht, -⟩ := exists_token hkind
  obtain ⟨hone, hone'⟩ := h.kindAt_succ ht 0
  rw [hone, hone', Cursor.kindAt_zero, Cursor.kindAt_zero]
  exact (h.advance ht).1.kind_eq_of_mid (mid_succ hkind hbrace hsemi)

theorem kind?_of_kindAt_one (h : F.Cursors p c c') (hkind : F.kind? p = some kind)
    {next : TokenKind} (hnext : next ≠ .endOfFile) (hat : c.kindAt 1 = next) :
    F.kind? (p + 1) = some next := by
  obtain ⟨t, ht, -⟩ := exists_token hkind
  have hadvance := (h.advance ht).1
  rw [(h.kindAt_succ ht 0).1, Cursor.kindAt_zero] at hat
  subst hat
  exact hadvance.kind?_eq hnext

theorem touches_succ (h : F.Cursors p c c') (ht : F.tokens[p]? = some t) (distance : Nat) :
    c.touches (distance + 1) = c.advance.touches distance ∧
      c'.touches (distance + 1) = c'.advance.touches distance := by
  have hadvance := (h.advance ht).1
  obtain ⟨hrest, hrest'⟩ := h.rest_cons ht
  unfold Cursor.touches
  rw [hrest, hrest', hadvance.rest, hadvance.rest']
  exact ⟨rfl, rfl⟩

theorem touches_zero (h : F.Cursors p c c') {u : Token × Token} (ht : F.tokens[p]? = some t)
    (hu : F.tokens[p + 1]? = some u) (hgt : t.1.kind = .gt)
    (hnext : u.1.kind = .gt ∨ u.1.kind = .eq) : c'.touches 0 = c.touches 0 := by
  obtain ⟨hrest, hrest'⟩ := h.rest_cons ht
  obtain ⟨hlt, rfl⟩ := List.getElem?_eq_some_iff.mp hu
  have htouch := F.touch ht hu hgt hnext
  rw [List.drop_eq_getElem_cons hlt] at hrest hrest'
  unfold Cursor.touches
  rw [hrest, hrest']
  change (t.2.span.stop == F.tokens[p + 1].2.span.start) =
    (t.1.span.stop == F.tokens[p + 1].1.span.start)
  rw [Bool.eq_iff_iff, beq_iff_eq, beq_iff_eq]
  exact htouch.symm

/-- Two tokens that are read as one operator if they touch. -/
theorem touching_eq (h : F.Cursors p c c') {next : TokenKind} (hnext : next = .gt ∨ next = .eq) :
    (c'.isAt .gt && c'.kindAt 1 == next && c'.touches 0) =
      (c.isAt .gt && c.kindAt 1 == next && c.touches 0) := by
  have hends : next ≠ .endOfFile := by rcases hnext with rfl | rfl <;> decide
  rw [h.isAt_eq (.inl rfl)]
  rcases hat : c.isAt .gt with _ | _
  · rfl
  · have hkind := h.kind?_of_isAt (by decide) hat
    rw [h.kindAt_one hkind (by decide) (by decide)]
    rcases hone : c.kindAt 1 == next with _ | _
    · rfl
    · obtain ⟨t, ht, htkind⟩ := exists_token hkind
      obtain ⟨u, hu, hukind⟩ := exists_token
        (h.kind?_of_kindAt_one hkind hends (beq_iff_eq.mp hone))
      rw [h.touches_zero ht hu htkind (hukind ▸ hnext)]

theorem isAtShiftRight_eq (h : F.Cursors p c c') : c'.isAtShiftRight = c.isAtShiftRight :=
  h.touching_eq (.inl rfl)

theorem isAtGreaterEqual_eq (h : F.Cursors p c c') : c'.isAtGreaterEqual = c.isAtGreaterEqual :=
  h.touching_eq (.inr rfl)

theorem kinds_of_isAtShiftRight (h : F.Cursors p c c') (hat : c.isAtShiftRight = true) :
    F.kind? p = some .gt ∧ F.kind? (p + 1) = some .gt := by
  simp only [Cursor.isAtShiftRight, Bool.and_eq_true, beq_iff_eq] at hat
  have hkind := h.kind?_of_isAt (by decide) hat.1.1
  exact ⟨hkind, h.kind?_of_kindAt_one hkind (by decide) hat.1.2⟩

theorem kinds_of_isAtGreaterEqual (h : F.Cursors p c c') (hat : c.isAtGreaterEqual = true) :
    F.kind? p = some .gt ∧ F.kind? (p + 1) = some .eq := by
  simp only [Cursor.isAtGreaterEqual, Bool.and_eq_true, beq_iff_eq] at hat
  have hkind := h.kind?_of_isAt (by decide) hat.1.1
  exact ⟨hkind, h.kind?_of_kindAt_one hkind (by decide) hat.1.2⟩

/-- After `>` and `>`, whether `=` touches them is whether the second one and `=` are one
operator. -/
theorem isAtShiftRightAssign_eq_advance (h : F.Cursors p c c') (hat : c.isAtShiftRight = true) :
    c.isAtShiftRightAssign = c.advance.isAtGreaterEqual ∧
      c'.isAtShiftRightAssign = c'.advance.isAtGreaterEqual := by
  obtain ⟨hfirst, hsecond⟩ := h.kinds_of_isAtShiftRight hat
  obtain ⟨t, ht, -⟩ := exists_token hfirst
  have hadvance := (h.advance ht).1
  obtain ⟨hkind, hkind'⟩ := hadvance.kind_eq hsecond
  obtain ⟨hat₂, hat₂'⟩ := h.kindAt_succ ht 1
  obtain ⟨htouch, htouch'⟩ := h.touches_succ ht 0
  have hat' : c'.isAtShiftRight = true := h.isAtShiftRight_eq.trans hat
  unfold Cursor.isAtShiftRightAssign Cursor.isAtGreaterEqual
  rw [hat, hat', hat₂, hat₂', htouch, htouch', Cursor.isAt, Cursor.isAt, hkind, hkind']
  exact ⟨rfl, rfl⟩

theorem isAtShiftRightAssign_eq (h : F.Cursors p c c') :
    c'.isAtShiftRightAssign = c.isAtShiftRightAssign := by
  rcases hat : c.isAtShiftRight with _ | _
  · have hat' : c'.isAtShiftRight = false := h.isAtShiftRight_eq.trans hat
    rw [Cursor.isAtShiftRightAssign, Cursor.isAtShiftRightAssign, hat, hat']
    rfl
  · obtain ⟨hassign, hassign'⟩ := h.isAtShiftRightAssign_eq_advance hat
    obtain ⟨t, ht, -⟩ := exists_token (h.kinds_of_isAtShiftRight hat).1
    rw [hassign, hassign', (h.advance ht).1.isAtGreaterEqual_eq]

theorem kinds_of_isAtShiftRightAssign (h : F.Cursors p c c')
    (hat : c.isAtShiftRightAssign = true) : F.kind? p = some .gt ∧ F.kind? (p + 1) = some .gt ∧
      F.kind? (p + 2) = some .eq := by
  have hshift : c.isAtShiftRight = true := by
    simp only [Cursor.isAtShiftRightAssign, Bool.and_eq_true] at hat
    exact hat.1.1
  obtain ⟨hfirst, hsecond⟩ := h.kinds_of_isAtShiftRight hshift
  obtain ⟨t, ht, -⟩ := exists_token hfirst
  rw [(h.isAtShiftRightAssign_eq_advance hshift).1] at hat
  exact ⟨hfirst, hsecond, ((h.advance ht).1.kinds_of_isAtGreaterEqual hat).2⟩

/-- Between braces the lists do not part. -/
theorem isInside_eq (h : F.Cursors p c c') (hdeep : F.Deep (P + 1) p) :
    c'.isInside = c.isInside := by
  unfold Cursor.isInside Cursor.isAtEnd
  rw [h.isAt_eq (.inl rfl), h.isAt_eq (.inr (hdeep.mid h.le))]

theorem kind?_of_isAtMutate (h : F.Cursors p c c') (hat : c.isAtMutate = true) :
    F.kind? p = some .ident := by
  rw [Cursor.isAtMutate, Bool.and_eq_true] at hat
  exact h.kind?_of_isAtWord hat.1

theorem isAtMutate_eq (h : F.Cursors p c c') : c'.isAtMutate = c.isAtMutate := by
  unfold Cursor.isAtMutate
  rw [h.isAtWord_eq (by decide)]
  rcases hat : c.isAtWord "mutate" with _ | _
  · rfl
  · rw [h.kindAt_one (h.kind?_of_isAtWord hat) (by decide) (by decide)]

end Cursors

end Pairing

end TolkAnalysis
