import TolkAnalysis.Proofs.Grammar.Layout
import TolkAnalysis.Proofs.Grammar.Spread
import TolkAnalysis.Proofs.Grammar.Walk.Item
import TolkAnalysis.Proofs.Token.Lexeme

/-!
# How expressions are grouped

`Arena.Grouped written a level` says that the nodes of an arena respect the table of precedences:
each binary operation has the level of its operator, operations group by their levels and to the
left, and no expression stands in a slot where it would have to be put in brackets,
`NodeKind.barred`.

The levels are known from the tokens that the operators cover. Where tokens stand apart there is one
level for each span, so what is ranked is grouped (`Ranked.exists_grouped`). Offsets of a long source
are cut off, and then many tokens may share a span. So its tokens are spread over a text of their
own, and what is read there is compared node by node.
-/

namespace TolkAnalysis

open TolkAnalysis.Grammar TolkAnalysis.Parser

/-- The level of a binary operator by its spelling, the loosest first. -/
def operatorLevel? (spelling : String) : Option Nat :=
  match spelling with
  | "??" => some 0
  | "||" => some 1
  | "&&" => some 2
  | "|" => some 3
  | "^" => some 4
  | "&" => some 5
  | "==" | "!=" => some 6
  | "<" | "<=" | "<=>" | ">" | ">=" => some 7
  | "<<" | ">>" => some 8
  | "+" | "-" => some 9
  | "*" | "/" | "%" => some 10
  | _ => none

/-- The kinds of the expressions that do not stand in a slot of an expression without brackets. -/
def NodeKind.barred : NodeKind → Field → List NodeKind
  | .assignment, .left | .setAssignment, .left => [.assignment, .setAssignment]
  | .ternaryOperator, .condition | .binaryOperator, .left | .binaryOperator, .right =>
      [.assignment, .setAssignment, .ternaryOperator]
  | .unaryOperator, .argument | .lazyExpression, .argument =>
      [.assignment, .setAssignment, .ternaryOperator, .binaryOperator]
  | .castAsOperator, .expr | .isTypeOperator, .expr =>
      [.assignment, .setAssignment, .ternaryOperator, .binaryOperator, .unaryOperator,
        .lazyExpression]
  | .functionCall, .callee | .dotAccess, .obj | .notNullOperator, .inner
  | .genericInstantiation, .expr =>
      [.assignment, .setAssignment, .ternaryOperator, .binaryOperator, .unaryOperator,
        .lazyExpression, .castAsOperator, .isTypeOperator]
  | _, _ => []

namespace NodeKind

theorem tightness_lt_required (kind : NodeKind) (slot : Field) :
    ∀ part ∈ kind.barred slot, part.tightness < kind.required slot := by
  unfold barred
  split <;> first | decide | exact fun _ h => absurd h List.not_mem_nil

/-- What is tight enough for a slot is not barred from it. -/
theorem not_mem_barred {kind part : NodeKind} {slot : Field}
    (h : kind.required slot ≤ part.tightness) : part ∉ kind.barred slot :=
  fun hmem => absurd (tightness_lt_required kind slot part hmem) (Nat.not_lt.mpr h)

end NodeKind

/-- The tokens that a span covers spell a binary operator of some level. -/
def Written (tokens : List Token) (span : Span) (level : Nat) : Prop :=
  ∃ word, word <:+: tokens ∧ span = Token.cover word ∧
    operatorLevel? (String.join (word.map (·.text))) = some level

namespace Arena

/-- The nodes of an arena are grouped as the levels of their operators say. -/
structure Grouped (written : Span → Nat → Prop) (a : Arena) (level : Nat → Nat) : Prop where
  operation : ∀ i span children, a.Stores i .binaryOperator span children →
    ∃ left operator right place,
      children = [.labeled .left left, .labeled .operatorName operator, .labeled .right right] ∧
      a.Stores operator .operator place [] ∧ written place (level i)
  left : ∀ i span children part span' children', a.Stores i .binaryOperator span children →
    .labeled .left part ∈ children → a.Stores part .binaryOperator span' children' →
      level i ≤ level part
  right : ∀ i span children part span' children', a.Stores i .binaryOperator span children →
    .labeled .right part ∈ children → a.Stores part .binaryOperator span' children' →
      level i < level part
  barred : ∀ i kind span children slot part kind' span' children',
    a.Stores i kind span children → .labeled slot part ∈ children →
      a.Stores part kind' span' children' → kind' ∉ kind.barred slot

variable {tokens : List Token} {a b : Arena} {level : Nat → Nat}
variable {written written' : Span → Nat → Prop}

theorem BinaryAt.eq {i l l' : Nat}
    (hunique : ∀ span l l', Spelled tokens span l → Spelled tokens span l' → l = l')
    (h : a.BinaryAt tokens i l) (h' : a.BinaryAt tokens i l') : l = l' := by
  obtain ⟨span, left, operator, right, hstores, place, hoperator, hspelled⟩ := h
  obtain ⟨span', left', operator', right', hstores', place', hoperator', hspelled'⟩ := h'
  obtain ⟨-, -, hchildren⟩ := hstores.eq hstores'
  simp only [List.cons.injEq, Child.labeled_eq, Child.mk.injEq, true_and, and_true] at hchildren
  obtain ⟨-, rfl, -⟩ := hchildren
  obtain ⟨-, rfl, -⟩ := hoperator.eq hoperator'
  exact hunique _ _ _ hspelled hspelled'

/-- If there is one level for each span then a ranked arena is grouped. -/
theorem Ranked.exists_grouped (h : a.Ranked tokens)
    (hunique : ∀ span l l', Spelled tokens span l → Spelled tokens span l' → l = l') :
    ∃ level, a.Grouped (Spelled tokens) level := by
  classical
  let level : Nat → Nat := fun i => if hi : ∃ l, a.BinaryAt tokens i l then hi.choose else 0
  have hlevel : ∀ {i l}, a.BinaryAt tokens i l → level i = l := by
    intro i l hi
    have hsome : ∃ l, a.BinaryAt tokens i l := ⟨l, hi⟩
    change (if hi : ∃ l, a.BinaryAt tokens i l then hi.choose else 0) = l
    rw [dif_pos hsome]
    exact hsome.choose_spec.eq hunique hi
  refine ⟨level, fun i span children hi => ?_,
    fun i span children part span' children' hi hpart hin => ?_,
    fun i span children part span' children' hi hpart hin => ?_,
    fun i kind span children slot part kind' span' children' hi hpart hin => ?_⟩
  · obtain ⟨l, left, operator, right, rfl, hoperator, -, -⟩ := (h _ _ _ _ hi).operator rfl
    obtain ⟨place, hplace, hspelled⟩ := hoperator
    rw [hlevel ⟨span, left, operator, right, hi, place, hplace, hspelled⟩]
    exact ⟨left, operator, right, place, rfl, hplace, hspelled⟩
  · obtain ⟨l, left, operator, right, rfl, hoperator, hleft, -⟩ := (h _ _ _ _ hi).operator rfl
    obtain rfl : part = left := by simpa using hpart
    obtain ⟨kind', _, _, hstores, -, hbinary⟩ := hleft
    obtain ⟨l', hl', hat⟩ := hbinary (hstores.eq hin).1
    rw [hlevel ⟨span, part, operator, right, hi, hoperator⟩, hlevel hat]
    exact hl'
  · obtain ⟨l, left, operator, right, rfl, hoperator, -, hright⟩ := (h _ _ _ _ hi).operator rfl
    obtain rfl : part = right := by simpa using hpart
    obtain ⟨kind', _, _, hstores, -, hbinary⟩ := hright
    obtain ⟨l', hl', hat⟩ := hbinary (hstores.eq hin).1
    rw [hlevel ⟨span, left, operator, part, hi, hoperator⟩, hlevel hat]
    exact hl'
  · refine NodeKind.not_mem_barred ?_
    by_contra htight
    obtain ⟨kind'', _, _, hstores, hle, -⟩ :=
      (h _ _ _ _ hi).parts _ hpart slot rfl (Nat.pos_of_ne_zero fun hzero => by omega)
    rw [(hstores.eq hin).1] at hle
    exact htight hle

/-- A node of which nothing is required is put on top. -/
theorem Grouped.push (h : a.Grouped written level) {kind : NodeKind} (hkind : kind.isFree = true)
    (span : Span) (children : List Child) : (a.push kind span children).Grouped written level := by
  -- The children of a node are stored before it, so they were there before the push.
  have hold : ∀ {i kind' span' children' part kind'' span'' children''} {slot : Field}, i ≠ a.size →
      (a.push kind span children).Stores i kind' span' children' → .labeled slot part ∈ children' →
      (a.push kind span children).Stores part kind'' span'' children'' →
      a.Stores i kind' span' children' ∧ a.Stores part kind'' span'' children'' := by
    intro i kind' span' children' part kind'' span'' children'' slot hi hstores hpart hin
    have hstores := stores_of_push hstores hi
    have hlt : part < i := hstores.child_lt hpart
    exact ⟨hstores, stores_of_push hin (hlt.trans hstores.lt).ne⟩
  have hne : ∀ {i span' children'},
      (a.push kind span children).Stores i .binaryOperator span' children' → i ≠ a.size := by
    rintro i span' children' hi rfl
    rw [← (hi.eq (stores_push_last kind span children)).1] at hkind
    cases hkind
  refine ⟨fun i span' children' hi => ?_, fun i span' children' part _ _ hi hpart hin => ?_,
    fun i span' children' part _ _ hi hpart hin => ?_,
    fun i kind' span' children' slot part _ _ _ hi hpart hin => ?_⟩
  · obtain ⟨left, operator, right, place, hchildren, hplace, hwritten⟩ :=
      h.operation _ _ _ (stores_of_push hi (hne hi))
    exact ⟨left, operator, right, place, hchildren, Extends.push _ _ _ _ _ _ _ _ hplace, hwritten⟩
  · obtain ⟨hi', hin'⟩ := hold (hne hi) hi hpart hin
    exact h.left _ _ _ _ _ _ hi' hpart hin'
  · obtain ⟨hi', hin'⟩ := hold (hne hi) hi hpart hin
    exact h.right _ _ _ _ _ _ hi' hpart hin'
  · by_cases hlast : i = a.size
    · subst hlast
      obtain ⟨rfl, -⟩ := hi.eq (stores_push_last kind span children)
      refine NodeKind.not_mem_barred ?_
      rw [NodeKind.required_eq_zero hkind]
      exact Nat.zero_le _
    · obtain ⟨hi', hin'⟩ := hold hlast hi hpart hin
      exact h.barred _ _ _ _ _ _ _ _ _ hi' hpart hin'

end Arena

/-! ### Operators as they are written -/

namespace Token

variable {tokens tokens' : List Token} {i j level : Nat}

/-- The tokens from one position to another one spell a binary operator of some level. -/
def SpellAt (tokens : List Token) (i j level : Nat) : Prop :=
  operatorLevel? (String.join (((tokens.drop i).take (j + 1 - i)).map (·.text))) = some level

theorem SpellAt.of_texts (h : SpellAt tokens i j level)
    (htexts : tokens'.map (·.text) = tokens.map (·.text)) : SpellAt tokens' i j level := by
  unfold SpellAt at h ⊢
  rwa [List.map_take, List.map_drop, htexts, ← List.map_drop, ← List.map_take]

end Token

namespace Cursor

variable {c : Cursor} {kind next : TokenKind} {spelling spelling' : String} {level count : Nat}

/-- The next tokens, a number of them, spell a binary operator of some level. -/
def Spells (c : Cursor) (level count : Nat) : Prop :=
  ∃ word back, c.rest = word ++ back ∧ word.length = count ∧ (∀ t ∈ word, t.kind ≠ .endOfFile) ∧
    operatorLevel? (String.join (word.map (·.text))) = some level

theorem spells_one (hspells : ∀ t ∈ c.rest, t.kind.Spells t.text) (hkind : c.current.kind = kind)
    (hmem : (spelling, kind) ∈ TokenKind.operators) (hend : kind ≠ .endOfFile)
    (hlevel : operatorLevel? spelling = some level) : c.Spells level 1 := by
  subst hkind
  obtain ⟨back, hrest, -⟩ := advance_eq hend
  refine ⟨[c.current], back, hrest, rfl, by simpa using hend, ?_⟩
  have htext := hspells c.current (by simp [hrest]) spelling hmem
  simpa [String.join, htext] using hlevel

theorem spells_two (hspells : ∀ t ∈ c.rest, t.kind.Spells t.text) (hkind : c.isAt kind = true)
    (hnext : c.kindAt 1 = next) (hmem : (spelling, kind) ∈ TokenKind.operators)
    (hmem' : (spelling', next) ∈ TokenKind.operators) (hend : kind ≠ .endOfFile)
    (hend' : next ≠ .endOfFile) (hlevel : operatorLevel? (spelling ++ spelling') = some level) :
    c.Spells level 2 := by
  obtain rfl := current_kind_eq_of_isAt hkind
  obtain ⟨rest, hrest, hadvance⟩ := advance_eq hend
  have hsecond : c.advance.current.kind = next := by
    rw [← kindAt_zero, kindAt_advance hend, hnext]
  obtain ⟨back, hback, -⟩ := advance_eq (hsecond ▸ hend')
  have hrest' : c.rest = c.current :: c.advance.current :: back := by
    rw [hrest, ← hback, hadvance]
  refine ⟨[c.current, c.advance.current], back, hrest', rfl, ?_, ?_⟩
  · simp [hend, hsecond, hend']
  · have htext := hspells c.current (by simp [hrest']) spelling hmem
    have htext' := hspells c.advance.current (by simp [hrest']) spelling' (hsecond ▸ hmem')
    simpa [String.join, htext, htext'] using hlevel

/-- The operator that comes next is spelled by the next tokens. -/
theorem spells_of_leveledOperator? (hspells : ∀ t ∈ c.rest, t.kind.Spells t.text)
    (h : leveledOperator? c = some ⟨level, count⟩) : c.Spells level count := by
  have hone : ∀ {kind : TokenKind} (spelling : String), c.current.kind = kind →
      (spelling, kind) ∈ TokenKind.operators ∧ kind ≠ .endOfFile ∧
        operatorLevel? spelling = some level → c.Spells level 1 :=
    fun spelling hkind ⟨hmem, hend, hlevel⟩ => spells_one hspells hkind hmem hend hlevel
  have htwo : ∀ {next : TokenKind} (spelling : String),
      (c.isAt .gt && c.kindAt 1 == next && c.touches 0) = true →
      (spelling, next) ∈ TokenKind.operators ∧ next ≠ .endOfFile ∧
        operatorLevel? (">" ++ spelling) = some level → c.Spells level 2 := by
    intro next spelling hat ⟨hmem, hend, hlevel⟩
    simp only [Bool.and_eq_true, beq_iff_eq] at hat
    exact spells_two hspells hat.1.1 hat.1.2
      (show (">", TokenKind.gt) ∈ TokenKind.operators by decide) hmem (by decide) hend hlevel
  unfold leveledOperator? at h
  split at h
  · cases h
    exact hone "??" (current_kind_eq_of_isAt ‹_›) (by decide)
  · unfold binaryOperator? at h
    split at h <;> try cases h
    · exact hone "||" ‹_› (by decide)
    · exact hone "&&" ‹_› (by decide)
    · exact hone "|" ‹_› (by decide)
    · exact hone "^" ‹_› (by decide)
    · exact hone "&" ‹_› (by decide)
    · exact hone "==" ‹_› (by decide)
    · exact hone "!=" ‹_› (by decide)
    · exact hone "<" ‹_› (by decide)
    · exact hone "<=" ‹_› (by decide)
    · exact hone "<=>" ‹_› (by decide)
    · split at h
      · cases h
      · split at h
        · cases h
          exact htwo ">" ‹_› (by decide)
        · split at h <;> cases h
          · exact htwo "=" ‹_› (by decide)
          · exact hone ">" ‹_› (by decide)
    · exact hone "<<" ‹_› (by decide)
    · exact hone "+" ‹_› (by decide)
    · exact hone "-" ‹_› (by decide)
    · exact hone "*" ‹_› (by decide)
    · exact hone "/" ‹_› (by decide)
    · exact hone "%" ‹_› (by decide)

end Cursor

namespace Token

variable {ts ts' : List Token} {t u t' u' e : Token} {span : Span}
variable {i j i' j' offset level level' : Nat}

/-- An operator among tokens in order reaches from the first token of its spelling to the last. -/
theorem Ordered.exists_spellAt (hordered : Ordered ts) (hend : e.kind = .endOfFile)
    (hspells : ∀ t ∈ ts, t.kind.Spells t.text) (h : Spelled (ts ++ [e]) span level) :
    ∃ i j t u, i ≤ j ∧ ts[i]? = some t ∧ ts[j]? = some u ∧ span = ⟨t.span.start, u.span.stop⟩ ∧
      SpellAt ts i j level := by
  obtain ⟨c, count, ⟨front, hfront⟩, hoperator, rfl⟩ := h
  have hspells' : ∀ t ∈ c.rest, t.kind.Spells t.text := by
    intro t ht
    have hmem : t ∈ ts ++ [e] := hfront ▸ List.mem_append_right front ht
    obtain hts | hlast := List.mem_append.mp hmem
    · exact hspells t hts
    · obtain rfl := List.mem_singleton.mp hlast
      exact .of_forall (by rw [hend]; decide)
  obtain ⟨word, back, hrest, rfl, hkinds, hlevel⟩ :=
    Cursor.spells_of_leveledOperator? hspells' hoperator
  have hword : word ≠ [] := by
    rintro rfl
    cases hlevel
  -- The end of the file is not part of the operator.
  obtain ⟨later, rfl⟩ : ∃ later, ts = front ++ word ++ later := by
    rw [hrest, ← List.append_assoc] at hfront
    obtain rfl | ⟨later, last, rfl⟩ := List.eq_nil_or_concat' back
    · obtain ⟨initial, last, rfl⟩ := (List.eq_nil_or_concat' word).resolve_left hword
      rw [List.append_nil, ← List.append_assoc] at hfront
      obtain ⟨-, hlast⟩ := List.append_inj' hfront rfl
      obtain rfl := List.singleton_injective hlast
      exact absurd hend (hkinds last (by simp))
    · rw [← List.append_assoc] at hfront
      exact ⟨later, (List.append_inj' hfront rfl).1.symm⟩
  have hpos : 0 < word.length := List.length_pos_of_ne_nil hword
  have hword_get : ∀ k (hk : k < word.length),
      (front ++ word ++ later)[front.length + k]? = some word[k] := by
    intro k hk
    rw [List.append_assoc, List.getElem?_append_right (Nat.le_add_right _ _), Nat.add_sub_cancel_left,
      List.getElem?_append_left hk, List.getElem?_eq_getElem hk]
  have hfirst := hword_get 0 hpos
  have hlast := hword_get (word.length - 1) (by omega)
  have hij : front.length ≤ front.length + (word.length - 1) := Nat.le_add_right _ _
  refine ⟨_, _, _, _, hij, hfirst, hlast, ?_, ?_⟩
  · rw [← hordered.merge_eq hij hfirst hlast]
    have hcurrent : c.current = word[0] := by
      rw [Cursor.current, hrest, List.head?_append, List.head?_eq_getElem?,
        List.getElem?_eq_getElem hpos]
      rfl
    rw [Cursor.spanOf, hcurrent, hrest, List.getElem?_append_left (by omega),
      List.getElem?_eq_getElem (by omega)]
    rfl
  · have hcount : front.length + (word.length - 1) + 1 - front.length = word.length := by omega
    rw [SpellAt, hcount, List.append_assoc, List.drop_left, List.take_left]
    exact hlevel

/-- What holds of the kinds and texts of some tokens holds where they are spread. -/
theorem forall_mem_spread {P : TokenKind → String → Prop} (offset : Nat)
    (h : ∀ t ∈ ts, P t.kind t.text) : ∀ t ∈ spread offset ts, P t.kind t.text := by
  intro t ht
  have hmem : (t.kind, t.text) ∈ ts.map fun t => (t.kind, t.text) := by
    rw [← spelled_spread offset]
    exact List.mem_map_of_mem (f := fun t : Token => (t.kind, t.text)) ht
  obtain ⟨u, hu, heq⟩ := List.mem_map.mp hmem
  obtain ⟨hkind, htext⟩ := Prod.mk.inj heq
  rw [← hkind, ← htext]
  exact h u hu

/-- Tokens that are spread are told apart by where they begin, and by where they end. -/
theorem spread_unique (ht : (spread offset ts)[i]? = some t) (hu : (spread offset ts)[j]? = some u)
    (ht' : (spread offset ts)[i']? = some t') (hu' : (spread offset ts)[j']? = some u')
    (h : (⟨t.span.start, u.span.stop⟩ : Span) = ⟨t'.span.start, u'.span.stop⟩) :
    i = i' ∧ j = j' := by
  obtain ⟨hstart, hstop⟩ := Span.mk.inj h
  obtain ⟨hi, -⟩ := getElem?_spread ht
  obtain ⟨hi', -⟩ := getElem?_spread ht'
  obtain ⟨hj, hlt, hle⟩ := getElem?_spread hu
  obtain ⟨hj', hlt', hle'⟩ := getElem?_spread hu'
  omega

end Token

/-! ### Files -/

namespace Arena

variable {a b : Arena} {spans : Span → Span → Prop} {written written' : Span → Nat → Prop}
  {level : Nat → Nat}

/-- Corresponding nodes have the same kind and the same children. -/
theorem Beside.exists_stores (h : Beside .empty spans a b) {i : Nat} {kind : NodeKind} {span' : Span}
    {children : List Child} (hi : b.Stores i kind span' children) :
    ∃ span, a.Stores i kind span children ∧ spans span span' := by
  have hsize : i < a.size := lt_of_lt_of_eq hi.lt h.size_eq
  obtain ⟨data, hdata⟩ := exists_node? hsize
  obtain ⟨data', hdata', hkind, hspan, -, hchildren⟩ := h.node i data hdata
  obtain ⟨rfl, rfl, rfl⟩ := hi.eq (.of_node? hdata')
  refine ⟨data.span, ?_, hspan⟩
  have hsame : data'.children = data.children := hchildren.trans (List.map_id _)
  rw [hkind, hsame]
  exact .of_node? hdata

/-- Nodes that stand elsewhere are grouped in the same way. -/
theorem Grouped.of_beside (h : a.Grouped written level) (hab : Beside .empty spans a b)
    (hwritten : ∀ span span' l, spans span span' → written span l → written' span' l) :
    b.Grouped written' level where
  operation i span children hi := by
    obtain ⟨span₀, hi₀, -⟩ := hab.exists_stores hi
    obtain ⟨left, operator, right, place, hchildren, hplace, hlevel⟩ := h.operation _ _ _ hi₀
    obtain ⟨data, hdata, hkind, hspan, -, hnone⟩ := hab.node operator _ hplace.choose_spec
    refine ⟨left, operator, right, data.span, hchildren, ?_, hwritten _ _ _ hspan hlevel⟩
    have hstores : b.Stores operator data.kind data.span data.children := .of_node? hdata
    rwa [hkind, hnone] at hstores
  left i span children part span' children' hi hpart hin := by
    obtain ⟨_, hi₀, -⟩ := hab.exists_stores hi
    obtain ⟨_, hin₀, -⟩ := hab.exists_stores hin
    exact h.left _ _ _ _ _ _ hi₀ hpart hin₀
  right i span children part span' children' hi hpart hin := by
    obtain ⟨_, hi₀, -⟩ := hab.exists_stores hi
    obtain ⟨_, hin₀, -⟩ := hab.exists_stores hin
    exact h.right _ _ _ _ _ _ hi₀ hpart hin₀
  barred i kind span children slot part kind' span' children' hi hpart hin := by
    obtain ⟨_, hi₀, -⟩ := hab.exists_stores hi
    obtain ⟨_, hin₀, -⟩ := hab.exists_stores hin
    exact h.barred _ _ _ _ _ _ _ _ _ hi₀ hpart hin₀

end Arena

namespace Grammar

/-- What is read from tokens that are spread is grouped. -/
theorem readFile_spread_grouped {ts : List Token} {e : Token} (hend : e.kind = .endOfFile)
    (hkinds : ∀ t ∈ ts, t.kind ≠ .endOfFile) (hspells : ∀ t ∈ ts, t.kind.Spells t.text) :
    ∃ level, (readFile (Token.spread 0 ts ++ [e])).2.arena.Grouped
      (Spelled (Token.spread 0 ts ++ [e])) level := by
  have hkinds' := Token.forall_mem_spread (P := fun kind _ => kind ≠ .endOfFile) 0 hkinds
  have hspells' := Token.forall_mem_spread (P := TokenKind.Spells) 0 hspells
  generalize hspread : Token.spread 0 ts = ts' at hkinds' hspells' ⊢
  have hordered : Token.Ordered ts' := hspread ▸ Token.ordered_spread 0 ts
  have hrounds : (ts' ++ [e]).length < ts'.length + 2 := by simp
  obtain ⟨items, t, hitems, -, -, -, harena, -⟩ :=
    readFile_wide hend hkinds' (Nat.lt_add_of_pos_right Nat.two_pos) ts'.length.lt_succ_self
  have hwalks := walks_fileItems (walksAll_wideParser hrounds (ts'.length + 1)) hrounds
    (ts'.length + 2) (initialState (ts' ++ [e])) (List.suffix_refl _)
  unfold Runs at hwalks
  rw [hitems] at hwalks
  rw [harena]
  refine (hwalks.ranked (Arena.ranked_empty _)).exists_grouped fun span l l' h h' => ?_
  obtain ⟨i, j, t, u, -, ht, hu, hspan, hlevel⟩ := hordered.exists_spellAt hend hspells' h
  obtain ⟨i', j', t', u', -, ht', hu', hspan', hlevel'⟩ := hordered.exists_spellAt hend hspells' h'
  subst hspread
  obtain ⟨rfl, rfl⟩ := Token.spread_unique ht hu ht' hu' (hspan.symm.trans hspan')
  exact Option.some_inj.mp (hlevel.symm.trans hlevel')

/-- The same span of positions among tokens that are spread and among those of a text. -/
theorem written_of_sameRange {ts : List Token} {e e' : Token} {span span' : Span} {level : Nat}
    (hend : e'.kind = .endOfFile) (hordered : Token.Ordered ts)
    (hspells : ∀ t ∈ Token.spread 0 ts, t.kind.Spells t.text)
    (hrange : Token.SameRange (Token.spread 0 ts) ts span' span)
    (h : Spelled (Token.spread 0 ts ++ [e']) span' level) : Written (ts ++ [e]) span level := by
  obtain ⟨i, j, t', u', t, u, hij, ht', hu', ht, hu, hspan', rfl⟩ := hrange
  obtain ⟨i₀, j₀, t₀, u₀, -, ht₀, hu₀, hspan₀, hlevel⟩ :=
    (Token.ordered_spread 0 ts).exists_spellAt hend hspells h
  obtain ⟨rfl, rfl⟩ := Token.spread_unique ht' hu' ht₀ hu₀ (hspan'.symm.trans hspan₀)
  have htexts : ts.map (·.text) = (Token.spread 0 ts).map (·.text) := by
    have hspelled := congrArg (List.map Prod.snd) (Token.spelled_spread 0 ts)
    simpa [Function.comp_def] using hspelled.symm
  refine ⟨(ts.drop i).take (j + 1 - i), ?_, ?_, hlevel.of_texts htexts⟩
  · exact ((List.take_prefix _ _).isInfix.trans (List.drop_suffix _ _).isInfix).trans
      (List.prefix_append ts [e]).isInfix
  · rw [Token.cover_slice hij ht hu, hordered.max_eq hij ht hu]

/-- What is read from the tokens of a text is grouped. -/
theorem readFile_grouped {ts : List Token} {e : Token} (hend : e.kind = .endOfFile)
    (hkinds : ∀ t ∈ ts, t.kind ≠ .endOfFile) (hordered : Token.Ordered ts)
    (hspells : ∀ t ∈ ts, t.kind.Spells t.text) :
    ∃ level, (readFile (ts ++ [e])).2.arena.Grouped (Written (ts ++ [e])) level := by
  have hordered' := Token.ordered_spread 0 ts
  have hspells' := Token.forall_mem_spread (P := TokenKind.Spells) 0 hspells
  have hkinds' := Token.forall_mem_spread (P := fun kind _ => kind ≠ .endOfFile) 0 hkinds
  have hspread : Token.Respaced (ts ++ [e]) (Token.spread 0 ts ++ [e]) :=
    Token.respaced_spread hend ts e.span
  have hrespaced : Token.Respaced (Token.spread 0 ts ++ [e]) (ts ++ [e]) :=
    ⟨hspread.spelled.symm, hspread.joined.symm⟩
  have hcompares : Pairing.Compares (Token.spread 0 ts) ts e e
      (Token.SameRange (Token.spread 0 ts) ts) fun _ _ => True :=
    Pairing.compares_of_ordered hordered' hordered fun _ _ _ => trivial
  obtain ⟨-, harena, -⟩ := readFile_readAlike hrespaced.readAlike hend hkinds' hcompares
  obtain ⟨level, hgrouped⟩ := readFile_spread_grouped hend hkinds hspells
  exact ⟨level, hgrouped.of_beside harena fun span span' l hrange hspelled =>
    written_of_sameRange hend hordered hspells' hrange hspelled⟩

end Grammar

/-- The expressions of every text are grouped by the precedences of their operators. -/
theorem parse_grouped (file : FileId) (stamp : Nat) (source : String) :
    ∃ level, (parse file stamp source).tree.arena.Grouped (Written (lex source)) level := by
  obtain ⟨ts, stop, hlex, hkinds, hordered⟩ := exists_lex source
  have hspells : ∀ t ∈ ts, t.kind.Spells t.text := fun t ht =>
    spells_lex source t (hlex ▸ List.mem_append_left _ ht)
  obtain ⟨level, hgrouped⟩ := readFile_grouped (e := Token.endOfFile stop) rfl hkinds hordered hspells
  rw [← hlex] at hgrouped
  exact ⟨level, hgrouped.push rfl _ _⟩

end TolkAnalysis
