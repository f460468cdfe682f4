import TolkAnalysis.Grammar.Expression
import TolkAnalysis.Proofs.Tree.Extends

/-!
# How tightly expressions hold together

`NodeKind.tightness` orders the kinds of expressions from assignments to calls, and
`NodeKind.required` says how tight the part of an expression in a slot has to be. Binary operations
are told apart by the level of their operator. The arena does not store the level: it is known from
the tokens that the operator covers, `Spelled`.

`Ranks tokens a kind children` says that the children of a node are as tight as they have to be,
and `Ranked tokens a` that this is so of every node of an arena. What is known of a node stays known
when the arena grows.
-/

namespace TolkAnalysis

namespace NodeKind

/-- How tightly an expression holds its parts together. -/
def tightness : NodeKind → Nat
  | .assignment | .setAssignment => 0
  | .ternaryOperator => 1
  | .binaryOperator => 2
  | .unaryOperator | .lazyExpression => 3
  | .castAsOperator | .isTypeOperator => 4
  | _ => 5

/-- How tight the part of an expression in a slot is at least. -/
def required : NodeKind → Field → Nat
  | .assignment, .left | .setAssignment, .left => 1
  | .ternaryOperator, .condition => 2
  | .binaryOperator, .left | .binaryOperator, .right => 2
  | .unaryOperator, .argument | .lazyExpression, .argument => 3
  | .castAsOperator, .expr | .isTypeOperator, .expr => 4
  | .functionCall, .callee | .dotAccess, .obj | .notNullOperator, .inner
  | .genericInstantiation, .expr => 5
  | _, _ => 0

/-- Nothing is required of the parts of a node of this kind. -/
def isFree : NodeKind → Bool
  | .assignment | .setAssignment | .ternaryOperator | .binaryOperator | .unaryOperator
  | .lazyExpression | .castAsOperator | .isTypeOperator | .functionCall | .dotAccess
  | .notNullOperator | .genericInstantiation => false
  | _ => true

theorem required_eq_zero {kind : NodeKind} (h : kind.isFree = true) (slot : Field) :
    kind.required slot = 0 := by
  cases kind <;> first | rfl | cases h

end NodeKind

namespace Grammar

/-- The binary operator that comes next, with `??` below all the others. -/
def leveledOperator? (c : Cursor) : Option BinaryOperator :=
  if c.isAt .questionQuestion then some ⟨0, 1⟩ else binaryOperator? c

end Grammar

/-- What the next tokens cover, a number of them. -/
def Cursor.spanOf (c : Cursor) (count : Nat) : Span :=
  c.current.span.merge (((c.rest[count - 1]?).map (·.span)).getD c.current.span)

open Grammar

/-- A span covers tokens that spell a binary operator of the given level. -/
def Spelled (tokens : List Token) (span : Span) (level : Nat) : Prop :=
  ∃ c count, c.rest <:+ tokens ∧ leveledOperator? c = some ⟨level, count⟩ ∧ span = c.spanOf count

namespace Arena

variable {tokens : List Token} {a b : Arena} {id level level' tight tight' : Nat} {kind : NodeKind}
  {span : Span} {children : List Child}

/-- A node for an operator of the given level. -/
def OperatorAt (tokens : List Token) (a : Arena) (id level : Nat) : Prop :=
  ∃ span, a.Stores id .operator span [] ∧ Spelled tokens span level

/-- A binary operation whose operator is of the given level. -/
def BinaryAt (tokens : List Token) (a : Arena) (id level : Nat) : Prop :=
  ∃ span left operator right, a.Stores id .binaryOperator span
      [.labeled .left left, .labeled .operatorName operator, .labeled .right right] ∧
    a.OperatorAt tokens operator level

/-- A node is tight enough, and if it is a binary operation then its level is high enough. -/
def Rated (tokens : List Token) (a : Arena) (tight level id : Nat) : Prop :=
  ∃ kind span children, a.Stores id kind span children ∧ tight ≤ kind.tightness ∧
    (kind = .binaryOperator → ∃ l, level ≤ l ∧ a.BinaryAt tokens id l)

/-- The children of a node of a kind are as tight as they have to be. Those of a binary operation
group to the left. -/
structure Ranks (tokens : List Token) (a : Arena) (kind : NodeKind) (children : List Child) :
    Prop where
  parts : ∀ c ∈ children, ∀ slot, c.field = some slot → 0 < kind.required slot →
    a.Rated tokens (kind.required slot) 0 c.node
  operator : kind = .binaryOperator → ∃ level left operator right,
    children = [.labeled .left left, .labeled .operatorName operator, .labeled .right right] ∧
    a.OperatorAt tokens operator level ∧ a.Rated tokens 2 level left ∧
    a.Rated tokens 2 (level + 1) right

/-- Every node has children that are as tight as they have to be. -/
def Ranked (tokens : List Token) (a : Arena) : Prop :=
  ∀ i kind span children, a.Stores i kind span children → a.Ranks tokens kind children

/-! ### What stays known when an arena grows -/

theorem OperatorAt.extends (h : a.OperatorAt tokens id level) (hab : a.Extends b) :
    b.OperatorAt tokens id level := by
  obtain ⟨span, hstores, hspelled⟩ := h
  exact ⟨span, hab _ _ _ _ hstores, hspelled⟩

theorem BinaryAt.extends (h : a.BinaryAt tokens id level) (hab : a.Extends b) :
    b.BinaryAt tokens id level := by
  obtain ⟨span, left, operator, right, hstores, hoperator⟩ := h
  exact ⟨span, left, operator, right, hab _ _ _ _ hstores, hoperator.extends hab⟩

theorem Rated.extends (h : a.Rated tokens tight level id) (hab : a.Extends b) :
    b.Rated tokens tight level id := by
  obtain ⟨kind, span, children, hstores, htight, hlevel⟩ := h
  refine ⟨kind, span, children, hab _ _ _ _ hstores, htight, fun hkind => ?_⟩
  obtain ⟨l, hl, hbinary⟩ := hlevel hkind
  exact ⟨l, hl, hbinary.extends hab⟩

theorem Ranks.extends (h : a.Ranks tokens kind children) (hab : a.Extends b) :
    b.Ranks tokens kind children where
  parts c hc slot hslot hpos := (h.parts c hc slot hslot hpos).extends hab
  operator hkind := by
    obtain ⟨level, left, operator, right, hchildren, hoperator, hleft, hright⟩ := h.operator hkind
    exact ⟨level, left, operator, right, hchildren, hoperator.extends hab, hleft.extends hab,
      hright.extends hab⟩

/-! ### Nodes that are rated -/

theorem Rated.lt (h : a.Rated tokens tight level id) : id < a.size := by
  obtain ⟨kind, span, children, hstores, -⟩ := h
  exact hstores.lt

theorem Rated.mono (h : a.Rated tokens tight level id) (htight : tight' ≤ tight)
    (hlevel : level' ≤ level) : a.Rated tokens tight' level' id := by
  obtain ⟨kind, span, children, hstores, hle, hbinary⟩ := h
  refine ⟨kind, span, children, hstores, htight.trans hle, fun hkind => ?_⟩
  obtain ⟨l, hl, hat⟩ := hbinary hkind
  exact ⟨l, hlevel.trans hl, hat⟩

/-- What is tighter than binary operations has no level. -/
theorem Rated.of_tight (h : a.Rated tokens tight level id) (htight : 3 ≤ tight) (level' : Nat) :
    a.Rated tokens tight level' id := by
  obtain ⟨kind, span, children, hstores, hle, -⟩ := h
  refine ⟨kind, span, children, hstores, hle, ?_⟩
  rintro rfl
  exact absurd (htight.trans hle) (by decide)

/-- The node that is pushed is as tight as its kind. -/
theorem rated_push (h : tight ≤ kind.tightness) (hkind : kind ≠ .binaryOperator) :
    (a.push kind span children).Rated tokens tight level a.size :=
  ⟨kind, span, _, stores_push_last kind span children, h, fun hbinary => absurd hbinary hkind⟩

theorem OperatorAt.lt (h : a.OperatorAt tokens id level) : id < a.size := by
  obtain ⟨span, hstores, -⟩ := h
  exact hstores.lt

/-- A binary operation that is pushed has the level of its operator. -/
theorem rated_push_binary {left operator right : Nat}
    (hoperator : a.OperatorAt tokens operator level) (hleft : left < a.size)
    (hright : right < a.size) (htight : tight ≤ 2) (hlevel : level' ≤ level) :
    (a.push .binaryOperator span [.labeled .left left, .labeled .operatorName operator,
      .labeled .right right]).Rated tokens tight level' a.size := by
  have hlast := stores_push_last (a := a) .binaryOperator span
    [.labeled .left left, .labeled .operatorName operator, .labeled .right right]
  rw [stored_eq_self (by simp [hleft, hright, hoperator.lt])] at hlast
  exact ⟨_, _, _, hlast, htight, fun _ => ⟨level, hlevel, _, _, _, _, hlast,
    hoperator.extends (.push _ _ _ _)⟩⟩

/-! ### Arenas that are ranked -/

theorem Ranks.of_isFree (h : kind.isFree = true) : a.Ranks tokens kind children where
  parts c hc slot hslot hpos := by
    rw [NodeKind.required_eq_zero h] at hpos
    exact absurd hpos (lt_irrefl 0)
  operator hkind := by
    subst hkind
    cases h

/-- Apart from binary operations it is enough to look at the slots of which something is required. -/
theorem Ranks.of_parts (hkind : kind ≠ .binaryOperator) (h : ∀ c ∈ children, ∀ slot,
    c.field = some slot → kind.required slot = 0 ∨ a.Rated tokens (kind.required slot) 0 c.node) :
    a.Ranks tokens kind children where
  parts c hc slot hslot hpos := (h c hc slot hslot).resolve_left hpos.ne'
  operator hbinary := absurd hbinary hkind

/-- Children that are not stored are left out. -/
theorem Ranks.stored (h : a.Ranks tokens kind children) :
    a.Ranks tokens kind (a.stored children) where
  parts c hc := h.parts c (List.mem_of_mem_filter hc)
  operator hkind := by
    obtain ⟨level, left, operator, right, rfl, hoperator, hleft, hright⟩ := h.operator hkind
    refine ⟨level, left, operator, right, stored_eq_self ?_, hoperator, hleft, hright⟩
    simp [hoperator.lt, hleft.lt, hright.lt]

theorem ranked_empty (tokens : List Token) : Ranked tokens .empty :=
  fun _ _ _ _ h => absurd h.lt (Nat.not_lt_zero _)

theorem Ranked.push (h : a.Ranked tokens) (hranks : a.Ranks tokens kind children) (span : Span) :
    (a.push kind span children).Ranked tokens := by
  intro i kind' span' children' hstores
  by_cases hi : i = a.size
  · subst hi
    obtain ⟨rfl, -, rfl⟩ := hstores.eq (stores_push_last kind span children)
    exact hranks.stored.extends (.push _ _ _ _)
  · exact (h i kind' span' children' (stores_of_push hstores hi)).extends (.push _ _ _ _)

/-- An arena that has no node more stays ranked. -/
theorem Ranked.of_size_le (h : a.Ranked tokens) (hab : a.Extends b) (hsize : b.size ≤ a.size) :
    b.Ranked tokens := fun i kind span children hstores =>
  (h i kind span children (hab.stores (lt_of_lt_of_le hstores.lt hsize) hstores)).extends hab

end Arena

end TolkAnalysis
