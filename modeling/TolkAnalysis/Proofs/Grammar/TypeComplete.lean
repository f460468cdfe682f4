import TolkAnalysis.Proofs.Grammar.TypeSound

/-!
# What is a type is read as a type

A word of the grammar of types is read to its end by the parser of types if the token after it
cannot go on with a type (`leads_type`), and `parser_type_exact` puts this together with what the
parser reads.

The parser is greedy, and the grammar is not: a `?` after the result of a function may belong to
the function. `Derives.marks` puts such marks into the result, so that the marks after what is read
as a primary type are those that the loop reads.
-/

namespace TolkAnalysis

open TolkAnalysis.Parser

namespace Cursor

variable {c : Cursor} {t : Token} {rest : List Token}

theorem isAt_of_rest (h : c.rest = t :: rest) (kind : TokenKind) :
    c.isAt kind = (t.kind == kind) := by
  simp [isAt, current, h]

theorem rest_advance (h : c.rest = t :: rest) (ht : t.kind ≠ .endOfFile) :
    c.advance.rest = rest := by
  simp [advance, h, ht]

end Cursor

/-- A type may begin with the token. -/
def TokenKind.beginsType (kind : TokenKind) : Bool :=
  kind == .ident || kind == .kwNull || kind == .lParen || kind == .lBracket

/-- The tree is that of a function. -/
def TypeTree.isCallable : TypeTree → Bool
  | .callable .. => true
  | _ => false

namespace TypeSymbol

variable {symbol : TypeSymbol} {word : List Token} {ts : List TypeTree} {t : TypeTree}

/-- A word with a tree begins with the first token of a type, or with the bar of a variant. -/
theorem Derives.begins (h : symbol.Derives word ts) (hts : ts ≠ []) :
    ∃ first rest, word = first :: rest ∧
      (first.kind.beginsType = true ∨ symbol = .variants ∧ first.kind = .pipe) := by
  induction h with
  | noVariant => exact absurd rfl hts
  | noItem => exact absurd rfl hts
  | variant hbar _ _ _ _ => exact ⟨_, _, rfl, .inr ⟨rfl, hbar⟩⟩
  | name hname => exact ⟨_, _, rfl, .inl (by simp [TokenKind.beginsType, hname])⟩
  | null hname => exact ⟨_, _, rfl, .inl (by simp [TokenKind.beginsType, hname])⟩
  | instantiated hname _ _ _ _ =>
    exact ⟨_, _, rfl, .inl (by simp [TokenKind.beginsType, hname])⟩
  | parenthesized hopen _ _ _ => exact ⟨_, _, rfl, .inl (by simp [TokenKind.beginsType, hopen])⟩
  | tensor hopen _ _ _ _ => exact ⟨_, _, rfl, .inl (by simp [TokenKind.beginsType, hopen])⟩
  | callable hopen _ _ _ _ _ _ => exact ⟨_, _, rfl, .inl (by simp [TokenKind.beginsType, hopen])⟩
  | tuple hopen _ _ _ => exact ⟨_, _, rfl, .inl (by simp [TokenKind.beginsType, hopen])⟩
  | single _ ih | plain _ ih | lastItem _ ih =>
    obtain ⟨first, rest, rfl, hfirst⟩ := ih (by simp)
    exact ⟨first, rest, rfl, .inl (by simpa using hfirst)⟩
  | union _ _ _ ih _ | question _ _ ih | lastComma _ _ ih | item _ _ _ _ ih _ =>
    obtain ⟨first, rest, rfl, hfirst⟩ := ih (by simp)
    exact ⟨first, _, rfl, .inl (by simpa using hfirst)⟩

/-- What derives something and is no further variant does not begin with a closing token. -/
theorem Derives.not_closed {close : TokenKind} (h : symbol.Derives word ts) (hts : ts ≠ [])
    (hsymbol : symbol ≠ .variants) (hclose : close ∈ [.gt, .rParen, .rBracket]) :
    ∃ first rest, word = first :: rest ∧ first.kind ≠ close := by
  obtain ⟨first, rest, hword, hfirst | ⟨hvariants, -⟩⟩ := h.begins hts
  · refine ⟨first, rest, hword, ?_⟩
    rintro rfl
    revert hclose hfirst
    cases first.kind <;> decide
  · exact absurd hvariants hsymbol

/-- A nullable type is a primary type with marks after it, and there are none after the result of a
function. -/
theorem Derives.marks (h : nullable.Derives word [t]) :
    ∃ front marks primaryTree, word = front ++ marks ∧ primary.Derives front [primaryTree] ∧
      (∀ mark ∈ marks, mark.kind = .question) ∧ (primaryTree.isCallable = true → marks = []) := by
  generalize hsymbol : nullable = symbol at h
  generalize hts : [t] = ts at h
  induction h generalizing t with
  | plain hprimary _ => exact ⟨_, [], _, by simp, hprimary, by simp, fun _ => rfl⟩
  | @question word mark t' hword hmark ih =>
    obtain ⟨front, marks, tree, rfl, hfront, hmarks, hnone⟩ := ih rfl rfl
    cases htree : tree.isCallable with
    | false =>
      refine ⟨front, marks ++ [mark], tree, List.append_assoc _ _ _, hfront, ?_, by simp [htree]⟩
      intro m hm
      rcases List.mem_append.mp hm with hm | hm
      · exact hmarks m hm
      · rw [List.mem_singleton.mp hm, hmark]
    | true =>
      -- The mark goes to the result of the function.
      obtain rfl := hnone htree
      cases hfront with
      | callable hopen hlist hclose harrow hresult =>
        have hlonger := Derives.callable hopen hlist hclose harrow (.question hresult hmark)
        exact ⟨_, [], _, by simp, hlonger, by simp, fun _ => rfl⟩
      | _ => cases htree
  | _ => cases hsymbol

end TypeSymbol

namespace Grammar

variable {α : Type} {bound n : Nat} {parse : Nonterminal → Parser Nat} {s : ParserState}
  {word more : List Token} {next : Token} {t : TypeTree} {ts : List TypeTree}

/-- The parser succeeds and leaves the given tokens. -/
def Leads (p : Parser α) (s : ParserState) (rest : List Token) : Prop :=
  Runs p s (fun _ s' => s'.rest = rest) fun _ => False

/-- With fewer than `n` tokens left, the parsers of types read every type to its end. -/
structure LeadsTypes (n : Nat) (parse : Nonterminal → Parser Nat) : Prop where
  type : ∀ (s : ParserState) (word more : List Token) (next : Token) (t : TypeTree),
    s.rest.length < n → TypeSymbol.type.Derives word [t] → s.rest = word ++ next :: more →
    next.kind ∉ [.pipe, .question, .lt, .arrow] → Leads (parse .type) s (next :: more)
  nullable : ∀ (s : ParserState) (word more : List Token) (next : Token) (t : TypeTree),
    s.rest.length < n → TypeSymbol.nullable.Derives word [t] → s.rest = word ++ next :: more →
    next.kind ∉ [.question, .lt, .arrow] → Leads (parse .nullableType) s (next :: more)

namespace Leads

variable {β : Type} {p : Parser α} {f : α → Parser β} {rest : List Token}

theorem bind (rest : List Token) (hp : Leads p s rest)
    (hf : ∀ a s', s'.rest = rest → Leads (f a) s' more) :
    Leads (p >>= f) s more :=
  Runs.bind (Runs.mono hp hf fun _ hE => hE)

theorem map {g : α → β} (hp : Leads p s rest) : Leads (g <$> p) s rest :=
  Runs.map hp

/-- The next token is read. -/
theorem eat {p q : Parser α} {kind : TokenKind} (hrest : s.rest = next :: more)
    (hnext : next.kind = kind) (hkind : kind ≠ .endOfFile)
    (hp : ∀ s' : ParserState, s'.rest = more → Leads p s' rest) :
    Leads (Parser.eat kind >>= fun b => if b = true then p else q) s rest := by
  refine Runs.eat (fun _ => hp _ (Cursor.rest_advance hrest (hnext ▸ hkind))) fun hno => ?_
  simp [Cursor.isAt_of_rest hrest, hnext] at hno

/-- The next token is of another kind. -/
theorem eat_of_ne {p q : Parser α} {kind : TokenKind} (hrest : s.rest = next :: more)
    (hnext : next.kind ≠ kind) (hq : Leads q s rest) :
    Leads (Parser.eat kind >>= fun b => if b = true then p else q) s rest := by
  refine Runs.eat (fun hyes => ?_) fun _ => hq
  simp [Cursor.isAt_of_rest hrest, hnext] at hyes

theorem expect {f : Span → Parser α} {kind : TokenKind} (hrest : s.rest = next :: more)
    (hnext : next.kind = kind) (hkind : kind ≠ .endOfFile)
    (hf : ∀ (span : Span) (s' : ParserState), s'.rest = more → Leads (f span) s' rest) :
    Leads (Parser.expect kind >>= f) s rest := by
  refine Runs.expect (fun _ => hf _ _ (Cursor.rest_advance hrest (hnext ▸ hkind))) fun hno => ?_
  simp [Cursor.isAt_of_rest hrest, hnext] at hno

/-- The next token is of the given kind, and it is not read. -/
theorem check {p q : Parser α} {kind : TokenKind} (hrest : s.rest = next :: more)
    (hnext : next.kind = kind) (hp : Leads p s rest) :
    Leads (Parser.check kind >>= fun b => if b = true then p else q) s rest := by
  refine Runs.check ?_
  rwa [Cursor.isAt_of_rest hrest, hnext, beq_self_eq_true, if_pos rfl]

theorem check_of_ne {p q : Parser α} {kind : TokenKind} (hrest : s.rest = next :: more)
    (hnext : next.kind ≠ kind) (hq : Leads q s rest) :
    Leads (Parser.check kind >>= fun b => if b = true then p else q) s rest := by
  refine Runs.check ?_
  rwa [Cursor.isAt_of_rest hrest, beq_eq_false_iff_ne.mpr hnext, if_neg (by simp)]

theorem pure {a : α} (hrest : s.rest = rest) : Leads (Pure.pure a) s rest := Runs.pure hrest

theorem finish {kind : NodeKind} {start : Nat} {children : List Child} (hrest : s.rest = rest) :
    Leads (Parser.finish kind start children) s rest := Runs.finish hrest

end Leads

/-- A member of a list is read where the list is not closed. -/
theorem leads_item (hparse : LeadsTypes n parse) {close : TokenKind} {p : Parser α}
    {q : Child → Parser α} {rest : List Token} (hword : TypeSymbol.type.Derives word [t])
    (hclose : close ∈ [.gt, .rParen, .rBracket]) (hrest : s.rest = word ++ next :: more)
    (hnext : next.kind ∉ [.pipe, .question, .lt, .arrow]) (hn : s.rest.length < n)
    (hq : ∀ a s', s'.rest = next :: more → Leads (q a) s' rest) :
    Leads (Parser.check close >>= fun b => if b = true then p
      else (Child.plain <$> parse .type) >>= q) s rest := by
  obtain ⟨first, later, rfl, hfirst⟩ := hword.not_closed (by simp) (by simp) hclose
  exact .check_of_ne hrest hfirst
    (.bind _ (.map (hparse.type s _ more next t hn hword hrest hnext)) hq)

/-- A list of types is read up to its closing token. -/
theorem leads_commaList (hparse : LeadsTypes n parse) {trailing : Bool} {closing : Token}
    {close : TokenKind} (rounds : Nat) (h : (TypeSymbol.list trailing).Derives word ts)
    (hclosing : closing.kind = close) (hclose : close ∈ [.gt, .rParen, .rBracket])
    (hrest : s.rest = word ++ closing :: more) (hrounds : s.rest.length < rounds)
    (hn : s.rest.length < n) :
    Leads (commaList close (Child.plain <$> parse .type) rounds) s (closing :: more) := by
  induction rounds generalizing s word ts with
  | zero => exact absurd hrounds (Nat.not_lt_zero _)
  | succ rounds ih =>
    have hstop : closing.kind ∉ [.pipe, .question, .lt, .arrow] ∧ closing.kind ≠ .comma := by
      rw [hclosing]
      revert hclose
      cases close <;> decide
    cases h with
    | noItem => exact .check hrest hclosing (.pure hrest)
    | lastItem hword =>
      exact leads_item hparse hword hclose hrest hstop.1 hn fun a s₁ hs₁ =>
        .eat_of_ne hs₁ hstop.2 (.pure hs₁)
    | lastComma hword hcomma =>
      rw [List.append_assoc, List.singleton_append] at hrest
      refine leads_item hparse hword hclose hrest (by simp [hcomma]) hn fun a s₁ hs₁ => ?_
      exact .eat hs₁ hcomma (by decide) fun s₂ hs₂ => .check hs₂ hclosing (.pure hs₂)
    | item hword hcomma hlater hts =>
      rw [List.append_assoc, List.cons_append] at hrest
      refine leads_item hparse hword hclose hrest (by simp [hcomma]) hn fun a s₁ hs₁ => ?_
      refine .eat hs₁ hcomma (by decide) fun s₂ hs₂ => ?_
      have hless : s₂.rest.length < s.rest.length := by
        rw [hs₂, hrest]
        simp
        omega
      have hagain := ih hlater hs₂ (by omega) (by omega)
      obtain ⟨first, rest, rfl, hfirst⟩ := hlater.not_closed hts (by simp) hclose
      exact .check_of_ne hs₂ hfirst (.bind _ hagain fun r s₃ hs₃ => .pure hs₃)

/-- A list of types between two tokens is read, with more to follow. -/
theorem leads_bracketed (hparse : LeadsTypes n parse) {trailing : Bool} {opening closing : Token}
    {close : TokenKind} {f : List Child × Bool → Span → Parser α} {rest : List Token}
    (h : (TypeSymbol.list trailing).Derives word ts) (hopening : opening.kind ≠ .endOfFile)
    (hclosing : closing.kind = close) (hclose : close ∈ [.gt, .rParen, .rBracket])
    (hrest : s.rest = opening :: word ++ closing :: more) (hbound : s.rest.length ≤ bound)
    (hn : s.rest.length ≤ n)
    (hf : ∀ r span s', s'.rest = more → Leads (f r span) s' rest) :
    Leads (do
      let r ← commaList close (Child.plain <$> parse .type) bound
      let span ← expect close
      f r span) s.advance rest := by
  have hadvance : s.advance.rest = word ++ closing :: more := Cursor.rest_advance hrest hopening
  have hless : s.advance.rest.length < s.rest.length := by
    rw [hadvance, hrest]
    simp
  refine .bind _ (leads_commaList hparse bound h hclosing hclose hadvance (by omega) (by omega))
    fun r s₁ hs₁ => ?_
  refine .expect hs₁ hclosing ?_ (hf r)
  rintro rfl
  revert hclose
  decide

theorem leads_typeArguments (hparse : LeadsTypes n parse) {trailing : Bool}
    {opening closing : Token} (h : (TypeSymbol.list trailing).Derives word ts)
    (hopening : opening.kind = .lt) (hclosing : closing.kind = .gt)
    (hrest : s.rest = opening :: word ++ closing :: more) (hbound : s.rest.length ≤ bound)
    (hn : s.rest.length ≤ n) : Leads (typeArguments bound parse) s more := by
  refine Runs.cursor (Runs.expect (fun _ => ?_) fun hno => ?_)
  · exact leads_bracketed (f := fun r _ => Parser.finish .instantiationTypeList s.start r.1) hparse h
      (by simp [hopening]) hclosing (by simp) hrest hbound hn fun r span s' hs' => .finish hs'
  · simp [Cursor.isAt_of_rest hrest, hopening] at hno

/-- Where a list of types in round brackets makes a type of its own, no arrow follows. -/
theorem leads_bracketedType {start : Nat} {close : Span} {children : List Child} {trailing : Bool}
    (hrest : s.rest = next :: more) (hnext : next.kind ≠ .arrow) :
    Leads (bracketedType parse start close children trailing) s (next :: more) := by
  refine .eat_of_ne hrest hnext ?_
  split
  · exact .finish hrest
  · exact .finish hrest

/-- A primary type is read to its end. After the result of a function no `?` may follow. -/
theorem leads_primaryType (hparse : LeadsTypes n parse) (h : TypeSymbol.primary.Derives word [t])
    (hrest : s.rest = word ++ next :: more) (hnext : next.kind ∉ [.lt, .arrow])
    (hmark : t.isCallable = true → next.kind ≠ .question) (hbound : s.rest.length ≤ bound)
    (hn : s.rest.length ≤ n) : Leads (primaryType bound parse) s (next :: more) := by
  obtain ⟨hlt, harrow⟩ : next.kind ≠ .lt ∧ next.kind ≠ .arrow := by simpa using hnext
  have hcurrent : ∀ {first : Token} {rest : List Token}, s.rest = first :: rest →
      s.current.kind = first.kind := fun h => by simp [Cursor.current, h]
  refine Runs.cursor ?_
  dsimp only
  cases h with
  | @name first hfirst =>
    rw [hcurrent hrest, hfirst]
    have hadvance := Cursor.rest_advance hrest (by simp [hfirst])
    exact Runs.leaf (Leads.check_of_ne hadvance hlt (Leads.pure hadvance))
  | null hfirst =>
    rw [hcurrent hrest, hfirst]
    exact Cursor.rest_advance hrest (by simp [hfirst])
  | instantiated hhead hopening hlist hclosing =>
    rw [hcurrent hrest, hhead]
    rw [List.cons_append, List.append_assoc, List.singleton_append] at hrest
    have hadvance := Cursor.rest_advance hrest (by simp [hhead])
    have hless : s.advance.rest.length ≤ s.rest.length :=
      (Cursor.Passes.advance (by simp [hcurrent hrest, hhead])).rest_le
    refine Runs.leaf (Leads.check hadvance hopening (.bind (next :: more) ?_
      fun _ _ h => .finish h))
    exact leads_typeArguments hparse hlist hopening hclosing hadvance (hless.trans hbound)
      (hless.trans hn)
  | parenthesized hopening hlist hclosing | tensor hopening hlist hclosing =>
    rw [hcurrent hrest, hopening]
    rw [List.append_assoc, List.singleton_append] at hrest
    exact Runs.bind (Runs.next (leads_bracketed hparse hlist (by simp [hopening]) hclosing (by simp)
      hrest hbound hn fun r span s' hs' => leads_bracketedType hs' harrow))
  | callable hopening hlist hclosing hsign hresult =>
    rw [hcurrent hrest, hopening]
    rw [List.append_assoc, List.append_assoc, List.singleton_append, List.cons_append] at hrest
    refine Runs.bind (Runs.next (leads_bracketed hparse hlist (by simp [hopening]) hclosing (by simp)
      hrest hbound hn fun r span s₁ hs₁ => ?_))
    refine .eat hs₁ hsign (by decide) fun s₂ hs₂ => Runs.bind (Runs.of_push ?_)
    refine Leads.bind (next :: more) ?_ fun _ _ h => .finish h
    refine hparse.nullable _ _ more next _ ?_ hresult hs₂ ?_
    · refine lt_of_lt_of_le ?_ hn
      rw [hrest, hs₂]
      simp
      omega
    · simp [hlt, harrow, hmark rfl]
  | tuple hopening hlist hclosing =>
    rw [hcurrent hrest, hopening]
    rw [List.append_assoc, List.singleton_append] at hrest
    exact Runs.bind (Runs.next (leads_bracketed hparse hlist (by simp [hopening]) hclosing (by simp)
      hrest hbound hn fun r span s' hs' => .finish hs'))

/-- A mark after a type is read in each round, up to the first token that is none. -/
theorem leads_questions {start inner : Nat} {marks : List Token} (rounds : Nat)
    (hmarks : ∀ mark ∈ marks, mark.kind = .question) (hnext : next.kind ≠ .question)
    (hrest : s.rest = marks ++ next :: more) (hrounds : marks.length < rounds) :
    Leads (iterate (questionStep start) rounds inner) s (next :: more) := by
  induction rounds generalizing s inner marks with
  | zero => exact absurd hrounds (Nat.not_lt_zero _)
  | succ rounds ih =>
    cases marks with
    | nil =>
      refine Runs.bind (Runs.eat (fun hyes => ?_) fun _ => Runs.pure (Leads.pure hrest))
      simp [Cursor.isAt_of_rest hrest, hnext] at hyes
    | cons mark marks =>
      have hquestion := hmarks mark (List.mem_cons_self ..)
      refine Runs.bind (Runs.eat (fun _ => Runs.map (Runs.finish ?_)) fun hno => ?_)
      · exact ih (fun m hm => hmarks m (List.mem_cons_of_mem _ hm))
          (Cursor.rest_advance hrest (by simp [hquestion])) (Nat.lt_of_succ_lt_succ hrounds)
      · simp [Cursor.isAt_of_rest hrest, hquestion] at hno

theorem leads_nullableType (hparse : LeadsTypes n parse)
    (h : TypeSymbol.nullable.Derives word [t]) (hrest : s.rest = word ++ next :: more)
    (hnext : next.kind ∉ [.question, .lt, .arrow]) (hbound : s.rest.length ≤ bound)
    (hn : s.rest.length ≤ n) : Leads (nullableType bound parse) s (next :: more) := by
  obtain ⟨hquestion, hlt, harrow⟩ :
      next.kind ≠ .question ∧ next.kind ≠ .lt ∧ next.kind ≠ .arrow := by simpa using hnext
  obtain ⟨front, marks, tree, rfl, hfront, hmarks, hnone⟩ := h.marks
  have hlength : marks.length < bound := by
    refine lt_of_lt_of_le ?_ hbound
    rw [hrest]
    simp
    omega
  rw [List.append_assoc] at hrest
  refine Runs.cursor (Leads.bind (marks ++ next :: more) ?_ fun first s₁ hs₁ =>
    leads_questions bound hmarks hquestion hs₁ hlength)
  cases marks with
  | nil =>
    exact leads_primaryType hparse hfront hrest (by simp [hlt, harrow]) (fun _ => hquestion) hbound
      hn
  | cons mark marks =>
    have hmark := hmarks mark (List.mem_cons_self ..)
    exact leads_primaryType hparse hfront hrest (by simp [hmark])
      (fun hcallable => by cases hnone hcallable) hbound hn

/-- The further variants of a union are read. -/
theorem leads_variants (hparse : LeadsTypes n parse) (rounds : Nat)
    (h : TypeSymbol.variants.Derives word ts) (hrest : s.rest = word ++ next :: more)
    (hnext : next.kind ∉ [.pipe, .question, .lt, .arrow]) (hrounds : s.rest.length < rounds)
    (hbound : s.rest.length ≤ bound) (hn : s.rest.length ≤ n) :
    Leads (collect (variant? bound parse) rounds) s (next :: more) := by
  induction rounds generalizing s word ts with
  | zero => exact absurd hrounds (Nat.not_lt_zero _)
  | succ rounds ih =>
    cases h with
    | noVariant =>
      have hpipe : next.kind ≠ .pipe := fun h => hnext (by simp [h])
      refine Runs.bind (Runs.eat (fun hyes => ?_) fun _ => Runs.pure (Leads.pure hrest))
      simp [Cursor.isAt_of_rest hrest, hpipe] at hyes
    | @variant bar word later _ ts hbar hword hlater =>
      rw [List.append_assoc] at hrest
      -- After a variant comes another bar, or what follows the union.
      obtain ⟨first, rest, hfirst, hkind⟩ : ∃ first rest, later ++ next :: more = first :: rest ∧
          first.kind ∉ [.question, .lt, .arrow] := by
        cases hlater with
        | noVariant => exact ⟨next, more, rfl, fun h => hnext (List.mem_cons_of_mem _ h)⟩
        | variant hbar' => exact ⟨_, _, rfl, by simp [hbar']⟩
      refine Runs.bind (Runs.eat (fun _ => Runs.map ?_) fun hno => ?_)
      · have hadvance := Cursor.rest_advance hrest (by simp [hbar])
        have hless : s.advance.rest.length < s.rest.length :=
          (Cursor.Passes.advance (by simp [Cursor.current, hrest, hbar])).rest_lt (by simp)
        rw [List.append_eq, hfirst] at hadvance
        refine Runs.mono (leads_nullableType hparse hword hadvance hkind (by omega) (by omega))
          (fun id s₁ hs₁ => ?_) fun _ hE => hE
        have hfewer : s₁.rest.length ≤ s.advance.rest.length := by
          have : s.advance.rest = word ++ first :: rest := hadvance
          rw [this, hs₁]
          simp
        rw [← hfirst] at hs₁
        exact Leads.bind _ (ih hlater hs₁ (by omega) (by omega) (by omega)) fun _ _ h => .pure h
      · simp [Cursor.isAt_of_rest hrest, hbar] at hno

theorem leads_type (hparse : LeadsTypes n parse) (h : TypeSymbol.type.Derives word [t])
    (hrest : s.rest = word ++ next :: more) (hnext : next.kind ∉ [.pipe, .question, .lt, .arrow])
    (hbound : s.rest.length ≤ bound) (hn : s.rest.length ≤ n) :
    Leads (type bound parse) s (next :: more) := by
  have hlater : next.kind ∉ [.question, .lt, .arrow] := fun h => hnext (List.mem_cons_of_mem _ h)
  refine Runs.cursor ?_
  cases h with
  | single hword =>
    have hpipe : next.kind ≠ .pipe := fun h => hnext (by simp [h])
    exact Leads.bind _ (leads_nullableType hparse hword hrest hlater hbound hn) fun first s₁ hs₁ =>
      .check_of_ne hs₁ hpipe (.pure hs₁)
  | @union word later t ts hword hlaterWord hts =>
    cases hlaterWord with
    | noVariant => exact absurd rfl hts
    | variant hbar hsecond hothers =>
      rw [List.append_assoc] at hrest
      refine Leads.bind _ (leads_nullableType hparse hword hrest (by simp [hbar]) hbound hn)
        fun first s₁ hs₁ => .check hs₁ hbar ?_
      have hless : s₁.rest.length < s.rest.length := by
        rw [hrest, hs₁, List.length_append]
        exact Nat.lt_add_of_pos_left (List.length_pos_of_ne_nil (hword.word_ne_nil (by simp)))
      exact .bind _ (leads_variants hparse bound (.variant hbar hsecond hothers) hs₁ hnext (by omega)
        (by omega) (by omega)) fun _ _ h => .finish h

/-- The parsers of the grammar read every type to its end. -/
theorem leadsTypes_grammar (bound : Nat) : LeadsTypes bound (parser bound) := by
  induction bound with
  | zero =>
    exact ⟨fun _ _ _ _ _ h => absurd h (Nat.not_lt_zero _),
      fun _ _ _ _ _ h => absurd h (Nat.not_lt_zero _)⟩
  | succ bound ih =>
    refine ⟨fun s word more next t hn h hrest hnext => ?_,
      fun s word more next t hn h hrest hnext => ?_⟩
    · exact leads_type ih h hrest hnext (by omega) (by omega)
    · exact leads_nullableType ih h hrest hnext (by omega) (by omega)

/-- The parser of types accepts exactly the grammar of types, with any tokens to read. What it reads
is a word of the grammar, and what it adds to the arena is a tree of that word, bottom up; and it
reads to its end every word that is followed by a token that cannot go on with a type. -/
theorem parser_type_exact {bound : Nat} {s : ParserState} (hbound : s.rest.length < bound) :
    (∀ id s', parser bound .type s = (.ok id, s') →
      ∃ word tree, TypeSymbol.type.Derives word [tree] ∧ s.Passes word s'.toCursor ∧
        tree.store s.arena = (id, s'.arena) ∧ tree.leaves = word.filter Token.isTypeName) ∧
    ∀ word tree next more, TypeSymbol.type.Derives word [tree] → s.rest = word ++ next :: more →
      next.kind ∉ [.pipe, .question, .lt, .arrow] →
      ∃ id s', parser bound .type s = (.ok id, s') ∧ s'.rest = next :: more := by
  constructor
  · intro id s' hrun
    have hreads := (readsTypes_grammar bound).type s hbound
    simp only [Runs, hrun] at hreads
    obtain ⟨word, tree, hword, hpass, hstore⟩ := hreads
    refine ⟨word, tree, hword, hpass, hstore, ?_⟩
    simpa [TypeTree.leavesAll] using hword.leavesAll_eq
  · intro word tree next more hword hrest hnext
    have hleads := (leadsTypes_grammar bound).type s word more next tree hbound hword hrest hnext
    unfold Leads Runs at hleads
    split at hleads
    · rename_i id s' hrun
      exact ⟨id, s', hrun, hleads⟩
    · exact hleads.elim

/-- `m<c<A>>;` is read as a type up to the semicolon: each `>` closes one list. -/
theorem parser_type_nested : ∃ id s', parser 9 .type (initialState
    [⟨.ident, "m", ⟨0, 1⟩⟩, ⟨.lt, "<", ⟨1, 2⟩⟩, ⟨.ident, "c", ⟨2, 3⟩⟩, ⟨.lt, "<", ⟨3, 4⟩⟩,
      ⟨.ident, "A", ⟨4, 5⟩⟩, ⟨.gt, ">", ⟨5, 6⟩⟩, ⟨.gt, ">", ⟨6, 7⟩⟩, ⟨.semi, ";", ⟨7, 8⟩⟩]) =
      (.ok id, s') ∧ s'.rest = [⟨.semi, ";", ⟨7, 8⟩⟩] := by
  have hargument : ∀ {word : List Token} {t : TypeTree}, TypeSymbol.primary.Derives word [t] →
      (TypeSymbol.list false).Derives word [t] := fun h => .lastItem (.single (.plain h))
  have hinner := TypeSymbol.Derives.instantiated
    (show Token.kind ⟨.ident, "c", ⟨2, 3⟩⟩ = .ident from rfl)
    (show Token.kind ⟨.lt, "<", ⟨3, 4⟩⟩ = .lt from rfl)
    (hargument (.name (show Token.kind ⟨.ident, "A", ⟨4, 5⟩⟩ = .ident from rfl)))
    (show Token.kind ⟨.gt, ">", ⟨5, 6⟩⟩ = .gt from rfl)
  have houter := TypeSymbol.Derives.instantiated
    (show Token.kind ⟨.ident, "m", ⟨0, 1⟩⟩ = .ident from rfl)
    (show Token.kind ⟨.lt, "<", ⟨1, 2⟩⟩ = .lt from rfl) (hargument hinner)
    (show Token.kind ⟨.gt, ">", ⟨6, 7⟩⟩ = .gt from rfl)
  exact (parser_type_exact (by decide)).2 _ _ _ [] (.single (.plain houter)) rfl (by decide)

end Grammar

end TolkAnalysis
