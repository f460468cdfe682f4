import TolkAnalysis.Grammar.Parse
import TolkAnalysis.Proofs.Grammar.TypeWord

/-!
# What is read as a type is a type

Where the parser of types succeeds, what it has read is a word of the grammar of types, and what it
has added to the arena is a tree of that word, bottom up (`readsOne_type`). The bound of the loops
is above the number of tokens that are left, so a loop ends only where the grammar lets it.
-/

namespace TolkAnalysis

open TolkAnalysis.Parser

namespace TypeSymbol

variable {symbol : TypeSymbol} {s s' : ParserState}

/-- Between two states a word of a symbol is read and its trees are stored. -/
def Reads (symbol : TypeSymbol) (s : ParserState) (children : List Child) (s' : ParserState) :
    Prop :=
  ∃ word ts, symbol.Derives word ts ∧ s.Passes word s'.toCursor ∧
    TypeTree.storeAll ts s.arena = (children, s'.arena)

/-- Between two states a word of a symbol is read and its one tree is stored. -/
def ReadsOne (symbol : TypeSymbol) (s : ParserState) (id : Nat) (s' : ParserState) : Prop :=
  ∃ word t, symbol.Derives word [t] ∧ s.Passes word s'.toCursor ∧
    TypeTree.store t s.arena = (id, s'.arena)

/-- Only a list and what follows the first variant of a union may be empty. -/
theorem Derives.word_ne_nil {word : List Token} {ts : List TypeTree} (h : symbol.Derives word ts)
    (hts : ts ≠ []) : word ≠ [] := by
  induction h with
  | noVariant => exact absurd rfl hts
  | noItem => exact absurd rfl hts
  | single _ ih => exact ih (by simp)
  | union _ _ _ ih _ => exact List.append_ne_nil_of_left_ne_nil (ih (by simp)) _
  | plain _ ih => exact ih (by simp)
  | lastItem _ ih => exact ih (by simp)
  | _ => simp

theorem ReadsOne.rest_lt {id : Nat} (h : symbol.ReadsOne s id s') :
    s'.rest.length < s.rest.length := by
  obtain ⟨word, t, hword, hpass, -⟩ := h
  exact hpass.rest_lt (hword.word_ne_nil (by simp))

end TypeSymbol

theorem TypeTree.length_storeAll {ts : List TypeTree} {a a' : Arena} {children : List Child}
    (h : storeAll ts a = (children, a')) : children.length = ts.length := by
  induction ts generalizing a children with
  | nil =>
    cases h
    rfl
  | cons t ts ih =>
    cases h
    simp only [List.length_cons]
    rw [ih rfl]

namespace Grammar

variable {bound n : Nat} {parse : Nonterminal → Parser Nat} {s s₀ : ParserState}

/-- With fewer than `n` tokens left, the parsers of types read types. -/
structure ReadsTypes (n : Nat) (parse : Nonterminal → Parser Nat) : Prop where
  type : ∀ s : ParserState, s.rest.length < n →
    Runs (parse .type) s (TypeSymbol.type.ReadsOne s) fun _ => True
  nullable : ∀ s : ParserState, s.rest.length < n →
    Runs (parse .nullableType) s (TypeSymbol.nullable.ReadsOne s) fun _ => True

/-- A list of types is read, and unless it is closed at once it has a member. -/
theorem reads_commaList (hparse : ReadsTypes n parse) (close : TokenKind) (bound : Nat)
    (hbound : s.rest.length < bound) (hn : s.rest.length < n) :
    Runs (commaList close (Child.plain <$> parse .type) bound) s
      (fun r s' => (TypeSymbol.list r.2).Reads s r.1 s' ∧ (s.isAt close = false → r.1 ≠ []))
      fun _ => True := by
  induction bound generalizing s with
  | zero => exact absurd hbound (Nat.not_lt_zero _)
  | succ bound ih =>
    refine .check ?_
    split
    · rename_i hclose
      refine .pure ⟨⟨[], [], .noItem, .refl _, rfl⟩, fun hopen => ?_⟩
      simp [hclose] at hopen
    refine .bind (.map ((hparse.type s hn).mono ?_ fun _ _ => trivial))
    rintro id s₁ hread
    have hless := hread.rest_lt
    obtain ⟨word, t, hword, hpass, hstore⟩ := hread
    refine .eat (fun hcomma => .check ?_) fun _ => .pure ?_
    · have hkind := Cursor.current_kind_eq_of_isAt hcomma
      have hcommaPass := hpass.trans (.token hcomma (by decide))
      split
      · refine .pure ⟨⟨_, _, .lastComma hword hkind, hcommaPass, ?_⟩, fun _ => by simp⟩
        exact TypeTree.storeAll_cons hstore rfl
      · rename_i hopen
        have hfewer : s₁.advance.rest.length ≤ s₁.rest.length :=
          (Cursor.Passes.token hcomma (by decide)).rest_le
        refine .bind ((ih (s := s₁.advance) (by omega) (by omega)).mono ?_ fun _ _ => trivial)
        rintro ⟨children, trailing⟩ s₂ ⟨⟨later, ts, hlater, hlaterPass, hlaterStore⟩, hsome⟩
        refine .pure ⟨⟨word ++ s₁.current :: later, t :: ts, .item hword hkind hlater ?_, ?_, ?_⟩,
          fun _ => by simp⟩
        · rintro rfl
          obtain ⟨rfl, -⟩ := Prod.mk.inj hlaterStore
          exact hsome (by simpa using hopen) rfl
        · simpa using hcommaPass.trans hlaterPass
        · exact TypeTree.storeAll_cons hstore hlaterStore
    · exact ⟨⟨_, _, .lastItem hword, hpass, TypeTree.storeAll_cons hstore rfl⟩, fun _ => by simp⟩

/-- A list of types between two tokens is read, with more to follow. -/
theorem reads_bracketed {β : Type} (hparse : ReadsTypes n parse) {opening close : TokenKind}
    (hopening : opening ≠ .endOfFile) (hclose : close ≠ .endOfFile)
    {f : List Child × Bool → Span → Parser β} {R : β → ParserState → Prop}
    (hat : s.isAt opening = true) (hn : s.rest.length ≤ n) (hbound : s.rest.length ≤ bound)
    (hf : ∀ word ts trailing closing children s', (TypeSymbol.list trailing).Derives word ts →
      closing.kind = close → s'.rest.length < s.rest.length →
      s.Passes (s.current :: word ++ [closing]) s'.toCursor →
      TypeTree.storeAll ts s.arena = (children, s'.arena) →
      Runs (f (children, trailing) closing.span) s' R fun _ => True) :
    Runs (do
      let r ← commaList close (Child.plain <$> parse .type) bound
      let span ← expect close
      f r span) s.advance R fun _ => True := by
  have hopen : s.Passes [s.current] s.advance.toCursor := .token hat hopening
  have hless : s.advance.rest.length < s.rest.length := hopen.rest_lt (by simp)
  refine .bind ((reads_commaList hparse close bound (by omega) (by omega)).mono ?_
    fun _ _ => trivial)
  rintro ⟨children, trailing⟩ s₁ ⟨⟨word, ts, hword, hpass, hstore⟩, -⟩
  refine .expect (fun hatClose => ?_) fun _ => trivial
  have hall := (hopen.trans hpass).trans (.token hatClose hclose)
  exact hf word ts trailing s₁.current children s₁.advance hword
    (Cursor.current_kind_eq_of_isAt hatClose) (hall.rest_lt (by simp)) hall hstore

theorem reads_typeArguments (hparse : ReadsTypes n parse) (hn : s.rest.length ≤ n)
    (hbound : s.rest.length ≤ bound) :
    Runs (typeArguments bound parse) s
      (fun id s' => ∃ word ts trailing closing a, (TypeSymbol.list trailing).Derives word ts ∧
        s.current.kind = .lt ∧ closing.kind = .gt ∧
        s.Passes (s.current :: word ++ [closing]) s'.toCursor ∧
        TypeTree.storeAll ts s.arena = a ∧ id = a.2.size ∧
        s'.arena = a.2.push .instantiationTypeList
          (Token.cover (s.current :: word ++ [closing])) a.1) fun _ => True := by
  refine .cursor (.expect (fun hat => ?_) fun _ => trivial)
  refine reads_bracketed (f := fun r _ => finish .instantiationTypeList s.start r.1) hparse
    (by decide) (by decide) hat hn hbound ?_
  intro word ts trailing closing children s' hword hclose _ hpass hstore
  refine .finish ⟨word, ts, trailing, closing, _, hword, Cursor.current_kind_eq_of_isAt hat,
    hclose, hpass, hstore, rfl, ?_⟩
  rw [hpass.finish (by simp)]

/-- What follows a list of types in round brackets. -/
theorem reads_bracketedType (hparse : ReadsTypes n parse) {word : List Token} {ts : List TypeTree}
    {trailing : Bool} {closing : Token} {children : List Child}
    (hopening : s₀.current.kind = .lParen) (hword : (TypeSymbol.list trailing).Derives word ts)
    (hclosing : closing.kind = .rParen) (hn : s.rest.length < n)
    (hpass : s₀.Passes (s₀.current :: word ++ [closing]) s.toCursor)
    (hstore : TypeTree.storeAll ts s₀.arena = (children, s.arena)) :
    Runs (bracketedType parse s₀.start closing.span children trailing) s
      (TypeSymbol.primary.ReadsOne s₀) fun _ => True := by
  refine .eat (fun harrow => .bind (.of_push ?_)) fun _ => ?_
  · -- The list before the arrow is a tensor, whatever it contains.
    have harrowPass := hpass.trans (.token harrow (by decide))
    have hless : s.advance.rest.length ≤ s.rest.length :=
      (Cursor.Passes.token harrow (by decide)).rest_le
    refine .bind (.mono (hparse.nullable _ (lt_of_le_of_lt hless hn)) ?_ fun _ _ => trivial)
    rintro result s₁ ⟨later, t, hlater, hlaterPass, hlaterStore⟩
    have hall := harrowPass.trans hlaterPass
    rw [List.append_assoc, List.singleton_append] at hall
    refine .finish ⟨_, _, .callable hopening hword hclosing
      (Cursor.current_kind_eq_of_isAt harrow) hlater, hall, ?_⟩
    have hpushed : TypeTree.store t (s.arena.push .tensorType
        ⟨s₀.current.span.start, closing.span.stop⟩ children) = (result, s₁.arena) := hlaterStore
    simp only [TypeTree.store, hstore, hpushed]
    rw [hall.finish (by simp)]
    rfl
  · have hlength := TypeTree.length_storeAll hstore
    split
    · obtain ⟨t, rfl⟩ := List.length_eq_one_iff.mp hlength.symm
      refine .finish ⟨_, _, .parenthesized hopening hword hclosing, hpass, ?_⟩
      simp only [TypeTree.storeAll_singleton, Prod.mk.injEq, List.cons.injEq] at hstore
      obtain ⟨⟨rfl, -⟩, harena⟩ := hstore
      simp only [TypeTree.store, harena]
      rw [hpass.finish (by simp)]
      rfl
    · rename_i hsingle
      refine .finish ⟨_, _, .tensor hopening hword hclosing fun hone => ?_, hpass, ?_⟩
      · obtain ⟨c, rfl⟩ := List.length_eq_one_iff.mp (hlength.trans hone)
        cases trailing with
        | true => rfl
        | false => exact absurd rfl (hsingle c rfl)
      · simp only [TypeTree.store, hstore]
        rw [hpass.finish (by simp)]

theorem reads_primaryType (hparse : ReadsTypes n parse) (hn : s.rest.length ≤ n)
    (hbound : s.rest.length ≤ bound) :
    Runs (primaryType bound parse) s (TypeSymbol.primary.ReadsOne s) fun _ => True := by
  refine .cursor ?_
  dsimp only
  split
  · rename_i hkind
    have hhead : s.Passes [s.current] s.advance.toCursor := .advance (by simp [hkind])
    have hfewer : s.advance.rest.length ≤ s.rest.length := hhead.rest_le
    refine .leaf (.check ?_)
    split
    · refine .bind (.mono (reads_typeArguments hparse (hfewer.trans hn) (hfewer.trans hbound)) ?_
        fun _ _ => trivial)
      rintro id s₁ ⟨word, ts, trailing, closing, a, hword, hopening, hclosing, hpass, hstore,
        rfl, harena⟩
      have hall := hhead.trans hpass
      refine .finish ⟨_, _, .instantiated hkind hopening hword hclosing, hall, ?_⟩
      simp only [TypeTree.store, hstore, ← harena]
      rw [hall.finish (by simp)]
      rfl
    · exact .pure ⟨_, _, .name hkind, hhead, rfl⟩
  · rename_i hkind
    exact .leaf (.pure ⟨_, _, .null hkind, .advance (by simp [hkind]), rfl⟩)
  · rename_i hkind
    have hat : s.isAt .lParen = true := by simp [Cursor.isAt, hkind]
    refine .bind (.next (reads_bracketed (f := fun r close => bracketedType parse s.start close r.1
      r.2) hparse (by decide) (by decide) hat hn hbound ?_))
    intro word ts trailing closing children s' hword hclose hless hpass hstore
    exact reads_bracketedType hparse hkind hword hclose (by omega) hpass hstore
  · rename_i hkind
    have hat : s.isAt .lBracket = true := by simp [Cursor.isAt, hkind]
    refine .bind (.next (reads_bracketed (f := fun r _ => finish .tupleType s.start r.1) hparse
      (by decide) (by decide) hat hn hbound ?_))
    intro word ts trailing closing children s' hword hclose _ hpass hstore
    refine .finish ⟨_, _, .tuple hkind hword hclose, hpass, ?_⟩
    simp only [TypeTree.store, hstore]
    rw [hpass.finish (by simp)]
  · exact .fail trivial

theorem reads_nullableType (hparse : ReadsTypes n parse) (hn : s.rest.length ≤ n)
    (hbound : s.rest.length ≤ bound) :
    Runs (nullableType bound parse) s (TypeSymbol.nullable.ReadsOne s) fun _ => True := by
  refine .cursor (.bind ((reads_primaryType hparse hn hbound).mono ?_ fun _ _ => trivial))
  rintro first s₁ ⟨word, t, hword, hpass, hstore⟩
  refine .iterate (fun inner s₂ h₂ => ?_) bound ⟨word, t, .plain hword, hpass, hstore⟩
  obtain ⟨word, t, hword, hpass, hstore⟩ := h₂
  refine .eat (fun hat => .map (.finish ?_)) fun _ => .pure ⟨word, t, hword, hpass, hstore⟩
  have hall := hpass.trans (.token hat (by decide))
  refine ⟨_, _, .question hword (Cursor.current_kind_eq_of_isAt hat), hall, ?_⟩
  simp only [TypeTree.store, hstore]
  rw [← hall.finish (by simp)]
  rfl

/-- The further variants of a union are read, at least one where a bar comes next. -/
theorem reads_variants (hparse : ReadsTypes n parse) (rounds : Nat)
    (hrounds : s.rest.length < rounds) (hn : s.rest.length ≤ n) (hbound : s.rest.length ≤ bound) :
    Runs (collect (variant? bound parse) rounds) s
      (fun children s' => TypeSymbol.variants.Reads s children s' ∧
        (s.isAt .pipe = true → children ≠ [])) fun _ => True := by
  induction rounds generalizing s with
  | zero => exact absurd hrounds (Nat.not_lt_zero _)
  | succ rounds ih =>
    refine .bind (.eat (fun hat => ?_) fun hnone => ?_)
    · have hbar : s.Passes [s.current] s.advance.toCursor := .token hat (by decide)
      have hless : s.advance.rest.length < s.rest.length := hbar.rest_lt (by simp)
      refine .map ((reads_nullableType hparse (by omega) (by omega)).mono ?_ fun _ _ => trivial)
      rintro id s₁ hread
      have hless₁ := hread.rest_lt
      obtain ⟨word, t, hword, hpass, hstore⟩ := hread
      refine .bind ((ih (by omega) (by omega) (by omega)).mono ?_ fun _ _ => trivial)
      rintro children s₂ ⟨⟨later, ts, hlater, hlaterPass, hlaterStore⟩, -⟩
      refine .pure ⟨⟨_, _, .variant (Cursor.current_kind_eq_of_isAt hat) hword hlater,
        (hbar.trans hpass).trans hlaterPass, ?_⟩, fun _ => by simp⟩
      exact TypeTree.storeAll_cons hstore hlaterStore
    · exact .pure (.pure ⟨⟨[], [], .noVariant, .refl _, rfl⟩, by simp [hnone]⟩)

theorem reads_type (hparse : ReadsTypes n parse) (hn : s.rest.length ≤ n)
    (hbound : s.rest.length ≤ bound) :
    Runs (type bound parse) s (TypeSymbol.type.ReadsOne s) fun _ => True := by
  refine .cursor (.bind ((reads_nullableType hparse hn hbound).mono ?_ fun _ _ => trivial))
  rintro first s₁ hread
  have hless := hread.rest_lt
  obtain ⟨word, t, hword, hpass, hstore⟩ := hread
  refine .check ?_
  split
  · rename_i hat
    refine .bind ((reads_variants hparse bound (by omega) (by omega) (by omega)).mono ?_
      fun _ _ => trivial)
    rintro children s₂ ⟨⟨later, ts, hlater, hlaterPass, hlaterStore⟩, hsome⟩
    have hall := hpass.trans hlaterPass
    refine .finish ⟨_, _, .union hword hlater ?_, hall, ?_⟩
    · rintro rfl
      obtain ⟨rfl, -⟩ := Prod.mk.inj hlaterStore
      exact hsome hat rfl
    · simp only [TypeTree.store, TypeTree.storeAll_cons hstore hlaterStore]
      rw [hall.finish (List.append_ne_nil_of_left_ne_nil (hword.word_ne_nil (by simp)) _)]
  · exact .pure ⟨word, t, .single hword, hpass, hstore⟩

/-- The parsers of the grammar read types. -/
theorem readsTypes_grammar (bound : Nat) : ReadsTypes bound (parser bound) := by
  induction bound with
  | zero => exact ⟨fun _ h => absurd h (Nat.not_lt_zero _), fun _ h => absurd h (Nat.not_lt_zero _)⟩
  | succ bound ih =>
    exact ⟨fun s h => reads_type ih (by omega) (by omega),
      fun s h => reads_nullableType ih (by omega) (by omega)⟩

end Grammar

end TolkAnalysis
