import TolkAnalysis.Grammar.TypeExpr
import TolkAnalysis.Proofs.Grammar.Passage

/-!
# Words and trees of types

The grammar of types over tokens,

```text
type      := nullable variants
variants  := ('|' nullable)*
nullable  := primary '?'*
primary   := name ('<' list '>')? | 'null' | '(' list ')' ('->' nullable)? | '[' list ']'
list      := (type (',' type)* ','?)?
```

as a relation between a symbol, a word and the trees of the word: one for a type, and one for each
member of a list or of a union. It looks at the kinds of the tokens only, and it says nothing about
the order in which alternatives are tried, so a word may have several trees: a `?` after the result
of a function belongs to the result or to the function.

A tree has one node for each union, nullable, instantiated, tensor, tuple, parenthesized and
callable form, and its leaves are the names of the word in order (`Derives.leavesAll_eq`).
-/

namespace TolkAnalysis

/-- The token is a leaf of types: a name or `null`. -/
def Token.isTypeName (t : Token) : Bool := t.kind == .ident || t.kind == .kwNull

/-- A tree of a type. Each node comes with what it covers, and so do the bracketed lists of an
instantiated type and of a function. -/
inductive TypeTree where
  | leaf (token : Token)
  | instantiated (span : Span) (head : Token) (list : Span) (arguments : List TypeTree)
  | tensor (span : Span) (elements : List TypeTree)
  | parenthesized (span : Span) (inner : TypeTree)
  | callable (span list : Span) (params : List TypeTree) (result : TypeTree)
  | tuple (span : Span) (elements : List TypeTree)
  | nullable (span : Span) (inner : TypeTree)
  | union (span : Span) (variants : List TypeTree)

namespace TypeTree

mutual

/-- The names of a type. -/
def leaves : TypeTree → List Token
  | .leaf t => [t]
  | .instantiated _ head _ arguments => head :: leavesAll arguments
  | .tensor _ elements => leavesAll elements
  | .parenthesized _ inner => leaves inner
  | .callable _ _ params result => leavesAll params ++ leaves result
  | .tuple _ elements => leavesAll elements
  | .nullable _ inner => leaves inner
  | .union _ variants => leavesAll variants

/-- The names of types, one type after the other. -/
def leavesAll : List TypeTree → List Token
  | [] => []
  | t :: ts => leaves t ++ leavesAll ts

end

mutual

/-- Adds the nodes of a type to an arena, the parts of a node before the node. Answers the node of
the type. -/
def store : TypeTree → Arena → Nat × Arena
  | .leaf t, a => (a.size, a.push .typeIdentifier t.span [])
  | .instantiated span head list arguments, a =>
      let (args, a') := storeAll arguments (a.push .typeIdentifier head.span [])
      let a'' := a'.push .instantiationTypeList list args
      (a''.size, a''.push .instantiatedType span
        [.labeled .name a.size, .labeled .arguments a'.size])
  | .tensor span elements, a =>
      let (parts, a') := storeAll elements a
      (a'.size, a'.push .tensorType span parts)
  | .parenthesized span inner, a =>
      let (part, a') := store inner a
      (a'.size, a'.push .parenthesizedType span [.labeled .inner part])
  | .callable span list params result, a =>
      let (parts, a') := storeAll params a
      let (answer, a'') := store result (a'.push .tensorType list parts)
      (a''.size, a''.push .funCallableType span
        [.labeled .paramTypes a'.size, .labeled .returnType answer])
  | .tuple span elements, a =>
      let (parts, a') := storeAll elements a
      (a'.size, a'.push .tupleType span parts)
  | .nullable span inner, a =>
      let (part, a') := store inner a
      (a'.size, a'.push .nullableType span [.labeled .inner part])
  | .union span variants, a =>
      let (parts, a') := storeAll variants a
      (a'.size, a'.push .unionType span parts)

/-- Adds the nodes of types to an arena, one type after the other. Answers a child for each
type. -/
def storeAll : List TypeTree → Arena → List Child × Arena
  | [], a => ([], a)
  | t :: ts, a =>
      let (node, a') := store t a
      let (nodes, a'') := storeAll ts a'
      (.plain node :: nodes, a'')

end

theorem storeAll_singleton (t : TypeTree) (a : Arena) :
    storeAll [t] a = ([.plain (t.store a).1], (t.store a).2) := rfl

theorem storeAll_cons {t : TypeTree} {ts : List TypeTree} {a a' a'' : Arena} {node : Nat}
    {nodes : List Child} (ht : t.store a = (node, a')) (hts : storeAll ts a' = (nodes, a'')) :
    storeAll (t :: ts) a = (.plain node :: nodes, a'') := by
  simp only [storeAll, ht, hts]

end TypeTree

/-- The symbols of the grammar of types. -/
inductive TypeSymbol where
  | type
  | variants
  | nullable
  | primary
  | list (trailing : Bool)

namespace TypeSymbol

open TypeTree

/-- A symbol derives a word, and these are the trees of the word. -/
inductive Derives : TypeSymbol → List Token → List TypeTree → Prop
  | single {word : List Token} {t : TypeTree} :
      Derives .nullable word [t] → Derives .type word [t]
  | union {word later : List Token} {t : TypeTree} {ts : List TypeTree} :
      Derives .nullable word [t] → Derives .variants later ts → ts ≠ [] →
      Derives .type (word ++ later) [.union (Token.cover (word ++ later)) (t :: ts)]
  | noVariant : Derives .variants [] []
  | variant {bar : Token} {word later : List Token} {t : TypeTree} {ts : List TypeTree} :
      bar.kind = .pipe → Derives .nullable word [t] → Derives .variants later ts →
      Derives .variants (bar :: word ++ later) (t :: ts)
  | plain {word : List Token} {t : TypeTree} :
      Derives .primary word [t] → Derives .nullable word [t]
  | question {word : List Token} {mark : Token} {t : TypeTree} :
      Derives .nullable word [t] → mark.kind = .question →
      Derives .nullable (word ++ [mark]) [.nullable (Token.cover (word ++ [mark])) t]
  | name {t : Token} : t.kind = .ident → Derives .primary [t] [.leaf t]
  | null {t : Token} : t.kind = .kwNull → Derives .primary [t] [.leaf t]
  | instantiated {head opening closing : Token} {word : List Token} {trailing : Bool}
      {ts : List TypeTree} :
      head.kind = .ident → opening.kind = .lt → Derives (.list trailing) word ts →
      closing.kind = .gt →
      Derives .primary (head :: (opening :: word ++ [closing]))
        [.instantiated (Token.cover (head :: (opening :: word ++ [closing]))) head
          (Token.cover (opening :: word ++ [closing])) ts]
  | parenthesized {opening closing : Token} {word : List Token} {t : TypeTree} :
      opening.kind = .lParen → Derives (.list false) word [t] → closing.kind = .rParen →
      Derives .primary (opening :: word ++ [closing])
        [.parenthesized (Token.cover (opening :: word ++ [closing])) t]
  | tensor {opening closing : Token} {word : List Token} {trailing : Bool} {ts : List TypeTree} :
      opening.kind = .lParen → Derives (.list trailing) word ts → closing.kind = .rParen →
      (ts.length = 1 → trailing = true) →
      Derives .primary (opening :: word ++ [closing])
        [.tensor (Token.cover (opening :: word ++ [closing])) ts]
  | callable {opening closing arrow : Token} {word later : List Token} {trailing : Bool}
      {ts : List TypeTree} {t : TypeTree} :
      opening.kind = .lParen → Derives (.list trailing) word ts → closing.kind = .rParen →
      arrow.kind = .arrow → Derives .nullable later [t] →
      Derives .primary (opening :: word ++ [closing] ++ arrow :: later)
        [.callable (Token.cover (opening :: word ++ [closing] ++ arrow :: later))
          ⟨opening.span.start, closing.span.stop⟩ ts t]
  | tuple {opening closing : Token} {word : List Token} {trailing : Bool} {ts : List TypeTree} :
      opening.kind = .lBracket → Derives (.list trailing) word ts → closing.kind = .rBracket →
      Derives .primary (opening :: word ++ [closing])
        [.tuple (Token.cover (opening :: word ++ [closing])) ts]
  | noItem : Derives (.list false) [] []
  | lastItem {word : List Token} {t : TypeTree} :
      Derives .type word [t] → Derives (.list false) word [t]
  | lastComma {word : List Token} {comma : Token} {t : TypeTree} :
      Derives .type word [t] → comma.kind = .comma → Derives (.list true) (word ++ [comma]) [t]
  | item {word later : List Token} {comma : Token} {trailing : Bool} {t : TypeTree}
      {ts : List TypeTree} :
      Derives .type word [t] → comma.kind = .comma → Derives (.list trailing) later ts →
      ts ≠ [] → Derives (.list trailing) (word ++ comma :: later) (t :: ts)

variable {symbol : TypeSymbol} {word : List Token} {ts : List TypeTree}

/-- The leaves of the trees of a word are the names of the word, in order. -/
theorem Derives.leavesAll_eq (h : symbol.Derives word ts) :
    leavesAll ts = word.filter Token.isTypeName := by
  induction h with
  | single _ ih => exact ih
  | union _ _ _ ih ih' =>
    rw [List.filter_append, ← ih, ← ih']
    simp [leavesAll, leaves]
  | noVariant => rfl
  | variant hbar _ _ ih ih' =>
    simp only [leavesAll, List.append_nil] at ih
    simp [leavesAll, Token.isTypeName, hbar, ih, ih']
  | plain _ ih => exact ih
  | question _ hmark ih =>
    rw [List.filter_append, ← ih]
    simp [leavesAll, leaves, Token.isTypeName, hmark]
  | name ht => simp [leavesAll, leaves, Token.isTypeName, ht]
  | null ht => simp [leavesAll, leaves, Token.isTypeName, ht]
  | instantiated hname hopen _ hclose ih =>
    simp [leavesAll, leaves, Token.isTypeName, hname, hopen, hclose, ih]
  | parenthesized hopen _ hclose ih =>
    simp only [leavesAll, List.append_nil] at ih
    simp [leavesAll, leaves, Token.isTypeName, hopen, hclose, ih]
  | tensor hopen _ hclose _ ih =>
    simp [leavesAll, leaves, Token.isTypeName, hopen, hclose, ih]
  | callable hopen _ hclose harrow _ ih ih' =>
    simp only [leavesAll, List.append_nil] at ih'
    simp [leavesAll, leaves, Token.isTypeName, hopen, hclose, harrow, ih, ih']
  | tuple hopen _ hclose ih =>
    simp [leavesAll, leaves, Token.isTypeName, hopen, hclose, ih]
  | noItem => rfl
  | lastItem _ ih => exact ih
  | lastComma _ hcomma ih =>
    rw [List.filter_append, ← ih]
    simp [leavesAll, Token.isTypeName, hcomma]
  | item _ hcomma _ _ ih ih' =>
    simp only [leavesAll, List.append_nil] at ih
    simp [leavesAll, Token.isTypeName, hcomma, ih, ih']

end TypeSymbol

end TolkAnalysis
