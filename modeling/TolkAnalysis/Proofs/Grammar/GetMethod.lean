import TolkAnalysis.Proofs.Decl.Index
import TolkAnalysis.Proofs.Grammar.Layout
import TolkAnalysis.Proofs.Grammar.Resuming
import TolkAnalysis.Proofs.Grammar.Spread

/-!
# Get methods behind a broken declaration

A get method begins with the word `get`, which is a name elsewhere. No token begins a declaration by
itself there, so the word is skipped with a broken declaration in front of it, and a function is read
where the get method stands. `parse_getMethod` says when this does not happen: if the declaration
breaks off between braces, and the parser comes to the end of what it skips where they are closed.
-/

namespace TolkAnalysis

open TolkAnalysis.Parser

namespace Grammar

variable {bound : Nat} {parse : Nonterminal → Parser Nat} {s t : ParserState} {get fn : Token}
  {more ts : List Token} {id : Nat}

/-- The word `get` in front of a function begins a get method. -/
theorem stores_getMethod (hget : s.isAtWord "get" = true) (hfn : s.kindAt 1 = .kwFun) :
    Runs (item bound parse) s (fun id t => ∃ span children,
      t.arena.Stores id .getMethodDeclaration span children) fun _ => True := by
  have hstarts : s.current.kind.startsItem = false := by
    rw [Cursor.current_kind_eq_of_isAt (Cursor.isAt_of_isAtWord hget)]
    rfl
  have hmethod : ∀ s', Runs (function bound parse s.start none true) s' (fun id t =>
      ∃ span children, t.arena.Stores id .getMethodDeclaration span children) fun _ => True := by
    intro s'
    refine .last fun _ _ => .bind (.pure (.last fun _ _ => .last fun _ _ => .last fun _ _ =>
      .last fun _ _ => .last fun _ _ => ?_))
    exact .finish ⟨_, _, Arena.stores_push_last _ _ _⟩
  unfold Runs
  rw [run_item_of_not_starts bound parse hstarts, if_pos (by simp [hget, hfn])]
  exact hmethod s.advance

theorem lt_length_of_ended {v e : Token} {rest : List Token} (hv : v.kind ≠ .endOfFile)
    (htokens : v :: rest = ts ++ [e]) (hend : e.kind = .endOfFile) : 0 < ts.length := by
  refine List.length_pos_of_ne_nil ?_
  rintro rfl
  cases htokens
  exact hv hend

/-- A file whose first declaration cannot be read has errors. -/
theorem errors_ne_of_fails {tokens rest : List Token} {v : Token} {error : ParseError}
    {failed : ParserState} (hended : Token.Ended tokens) (htokens : tokens = v :: rest)
    (hv : v.kind ≠ .semi) (hvEnd : v.kind ≠ .endOfFile)
    (hfails : item (tokens.length + 1) (parser (tokens.length + 1)) (initialState tokens) =
      (.error error, failed)) : (readFile tokens).2.errors ≠ #[] := by
  obtain ⟨id, t, hskips, -, hlater, herrors⟩ := skips_first hended htokens hv hvEnd hfails
  obtain ⟨-, -, -, later, hall⟩ := hskips.readFile hlater
  intro hnone
  rw [hnone, herrors, Array.toList_push, List.append_assoc] at hall
  simp at hall

/-- A file that begins with a get method and is read without errors has it as its first declaration. -/
theorem exists_getMethod_of_readFile (hended : Token.Ended (get :: fn :: more))
    (hget : get.kind = .ident) (hword : get.text = "get") (hfn : fn.kind = .kwFun)
    (hread : (readFile (get :: fn :: more)).2.errors = #[]) :
    ∃ id later span children, (readFile (get :: fn :: more)).1 = .plain id :: later ∧
      (readFile (get :: fn :: more)).2.arena.Stores id .getMethodDeclaration span children := by
  generalize htokens : get :: fn :: more = tokens at hended hread ⊢
  have hgetEnd : get.kind ≠ .endOfFile := by simp [hget]
  obtain ⟨ts, e, hlast, hend, hkinds⟩ := id hended
  have hlt := lt_length_of_ended hgetEnd (htokens.trans hlast) hend
  have hcurrent : (initialState tokens).current = get := Cursor.current_of_rest htokens.symm
  have hruns : Runs (item (tokens.length + 1) (parser (tokens.length + 1))) (initialState tokens)
      _ _ := stores_getMethod (by simp [Cursor.isAtWord, Cursor.isAt, hcurrent, hget, hword])
        (by subst htokens; exact hfn)
  unfold Runs at hruns
  split at hruns
  · rename_i id t hitem
    obtain ⟨span, children, hstores⟩ := hruns
    subst hlast
    have hbegin := standsAt_initialState ts e
    have hfirst := run_fileItem_of_reads htokens.symm (by simp [hget]) hitem
    obtain ⟨items, t', q, hfirst', hq, hstands, -, -⟩ :=
      covers_fileItem hend hkinds (Nat.le_succ (ts ++ [e]).length) hbegin hlt
    cases hfirst.symm.trans hfirst'
    have hrounds : (ts ++ [e]).length ≤ q + (ts ++ [e]).length := Nat.le_add_left _ q
    obtain ⟨later, u, hlater, hkept, -⟩ :=
      covers_fileItems hend hkinds (Nat.le_succ (ts ++ [e]).length) hrounds hstands
    have hall := readFile_eq (run_collect_cons (by simp [Cursor.isAtEnd, Cursor.isAt, hcurrent, hget])
      hfirst hlater)
    rw [hall]
    exact ⟨id, later.flatten, span, children, rfl, hkept.extends _ _ _ _ hstores⟩
  · rename_i error failed hitem
    exact absurd hread (errors_ne_of_fails hended htokens.symm (by simp [hget]) hgetEnd hitem)

end Grammar

/-! ### What a child of the root covers -/

namespace Arena

variable {a b : Arena} {offset : Nat} {v : Token} {tokens : List Token} {c : Child}
  {children : List Child}

/-- Further on, a child covers the same tokens. -/
theorem Includes.holds (h : a.Includes offset b) (hc : c.node < b.size) (v : Token) :
    a.holds v (c.shift offset) = b.holds v c := by
  obtain ⟨kind, span, below, hstores⟩ := exists_stores hc
  obtain ⟨parent, hnode⟩ := hstores
  obtain ⟨parent', hnode'⟩ := h _ _ _ _ ⟨parent, hnode⟩
  simp [Arena.holds, Child.shift, hnode, hnode']

/-- The first child covers the first token, unless that is a semicolon. -/
theorem Covers.holds_head (h : a.Covers (v :: tokens) (c :: children))
    (hapart : Token.Apart (v :: tokens)) (hv : v.kind ≠ .semi) : a.holds v c = true := by
  generalize hwhole : v :: tokens = whole at h hapart
  cases h with
  | semi hkind => exact absurd ((List.cons.inj hwhole).1 ▸ hkind) hv
  | @child word later _ _ _ _ hne hstores _ =>
    obtain ⟨first, word, rfl⟩ := List.exists_cons_of_ne_nil hne
    obtain rfl : v = first := (List.cons.inj hwhole).1
    obtain ⟨first, -, last, -, hcover, hinside⟩ := hapart.left.exists_cover hne
    rw [holds_of_stores hstores, hcover]
    simp [Span.containsSpan, hinside v List.mem_cons_self]

end Arena

namespace Grammar

variable {t : ParserState} {get : Token} {ts : List Token}

/-- The declarations of a file are stored. -/
theorem lt_size_of_mem_readFile {source : String} {c : Child}
    (hc : c ∈ (readFile (lex source)).1) : c.node < (readFile (lex source)).2.arena.size := by
  obtain ⟨ts, stop, hlex, hkinds, -⟩ := exists_lex source
  have hend : (Token.endOfFile stop).kind = .endOfFile := rfl
  rw [hlex] at hc ⊢
  exact stored_readFile hend hkinds c hc

/-- The children of the root are the declarations of a file. -/
theorem children_rootNode_parse (file : FileId) (stamp : Nat) (source : String) :
    (parse file stamp source).tree.rootNode.data.children = (readFile (lex source)).1 := by
  have hlast := Arena.stores_push_last (a := (readFile (lex source)).2.arena) .sourceFile
    (Span.ofRange 0 source.utf8ByteSize) (readFile (lex source)).1
  rw [Arena.stored_eq_self fun _ => lt_size_of_mem_readFile] at hlast
  exact ((parse file stamp source).tree.rootNode.stores.eq hlast).2.2

/-- A declaration of a file is a child of the root. -/
theorem exists_child_of_stores (file : FileId) (stamp : Nat) {source : String} {c : Child}
    {kind : NodeKind} {span : Span} {children : List Child} (hc : c ∈ (readFile (lex source)).1)
    (hstores : (readFile (lex source)).2.arena.Stores c.node kind span children) :
    ∃ n ∈ (parse file stamp source).tree.rootNode.children, n.kind = kind ∧ n.span = span := by
  have hpushed : (parse file stamp source).tree.arena.Stores c.node kind span children :=
    Arena.Extends.push _ _ _ _ _ _ _ _ hstores
  obtain ⟨n, hn, hid, hkind, hspan, -⟩ := Node.exists_of_stores hpushed
  refine ⟨n, Node.mem_children_iff.mpr ⟨hn, c.field, ?_⟩, hkind, hspan⟩
  rwa [children_rootNode_parse, hid]

/-- A child of the root is a declaration of a file. -/
theorem exists_stores_of_child (file : FileId) (stamp : Nat) {source : String} {n : Node}
    (hn : n ∈ (parse file stamp source).tree.rootNode.children) :
    ∃ c ∈ (readFile (lex source)).1,
      (readFile (lex source)).2.arena.Stores c.node n.kind n.span n.data.children := by
  obtain ⟨htree, slot, hc⟩ := Node.mem_children_iff.mp hn
  rw [children_rootNode_parse] at hc
  refine ⟨_, hc, ?_⟩
  have hextends : (readFile (lex source)).2.arena.Extends
      (parse file stamp source).tree.arena := .push _ _ _ _
  refine hextends.stores (lt_size_of_mem_readFile hc) ?_
  have hstores := n.stores
  rwa [htree] at hstores

/-- What is read behind a token does not cover it. -/
theorem holds_eq_false_of_behind {tokens : List Token} {skipped : List Nat} {e u : Token}
    (hskips : Skips (tokens.length + 1) (initialState tokens) skipped t)
    (hrest : t.rest = ts ++ [e]) (hend : e.kind = .endOfFile)
    (hkinds : ∀ v ∈ ts, v.kind ≠ .endOfFile) (hapart : Token.Apart ts)
    (hpos : u.span.start < u.span.stop) (hbehind : ∀ v ∈ ts, u.span.stop ≤ v.span.start)
    {c : Child} (hc : c ∈ (readFile (ts ++ [e])).1) :
    (readFile tokens).2.arena.holds u (c.shift t.arena.size) = false := by
  obtain ⟨-, hincludes, -, -⟩ := hskips.readFile ⟨ts, e, hrest, hend, hkinds⟩
  rw [hrest] at hincludes
  have hnone := (covers_readFile hend hkinds).countP_eq_zero hapart hpos hbehind
  rw [hincludes.holds (stored_readFile hend hkinds c hc)]
  simpa using List.countP_eq_zero.mp hnone c hc

/-- Only what is skipped covers a token in front of what is read. -/
theorem kind_eq_error_of_behind (file : FileId) (stamp : Nat) {source : String}
    {skipped : List Nat} {e u : Token}
    (hskips : Skips ((lex source).length + 1) (initialState (lex source)) skipped t)
    (hrest : t.rest = ts ++ [e]) (hend : e.kind = .endOfFile)
    (hkinds : ∀ v ∈ ts, v.kind ≠ .endOfFile) (hapart : Token.Apart ts)
    (hpos : u.span.start < u.span.stop) (hbehind : ∀ v ∈ ts, u.span.stop ≤ v.span.start) {n : Node}
    (hn : n ∈ (parse file stamp source).tree.rootNode.children)
    (hcovers : n.span.containsSpan u.span = true) : n.kind = .error := by
  obtain ⟨hitems, -, hskipped, -⟩ := hskips.readFile ⟨ts, e, hrest, hend, hkinds⟩
  obtain ⟨c, hc, hstores⟩ := exists_stores_of_child file stamp hn
  rw [hitems, hrest] at hc
  obtain hc | hc := List.mem_append.mp hc
  · obtain ⟨id, hid, rfl⟩ := List.mem_map.mp hc
    obtain ⟨span, herror⟩ := hskipped id hid
    exact (hstores.eq herror).1
  · obtain ⟨c', hc', rfl⟩ := List.mem_map.mp hc
    have hfalse := holds_eq_false_of_behind hskips hrest hend hkinds hapart hpos hbehind hc'
    obtain ⟨parent, hnode⟩ := hstores
    simp [Arena.holds, hnode, hcovers] at hfalse

/-- A get method that the parser comes to is listed. -/
theorem exists_listed_of_skips (file : FileId) (stamp : Nat) {source : String} {skipped : List Nat}
    {e : Token} (hskips : Skips ((lex source).length + 1) (initialState (lex source)) skipped t)
    (hrest : t.rest = get :: ts ++ [e]) (hend : e.kind = .endOfFile)
    (hkinds : ∀ v ∈ get :: ts, v.kind ≠ .endOfFile) (hapart : Token.Apart (get :: ts))
    (hget : get.kind = .ident) (hword : get.text = "get")
    (hfn : ∃ fn more, ts ++ [e] = fn :: more ∧ fn.kind = .kwFun)
    (hread : (readFile (get :: ts ++ [e])).2.errors = #[]) :
    ∃ d ∈ (FileIndex.ofTree (parse file stamp source).tree).elements .getMethods,
      d.node.span.containsSpan get.span = true := by
  have hended : Token.Ended (get :: ts ++ [e]) := ⟨get :: ts, e, rfl, hend, hkinds⟩
  obtain ⟨hitems, hincludes, -⟩ := hskips.readFile (hrest ▸ hended)
  rw [hrest] at hitems hincludes
  obtain ⟨fn, more, hmore, hfn⟩ := hfn
  obtain ⟨id, later, span, children, hfirst, hstores⟩ : ∃ id later span children,
      (readFile (get :: ts ++ [e])).1 = .plain id :: later ∧
        (readFile (get :: ts ++ [e])).2.arena.Stores id .getMethodDeclaration span children := by
    rw [List.cons_append, hmore] at hended hread ⊢
    exact exists_getMethod_of_readFile hended hget hword hfn hread
  have hholds : (readFile (get :: ts ++ [e])).2.arena.holds get (.plain id) = true :=
    (hfirst ▸ covers_readFile hend hkinds).holds_head hapart (by simp [hget])
  rw [Arena.holds_of_stores hstores] at hholds
  have hmem : (Child.plain id).shift t.arena.size ∈ (readFile (lex source)).1 := by
    rw [hitems, hfirst]
    exact List.mem_append_right _ (List.mem_map_of_mem List.mem_cons_self)
  obtain ⟨n, hn, hkind, hspan⟩ :=
    exists_child_of_stores file stamp hmem (hincludes _ _ _ _ hstores)
  refine ⟨⟨.getMethod, n⟩, ?_, hspan ▸ hholds⟩
  rw [FileIndex.elements_ofTree]
  refine List.mem_filterMap.mpr ⟨n, hn, ?_⟩
  simp [FileIndex.listedAt?, Decl.ofNode?, Decl.kindOf?, hkind, Category.ofKind?]

end Grammar

open Grammar

/-- A get method behind a broken declaration is listed as one if the declaration is closed off in
front of it. Otherwise its first word belongs to what cannot be read. -/
theorem parse_getMethod (file : FileId) (stamp : Nat) {source : String} {bad more : List Token}
    {get fn : Token} {error : ParseError} {failed : ParserState}
    (hsize : source.utf8ByteSize < 2 ^ 32) (hlex : lex source = bad ++ get :: fn :: more)
    (hget : get.kind = .ident) (hword : get.text = "get") (hfn : fn.kind = .kwFun)
    (hread : (readFile (get :: fn :: more)).2.errors = #[]) (hbalanced : Token.Balanced bad)
    (hstarts : ∀ t ∈ bad.tail, t.kind.startsItem = false)
    (hfails : item ((lex source).length + 1) (parser ((lex source).length + 1))
      (initialState (lex source)) = (.error error, failed)) :
    ((∃ d ∈ (FileIndex.ofTree (parse file stamp source).tree).elements .getMethods,
        d.node.span.containsSpan get.span = true) ↔
      ClosesOffBefore bad (get :: fn :: more) failed) ∧
    (¬ ClosesOffBefore bad (get :: fn :: more) failed →
      ∃ n ∈ (parse file stamp source).tree.rootNode.children, n.kind = .error ∧
        n.span.containsSpan get.span = true) := by
  obtain ⟨ts, hlex', hlossless⟩ := lex_lossless source hsize
  have hended : Token.Ended (bad ++ get :: fn :: more) :=
    ⟨ts, _, hlex.symm.trans hlex', rfl, hlossless.kind_ne⟩
  have hmethod : Token.Ended (get :: fn :: more) :=
    (hended.split (List.cons_ne_nil get (fn :: more))).1
  have hne : bad ≠ [] := by
    rintro rfl
    have hwhole : lex source = get :: fn :: more := hlex
    rw [← hwhole] at hmethod hread
    exact errors_ne_of_fails hmethod hwhole (by simp [hget]) (by simp [hget]) hfails hread
  rw [hlex] at hfails
  obtain ⟨skipped, t, hskips, hcases, hlater⟩ :=
    skips_broken hended hget hfn hne hbalanced hstarts hfails
  rw [← hlex] at hskips
  have hapart : Token.Apart ts := .of_lossless hlossless
  have hkinds := hlossless.kind_ne
  -- The tokens of the get method are the last ones of the text.
  obtain ⟨word, last, hmore, hend, -⟩ := id hmethod
  obtain ⟨first, word, rfl⟩ := List.exists_cons_of_ne_nil (show word ≠ [] by
    rintro rfl
    cases hmore)
  obtain ⟨rfl, hfunction⟩ : get = first ∧ fn :: more = word ++ [last] := List.cons.inj hmore
  have hwhole : lex source = (bad ++ get :: word) ++ [last] := by
    rw [hlex, hmore, List.append_assoc]
  obtain ⟨rfl, -⟩ := List.append_inj' (hlex'.symm.trans hwhole) rfl
  have hpos := hapart.covers get (by simp)
  obtain ⟨hcloses, hrest⟩ | ⟨hnot, hrest⟩ := hcases
  · refine ⟨⟨fun _ => hcloses, fun _ => ?_⟩, fun hnot => absurd hcloses hnot⟩
    rw [hmore] at hrest hread
    exact exists_listed_of_skips file stamp hskips hrest hend
      (fun v hv => hkinds v (List.mem_append_right bad hv)) hapart.right hget hword
      ⟨fn, more, hfunction.symm, hfn⟩ hread
  · -- What is read begins behind the word `get`.
    obtain ⟨later, last', hlater', hend', hkinds'⟩ := hlater
    obtain ⟨past, hpast⟩ := hrest
    rw [hlater', hfunction, ← List.append_assoc] at hpast
    obtain ⟨rfl, -⟩ := List.append_inj' hpast rfl
    have hmethods : Token.Apart (([get] ++ past) ++ later) := by simpa using hapart.right
    have hbehind : ∀ v ∈ later, get.span.stop ≤ v.span.start :=
      fun v hv => hmethods.between (by simp) hv
    have herror : ∀ {n : Node}, n ∈ (parse file stamp source).tree.rootNode.children →
        n.span.containsSpan get.span = true → n.kind = .error := fun hn hcovers =>
      kind_eq_error_of_behind file stamp hskips hlater' hend' hkinds' hmethods.right hpos hbehind
        hn hcovers
    refine ⟨⟨fun ⟨d, hd, hcovers⟩ => ?_, fun hcloses => absurd hcloses hnot⟩, fun _ => ?_⟩
    · obtain ⟨hchild, -, hkind⟩ := FileIndex.exists_of_mem_elements hd
      rw [herror hchild hcovers] at hkind
      cases hkind
    · obtain ⟨c, hc, hholds⟩ : ∃ c ∈ (readFile (lex source)).1,
          (readFile (lex source)).2.arena.holds get c = true := by
        have honce := (covers_readFile hend hkinds).countP_eq hapart get (by simp)
        rw [← hwhole] at honce
        rw [← List.countP_pos_iff]
        obtain hone | ⟨hsemi, -⟩ := honce
        · exact hone ▸ Nat.one_pos
        · cases hget.symm.trans hsemi
      obtain ⟨kind, span, children, hstores⟩ :=
        Arena.exists_stores (lt_size_of_mem_readFile hc)
      obtain ⟨n, hn, -, hspan⟩ := exists_child_of_stores file stamp hc hstores
      have hcovers : n.span.containsSpan get.span = true := by
        obtain ⟨parent, hnode⟩ := hstores
        rw [hspan]
        simpa [Arena.holds, hnode] using hholds
      exact ⟨n, hn, herror hn hcovers, hcovers⟩

/-- A struct that breaks off between its braces, and a get method behind its closing brace. -/
def closedOffStruct : String := "struct S \x7b a b \x7d; get fun f()\x7b\x7d"

/-- A constant that breaks off before its name, and a get method behind it. -/
def openConstant : String := "const = 2 get fun f()\x7b\x7d"

/-- Behind the struct the get method is listed. Behind the constant its first word is covered with
what cannot be read, and no get method is listed there. -/
theorem parse_getMethod_twice :
    (∃ d ∈ (FileIndex.ofTree (parse 0 0 closedOffStruct).tree).elements .getMethods,
      d.node.span.containsSpan ⟨18, 21⟩ = true) ∧
    (¬ ∃ d ∈ (FileIndex.ofTree (parse 0 0 openConstant).tree).elements .getMethods,
      d.node.span.containsSpan ⟨10, 13⟩ = true) ∧
    ∃ n ∈ (parse 0 0 openConstant).tree.rootNode.children, n.kind = .error ∧
      n.span.containsSpan ⟨10, 13⟩ = true := by
  let get : Token := ⟨.ident, "get", ⟨18, 21⟩⟩
  let fn : Token := ⟨.kwFun, "fun", ⟨22, 25⟩⟩
  let get' : Token := ⟨.ident, "get", ⟨10, 13⟩⟩
  let fn' : Token := ⟨.kwFun, "fun", ⟨14, 17⟩⟩
  have hlex : lex closedOffStruct = (lex closedOffStruct).take 7 ++
      get :: fn :: (lex closedOffStruct).drop 9 := by decide +kernel
  let outcome := item ((lex closedOffStruct).length + 1) (parser ((lex closedOffStruct).length + 1))
    (initialState (lex closedOffStruct))
  have hfails : outcome = (.error (.unexpectedToken (.token .colon) .ident ⟨13, 14⟩), outcome.2) :=
    Prod.ext (by decide +kernel) rfl
  have hlex' : lex openConstant = (lex openConstant).take 3 ++
      get' :: fn' :: (lex openConstant).drop 5 := by decide +kernel
  let outcome' := item ((lex openConstant).length + 1) (parser ((lex openConstant).length + 1))
    (initialState (lex openConstant))
  have hfails' : outcome' = (.error (.unexpectedToken (.token .ident) .eq ⟨6, 7⟩), outcome'.2) :=
    Prod.ext (by decide +kernel) rfl
  obtain ⟨hlisted, -⟩ := parse_getMethod 0 0 (by decide) hlex rfl rfl rfl (by decide +kernel)
    (by decide +kernel) (by decide +kernel) hfails
  obtain ⟨hskipped, herror⟩ := parse_getMethod 0 0 (by decide) hlex' rfl rfl rfl
    (by decide +kernel) (by decide +kernel) (by decide +kernel) hfails'
  have hcloses : ClosesOffBefore ((lex closedOffStruct).take 7)
      (get :: fn :: (lex closedOffStruct).drop 9) outcome.2 :=
    ⟨(lex closedOffStruct).take 4, ((lex closedOffStruct).drop 4).take 3, by decide +kernel,
      by decide +kernel, ((lex closedOffStruct).drop 4).take 2, ((lex closedOffStruct).drop 6).take 1,
      by decide +kernel, by decide +kernel, .inr ⟨0, ((lex closedOffStruct).drop 4).take 1,
        ⟨.rBrace, "\x7d", ⟨15, 16⟩⟩, by decide +kernel, by decide +kernel, by decide +kernel, rfl⟩⟩
  have hopen : ¬ ClosesOffBefore ((lex openConstant).take 3)
      (get' :: fn' :: (lex openConstant).drop 5) outcome'.2 := by
    have hback := closesOffBefore_iff (show (lex openConstant).take 3 =
      (lex openConstant).take 1 ++ ((lex openConstant).drop 1).take 2 by decide +kernel)
      (show outcome'.2.rest = ((lex openConstant).drop 1).take 2 ++
        get' :: fn' :: (lex openConstant).drop 5 by decide +kernel)
    rw [hback]
    rintro ⟨-, -, -, -, ⟨hnil, -⟩ | ⟨k, -, -, hdepth, -⟩⟩
    · exact absurd hnil (by decide +kernel)
    · rw [show Zone.body.depth 0 ((lex openConstant).take 1) = some 0 by decide +kernel] at hdepth
      cases hdepth
  exact ⟨hlisted.mpr hcloses, fun hlisted' => hopen (hskipped.mp hlisted'), herror hopen⟩

end TolkAnalysis
