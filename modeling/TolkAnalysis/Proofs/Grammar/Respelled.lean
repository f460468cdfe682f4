import TolkAnalysis.Proofs.Grammar.ErrorLog
import TolkAnalysis.Proofs.Grammar.Nested
import TolkAnalysis.Proofs.Token.Backticks
import TolkAnalysis.Proofs.Tree.Copy
import TolkAnalysis.Proofs.Tree.Extends
import TolkAnalysis.Proofs.Tree.Transcription

/-!
# Trees of texts in which names are in backticks

No rule of the grammar asks for a name that `Text.IsPlainName` allows, so a text is read alike when
such names are written in backticks, and corresponding nodes cover the same lexemes
(`Text.Respelled.exists_cover`). A name is one lexeme, since a node of a kind that is one token stands
at that token (`exists_token_parse`). It is kept, or it is the same name in backticks, and what is
made up of several lexemes is no operator if a name is among them. So the one tree is the other one
written in another way (`Text.Respelled.transcribes_parse`).

`Text.Respelled` keeps the names that are taken as they stand. All other plain names may be written
in backticks (`Text.respelled_inBackticksAt`).
-/

namespace TolkAnalysis

open TolkAnalysis.Parser

/-! ### Nodes that are one token -/

theorem Arena.Stores.of_truncate {a : Arena} {length i : Nat} {kind : NodeKind} {span : Span}
    {children : List Child} (h : (a.truncate length).Stores i kind span children) :
    a.Stores i kind span children := by
  obtain ⟨parent, hnode⟩ := h
  rw [node?_truncate] at hnode
  split at hnode
  · obtain ⟨data, hdata, horphan⟩ := Option.map_eq_some_iff.mp hnode
    unfold orphan at horphan
    have hstores := Stores.of_node? hdata
    split at horphan
    · split at horphan <;> cases horphan <;> exact hstores
    · cases horphan
      exact hstores
  · cases hnode

/-- Reading goes on in a list of tokens, and a node of a kind that is one token stands at one of
them. -/
structure ParserState.Marks (tokens : List Token) (s : ParserState) : Prop where
  suffix : s.rest <:+ tokens
  nonempty : s.rest ≠ []
  single : ∀ {i kind span children}, s.arena.Stores i kind span children → kind.isToken = true →
    ∃ t ∈ tokens, span = t.span

namespace ParserState.Marks

variable {tokens ts : List Token} {e : Token} {s s' : ParserState}

theorem current_mem (h : s.Marks tokens) : s.current ∈ tokens := by
  obtain ⟨t, rest, hrest⟩ := List.exists_cons_of_ne_nil h.nonempty
  rw [Cursor.current_of_rest hrest]
  exact h.suffix.subset (hrest ▸ List.mem_cons_self)

theorem advance (h : s.Marks (ts ++ [e])) (he : e.kind = .endOfFile) :
    s.advance.Marks (ts ++ [e]) := by
  by_cases hend : s.current.kind = .endOfFile
  · have hsame : s.advance.rest = s.rest := congrArg Cursor.rest (Cursor.advance_eq_self hend)
    exact ⟨hsame ▸ h.suffix, hsame ▸ h.nonempty, h.single⟩
  · obtain ⟨rest, hrest, hadvance⟩ := Cursor.advance_eq hend
    have hafter : s.advance.rest = rest := congrArg Cursor.rest hadvance
    refine ⟨?_, ?_, h.single⟩
    · rw [hafter]
      exact (List.suffix_cons _ _).trans (hrest ▸ h.suffix)
    · -- The last token ends the file, so it is not the one that has been read.
      rw [hafter]
      rintro rfl
      obtain ⟨before, hbefore⟩ := h.suffix
      rw [hrest] at hbefore
      have hlast := (List.append_inj' hbefore rfl).2
      exact hend ((List.cons.inj hlast).1 ▸ he)

theorem push (h : s.Marks tokens) {kind : NodeKind} {span : Span} (children : List Child)
    (hspan : kind.isToken = true → ∃ t ∈ tokens, span = t.span) :
    ParserState.Marks tokens { s with arena := s.arena.push kind span children } := by
  refine ⟨h.suffix, h.nonempty, fun {i} _ _ _ hstores hkind => ?_⟩
  by_cases hi : i = s.arena.size
  · subst hi
    obtain ⟨rfl, rfl, -⟩ := hstores.eq (Arena.stores_push_last kind span children)
    exact hspan hkind
  · exact h.single (Arena.stores_of_push hstores hi) hkind

/-- Going back to a place where the parser has been before. -/
theorem rewind (h : s.Marks tokens) (h' : s'.Marks tokens) :
    (s'.rewind s.checkpoint).Marks tokens :=
  ⟨h.suffix, h.nonempty, fun hstores => h'.single hstores.of_truncate⟩

end ParserState.Marks

namespace Parser

variable {α β : Type} {tokens ts : List Token} {e : Token}

/-- A parser only pushes a node of a kind that is one token when it reads that token. -/
def Marking (tokens : List Token) (p : Parser α) : Prop :=
  ∀ s : ParserState, s.Marks tokens → (p s).2.Marks tokens

namespace Marking

theorem pure (a : α) : Marking tokens (Pure.pure a : Parser α) := fun _ h => h

theorem bind {p : Parser α} {f : α → Parser β} (hp : Marking tokens p)
    (hf : ∀ a, Marking tokens (f a)) : Marking tokens (p >>= f) := by
  intro s hs
  have hrun := hp s hs
  rw [run_bind]
  generalize p s = r at hrun ⊢
  obtain ⟨error | a, s₁⟩ := r
  · exact hrun
  · exact hf a s₁ hrun

theorem advance (he : e.kind = .endOfFile) :
    Marking (ts ++ [e]) (modify (·.advance) : Parser PUnit) := fun _ h => h.advance he

theorem push {kind : NodeKind} (hkind : kind.isToken = false) (span : Span)
    (children : List Child) : Marking tokens (Parser.push kind span children) :=
  fun _ h => h.push children fun htoken => by
    rw [hkind] at htoken
    cases htoken

theorem leaf (he : e.kind = .endOfFile) (kind : NodeKind) :
    Marking (ts ++ [e]) (Parser.leaf kind) :=
  fun s h => (h.advance he).push [] fun _ => ⟨s.current, h.current_mem, rfl⟩

theorem attempt {p : Parser α} (hp : Marking tokens p) (accept : Cursor → Bool) :
    Marking tokens (Parser.attempt p accept) := by
  intro s hs
  have hrun := hp s hs
  unfold Parser.attempt
  generalize p s = r at hrun ⊢
  obtain ⟨error | a, s₁⟩ := r
  · exact hs.rewind hrun
  · dsimp only
    split
    · exact hrun
    · exact hs.rewind hrun

theorem skipTo (he : e.kind = .endOfFile) (stop : TokenKind → Bool) (bound depth : Nat)
    (consumed : Bool) : Marking (ts ++ [e]) (Parser.skipTo stop bound depth consumed) := by
  induction bound generalizing depth consumed with
  | zero => exact .pure _
  | succ bound ih =>
    refine .bind (fun _ h => h) fun c => ?_
    dsimp only
    split
    · exact .pure _
    · exact .bind (.advance he) fun _ => ih _ _

theorem recover (he : e.kind = .endOfFile) (bound : Nat) (error : ParseError)
    (earlier : Checkpoint) (stop : TokenKind → Bool) :
    Marking (ts ++ [e]) (Parser.recover bound error earlier stop) := by
  refine .bind (fun s h => ?_) fun _ => .bind (fun _ h => h) fun _ =>
    .bind (.skipTo he _ _ _ _) fun consumed => .bind ?_ fun _ =>
      .bind (fun _ h => h) fun _ => .push rfl _ _
  · exact ⟨h.suffix, h.nonempty, fun hstores => h.single hstores.of_truncate⟩
  · unfold readUnless
    split
    · exact .pure _
    · exact .advance he

end Marking

theorem Composed.marking {p : Parser α} (hp : Composed p) (he : e.kind = .endOfFile) :
    Marking (ts ++ [e]) p := by
  induction hp with
  | pure a => exact .pure a
  | bind _ _ ihp ihf => exact ihp.bind ihf
  | get => exact fun _ h => h
  | advance => exact .advance he
  | fail expected => exact fun _ h => h
  | leaf => exact .leaf he _
  | push hkind span children => exact .push (NodeKind.isToken_of_isPushed hkind) span children
  | attempt _ accept ih => exact ih.attempt accept
  | @recovered p f bound stop _ _ ihp ihf =>
    intro s hs
    have hrun := ihp s hs
    rw [run_get_bind, run_tryCatch]
    generalize p s = r at hrun ⊢
    obtain ⟨error | a, s₁⟩ := r
    · exact Marking.bind (.recover he bound error s.checkpoint stop) ihf s₁ hrun
    · exact hrun

end Parser

theorem Grammar.marks_readFile (source : String) :
    (readFile (lex source)).2.Marks (lex source) := by
  obtain ⟨ts, stop, hlex, -, -⟩ := exists_lex source
  have hmarking : Marking (ts ++ [Token.endOfFile stop]) (fileItems ((lex source).length + 1)
      (parser ((lex source).length + 1))) :=
    (composed_fileItems ((lex source).length + 1)).marking rfl
  have hrun := hmarking (initialState (lex source))
  rw [← hlex] at hrun
  have hmarks := hrun
    { suffix := List.suffix_refl _
      nonempty := by rw [hlex]; exact List.append_ne_nil_of_right_ne_nil _ (List.cons_ne_nil _ _)
      single := fun hstores => absurd hstores.lt (Nat.not_lt_zero _) }
  unfold readFile
  dsimp only
  split <;> rename_i heq <;> rw [heq] at hmarks
  · exact hmarks
  · exact ⟨hmarks.suffix, hmarks.nonempty, hmarks.single⟩

/-- A node of a kind that is one token stands at a token. -/
theorem exists_token_parse {file : FileId} {stamp : Nat} {source : String} {n : Node}
    (hn : n.tree = (parse file stamp source).tree) (hkind : n.kind.isToken = true) :
    ∃ t ∈ lex source, n.span = t.span := by
  let children := (Grammar.readFile (lex source)).1
  have hroot : NodeKind.sourceFile.isToken = true →
      ∃ t ∈ lex source, Span.ofRange 0 source.utf8ByteSize = t.span := nofun
  have hmarks := (Grammar.marks_readFile source).push children hroot
  have hstores : n.tree.arena.Stores n.id n.kind n.span n.data.children :=
    .of_node? n.node?_id
  rw [hn] at hstores
  exact hmarks.single hstores hkind

/-! ### Names in backticks -/

/-- No digit begins a name. -/
theorem Scan.isDigit_eq_false {c : Char} (h : isWordStart c = true) : c.isDigit = false := by
  refine Bool.eq_false_iff.mpr fun hdigit => ?_
  obtain ⟨hzero, hnine⟩ := Bool.and_eq_true_iff.mp hdigit
  have hnine : c.toNat ≤ '9'.toNat := of_decide_eq_true hnine
  simp only [isWordStart, Bool.or_eq_true, decide_eq_true_eq] at h
  obtain (hletter | rfl) | rfl := h
  · obtain hupper | hlower := Bool.or_eq_true_iff.mp hletter
    · have hfirst : 'A'.toNat ≤ c.toNat := (of_decide_eq_true hupper).1
      exact absurd (hfirst.trans hnine) (by decide)
    · have hfirst : 'a'.toNat ≤ c.toNat := of_decide_eq_true (Bool.and_eq_true_iff.mp hlower).1
      exact absurd (hfirst.trans hnine) (by decide)
  · exact absurd hnine (by decide)
  · exact absurd (of_decide_eq_true hzero) (by decide)

namespace Text

/-- A name that may be written in backticks as well: it is written without them, and it is none of
the words that are told from other names by how they are written. -/
structure IsPlainName (x : String) : Prop extends IsWord x where
  kind : Scan.wordKind x = .ident
  self : x ≠ "self"
  sized : sizedTypeFamily? x = none
  word : x ∉ Token.words

instance (x : String) : Decidable (IsPlainName x) :=
  decidable_of_iff (x.toList.head?.any Scan.isWordStart = true ∧
      x.toList.all Scan.isWordPart = true ∧ Scan.wordKind x = .ident ∧ x ≠ "self" ∧
      sizedTypeFamily? x = none ∧ x ∉ Token.words)
    ⟨fun ⟨start, parts, kind, self, sized, word⟩ => ⟨⟨start, parts⟩, kind, self, sized, word⟩,
      fun h => ⟨h.start, h.parts, h.kind, h.self, h.sized, h.word⟩⟩

/-- The second name is the first one in backticks. -/
def Backticks (x y : String) : Prop := IsPlainName x ∧ y = inBackticks x

instance (x y : String) : Decidable (Backticks x y) :=
  inferInstanceAs (Decidable (_ ∧ _))

theorem dropLeading?_of_head?_ne {lead s : String} (hlead : lead.toList ≠ [])
    (h : lead.toList.head? ≠ s.toList.head?) : dropLeading? lead s = none := by
  unfold dropLeading?
  cases hs : lead.toList.isPrefixOf? s.toList with
  | none => rfl
  | some rest =>
    have hsplit := List.isPrefixOf?_eq_some_iff_append_eq.mp hs
    obtain ⟨c, cs, hcs⟩ := List.exists_cons_of_ne_nil hlead
    rw [← hsplit, hcs] at h
    exact absurd rfl h

theorem dropLeading?_inBackticks {lead x : String} (hlead : lead.toList ≠ [])
    (h : lead.toList.head? ≠ some '\x60') : dropLeading? lead (inBackticks x) = none :=
  dropLeading?_of_head?_ne hlead (by rwa [toList_inBackticks])

namespace IsPlainName

variable {x : String}

/-- It begins in another way than a name in backticks. -/
theorem head?_ne (h : IsPlainName x) : x.toList.head? ≠ some '\x60' := by
  obtain ⟨c, cs, hx, hc⟩ := h.exists_cons
  rw [hx, List.head?_cons, Ne, Option.some.injEq]
  rintro rfl
  exact absurd hc (by decide)

theorem withoutBackticks_eq (h : IsPlainName x) : withoutBackticks x = x := by
  have hlead : dropLeading? "\x60" x = none := dropLeading?_of_head?_ne (by decide) h.head?_ne.symm
  rw [withoutBackticks, enclosed, hlead]
  rfl

theorem withoutBackticks_inBackticks (x : String) : withoutBackticks (inBackticks x) = x := by
  have hlead : dropLeading? "\x60" (inBackticks x) = some (String.ofList (x.toList ++ ['\x60'])) :=
    congrArg (Option.map String.ofList) (List.isPrefixOf?_eq_some_iff_append_eq.mpr
      (toList_inBackticks x).symm)
  have htrail : dropTrailing? "\x60" (String.ofList (x.toList ++ ['\x60'])) = some x := by
    refine (congrArg (Option.map String.ofList) (List.isSuffixOf?_eq_some_iff_append_eq.mpr
      (String.toList_ofList (l := x.toList ++ ['\x60'])).symm)).trans ?_
    rw [Option.map_some, String.ofList_toList]
  rw [withoutBackticks, enclosed, hlead, Option.bind_some, htrail]
  rfl

theorem sizedTypeFamily?_inBackticks (x : String) : sizedTypeFamily? (inBackticks x) = none := by
  have hother : ∀ family ∈ sizedTypeFamilies, family.1.toList ≠ [] ∧
      family.1.toList.head? ≠ some '\x60' := by decide
  refine List.findSome?_eq_none_iff.mpr fun ⟨lead, family⟩ hfamily => ?_
  obtain ⟨hne, hhead⟩ := hother _ hfamily
  dsimp only at hne hhead ⊢
  rw [dropLeading?_inBackticks hne hhead]

theorem ofName?_inBackticks (x : String) : Ty.ofName? (inBackticks x) = none := by
  have hhead {name : String} (h : inBackticks x = name) : name.toList.head? = some '\x60' := by
    rw [← h, toList_inBackticks]
    rfl
  unfold Ty.ofName?
  split
  iterate 6 exact absurd (hhead ‹_›) (by decide)
  have hother : ∀ lead ∈ Ty.sizedFamilies.map (·.1), lead.toList ≠ [] ∧
      lead.toList.head? ≠ some '\x60' := by decide
  rw [Ty.sizedOfName?, List.findSome?_eq_none_iff.mpr, Option.join_none]
  rintro ⟨lead, make⟩ hfamily
  obtain ⟨hne, hlead⟩ := hother lead (List.mem_map_of_mem hfamily)
  dsimp only
  rw [dropLeading?_inBackticks hne hlead, Option.map_none]

theorem elementIndex?_eq_none {x : String} {c : Char} {cs : List Char} (hx : x.toList = c :: cs)
    (hc : c.isDigit = false) : Inference.elementIndex? x = none := by
  unfold Inference.elementIndex?
  dsimp only
  rw [hx, if_neg (by simp [hc])]

/-- No rule tells the name apart when it is written in backticks. -/
theorem sameName (h : IsPlainName x) : SameName x (inBackticks x) := by
  obtain ⟨c, cs, hx, hc⟩ := h.exists_cons
  have hquoted := toList_inBackticks x
  have hne {name : String} (hname : name.toList.head? ≠ some '\x60') :
      (inBackticks x == name) = false := by
    rw [beq_eq_false_iff_ne]
    rintro rfl
    rw [hquoted] at hname
    exact hname rfl
  have hblank : (x == "") = false := by
    rw [beq_eq_false_iff_ne]
    rintro rfl
    cases hx
  have hunderscore : (x == "_") = false := by
    rw [beq_eq_false_iff_ne]
    rintro rfl
    exact absurd h.kind (by decide)
  have hdigit : c.isDigit = false := Scan.isDigit_eq_false hc
  exact
    { name := by rw [withoutBackticks_inBackticks, h.withoutBackticks_eq]
      self := by rw [hne (by decide), beq_eq_false_iff_ne.mpr h.self]
      blank := by
        rw [hne (by decide), hne (by decide), hblank, hunderscore]
      sized := by rw [sizedTypeFamily?_inBackticks, h.sized]
      primitive := fun _ => ofName?_inBackticks x
      index := by
        rw [elementIndex?_eq_none hquoted (by decide), elementIndex?_eq_none hx hdigit] }

end IsPlainName

theorem Backticks.sameWord {x y word : String} (h : Backticks x y) (hword : word ∈ Token.words) :
    (y == word) = (x == word) := by
  obtain ⟨hx, rfl⟩ := h
  have hother : ∀ word ∈ Token.words, word.toList.head? ≠ some '\x60' := by decide
  have hquoted : inBackticks x ≠ word := by
    rintro rfl
    exact hother _ hword (by rw [toList_inBackticks]; rfl)
  have hplain : x ≠ word := by
    rintro rfl
    exact hx.word hword
  rw [beq_eq_false_iff_ne.mpr hquoted, beq_eq_false_iff_ne.mpr hplain]

/-- No operator is written with the beginning of a name or with a backtick. -/
theorem not_mem_operators {cs : List Char} {c : Char} (hc : c ∈ cs)
    (hname : Scan.isWordStart c = true ∨ c = '\x60') : String.ofList cs ∉ operators := by
  have hall : ∀ op ∈ operators,
      op.toList.all (fun c => !Scan.isWordStart c && c ≠ '\x60') = true := by decide
  intro hmem
  have hother := List.all_eq_true.mp (hall _ hmem) c (by rwa [String.toList_ofList])
  obtain hname | rfl := hname
  · rw [hname] at hother
    cases hother
  · cases hother

theorem Backticks.exists_mem {x y : String} (h : Backticks x y) :
    (∃ c ∈ x.toList, Scan.isWordStart c = true ∨ c = '\x60') ∧
      ∃ c ∈ y.toList, Scan.isWordStart c = true ∨ c = '\x60' := by
  obtain ⟨hx, rfl⟩ := h
  obtain ⟨c, cs, hcons, hc⟩ := hx.exists_cons
  refine ⟨⟨c, ?_, .inl hc⟩, '\x60', ?_, .inr rfl⟩
  · rw [hcons]
    exact List.mem_cons_self
  · rw [toList_inBackticks]
    exact List.mem_cons_self

theorem sameOperator_of_not_mem {x y : String} (hx : x ∉ operators) (hy : y ∉ operators) :
    SameOperator x y := by
  intro op hop
  have hxop : x ≠ op := fun h => hx (h ▸ hop)
  have hyop : y ≠ op := fun h => hy (h ▸ hop)
  rw [beq_eq_false_iff_ne.mpr hyop, beq_eq_false_iff_ne.mpr hxop]

/-- The second text is the first one with some names in backticks. Names that are taken as they
stand are not among them. -/
structure Respelled (source source' : String) : Prop where
  size : source.utf8ByteSize < 2 ^ 32
  size' : source'.utf8ByteSize < 2 ^ 32
  lexemes : List.Forall₂ (Lexeme.Respells Backticks) (lexemes source) (lexemes source')
  verbatim : ∀ n ∈ (parse 0 0 source).tree.verbatim, ∀ k < (TolkAnalysis.lexemes source).length,
    n.span.start = Lexeme.offset (TolkAnalysis.lexemes source) k →
      (TolkAnalysis.lexemes source')[k]? = (TolkAnalysis.lexemes source)[k]?

instance (source source' : String) : Decidable (Respelled source source') :=
  decidable_of_iff (source.utf8ByteSize < 2 ^ 32 ∧ source'.utf8ByteSize < 2 ^ 32 ∧
      List.Forall₂ (Lexeme.Respells Backticks) (lexemes source) (lexemes source') ∧
      ∀ n ∈ (parse 0 0 source).tree.verbatim, ∀ k < (lexemes source).length,
        n.span.start = Lexeme.offset (lexemes source) k →
          (lexemes source')[k]? = (lexemes source)[k]?)
    ⟨fun ⟨size, size', lexemes, verbatim⟩ => ⟨size, size', lexemes, verbatim⟩,
      fun h => ⟨h.size, h.size', h.lexemes, h.verbatim⟩⟩

/-- Any names may be written in backticks but those that are taken as they stand. -/
theorem respelled_inBackticksAt {source : String} {places : List Nat}
    (hsize : source.utf8ByteSize < 2 ^ 32)
    (hsize' : (inBackticksAt source places).utf8ByteSize < 2 ^ 32)
    (hnames : ∀ k ∈ places, ∀ l ∈ (lexemes source)[k]?, l.kind = .token .ident ∧ IsPlainName l.text)
    (hverbatim : ∀ n ∈ (parse 0 0 source).tree.verbatim, ∀ k ∈ places,
      n.span.start ≠ Lexeme.offset (lexemes source) k) :
    Respelled source (inBackticksAt source places) := by
  have hlexemes := lexemes_inBackticksAt fun k hk l hl =>
    (hnames k hk l hl).imp_right IsPlainName.toIsWord
  refine ⟨hsize, hsize', ?_, fun n hn k hk hstart => ?_⟩
  · rw [hlexemes]
    refine List.forall₂_iff_get.mpr ⟨List.length_mapIdx.symm, fun k hk hk' => ?_⟩
    rw [List.get_eq_getElem, List.get_eq_getElem, List.getElem_mapIdx]
    split
    · obtain ⟨hkind, hplain⟩ := hnames k ‹_› _ (List.getElem?_eq_getElem hk)
      exact .inr ⟨hkind, hkind, hplain, rfl⟩
    · exact .inl rfl
  · rw [hlexemes, List.getElem?_mapIdx, List.getElem?_eq_getElem hk, Option.map_some,
      if_neg fun hmem => hverbatim n hn k hmem hstart]

end Text

namespace Node

variable {t' : Tree} {n : Node}

theorem receiver?_onto (h : n.tree.Copy t') :
    (n.onto t').receiver? = n.receiver?.map (onto t') := by
  rw [receiver?, child?_onto h, receiver?]
  cases hlist : n.child? .receiver with
  | none => rfl
  | some list => exact child?_onto ((tree_of_child? hlist).symm ▸ h) .receiverType

theorem receiverName?_onto (h : n.tree.Copy t') :
    (n.onto t').receiverName? = n.receiverName?.map (onto t') := by
  fun_induction receiverName? n with
  | case1 n hkind =>
    rw [receiverName?, kind_onto h, hkind]
    rfl
  | case2 n hkind =>
    rw [receiverName?, kind_onto h, hkind]
    exact child?_onto h .name
  | case3 n hkind inner hinner ih =>
    rw [receiverName?_of_nullableType ((kind_onto h).trans hkind), child?_onto h, hinner]
    exact ih ((tree_of_child? hinner).symm ▸ h)
  | case4 n hkind hnone =>
    rw [receiverName?_of_nullableType ((kind_onto h).trans hkind), child?_onto h, hnone]
    rfl
  | case5 n hname hinstance hnullable =>
    rw [receiverName?, kind_onto h]
    split
    · exact absurd ‹_› hname
    · exact absurd ‹_› hinstance
    · exact absurd ‹_› hnullable
    · rfl

theorem verbatim_onto (h : n.tree.Copy t') :
    (n.onto t').verbatim = n.verbatim.map (onto t') := by
  have hreceiver : (n.onto t').receiver?.bind receiverName? =
      (n.receiver?.bind receiverName?).map (onto t') := by
    rw [receiver?_onto h]
    cases hr : n.receiver? with
    | none => rfl
    | some receiver => exact receiverName?_onto ((tree_of_receiver? hr).symm ▸ h)
  have hprimitive : (n.onto t').isPrimitiveName = n.isPrimitiveName := by
    rw [isPrimitiveName, kind_onto h, text_onto h, isPrimitiveName]
  rw [verbatim, hreceiver, child?_onto h, hprimitive, verbatim, List.map_append, List.map_append,
    Option.toList_map, Option.toList_map]
  split <;> rfl

end Node

theorem Tree.verbatim_of_copy {t t' : Tree} (h : t.Copy t') :
    t'.verbatim = t.verbatim.map (Node.onto t') := by
  have hnodes : t'.nodes = t.nodes.map (Node.onto t') := by
    rw [nodes, nodes, List.map_filterMap, size, h.arena]
    refine List.filterMap_congr fun i hi => ?_
    have hi := List.mem_range.mp hi
    rw [node?, node?, dif_pos hi, dif_pos (h.arena ▸ hi), Option.map_some,
      Node.onto_eq (n := ⟨t, i, hi⟩) h]
  rw [verbatim, hnodes, List.flatMap_map, verbatim, List.map_flatMap]
  exact List.flatMap_congr fun n hn => Node.verbatim_onto ((tree_of_mem_nodes hn).symm ▸ h)

/-! ### Trees -/

theorem NodeKind.isWord_of_holds {kind child : NodeKind}
    (h : kind.holds (some .name) child = true ∨ kind.holds (some .field) child = true) :
    child.isWord = true := by
  have hall : ∀ kind ∈ all, ∀ p ∈ kind.parts, p.slot = some .name ∨ p.slot = some .field →
      ∀ child ∈ all, p.kinds child = true → child.isWord = true := by
    decide +kernel
  obtain h | h := h <;> obtain ⟨p, hp, hslot, hchild⟩ := exists_part_of_holds h
  · exact hall kind kind.mem_all p hp (.inl hslot) child child.mem_all hchild
  · exact hall kind kind.mem_all p hp (.inr hslot) child child.mem_all hchild

theorem NodeKind.isToken_of_holds_path {kind child : NodeKind}
    (h : kind.holds (some .path) child = true) : child.isToken = true := by
  have hall : ∀ kind ∈ all, ∀ p ∈ kind.parts, p.slot = some .path →
      ∀ child ∈ all, p.kinds child = true → child.isToken = true := by
    decide +kernel
  obtain ⟨p, hp, hslot, hchild⟩ := exists_part_of_holds h
  exact hall kind kind.mem_all p hp hslot child child.mem_all hchild

theorem NodeKind.isToken_of_isWord {kind : NodeKind} (h : kind.isWord = true) :
    kind.isToken = true := by
  cases kind <;> first | rfl | cases h

namespace Tree.Shaped

variable {t : Tree} {n : Node}

/-- A name is one word. -/
theorem isWord_of_named (h : t.Shaped) (hn : n.tree = t) (hnamed : n.Named) :
    n.kind.isWord = true := by
  obtain hword | ⟨p, hp⟩ := hnamed
  · exact hword
  · have hholds {slot : Field} (hslot : p.child? slot = some n) :
        p.kind.holds (some slot) n.kind = true :=
      h.holds_of_mem_slots ((Node.tree_of_child? hslot).symm.trans hn)
        (Node.mem_slots_of_child? hslot)
    exact NodeKind.isWord_of_holds (hp.imp hholds hholds)

theorem isToken_of_receiverName? {receiver : Node} (h : t.Shaped) (hreceiver : receiver.tree = t)
    (hn : receiver.receiverName? = some n) : n.kind.isToken = true := by
  fun_induction Node.receiverName? receiver with
  | case1 receiver hkind =>
    rw [← Option.some.inj hn, hkind]
    rfl
  | case2 receiver hkind =>
    exact NodeKind.isToken_of_isWord (h.isWord_of_named ((Node.tree_of_child? hn).trans hreceiver)
      (.inr ⟨receiver, .inl hn⟩))
  | case3 receiver hkind inner hinner ih =>
    exact ih ((Node.tree_of_child? hinner).trans hreceiver) hn
  | case4 => cases hn
  | case5 => cases hn

/-- What is taken as it stands is one token. -/
theorem isToken_of_mem_verbatim (h : t.Shaped) (hn : n ∈ t.verbatim) :
    n.kind.isToken = true := by
  obtain ⟨m, hm, hn⟩ := List.mem_flatMap.mp hn
  have hm := tree_of_mem_nodes hm
  obtain hn | hn := List.mem_append.mp hn
  · obtain hn | hn := List.mem_append.mp hn
    · obtain ⟨receiver, hreceiver, hname⟩ := Option.bind_eq_some_iff.mp (Option.mem_toList.mp hn)
      exact h.isToken_of_receiverName? ((Node.tree_of_receiver? hreceiver).trans hm) hname
    · exact NodeKind.isToken_of_holds_path
        (h.holds_of_mem_slots hm (Node.mem_slots_of_child? (Option.mem_toList.mp hn)))
  · split at hn
    · rename_i hprimitive
      rw [List.mem_singleton.mp hn]
      rw [Node.isPrimitiveName, Bool.and_eq_true, beq_iff_eq] at hprimitive
      rw [hprimitive.1]
      rfl
    · cases hn

end Tree.Shaped

namespace Text.Respelled

variable {source source' : String} {file : FileId} {stamp : Nat} {n n' : Node}

/-- The trees have the same nodes, which cover the lexemes at the same positions. -/
theorem matches_parse (h : Respelled source source') (file : FileId) (stamp : Nat) :
    Tree.Matches (Lexeme.SameRange (TolkAnalysis.lexemes source) (TolkAnalysis.lexemes source'))
      (parse file stamp source).tree (parse file stamp source').tree := by
  have hsize := Nat.le_of_lt_succ h.size
  have hsize' := Nat.le_of_lt_succ h.size'
  obtain ⟨ts, stop, hlex, hkinds, hordered⟩ := exists_lex source
  obtain ⟨ts', stop', hlex', hkinds', hordered'⟩ := exists_lex source'
  have hcompares : Pairing.Compares ts ts' (Token.endOfFile stop) (Token.endOfFile stop')
      (Lexeme.SameRange (TolkAnalysis.lexemes source) (TolkAnalysis.lexemes source'))
      fun _ _ => True :=
    (Pairing.compares_of_ordered hordered hordered' fun _ _ _ => trivial).mono
      (Lexeme.sameRange_of_tokens hsize hsize' h.lexemes hlex hlex' hkinds hkinds')
  have halike := Lexeme.readAlike_of_respells hsize hsize' h.lexemes
    fun x y hxy word hword => hxy.sameWord hword
  rw [hlex, hlex'] at halike
  obtain ⟨hitems, harena, -⟩ := Grammar.readFile_readAlike halike rfl hkinds hcompares
  rw [← hlex, ← hlex'] at hitems harena
  have harena' := arena_parse file stamp source'
  rw [hitems] at harena'
  exact Tree.matches_of_push (arena_parse _ _ _) (root_parse _ _ _) harena' (root_parse _ _ _) harena

theorem text_eq {i j : Nat} (hn : n.tree = (parse file stamp source).tree) (hij : i ≤ j)
    (hspan : n.span = ⟨Lexeme.offset (TolkAnalysis.lexemes source) i,
      Lexeme.offset (TolkAnalysis.lexemes source) j⟩) :
    n.text = String.ofList
      (Lexeme.concat (((TolkAnalysis.lexemes source).take j).drop i)) := by
  have hslice : IsSlice (String.ofList (Lexeme.concat (TolkAnalysis.lexemes source))) _ _ _ :=
    Lexeme.isSlice_offset hij
  have hsource : String.ofList (Lexeme.concat (TolkAnalysis.lexemes source)) = source :=
    (congrArg String.ofList (Lexeme.concat_cut source.toList)).trans String.ofList_toList
  rw [hsource] at hslice
  rw [Node.text, hn, hspan]
  exact hslice.slice_eq

/-- Corresponding nodes below the roots cover the same lexemes. -/
theorem exists_range (h : Respelled source source') (hn : n.tree = (parse file stamp source).tree)
    (hn' : n'.tree = (parse file stamp source').tree) (hid : n'.id = n.id)
    (hroot : n.id ≠ (parse file stamp source).tree.root) :
    ∃ i j, i < j ∧ j ≤ (TolkAnalysis.lexemes source).length ∧
      n.span = ⟨Lexeme.offset (TolkAnalysis.lexemes source) i,
        Lexeme.offset (TolkAnalysis.lexemes source) j⟩ ∧
      n'.span = ⟨Lexeme.offset (TolkAnalysis.lexemes source') i,
        Lexeme.offset (TolkAnalysis.lexemes source') j⟩ := by
  obtain ⟨m, hm, hmid, -, -, -, hspan⟩ := (h.matches_parse file stamp).exists_node hn
  obtain rfl : m = n' := Node.eq_of_id_eq (hm.trans hn'.symm) (hmid.trans hid.symm)
  exact hspan hroot

/-- Corresponding nodes cover the same lexemes. Only the roots may cover none. -/
theorem exists_cover (h : Respelled source source') (hn : n.tree = (parse file stamp source).tree)
    (hn' : n'.tree = (parse file stamp source').tree) (hid : n'.id = n.id) :
    ∃ i j, i ≤ j ∧ j ≤ (TolkAnalysis.lexemes source).length ∧
      n.span = ⟨Lexeme.offset (TolkAnalysis.lexemes source) i,
        Lexeme.offset (TolkAnalysis.lexemes source) j⟩ ∧
      n'.span = ⟨Lexeme.offset (TolkAnalysis.lexemes source') i,
        Lexeme.offset (TolkAnalysis.lexemes source') j⟩ := by
  by_cases hroot : n.id = (parse file stamp source).tree.root
  · obtain rfl : n = (parse file stamp source).tree.rootNode := Node.eq_of_id_eq hn hroot
    obtain rfl : n' = (parse file stamp source').tree.rootNode :=
      Node.eq_of_id_eq hn' (hid.trans (h.matches_parse file stamp).root_eq.symm)
    have hwhole (source : String) (hsize : source.utf8ByteSize < 2 ^ 32) :
        Span.ofRange 0 source.utf8ByteSize = ⟨Lexeme.offset (TolkAnalysis.lexemes source) 0,
          Lexeme.offset (TolkAnalysis.lexemes source) (TolkAnalysis.lexemes source).length⟩ := by
      have hlast := Lexeme.offset_length source.toList
      rw [String.ofList_toList] at hlast
      refine congrArg (Span.mk 0) ((Nat.min_eq_left (Nat.le_of_lt_succ hsize)).trans hlast.symm)
    refine ⟨0, _, Nat.zero_le _, le_rfl, ?_, ?_⟩
    · rw [span_rootNode_parse, hwhole source h.size]
    · rw [span_rootNode_parse, hwhole source' h.size', h.lexemes.length_eq]
  · obtain ⟨i, j, hij, hrest⟩ := h.exists_range hn hn' hid hroot
    exact ⟨i, j, hij.le, hrest⟩

/-- Lexemes cover nothing only if there are none. -/
theorem isEmpty_range {i j : Nat} (hij : i ≤ j) (hj : j ≤ (TolkAnalysis.lexemes source).length) :
    Span.isEmpty ⟨Lexeme.offset (TolkAnalysis.lexemes source) i,
      Lexeme.offset (TolkAnalysis.lexemes source) j⟩ = decide (i = j) := by
  refine decide_eq_decide.mpr ⟨fun hle => ?_, fun heq => heq ▸ le_rfl⟩
  exact Lexeme.offset_inj (hij.trans hj) hj (le_antisymm (Lexeme.offset_le hij hj) hle)

/-- Corresponding nodes that are one token stand at the same lexeme. -/
theorem exists_lexeme (h : Respelled source source') (hn : n.tree = (parse file stamp source).tree)
    (hn' : n'.tree = (parse file stamp source').tree) (hid : n'.id = n.id)
    (hkind : n.kind.isToken = true) :
    ∃ k l l', (TolkAnalysis.lexemes source)[k]? = some l ∧
      (TolkAnalysis.lexemes source')[k]? = some l' ∧ n.text = l.text ∧ n'.text = l'.text ∧
      n.span = ⟨Lexeme.offset (TolkAnalysis.lexemes source) k,
        Lexeme.offset (TolkAnalysis.lexemes source) (k + 1)⟩ ∧
      n'.span = ⟨Lexeme.offset (TolkAnalysis.lexemes source') k,
        Lexeme.offset (TolkAnalysis.lexemes source') (k + 1)⟩ := by
  have hroot : n.id ≠ (parse file stamp source).tree.root := by
    intro heq
    obtain rfl : n = (parse file stamp source).tree.rootNode := Node.eq_of_id_eq hn heq
    rw [(shaped_parse file stamp source).kind_rootNode] at hkind
    cases hkind
  obtain ⟨i, j, hij, hj, hspan, hspan'⟩ := h.exists_range hn hn' hid hroot
  obtain ⟨t, ht, hat⟩ := exists_token_parse hn hkind
  rw [hspan] at hat
  have hend : t.kind ≠ .endOfFile := by
    obtain ⟨ts, stop, hlex, hkinds, -⟩ := exists_lex source
    rw [hlex] at ht
    rcases List.mem_append.mp ht with ht | ht
    · exact hkinds t ht
    · -- The end of the file covers nothing, but a lexeme does.
      rw [List.mem_singleton.mp ht] at hat
      have hsame := (congrArg Span.start hat).trans (congrArg Span.stop hat).symm
      exact absurd hsame (Lexeme.offset_lt hij hj).ne
  obtain ⟨k, hk, hplace⟩ := Lexeme.exists_of_mem_lex (Nat.le_of_lt_succ h.size) ht hend
  have hlt := (List.getElem?_eq_some_iff.mp hk).1
  rw [hplace] at hat
  obtain rfl : i = k := Lexeme.offset_inj (hij.le.trans hj) hlt.le (congrArg Span.start hat)
  obtain rfl : j = i + 1 := Lexeme.offset_inj hj hlt (congrArg Span.stop hat)
  have hlt' : i < (TolkAnalysis.lexemes source').length := h.lexemes.length_eq ▸ hlt
  have hsingle {ls : List Lexeme} (hi : i < ls.length) :
      String.ofList (Lexeme.concat ((ls.take (i + 1)).drop i)) = ls[i].text := by
    rw [List.take_succ_eq_append_getElem hi, List.drop_left' (List.length_take_of_le hi.le),
      Lexeme.concat, List.flatMap_singleton, String.ofList_toList]
  refine ⟨i, _, _, List.getElem?_eq_getElem hlt, List.getElem?_eq_getElem hlt', ?_, ?_, hspan,
    hspan'⟩
  · rw [text_eq hn hij.le hspan, hsingle hlt]
  · rw [text_eq hn' hij.le hspan', hsingle hlt']

/-- The trees are written in another way. -/
theorem transcribes_parse (h : Respelled source source') (file : FileId) (stamp : Nat) :
    (parse file stamp source).tree.Transcribes (parse file stamp source').tree := by
  have hmatches := h.matches_parse file stamp
  have hshaped := shaped_parse file stamp source
  refine
    { root_eq := hmatches.root_eq
      size_eq := hmatches.size_eq
      node := fun i data hi => ?_
      file := rfl
      stamp := rfl
      isEmpty_eq := fun n n' hn hn' hid => ?_
      named := fun n n' hn hn' hid hnamed => ?_
      operator := fun n n' hn hn' hid hop => ?_
      verbatim := fun n n' hn hn' hid hv => ?_ }
  · obtain ⟨data', hi', hkind, hparent, hchildren, -⟩ := hmatches.node i data hi
    exact ⟨data', hi', hkind, hparent, hchildren, fun _ => trivial⟩
  · obtain ⟨i, j, hij, hj, hspan, hspan'⟩ := h.exists_cover hn hn' hid
    rw [hspan, hspan', isEmpty_range hij hj, isEmpty_range hij (hj.trans_eq h.lexemes.length_eq)]
  · obtain ⟨k, l, l', hl, hl', htext, htext', -⟩ := h.exists_lexeme hn hn' hid
      (NodeKind.isToken_of_isWord (hshaped.isWord_of_named hn hnamed))
    rw [htext, htext']
    obtain ⟨hnone, -⟩ | ⟨m, m', hm, hm', hrespells⟩ := Lexeme.getElem?_cases h.lexemes k
    · rw [hl] at hnone
      cases hnone
    · obtain rfl := Option.some.inj (hl.symm.trans hm)
      obtain rfl := Option.some.inj (hl'.symm.trans hm')
      obtain rfl | ⟨-, -, hplain, hquoted⟩ := hrespells
      · exact .refl _
      · rw [hquoted]
        exact hplain.sameName
  · obtain ⟨p, hp⟩ := hop
    have hroot : n.id ≠ (parse file stamp source).tree.root :=
      hmatches.ne_root (shaped_parse file stamp source').last ((Node.tree_of_child? hp).symm.trans hn)
        (Node.mem_children_of_mem_slots (Node.mem_slots_of_child? hp))
    obtain ⟨i, j, hij, hj, hspan, hspan'⟩ := h.exists_range hn hn' hid hroot
    rw [text_eq hn hij.le hspan, text_eq hn' hij.le hspan']
    have hcovered := List.forall₂_drop i (List.forall₂_take j h.lexemes)
    obtain heq | ⟨⟨c, hc, hname⟩, c', hc', hname'⟩ :=
      Lexeme.concat_cases (fun _ _ hxy => hxy.exists_mem) hcovered
    · rw [heq]
      exact fun _ _ => rfl
    · exact sameOperator_of_not_mem (not_mem_operators hc hname) (not_mem_operators hc' hname')
  · obtain ⟨k, l, l', hl, hl', htext, htext', hspan, -⟩ := h.exists_lexeme hn hn' hid
      (hshaped.isToken_of_mem_verbatim hv)
    have hcopy := Tree.copy_parse file 0 stamp 0 source
    have hmem : n.onto (parse 0 0 source).tree ∈ (parse 0 0 source).tree.verbatim := by
      rw [Tree.verbatim_of_copy hcopy]
      exact List.mem_map_of_mem hv
    have hsame := h.verbatim _ hmem k (List.getElem?_eq_some_iff.mp hl).1
      (by rw [Node.span_onto (hn ▸ hcopy), hspan])
    rw [hl, hl'] at hsame
    rw [htext, htext', Option.some.inj hsame]

end Text.Respelled

end TolkAnalysis
