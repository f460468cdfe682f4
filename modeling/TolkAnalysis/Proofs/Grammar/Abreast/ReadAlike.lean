import TolkAnalysis.Proofs.Grammar.Abreast.File
import TolkAnalysis.Proofs.Token.Respaced

/-!
# Tokens that no rule tells apart

Two files whose tokens are read alike, at whatever places they stand, are a pairing that does not
part. So reading one of them, be it after another text has been read, gives the nodes and errors of
the other one.
-/

namespace TolkAnalysis

open TolkAnalysis.Parser TolkAnalysis.Grammar

namespace Pairing

variable {ts ts' : List Token} {e e' : Token} {spans : Span → Span → Prop}
  {errors : ParseError → ParseError → Prop}

/-- A pair stands at one position of both lists. -/
theorem getElem?_of_zip (e e' : Token) {i : Nat} {t : Token × Token}
    (ht : (ts.zip ts')[i]? = some t) :
    (ts ++ [e])[i]? = some t.1 ∧ (ts' ++ [e'])[i]? = some t.2 := by
  obtain ⟨hfst, hsnd⟩ := List.getElem?_zip_eq_some.mp ht
  rw [List.getElem?_append_left (List.getElem?_eq_some_iff.mp hfst).1,
    List.getElem?_append_left (List.getElem?_eq_some_iff.mp hsnd).1]
  exact ⟨hfst, hsnd⟩

/-- The spans that parsers build between two tokens are related, and so are the errors at one
position. -/
structure Compares (ts ts' : List Token) (e e' : Token) (spans : Span → Span → Prop)
    (errors : ParseError → ParseError → Prop) : Prop where
  between : ∀ {i j : Nat} {t u t' u' : Token}, i ≤ j → ts[i]? = some t → ts[j]? = some u →
    ts'[i]? = some t' → ts'[j]? = some u' →
      spans ⟨t.span.start, u.span.stop⟩ ⟨t'.span.start, u'.span.stop⟩ ∧
      spans ⟨t.span.start, max u.span.stop t.span.start⟩
        ⟨t'.span.start, max u'.span.stop t'.span.start⟩ ∧
      spans (t.span.merge u.span) (t'.span.merge u'.span)
  mismatch : ∀ {i : Nat} {t t' : Token}, (ts ++ [e])[i]? = some t → (ts' ++ [e'])[i]? = some t' →
    ∀ expected, errors (t.mismatch expected) (t'.mismatch expected)

theorem Compares.mono {spans' : Span → Span → Prop} (h : Compares ts ts' e e' spans errors)
    (hspans : ∀ {s s'}, spans s s' → spans' s s') : Compares ts ts' e e' spans' errors where
  between hij ht hu ht' hu' := (h.between hij ht hu ht' hu').imp hspans (And.imp hspans hspans)
  mismatch := h.mismatch

/-- Over the same range of positions stand the nodes of tokens in order. -/
theorem compares_of_ordered (hordered : Token.Ordered ts) (hordered' : Token.Ordered ts')
    (hmismatch : ∀ {i : Nat} {t t' : Token}, (ts ++ [e])[i]? = some t →
      (ts' ++ [e'])[i]? = some t' → ∀ expected,
        errors (t.mismatch expected) (t'.mismatch expected)) :
    Compares ts ts' e e' (Token.SameRange ts ts') errors where
  between {i j t u t' u'} hij ht hu ht' hu' := by
    have hrange : Token.SameRange ts ts' ⟨t.span.start, u.span.stop⟩
        ⟨t'.span.start, u'.span.stop⟩ := ⟨i, j, t, u, t', u', hij, ht, hu, ht', hu', rfl, rfl⟩
    rw [hordered.max_eq hij ht hu, hordered'.max_eq hij ht' hu', hordered.merge_eq hij ht hu,
      hordered'.merge_eq hij ht' hu']
    exact ⟨hrange, hrange, hrange⟩
  mismatch := hmismatch

/-- The tokens of a file and tokens that are read alike, read after something else. -/
def readAlike (h : Token.ReadAlike (ts ++ [e]) (ts' ++ [e'])) (hend : e.kind = .endOfFile)
    (hkinds : ∀ t ∈ ts, t.kind ≠ .endOfFile) (hcompares : Compares ts ts' e e' spans errors)
    (base : Arena) (before : List ParseError) : Pairing where
  tokens := ts.zip ts'
  stop := e
  more := []
  stop' := e'
  more' := []
  goesOn := false
  base := base
  before := before
  spans := spans
  errors := errors
  same t ht := by
    obtain ⟨i, hi⟩ := List.getElem?_of_mem ht
    obtain ⟨hfst, hsnd⟩ := getElem?_of_zip e e' hi
    obtain ⟨hkind, hword⟩ := h.same hfst hsnd
    exact ⟨hkind.symm, hword, hkinds _ (List.of_mem_zip ht).1⟩
  touch ht hu hgt hnext := by
    obtain ⟨hfst, hsnd⟩ := getElem?_of_zip e e' ht
    obtain ⟨hfst', hsnd'⟩ := getElem?_of_zip e e' hu
    exact h.touch_iff hfst hfst' hsnd hsnd' hgt hnext
  stop_kind := hend
  stop'_kind := by
    have hlength : ts'.length = ts.length := by simpa using h.length_eq
    have hfst : (ts ++ [e])[ts.length]? = some e := by simp
    have hsnd : (ts' ++ [e'])[ts.length]? = some e' := by simp [← hlength]
    exact (h.same hfst hsnd).1.trans hend
  balanced := nofun
  last := nofun
  between hij ht hu := by
    obtain ⟨hfst, hsnd⟩ := List.getElem?_zip_eq_some.mp ht
    obtain ⟨hfst', hsnd'⟩ := List.getElem?_zip_eq_some.mp hu
    exact hcompares.between hij hfst hfst' hsnd hsnd'
  mismatch t ht expected := by
    have hlength : ts'.length = ts.length := by simpa using h.length_eq
    have hzip : (ts ++ [e]).zip (ts' ++ [e']) = ts.zip ts' ++ [(e, e')] :=
      List.zip_append hlength.symm
    rw [← hzip] at ht
    obtain ⟨i, hi⟩ := List.getElem?_of_mem ht
    obtain ⟨hfst, hsnd⟩ := List.getElem?_zip_eq_some.mp hi
    exact hcompares.mismatch hfst hsnd expected

/-- Tokens that are read as those of a file, by a parser that has read something else before. -/
theorem meet_readAlike (h : Token.ReadAlike (ts ++ [e]) (ts' ++ [e'])) (hend : e.kind = .endOfFile)
    (hkinds : ∀ t ∈ ts, t.kind ≠ .endOfFile) (hcompares : Compares ts ts' e e' spans errors)
    (s' : ParserState) {bound' rounds' : Nat} (hrest : s'.rest = ts' ++ [e'])
    (hbound' : ts.length < bound') (hrounds' : ts.length < rounds') :
    ∃ (items : List (List Child)) (t t' : ParserState),
      readFile (ts ++ [e]) = (items.flatten, t) ∧
      collect (whenAt (!·.isAtEnd) (fileItem bound' (parser bound'))) rounds' s' =
        (.ok (items.map (List.map (Child.shift s'.arena.size))), t') ∧
      Arena.Beside s'.arena spans t.arena t'.arena ∧
      ∃ later, t'.errors.toList = s'.errors.toList ++ later ∧
        List.Forall₂ errors t.errors.toList later := by
  have hlength : ts'.length = ts.length := by simpa using h.length_eq
  generalize hF : readAlike h hend hkinds hcompares s'.arena s'.errors.toList = F
  have hfst : F.tokens.map Prod.fst ++ F.stop :: F.more = ts ++ [e] := by
    rw [← hF]
    exact congrArg (· ++ [e]) (List.map_fst_zip hlength.ge)
  have hsnd : F.tokens.map Prod.snd ++ F.stop' :: F.more' = ts' ++ [e'] := by
    rw [← hF]
    exact congrArg (· ++ [e']) (List.map_snd_zip hlength.le)
  have hpairs : F.tokens.length = ts.length := by
    have hcount := congrArg List.length hfst
    have hmore : F.more = [] := by rw [← hF]; rfl
    simpa [hmore] using hcount
  obtain ⟨items, t, t', left, hitems, hmeet, -, hgo⟩ :=
    F.readFile_abreast s' (hrest.trans hsnd.symm) (by rw [← hF]; rfl) (by rw [← hF]; rfl)
      (hpairs ▸ hbound') (hpairs ▸ hrounds')
  -- The second list ends where the first one does.
  have hatEnd : (!t'.isAtEnd) = false := by
    have hkind := hmeet.cursors.kind_eq_of_mid (.inr (by rw [← hF]; rfl))
    rw [hmeet.cursors.current_stop.1, F.stop_kind] at hkind
    simp [Cursor.isAtEnd, Cursor.isAt, hkind]
  have hgone := hgo [] t' (run_collect_nil hatEnd)
  rw [List.append_nil] at hgone
  rw [hfst] at hitems
  subst hF
  exact ⟨items, t, t', hitems, hgone, hmeet.built.arena, hmeet.built.errors⟩

end Pairing

namespace Grammar

/-- Two files whose tokens are read alike have the same declarations. -/
theorem readFile_readAlike {ts ts' : List Token} {e e' : Token} {spans : Span → Span → Prop}
    {errors : ParseError → ParseError → Prop} (h : Token.ReadAlike (ts ++ [e]) (ts' ++ [e']))
    (hend : e.kind = .endOfFile) (hkinds : ∀ t ∈ ts, t.kind ≠ .endOfFile)
    (hcompares : Pairing.Compares ts ts' e e' spans errors) :
    (readFile (ts' ++ [e'])).1 = (readFile (ts ++ [e])).1 ∧
      Arena.Beside .empty spans (readFile (ts ++ [e])).2.arena (readFile (ts' ++ [e'])).2.arena ∧
      List.Forall₂ errors (readFile (ts ++ [e])).2.errors.toList
        (readFile (ts' ++ [e'])).2.errors.toList := by
  have hlength : ts.length < (ts' ++ [e']).length + 1 := by
    have hsame := h.length_eq
    simp only [List.length_append, List.length_singleton] at hsame ⊢
    omega
  obtain ⟨items, t, t', hitems, hcollect, harena, later, hlater, hall⟩ :=
    Pairing.meet_readAlike h hend hkinds hcompares (initialState (ts' ++ [e'])) rfl hlength hlength
  have hitems' := readFile_eq hcollect
  have herrors : t'.errors.toList = later := hlater
  rw [hitems, hitems', herrors]
  refine ⟨?_, harena, hall⟩
  change (items.map (List.map (Child.shift 0))).flatten = items.flatten
  simp

end Grammar

end TolkAnalysis
