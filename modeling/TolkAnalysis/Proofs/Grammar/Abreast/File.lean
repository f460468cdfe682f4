import TolkAnalysis.Grammar.Parse
import TolkAnalysis.Proofs.Grammar.Abreast.Item

/-!
# Files read abreast

A declaration is always read, be it as a skipped one, so reading the first list of a pairing comes
to its end, and the second parser then stands where the lists part. `readFile_abreast` says that
what the second parser has read until then are the declarations of the first one, and that it goes
on from there.
-/

namespace TolkAnalysis

namespace Parser

variable {α : Type} {s t u : ParserState} {bound : Nat}

/-- A parser that never fails. -/
def Total (m : Parser α) : Prop := ∀ s, Runs m s (fun _ _ => True) fun _ => False

theorem Total.exists_ok {m : Parser α} (h : Total m) (s : ParserState) :
    ∃ a t, m s = (.ok a, t) := by
  have hrun := h s
  unfold Runs at hrun
  split at hrun
  · exact ⟨_, _, ‹_›⟩
  · exact hrun.elim

theorem total_skipTo (stop : TokenKind → Bool) (bound depth : Nat) (consumed : Bool) :
    Total (skipTo stop bound depth consumed) := by
  induction bound generalizing depth consumed with
  | zero => exact fun s => .pure trivial
  | succ bound ih =>
    intro s
    refine .cursor ?_
    dsimp only
    split
    · exact .pure trivial
    · exact .bind (.of_modify (ih _ _ _))

theorem total_recover (bound : Nat) (error : ParseError) (earlier : Checkpoint)
    (stop : TokenKind → Bool) : Total (recover bound error earlier stop) := by
  intro s
  refine .bind (.of_modify (.cursor ?_))
  refine .bind ((total_skipTo stop bound 0 _ _).mono (fun consumed s₁ _ => ?_) fun _ hE => hE)
  have hfinish : ∀ s₂, Runs (finish .error earlier.start []) s₂ (fun _ _ => True) fun _ => False :=
    fun s₂ => .cursor (.of_push trivial)
  refine .bind ?_
  unfold readUnless
  split
  · exact .pure (hfinish _)
  · exact .of_modify (hfinish _)

theorem run_collect_nil {here : Cursor → Bool} {item : Parser α} (hhere : here s.toCursor = false) :
    collect (whenAt here item) bound s = (.ok [], s) := by
  cases bound with
  | zero => rfl
  | succ bound =>
    have hwhen : whenAt here item s = (.ok none, s) := by
      change (if here s.toCursor = true then _ else _ : Parser (Option α)) s = _
      rw [hhere]
      rfl
    rw [collect, run_bind, hwhen]
    rfl

theorem run_collect_cons {here : Cursor → Bool} {item : Parser α} {a : α} {as : List α}
    (hhere : here s.toCursor = true) (hitem : item s = (.ok a, t))
    (hlater : collect (whenAt here item) bound t = (.ok as, u)) :
    collect (whenAt here item) (bound + 1) s = (.ok (a :: as), u) := by
  have hwhen : whenAt here item s = (.ok (some a), t) := by
    change (if here s.toCursor = true then _ else _ : Parser (Option α)) s = _
    rw [hhere, if_pos rfl, run_bind, hitem]
    rfl
  rw [collect, run_bind, hwhen]
  dsimp only
  rw [run_bind, hlater]
  rfl

end Parser

namespace Grammar

open TolkAnalysis.Parser

variable {parse : Nonterminal → Parser Nat} {bound : Nat}

theorem total_fileItem : Total (fileItem bound parse) := by
  intro s
  refine .bind (.check ?_)
  split
  · exact .bind (.of_modify (.pure (.pure trivial)))
  · refine .pure (.bind (.get (.tryCatch ?_)))
    unfold Runs
    split
    · trivial
    · exact fun error => total_recover _ _ _ _ _

/-- Reading a file is reading one declaration after the other. -/
theorem readFile_eq {tokens : List Token} {items : List (List Child)} {t : ParserState}
    (h : collect (whenAt (!·.isAtEnd) (fileItem (tokens.length + 1) (parser (tokens.length + 1))))
      (tokens.length + 1) (initialState tokens) = (.ok items, t)) :
    readFile tokens = (items.flatten, t) := by
  unfold readFile fileItems
  dsimp only
  rw [run_bind, h]
  rfl

end Grammar

namespace Pairing

open TolkAnalysis.Parser TolkAnalysis.Grammar

variable {F : Pairing} {p n bound bound' : Nat} {parse parse' : Nonterminal → Parser Nat}

/-- A declaration is read by both parsers. -/
theorem meet_fileItem (h : F.Agree n bound bound' parse parse') {s s' : ParserState}
    (hs : F.Meet 0 p s s') (hp : F.tokens.length < p + n) (hlt : p < F.tokens.length) :
    ∃ q items t t', fileItem bound parse s = (.ok items, t) ∧
      fileItem bound' parse' s' = (.ok (items.map F.child), t') ∧ p < q ∧ F.Meet 0 q t t' := by
  have hrun := (abreast_fileItem h hp hlt).run hs
  have htotal : Total (fileItem bound parse) := total_fileItem
  obtain ⟨items, t, hitems⟩ := htotal.exists_ok s
  rw [hitems] at hrun
  generalize hitems' : fileItem bound' parse' s' = r' at hrun
  cases hrun with
  | ok hq ht hV => exact ⟨_, items, t, _, hitems, by rw [hV.2], hV.1, ht⟩

/-- The first parser comes to its end, and the second one has read the same declarations until
then. -/
theorem meet_fileItems (h : F.Agree n bound bound' parse parse') {s s' : ParserState}
    {rounds rounds' : Nat} (hs : F.Meet 0 p s s') (hp : F.tokens.length < p + n)
    (hr : F.tokens.length < p + rounds) (hr' : F.tokens.length < p + rounds') :
    ∃ items t t' left,
      collect (whenAt (!·.isAtEnd) (fileItem bound parse)) rounds s = (.ok items, t) ∧
      F.Meet 0 F.tokens.length t t' ∧ rounds' + p ≤ left + F.tokens.length ∧
      ∀ later u, collect (whenAt (!·.isAtEnd) (fileItem bound' parse')) left t' = (.ok later, u) →
        collect (whenAt (!·.isAtEnd) (fileItem bound' parse')) rounds' s' =
          (.ok (items.map (List.map F.child) ++ later), u) := by
  induction rounds generalizing p s s' rounds' with
  | zero => exact absurd hs.cursors.le (Nat.not_le.2 hr)
  | succ rounds ih =>
    rcases hs.cursors.le.lt_or_eq with hlt | rfl
    · obtain ⟨rounds', rfl⟩ : ∃ k, rounds' = k + 1 := ⟨rounds' - 1, by omega⟩
      have ht := List.getElem?_eq_getElem hlt
      obtain ⟨hc, hc'⟩ := hs.cursors.current ht
      obtain ⟨hsame, -, hne⟩ := same_of_token ht
      have hmore : (!s.isAtEnd) = true := by
        simpa [Cursor.isAtEnd, Cursor.isAt, hc] using hne
      have hmore' : (!s'.isAtEnd) = true := by
        simpa [Cursor.isAtEnd, Cursor.isAt, hc', ← hsame] using hne
      obtain ⟨q, a, t, t', ha, ha', hq, hmeet⟩ := meet_fileItem h hs hp hlt
      obtain ⟨items, u, u', left, hitems, hmeet', hleft, hgo⟩ :=
        ih hmeet (by omega) (by omega) (by omega : F.tokens.length < q + rounds')
      refine ⟨a :: items, u, u', left, run_collect_cons hmore ha hitems, hmeet', by omega, ?_⟩
      intro later v hlater
      exact run_collect_cons hmore' ha' (hgo later v hlater)
    · obtain ⟨hc, -⟩ := hs.cursors.current_stop
      have hend : (!s.isAtEnd) = false := by
        simp [Cursor.isAtEnd, Cursor.isAt, hc, F.stop_kind]
      exact ⟨[], s, s', rounds', run_collect_nil hend, hs, le_rfl, fun later u hlater => hlater⟩

/-- The second parser begins where the pairs begin, with what it has built and the errors it has
met before. -/
theorem meet_initialState {s' : ParserState}
    (hrest : s'.rest = F.tokens.map Prod.snd ++ F.stop' :: F.more') (harena : s'.arena = F.base)
    (herrors : s'.errors.toList = F.before) :
    F.Meet 0 0 (initialState (F.tokens.map Prod.fst ++ F.stop :: F.more)) s' where
  cursors := ⟨Nat.zero_le _, rfl, hrest, nofun⟩
  deep := deep_zero 0
  built := by
    refine ⟨?_, [], by rw [herrors, List.append_nil], .nil⟩
    rw [harena]
    exact .refl F.spans F.base

/-- A file is read abreast with the beginning of another one. -/
theorem readFile_abreast (s' : ParserState) {rounds' : Nat}
    (hrest : s'.rest = F.tokens.map Prod.snd ++ F.stop' :: F.more') (harena : s'.arena = F.base)
    (herrors : s'.errors.toList = F.before) (hbound' : F.tokens.length < bound')
    (hr' : F.tokens.length < rounds') :
    ∃ (items : List (List Child)) (t t' : ParserState) (left : Nat),
      readFile (F.tokens.map Prod.fst ++ F.stop :: F.more) = (items.flatten, t) ∧
      F.Meet 0 F.tokens.length t t' ∧ rounds' ≤ left + F.tokens.length ∧
      ∀ later u, collect (whenAt (!·.isAtEnd) (fileItem bound' (parser bound'))) left t' =
          (.ok later, u) →
        collect (whenAt (!·.isAtEnd) (fileItem bound' (parser bound'))) rounds' s' =
          (.ok (items.map (List.map F.child) ++ later), u) := by
  generalize htokens : F.tokens.map Prod.fst ++ F.stop :: F.more = tokens
  have hlength : F.tokens.length + 1 ≤ tokens.length + 1 := by
    rw [← htokens, List.length_append, List.length_map]
    omega
  have hrounds : F.tokens.length < 0 + (tokens.length + 1) := by omega
  have hrounds' : F.tokens.length < 0 + rounds' := by omega
  have hmeet := meet_initialState hrest harena herrors
  rw [htokens] at hmeet
  obtain ⟨items, t, t', left, hitems, hend, hleft, hgo⟩ :=
    meet_fileItems (agree_grammar hlength hbound') hmeet (by omega) hrounds hrounds'
  exact ⟨items, t, t', left, readFile_eq hitems, hend, hleft, hgo⟩

end Pairing

end TolkAnalysis
