import Mathlib.Data.List.Forall2
import TolkAnalysis.Grammar.Error
import TolkAnalysis.Proofs.Token.Layout

/-!
# Tokens that stand elsewhere

`Token.Respaced` says of two lists that they hold the same tokens at other places: whether blanks,
line breaks and comments stand between two tokens does not matter, except after a greater-than sign
that is one operator with what it touches. What two lists of tokens have in common then are ranges
of positions, `Token.SameRange`, and errors at one position, `Token.SameError`.

The tokens of a text stand in order, also where offsets are cut off at the largest one.
-/

namespace TolkAnalysis

namespace Token

variable {tokens tokens' : List Token} {t u : Token} {i j : Nat}

/-- A greater-than sign that touches another one or an equals sign after it. -/
def joins (t u : Token) : Bool :=
  t.kind == .gt && (u.kind == .gt || u.kind == .eq) && t.span.stop == u.span.start

/-- Says of each token but the last one whether it is joined to the one after it. -/
def joined (tokens : List Token) : List Bool := tokens.zipWith joins tokens.tail

/-- The same tokens at other places: they agree in kind and spelling, and a greater-than sign
touches another one or an equals sign after it in both lists or in none. -/
structure Respaced (tokens tokens' : List Token) : Prop where
  spelled : tokens'.map (fun t => (t.kind, t.text)) = tokens.map fun t => (t.kind, t.text)
  joined : joined tokens' = joined tokens

/-- The names that a rule of the grammar asks for. They are names again everywhere else. -/
def words : List String := ["mutate", "redef", "asm", "builtin", "readonly", "private", "get"]

/-- The tokens are told apart by no rule that asks for a name. -/
def SameWord (t u : Token) : Prop := ∀ word ∈ words, (u.text == word) = (t.text == word)

/-- Tokens that no rule of the grammar tells apart: they agree in kind, none of them is asked for by
its name only, and a greater-than sign touches another one or an equals sign after it in both lists
or in none. -/
structure ReadAlike (tokens tokens' : List Token) : Prop where
  alike : List.Forall₂ (fun t t' => t'.kind = t.kind ∧ SameWord t t') tokens tokens'
  joined : Token.joined tokens' = Token.joined tokens

instance (tokens tokens' : List Token) : Decidable (Respaced tokens tokens') :=
  decidable_of_iff (tokens'.map (fun t => (t.kind, t.text)) = tokens.map (fun t => (t.kind, t.text)) ∧
    Token.joined tokens' = Token.joined tokens)
    ⟨fun h => ⟨h.1, h.2⟩, fun h => ⟨h.spelled, h.joined⟩⟩

/-- Two spans that reach from one token to the same or a later one, at the same positions of two
lists. -/
def SameRange (tokens tokens' : List Token) (s s' : Span) : Prop :=
  ∃ (i j : Nat) (t u t' u' : Token), i ≤ j ∧ tokens[i]? = some t ∧ tokens[j]? = some u ∧
    tokens'[i]? = some t' ∧ tokens'[j]? = some u' ∧
    s = ⟨t.span.start, u.span.stop⟩ ∧ s' = ⟨t'.span.start, u'.span.stop⟩

theorem SameRange.append {s s' : Span} (h : SameRange tokens tokens' s s')
    (more more' : List Token) : SameRange (tokens ++ more) (tokens' ++ more') s s' := by
  obtain ⟨i, j, t, u, t', u', hij, ht, hu, ht', hu', hs, hs'⟩ := h
  have hmore : ∀ {l : List Token} {v : Token} {k : Nat} (later : List Token), l[k]? = some v →
      (l ++ later)[k]? = some v := fun later hv => by
    rw [List.getElem?_append_left (List.getElem?_eq_some_iff.mp hv).1, hv]
  exact ⟨i, j, t, u, t', u', hij, hmore more ht, hmore more hu, hmore more' ht', hmore more' hu',
    hs, hs'⟩

theorem joins_iff (hgt : t.kind = .gt) (hnext : u.kind = .gt ∨ u.kind = .eq) :
    joins t u = true ↔ t.span.stop = u.span.start := by
  simp [joins, hgt, hnext]

theorem getElem?_joined (ht : tokens[i]? = some t) (hu : tokens[i + 1]? = some u) :
    (joined tokens)[i]? = some (joins t u) := by
  rw [joined, List.getElem?_zipWith, List.getElem?_tail, ht, hu]

namespace ReadAlike

variable {t' u' : Token}

theorem length_eq (h : ReadAlike tokens tokens') : tokens'.length = tokens.length :=
  h.alike.length_eq.symm

theorem same (h : ReadAlike tokens tokens') (ht : tokens[i]? = some t)
    (ht' : tokens'[i]? = some t') : t'.kind = t.kind ∧ SameWord t t' := by
  obtain ⟨hi, rfl⟩ := List.getElem?_eq_some_iff.mp ht
  obtain ⟨hi', rfl⟩ := List.getElem?_eq_some_iff.mp ht'
  exact h.alike.get hi hi'

/-- A greater-than sign touches what it is read together with in both lists or in none. -/
theorem touch_iff (h : ReadAlike tokens tokens') (ht : tokens[i]? = some t)
    (hu : tokens[i + 1]? = some u) (ht' : tokens'[i]? = some t') (hu' : tokens'[i + 1]? = some u')
    (hgt : t.kind = .gt) (hnext : u.kind = .gt ∨ u.kind = .eq) :
    t.span.stop = u.span.start ↔ t'.span.stop = u'.span.start := by
  have hget := congrArg (fun l : List Bool => l[i]?) h.joined
  simp only [getElem?_joined ht hu, getElem?_joined ht' hu', Option.some.injEq] at hget
  have hgt' : t'.kind = .gt := (h.same ht ht').1.trans hgt
  have hnext' : u'.kind = .gt ∨ u'.kind = .eq := by rwa [(h.same hu hu').1]
  rw [← joins_iff hgt hnext, ← joins_iff hgt' hnext', hget]

end ReadAlike

namespace Respaced

variable {t' : Token}

theorem length_eq (h : Respaced tokens tokens') : tokens'.length = tokens.length := by
  simpa using congrArg List.length h.spelled

theorem same (h : Respaced tokens tokens') (ht : tokens[i]? = some t)
    (ht' : tokens'[i]? = some t') : t'.kind = t.kind ∧ t'.text = t.text := by
  have hget := congrArg (fun l : List (TokenKind × String) => l[i]?) h.spelled
  simpa [ht, ht'] using hget

theorem readAlike (h : Respaced tokens tokens') : ReadAlike tokens tokens' where
  alike := by
    refine List.forall₂_iff_get.mpr ⟨h.length_eq.symm, fun i hi hi' => ?_⟩
    obtain ⟨hkind, htext⟩ := h.same (List.getElem?_eq_getElem hi) (List.getElem?_eq_getElem hi')
    exact ⟨hkind, fun word _ => congrArg (· == word) htext⟩
  joined := h.joined

end Respaced

/-! ### Tokens in order -/

/-- No token begins before the one before it ends. -/
structure Ordered (tokens : List Token) : Prop where
  forward : ∀ t ∈ tokens, t.span.start ≤ t.span.stop
  sorted : tokens.Pairwise fun t u => t.span.stop ≤ u.span.start

namespace Ordered

theorem apart (h : Ordered tokens) (hij : i < j) (ht : tokens[i]? = some t)
    (hu : tokens[j]? = some u) : t.span.stop ≤ u.span.start := by
  obtain ⟨hi, rfl⟩ := List.getElem?_eq_some_iff.mp ht
  obtain ⟨hj, rfl⟩ := List.getElem?_eq_some_iff.mp hu
  exact List.pairwise_iff_getElem.mp h.sorted i j hi hj hij

theorem le (h : Ordered tokens) (hij : i ≤ j) (ht : tokens[i]? = some t)
    (hu : tokens[j]? = some u) : t.span.start ≤ u.span.start ∧ t.span.stop ≤ u.span.stop ∧
      t.span.start ≤ u.span.stop := by
  have hforward := h.forward t (List.mem_of_getElem? ht)
  have hforward' := h.forward u (List.mem_of_getElem? hu)
  rcases hij.lt_or_eq with hlt | rfl
  · have hapart := h.apart hlt ht hu
    omega
  · rw [ht] at hu
    cases hu
    exact ⟨le_rfl, le_rfl, hforward⟩

/-- The end of a range does not lie before its beginning. -/
theorem max_eq (h : Ordered tokens) (hij : i ≤ j) (ht : tokens[i]? = some t)
    (hu : tokens[j]? = some u) : max u.span.stop t.span.start = u.span.stop :=
  Nat.max_eq_left (h.le hij ht hu).2.2

theorem merge_eq (h : Ordered tokens) (hij : i ≤ j) (ht : tokens[i]? = some t)
    (hu : tokens[j]? = some u) : t.span.merge u.span = ⟨t.span.start, u.span.stop⟩ := by
  obtain ⟨hstart, hstop, -⟩ := h.le hij ht hu
  rw [Span.merge, Nat.min_eq_left hstart, Nat.max_eq_right hstop]

end Ordered

theorem ofRange_le {start stop : Nat} (h : start ≤ stop) :
    (Span.ofRange start stop).start ≤ (Span.ofRange start stop).stop := by
  unfold Span.ofRange
  dsimp only
  omega

/-- The tokens of a text are in order, and only the last one ends the file. -/
theorem exists_lexFrom (offset : Nat) (cs : List Char) :
    ∃ tokens stop, lexFrom offset cs = tokens ++ [endOfFile stop] ∧
      (∀ t ∈ tokens, t.kind ≠ .endOfFile ∧ min offset Span.maxOffset ≤ t.span.start) ∧
      Ordered tokens := by
  induction offset, cs using lexFrom.induct with
  | case1 offset =>
    rw [lexFrom]
    exact ⟨[], offset, rfl, by simp, by simp, .nil⟩
  | case2 offset c rest lexeme word stop kind hkind ih =>
    obtain ⟨tokens, last, hlater, hall, hordered⟩ := ih
    have hle : offset ≤ stop := Nat.le_add_right offset word.utf8ByteSize
    refine ⟨⟨kind, word, Span.ofRange offset stop⟩ :: tokens, last, ?_, ?_, ?_, ?_⟩
    · rw [lexFrom]
      simp only [show (Scan.scan c rest).1 = .token kind from hkind]
      exact congrArg _ hlater
    · rintro t (_ | ⟨_, ht⟩)
      · refine ⟨?_, le_rfl⟩
        rintro rfl
        exact scan_ne_endOfFile c rest hkind
      · obtain ⟨hne, hstart⟩ := hall t ht
        exact ⟨hne, by omega⟩
    · rintro t (_ | ⟨_, ht⟩)
      · exact ofRange_le hle
      · exact hordered.forward t ht
    · exact .cons (fun t ht => (hall t ht).2) hordered.sorted
  | case3 offset c rest lexeme word stop hother ih =>
    obtain ⟨tokens, last, hlater, hall, hordered⟩ := ih
    have hle : offset ≤ stop := Nat.le_add_right offset word.utf8ByteSize
    refine ⟨tokens, last, ?_, fun t ht => ?_, hordered⟩
    · rw [lexFrom]
      split
      · rename_i kind hkind
        exact absurd hkind (hother kind)
      · exact hlater
    · obtain ⟨hne, hstart⟩ := hall t ht
      exact ⟨hne, by omega⟩

/-- No token of a text begins before the one before it, nor does the end of the file. -/
theorem sorted_lexFrom (offset : Nat) (cs : List Char) :
    (∀ t ∈ lexFrom offset cs, min offset Span.maxOffset ≤ t.span.start) ∧
      (lexFrom offset cs).Pairwise fun t u => t.span.start ≤ u.span.start := by
  induction offset, cs using lexFrom.induct with
  | case1 offset =>
    rw [lexFrom]
    exact ⟨List.forall_mem_singleton.mpr le_rfl, List.pairwise_singleton _ _⟩
  | case2 offset c rest lexeme word stop kind hkind ih =>
    have hle : offset ≤ stop := Nat.le_add_right offset word.utf8ByteSize
    have hlater : ∀ t ∈ lexFrom stop (rest.drop lexeme.2),
        min offset Span.maxOffset ≤ t.span.start := fun t ht => by
      have := ih.1 t ht
      omega
    rw [lexFrom]
    simp only [show (Scan.scan c rest).1 = .token kind from hkind]
    exact ⟨List.forall_mem_cons.mpr ⟨le_rfl, hlater⟩, .cons hlater ih.2⟩
  | case3 offset c rest lexeme word stop hother ih =>
    have hle : offset ≤ stop := Nat.le_add_right offset word.utf8ByteSize
    rw [lexFrom]
    split
    · rename_i kind hkind
      exact absurd hkind (hother kind)
    · refine ⟨fun t ht => ?_, ih.2⟩
      have := ih.1 t ht
      omega

/-- No token reaches beyond the end of the text. -/
theorem stop_le_of_mem_lexFrom (offset : Nat) (cs : List Char) : ∀ t ∈ lexFrom offset cs,
    t.span.stop ≤ min (offset + (String.ofList cs).utf8ByteSize) Span.maxOffset := by
  have hsplit : ∀ (c : Char) (rest : List Char) (n : Nat),
      (String.ofList (c :: rest)).utf8ByteSize = (String.ofList (c :: rest.take n)).utf8ByteSize +
        (String.ofList (rest.drop n)).utf8ByteSize := fun c rest n => by
    rw [← String.utf8ByteSize_append, ← String.ofList_append, List.cons_append,
      List.take_append_drop]
  induction offset, cs using lexFrom.induct with
  | case1 offset =>
    rw [lexFrom]
    exact List.forall_mem_singleton.mpr (by simp [endOfFile, Span.ofRange])
  | case2 offset c rest lexeme word stop kind hkind ih =>
    have hword : stop + (String.ofList (rest.drop lexeme.2)).utf8ByteSize =
        offset + (String.ofList (c :: rest)).utf8ByteSize := by
      rw [hsplit c rest lexeme.2, ← Nat.add_assoc]
    rw [hword] at ih
    rw [lexFrom]
    simp only [show (Scan.scan c rest).1 = .token kind from hkind]
    refine List.forall_mem_cons.mpr ⟨?_, ih⟩
    have hle : stop ≤ offset + (String.ofList (c :: rest)).utf8ByteSize :=
      hword ▸ Nat.le_add_right _ _
    exact le_min ((min_le_left _ _).trans hle) (min_le_right _ _)
  | case3 offset c rest lexeme word stop hother ih =>
    rw [lexFrom]
    split
    · rename_i kind hkind
      exact absurd hkind (hother kind)
    · rwa [hsplit c rest lexeme.2, ← Nat.add_assoc]

/-- A token that begins before the largest offset covers something. -/
theorem covers_of_mem_lexFrom (offset : Nat) (cs : List Char) : ∀ t ∈ lexFrom offset cs,
    t.kind ≠ .endOfFile → t.span.start < Span.maxOffset → t.span.start < t.span.stop := by
  induction offset, cs using lexFrom.induct with
  | case1 offset =>
    rw [lexFrom]
    exact List.forall_mem_singleton.mpr fun hkind => absurd rfl hkind
  | case2 offset c rest lexeme word stop kind hkind ih =>
    have hword : 0 < word.utf8ByteSize := by
      refine Nat.pos_of_ne_zero fun hzero => ?_
      have hempty := String.utf8ByteSize_eq_zero_iff.mp hzero
      simp [word] at hempty
    rw [lexFrom]
    simp only [show (Scan.scan c rest).1 = .token kind from hkind]
    refine List.forall_mem_cons.mpr ⟨fun _ hstart => ?_, ih⟩
    have hstop : stop = offset + word.utf8ByteSize := rfl
    change min offset Span.maxOffset < min stop Span.maxOffset
    change min offset Span.maxOffset < Span.maxOffset at hstart
    omega
  | case3 offset c rest lexeme word stop hother ih =>
    rw [lexFrom]
    split
    · rename_i kind hkind
      exact absurd hkind (hother kind)
    · exact ih

end Token

theorem exists_lex (source : String) : ∃ tokens stop,
    lex source = tokens ++ [Token.endOfFile stop] ∧ (∀ t ∈ tokens, t.kind ≠ .endOfFile) ∧
      Token.Ordered tokens := by
  obtain ⟨tokens, stop, hlex, hall, hordered⟩ := Token.exists_lexFrom 0 source.toList
  exact ⟨tokens, stop, hlex, fun t ht => (hall t ht).1, hordered⟩

/-! ### Errors at the same token -/

namespace ParseError

/-- The same error at another place. -/
def movedTo : ParseError → Span → ParseError
  | .unexpectedToken expected found _, s => .unexpectedToken expected found s
  | .unknownToken _, s => .unknownToken s

end ParseError

/-- Two errors that differ only in their places, which are tokens at the same position of two
lists. -/
def Token.SameError (tokens tokens' : List Token) (e e' : ParseError) : Prop :=
  ∃ (i : Nat) (t t' : Token), tokens[i]? = some t ∧ tokens'[i]? = some t' ∧ e.span = t.span ∧
    e' = e.movedTo t'.span

end TolkAnalysis
