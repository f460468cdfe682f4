import TolkAnalysis.Proofs.Grammar.Abreast.ReadAlike
import TolkAnalysis.Proofs.Grammar.Item

/-!
# Tokens spread over a text

What is known of the tokens of a text goes over to any list of tokens, wherever they are said to
stand, as far as it does not speak of spans: the tokens are spread over a text of their own, two
bytes for each, and reading them there builds the same nodes. The main lemma is that the
declarations of a file are stored nodes.
-/

namespace TolkAnalysis

namespace Token

/-- Tokens that begin every two bytes. A token fills both bytes if it is joined to the next one. -/
def spread : Nat → List Token → List Token
  | _, [] => []
  | offset, t :: rest =>
      ⟨t.kind, t.text, ⟨offset, if rest.head?.any (joins t) then offset + 2 else offset + 1⟩⟩ ::
        spread (offset + 2) rest

theorem spelled_spread (offset : Nat) (tokens : List Token) :
    (spread offset tokens).map (fun t => (t.kind, t.text)) =
      tokens.map fun t => (t.kind, t.text) := by
  induction tokens generalizing offset with
  | nil => rfl
  | cons t rest ih => rw [spread, List.map_cons, List.map_cons, ih]

theorem joins_eq_false {t e : Token} (hend : e.kind = .endOfFile) : joins t e = false := by
  simp [joins, hend]

theorem joined_cons (t u : Token) (rest : List Token) :
    joined (t :: u :: rest) = joins t u :: joined (u :: rest) := rfl

/-- Spreading tokens keeps which of them are joined. -/
theorem joined_spread {e e' : Token} (hend : e.kind = .endOfFile) (hend' : e'.kind = .endOfFile)
    (offset : Nat) (tokens : List Token) :
    joined (spread offset tokens ++ [e']) = joined (tokens ++ [e]) := by
  induction tokens generalizing offset with
  | nil => rfl
  | cons t rest ih =>
    cases rest with
    | nil => simp [spread, joined, joins_eq_false hend, joins_eq_false hend']
    | cons u rest =>
      have ih := ih (offset + 2)
      rw [spread] at ih ⊢
      rw [spread]
      simp only [List.cons_append, joined_cons] at ih ⊢
      rw [ih]
      congr 1
      rw [List.head?_cons, Option.any_some]
      cases hjoins : joins t u
      · simp [joins]
      · have hkinds := hjoins
        simp only [joins, Bool.and_eq_true] at hkinds
        simp [joins, hkinds.1]

theorem respaced_spread {e : Token} (hend : e.kind = .endOfFile) (tokens : List Token) (s : Span) :
    Respaced (tokens ++ [e]) (spread 0 tokens ++ [⟨e.kind, e.text, s⟩]) := by
  have hend' : (⟨e.kind, e.text, s⟩ : Token).kind = .endOfFile := hend
  refine ⟨?_, joined_spread hend hend' 0 tokens⟩
  rw [List.map_append, List.map_append, spelled_spread]
  rfl

theorem getElem?_spread {ts : List Token} {offset i : Nat} {t : Token}
    (h : (spread offset ts)[i]? = some t) :
    t.span.start = offset + 2 * i ∧ t.span.start < t.span.stop ∧ t.span.stop ≤ t.span.start + 2 := by
  induction ts generalizing offset i with
  | nil => cases h
  | cons u rest ih =>
    rw [spread] at h
    cases i with
    | zero =>
      cases h
      dsimp only
      split <;> omega
    | succ i =>
      obtain ⟨hstart, hlt, hle⟩ := ih (i := i) h
      exact ⟨by omega, hlt, hle⟩

theorem ordered_spread (offset : Nat) (ts : List Token) : Ordered (spread offset ts) where
  forward t ht := by
    obtain ⟨i, hi⟩ := List.getElem?_of_mem ht
    exact (getElem?_spread hi).2.1.le
  sorted := List.pairwise_iff_getElem.mpr fun i j hi hj hij => by
    obtain ⟨hstart, -, hle⟩ := getElem?_spread (List.getElem?_eq_getElem hi)
    obtain ⟨hstart', -⟩ := getElem?_spread (List.getElem?_eq_getElem hj)
    omega

/-! ### A text of letters -/

/-- A text of a number of letters. -/
def letters (count : Nat) : String := String.ofList (List.replicate count 'a')

theorem utf8ByteSize_letters (count : Nat) : (letters count).utf8ByteSize = count := by
  induction count with
  | zero => rfl
  | succ count ih =>
    have hsplit : letters (count + 1) = String.singleton 'a' ++ letters count := by
      rw [letters, List.replicate_succ, letters, String.singleton_eq_ofList, ← String.ofList_append]
      rfl
    rw [hsplit, String.utf8ByteSize_append, ih, String.utf8ByteSize_singleton]
    exact Nat.add_comm 1 count

theorem isBoundary_letters {offset count : Nat} (h : offset ≤ count) :
    Text.IsBoundary (letters count) offset := by
  refine ⟨letters offset, letters (count - offset), ?_, utf8ByteSize_letters offset⟩
  rw [letters, letters, letters, ← String.ofList_append, List.replicate_append_replicate,
    Nat.add_sub_cancel' h]

/-- The tokens stand in a text of letters. -/
theorem laid_spread {e : Token} (hend : e.kind = .endOfFile) {count offset : Nat}
    {tokens : List Token} (hkinds : ∀ t ∈ tokens, t.kind ≠ .endOfFile)
    (hcount : offset + 2 * tokens.length ≤ count) :
    Laid (letters count) offset
      (spread offset tokens ++ [⟨e.kind, e.text, Span.point (letters count).utf8ByteSize⟩]) := by
  induction tokens generalizing offset with
  | nil =>
    refine .last hend rfl ?_
    rw [utf8ByteSize_letters]
    exact hcount
  | cons t rest ih =>
    rw [List.length_cons] at hcount
    have hrest : offset + 2 + 2 * rest.length ≤ count := by omega
    have hlater := ih (fun u hu => hkinds u (List.mem_cons_of_mem t hu)) hrest
    have hstart : Text.IsBoundary (letters count) offset := isBoundary_letters (by omega)
    rw [spread]
    generalize hstop : (if rest.head?.any (joins t) then offset + 2 else offset + 1) = stop
    have hbetween : offset < stop ∧ stop ≤ offset + 2 := by
      rw [← hstop]
      split <;> omega
    have hends : Text.IsBoundary (letters count) stop := isBoundary_letters (by omega)
    exact .cons (hkinds t List.mem_cons_self) le_rfl hbetween.1 hstart hends
      (hlater.mono hbetween.2)

end Token

namespace Grammar

/-- The declarations of a file are stored, wherever its tokens are said to stand. -/
theorem stored_readFile {tokens : List Token} {e : Token} (hend : e.kind = .endOfFile)
    (hkinds : ∀ t ∈ tokens, t.kind ≠ .endOfFile) :
    ∀ c ∈ (readFile (tokens ++ [e])).1, c.node < (readFile (tokens ++ [e])).2.arena.size := by
  generalize htext : Token.letters (2 * tokens.length) = text
  have hlaid : Token.Laid text 0
      (Token.spread 0 tokens ++ [⟨e.kind, e.text, Span.point text.utf8ByteSize⟩]) :=
    htext ▸ Token.laid_spread hend hkinds (Nat.zero_add _).le
  have hcompares : Pairing.Compares tokens (Token.spread 0 tokens) e
      ⟨e.kind, e.text, Span.point text.utf8ByteSize⟩ (fun _ _ => True) fun _ _ => True :=
    ⟨fun _ _ _ _ _ => ⟨trivial, trivial, trivial⟩, fun _ _ _ => trivial⟩
  obtain ⟨hitems, harena, -⟩ :=
    readFile_readAlike (Token.respaced_spread hend tokens _).readAlike hend hkinds hcompares
  obtain ⟨-, hrow, -⟩ := readFile_row hlaid
  have hsize := harena.size_eq
  have hempty : Arena.empty.size = 0 := rfl
  rw [hempty, Nat.add_zero] at hsize
  rw [hitems] at hrow
  intro c hc
  rw [← hsize]
  exact hrow.lt_size c hc

end Grammar

end TolkAnalysis
