import Mathlib.Algebra.Group.Nat.Defs
import TolkAnalysis.Proofs.Token.Lexeme
import TolkAnalysis.Proofs.Token.Respaced

/-!
# Nothing is lost between tokens

A text is cut into tokens and into blanks and comments between them. `Token.Tiles` says so from an
offset on; each token holds its part of the text and is what is read from that part alone. It holds
of the tokens of every text whose offsets fit a span (`lex_tiles`), and `lex_lossless` says what
follows for the list of tokens.
-/

namespace TolkAnalysis

namespace Token

variable {text : String} {lo hi : Nat} {t : Token} {tokens : List Token}

/-- A part of a text that may stand between tokens: blanks, or a complete comment. -/
def Gap (text : String) (lo hi : Nat) : Prop :=
  ∃ before word after : List Char, text = String.ofList (before ++ word ++ after) ∧
    (String.ofList before).utf8ByteSize = lo ∧ lo + (String.ofList word).utf8ByteSize = hi ∧
    Scan.Skipped word after

/-- The token holds a part of the text, and it is what is read from that part alone. -/
structure Reads (text : String) (t : Token) : Prop where
  slice : Text.IsSlice text t.span.start t.span.stop t.text
  alone : lex t.text = [⟨t.kind, t.text, ⟨0, t.text.utf8ByteSize⟩⟩,
    ⟨.endOfFile, "", Span.point t.text.utf8ByteSize⟩]

/-- From an offset on, the text is cut into tokens and what stands between them. -/
inductive Tiles (text : String) : Nat → List Token → Prop
  | nil : Tiles text text.utf8ByteSize []
  | skip {lo hi : Nat} {tokens : List Token} (lt : lo < hi) (gap : Gap text lo hi)
      (later : Tiles text hi tokens) : Tiles text lo tokens
  | token {t : Token} {tokens : List Token} (lt : t.span.start < t.span.stop)
      (reads : t.Reads text) (later : Tiles text t.span.stop tokens) :
      Tiles text t.span.start (t :: tokens)

namespace Tiles

theorem le_start (h : Tiles text lo tokens) : ∀ t ∈ tokens, lo ≤ t.span.start := by
  induction h with
  | nil => exact List.forall_mem_nil _
  | skip hlt _ _ ih => exact fun t ht => le_trans hlt.le (ih t ht)
  | token hlt _ _ ih =>
      exact List.forall_mem_cons.mpr ⟨le_rfl, fun t ht => le_trans hlt.le (ih t ht)⟩

theorem reads (h : Tiles text lo tokens) :
    ∀ t ∈ tokens, t.span.start < t.span.stop ∧ t.Reads text := by
  induction h with
  | nil => exact List.forall_mem_nil _
  | skip _ _ _ ih => exact ih
  | token hlt hreads _ ih => exact List.forall_mem_cons.mpr ⟨⟨hlt, hreads⟩, ih⟩

theorem apart (h : Tiles text lo tokens) :
    tokens.Pairwise fun t u => t.span.stop ≤ u.span.start := by
  induction h with
  | nil => exact .nil
  | skip _ _ _ ih => exact ih
  | token _ _ later ih => exact .cons later.le_start ih

/-- Every byte belongs to a token or stands between tokens. -/
theorem covers (h : Tiles text lo tokens) {offset : Nat} (hlo : lo ≤ offset)
    (hoffset : offset < text.utf8ByteSize) :
    (∃ t ∈ tokens, t.span.contains offset = true) ∨
      ∃ start stop, lo ≤ start ∧ start ≤ offset ∧ offset < stop ∧ Gap text start stop ∧
        ∀ t ∈ tokens, t.span.stop ≤ start ∨ stop ≤ t.span.start := by
  induction h with
  | nil => omega
  | @skip lo hi tokens hlt hgap later ih =>
      by_cases hbefore : offset < hi
      · exact .inr ⟨lo, hi, le_rfl, hlo, hbefore, hgap, fun t ht => .inr (later.le_start t ht)⟩
      · obtain hcovered | ⟨start, stop, hstart, hin⟩ := ih (Nat.le_of_not_lt hbefore)
        · exact .inl hcovered
        · exact .inr ⟨start, stop, le_trans hlt.le hstart, hin⟩
  | @token t tokens hlt hreads later ih =>
      by_cases hinside : offset < t.span.stop
      · exact .inl ⟨t, List.mem_cons_self, Span.contains_iff.mpr ⟨hlo, hinside⟩⟩
      · obtain ⟨u, hu, hcovered⟩ | ⟨start, stop, hstart, hle, hlt', hgap, hapart⟩ :=
          ih (Nat.le_of_not_lt hinside)
        · exact .inl ⟨u, List.mem_cons_of_mem t hu, hcovered⟩
        · exact .inr ⟨start, stop, le_trans hlt.le hstart, hle, hlt', hgap,
            List.forall_mem_cons.mpr ⟨.inl hstart, hapart⟩⟩

end Tiles

/-- A lexeme that is a token is what is read from its characters alone. -/
theorem lex_scan {c : Char} {rest : List Char} {kind : TokenKind}
    (h : (Scan.scan c rest).1 = .token kind)
    (hsize : (String.ofList (c :: rest.take (Scan.scan c rest).2)).utf8ByteSize ≤ Span.maxOffset) :
    let word := String.ofList (c :: rest.take (Scan.scan c rest).2)
    lex word = [⟨kind, word, ⟨0, word.utf8ByteSize⟩⟩,
      ⟨.endOfFile, "", Span.point word.utf8ByteSize⟩] := by
  intro word
  have hword : Span.ofRange 0 word.utf8ByteSize = ⟨0, word.utf8ByteSize⟩ :=
    Span.ofRange_of_le (Nat.zero_le _) hsize
  have hend : endOfFile word.utf8ByteSize = ⟨.endOfFile, "", Span.point word.utf8ByteSize⟩ := by
    rw [endOfFile, Span.ofRange_of_le hsize hsize, Span.point]
  rw [lex, String.toList_ofList, lexFrom, Scan.scan_take, h, List.take_take, Nat.min_self,
    List.drop_take_self, lexFrom, Nat.zero_add]
  dsimp only
  rw [hword, hend]

/-- What is known of the next lexeme of a text that has been read up to an offset. -/
theorem exists_step {before : List Char} {c : Char} {rest : List Char} (n : Nat)
    (htext : text = String.ofList (before ++ c :: rest)) :
    let word := c :: rest.take n
    text = String.ofList (before ++ word ++ rest.drop n) ∧
      0 < (String.ofList word).utf8ByteSize ∧
      (String.ofList (before ++ word)).utf8ByteSize =
        (String.ofList before).utf8ByteSize + (String.ofList word).utf8ByteSize ∧
      (String.ofList (before ++ word)).utf8ByteSize ≤ text.utf8ByteSize := by
  intro word
  have hread : text = String.ofList (before ++ word ++ rest.drop n) := by
    rw [htext, List.append_assoc, List.cons_append, List.take_append_drop]
  have hsize : (String.ofList (before ++ word)).utf8ByteSize =
      (String.ofList before).utf8ByteSize + (String.ofList word).utf8ByteSize := by
    rw [String.ofList_append, String.utf8ByteSize_append]
  refine ⟨hread, Nat.pos_of_ne_zero fun hzero => ?_, hsize, ?_⟩
  · have hempty := String.utf8ByteSize_eq_zero_iff.mp hzero
    simp [word] at hempty
  · have hboundary : Text.IsBoundary text (String.ofList (before ++ word)).utf8ByteSize :=
      ⟨_, _, hread.trans String.ofList_append, rfl⟩
    exact hboundary.le_size

/-- From every lexeme on, the text is cut into tokens and what stands between them. -/
theorem lexFrom_tiles (hsize : text.utf8ByteSize ≤ Span.maxOffset) (offset : Nat)
    (cs : List Char) : ∀ before : List Char, text = String.ofList (before ++ cs) →
      (String.ofList before).utf8ByteSize = offset →
      ∃ tokens, lexFrom offset cs = tokens ++ [⟨.endOfFile, "", Span.point text.utf8ByteSize⟩] ∧
        Tiles text offset tokens := by
  -- The induction follows the lexemes: what has been read so far stays in front of the rest.
  induction offset, cs using lexFrom.induct with
  | case1 offset =>
    intro before htext hbefore
    rw [List.append_nil] at htext
    subst htext hbefore
    refine ⟨[], ?_, .nil⟩
    rw [lexFrom, endOfFile, Span.ofRange_of_le hsize hsize]
    rfl
  | case2 offset c rest lexeme word stop kind hkind ih =>
    intro before htext hbefore
    obtain ⟨hread, hpos, hstop, hle⟩ := exists_step lexeme.2 htext
    rw [hbefore] at hstop
    obtain ⟨tokens, hlater, htiles⟩ := ih _ hread hstop
    have hword : 0 < word.utf8ByteSize := hpos
    have hbound : stop ≤ Span.maxOffset := hstop.symm.trans_le (le_trans hle hsize)
    have hspan : Span.ofRange offset stop = ⟨offset, stop⟩ :=
      Span.ofRange_of_le (le_trans (Nat.le_add_right _ _) hbound) hbound
    let t : Token := ⟨kind, word, ⟨offset, stop⟩⟩
    refine ⟨t :: tokens, ?_, Tiles.token (t := t) ?_ ⟨?_, ?_⟩ htiles⟩
    · rw [lexFrom]
      simp only [show (Scan.scan c rest).1 = .token kind from hkind]
      rw [List.cons_append, ← hlater]
      exact congrArg (fun span => (⟨kind, word, span⟩ : Token) :: _) hspan
    · exact Nat.lt_add_of_pos_right hword
    · refine ⟨String.ofList before, String.ofList (rest.drop lexeme.2), ?_, hbefore, rfl⟩
      rw [hread, String.ofList_append, String.ofList_append]
    · exact lex_scan hkind (le_trans (Nat.le_add_left word.utf8ByteSize offset) hbound)
  | case3 offset c rest lexeme word stop hother ih =>
    intro before htext hbefore
    obtain ⟨hread, hpos, hstop, -⟩ := exists_step lexeme.2 htext
    rw [hbefore] at hstop
    obtain ⟨tokens, hlater, htiles⟩ := ih _ hread hstop
    refine ⟨tokens, ?_, .skip (Nat.lt_add_of_pos_right hpos) ?_ htiles⟩
    · rw [lexFrom]
      split
      · rename_i kind hkind
        exact absurd hkind (hother kind)
      · exact hlater
    · exact ⟨before, _, _, hread, hbefore, rfl, Scan.skipped_of_scan hother⟩

end Token

/-- A text is cut into its tokens and what stands between them. -/
theorem lex_tiles {source : String} (hsize : source.utf8ByteSize ≤ Span.maxOffset) :
    ∃ tokens, lex source = tokens ++ [⟨.endOfFile, "", Span.point source.utf8ByteSize⟩] ∧
      Token.Tiles source 0 tokens :=
  Token.lexFrom_tiles hsize 0 source.toList [] (by simp) (by simp)

/-- What the tokens of a text, without the one that ends the file, have to do with the text. -/
structure Token.Lossless (source : String) (tokens : List Token) : Prop where
  kind_ne : ∀ t ∈ tokens, t.kind ≠ .endOfFile
  nonempty : ∀ t ∈ tokens, t.span.start < t.span.stop
  apart : tokens.Pairwise fun t u => t.span.stop ≤ u.span.start
  /-- Spans end at characters, and a token holds what stands there. -/
  slice : ∀ t ∈ tokens, Text.IsBoundary source t.span.start ∧ Text.IsBoundary source t.span.stop ∧
    Text.IsSlice source t.span.start t.span.stop t.text
  /-- What is in no token is a blank or belongs to a complete comment. -/
  between : ∀ offset < source.utf8ByteSize, (∀ t ∈ tokens, t.span.contains offset = false) →
    ∃ start stop, start ≤ offset ∧ offset < stop ∧ Token.Gap source start stop ∧
      ∀ t ∈ tokens, t.span.stop ≤ start ∨ stop ≤ t.span.start
  /-- A token, also one that is not recognized, is what is read from its own text alone. -/
  alone : ∀ t ∈ tokens, lex t.text = [⟨t.kind, t.text, ⟨0, t.text.utf8ByteSize⟩⟩,
    ⟨.endOfFile, "", Span.point t.text.utf8ByteSize⟩]

/-- The tokens of a text shorter than 2^32 bytes hold all of it but blanks and comments, and end
with the end of the file. -/
theorem lex_lossless (source : String) (hsize : source.utf8ByteSize < 2 ^ 32) :
    ∃ tokens, lex source = tokens ++ [⟨.endOfFile, "", Span.point source.utf8ByteSize⟩] ∧
      Token.Lossless source tokens := by
  obtain ⟨tokens, hlex, htiles⟩ := lex_tiles (Nat.le_of_lt_succ hsize)
  obtain ⟨tokens', last, hlex', hkinds, -⟩ := exists_lex source
  obtain rfl : tokens' = tokens := (List.append_inj' (hlex'.symm.trans hlex) rfl).1
  refine ⟨tokens', hlex,
    { kind_ne := hkinds
      nonempty := fun t ht => (htiles.reads t ht).1
      apart := htiles.apart
      slice := fun t ht => ?_
      between := fun offset hoffset hout => ?_
      alone := fun t ht => (htiles.reads t ht).2.alone }⟩
  · have hslice := (htiles.reads t ht).2.slice
    exact ⟨hslice.isBoundary_start, hslice.isBoundary_stop, hslice⟩
  · obtain ⟨t, ht, hin⟩ | ⟨start, stop, -, hgap⟩ := htiles.covers (Nat.zero_le offset) hoffset
    · rw [hout t ht] at hin
      cases hin
    · exact ⟨start, stop, hgap⟩

/-- A name in backticks that is not closed, a number whose base mark has no digit, a comment with
stars and an open comment. -/
theorem lex_lossless_open :
    let source := "\x60é\n0x>>=/***/\"a\\\n/*"
    source.utf8ByteSize < 2 ^ 32 ∧
      ∃ tokens, lex source = tokens ++ [⟨.endOfFile, "", Span.point source.utf8ByteSize⟩] ∧
        Token.Lossless source tokens :=
  ⟨by decide, lex_lossless _ (by decide)⟩

example : (lex "\x60é\n0x>>=/***/\"a\\\n/*").map (fun t => (t.kind, t.text)) =
    [(.unrecognized, "\x60é"), (.number, "0"), (.ident, "x"), (.gt, ">"), (.gt, ">"), (.eq, "="),
     (.unrecognized, "\"a"), (.unrecognized, "\\"), (.unrecognized, "/*"), (.endOfFile, "")] := by
  decide +kernel

end TolkAnalysis
