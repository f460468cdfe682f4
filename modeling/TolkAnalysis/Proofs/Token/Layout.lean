import Mathlib.Data.Nat.Basic
import Mathlib.Order.Basic
import TolkAnalysis.Proofs.Text.Boundary
import TolkAnalysis.Token.Basic

/-!
# Tokens in the order of the text

`Token.Laid text lo tokens` says that a list of tokens stands in a text from the offset `lo`
on: every token but the last covers some characters, it begins where the one before it has
ended or later, and the last token ends the file. The main lemma says this of the tokens of a
text whose offsets all fit a span.
-/

namespace TolkAnalysis

namespace Token

/-- The tokens stand in the text from `lo` on, one after the other, up to the end of the
file. -/
inductive Laid (text : String) : Nat → List Token → Prop
  | last {lo : Nat} {t : Token} (kind_eq : t.kind = .endOfFile)
      (span_eq : t.span = Span.point text.utf8ByteSize) (le : lo ≤ text.utf8ByteSize) :
      Laid text lo [t]
  | cons {lo : Nat} {t : Token} {rest : List Token} (kind_ne : t.kind ≠ .endOfFile)
      (le : lo ≤ t.span.start) (lt : t.span.start < t.span.stop)
      (start : Text.IsBoundary text t.span.start) (stop : Text.IsBoundary text t.span.stop)
      (later : Laid text t.span.stop rest) : Laid text lo (t :: rest)

namespace Laid

variable {text : String} {lo : Nat} {tokens : List Token}

theorem mono {lo' : Nat} (h : Laid text lo tokens) (hle : lo' ≤ lo) : Laid text lo' tokens := by
  cases h with
  | last hkind hspan hlo => exact .last hkind hspan (le_trans hle hlo)
  | cons hkind hlo hlt hstart hstop hrest =>
      exact .cons hkind (le_trans hle hlo) hlt hstart hstop hrest

theorem le_size (h : Laid text lo tokens) : lo ≤ text.utf8ByteSize := by
  cases h with
  | last _ _ hlo => exact hlo
  | cons _ hlo hlt _ hstop _ => exact le_trans (le_trans hlo hlt.le) hstop.le_size

end Laid

/-- No word is read as the end of the file. -/
theorem wordKind_ne_endOfFile (word : String) : Scan.wordKind word ≠ .endOfFile := by
  have hkeywords : ∀ p ∈ TokenKind.keywords, p.2 ≠ TokenKind.endOfFile := by decide
  unfold Scan.wordKind
  split
  · decide
  · cases hfind : TokenKind.keywords.find? (·.1 = word) with
    | none => decide
    | some p => exact hkeywords p (List.mem_of_find?_eq_some hfind)

/-- No operator is read as the end of the file. -/
theorem operator?_ne_endOfFile {cs : List Char} {p : String × TokenKind}
    (h : Scan.operator? cs = some p) : p.2 ≠ .endOfFile := by
  have hoperators : ∀ p ∈ TokenKind.operators, p.2 ≠ TokenKind.endOfFile := by decide
  exact hoperators p (List.mem_of_find?_eq_some h)

/-- No lexeme is the end of the file. -/
theorem scan_ne_endOfFile (c : Char) (rest : List Char) :
    (Scan.scan c rest).1 ≠ .token .endOfFile := by
  unfold Scan.scan
  split
  · simp
  split
  · unfold Scan.afterSlash
    split <;> try split
    all_goals simp
  split
  · simpa using wordKind_ne_endOfFile _
  split
  · unfold Scan.afterBacktick
    simp only
    split <;> simp
  split
  · simp [Scan.afterDigit]
  split
  · unfold Scan.afterQuote
    simp only
    split <;> simp
  split
  · rename_i hop
    simpa using operator?_ne_endOfFile hop
  · simp

/-- A text read up to the character `c` may be read `n` characters further. -/
theorem eq_append_take_drop {text before : String} {c : Char} {rest : List Char} (n : Nat)
    (h : text = before ++ String.ofList (c :: rest)) :
    text = (before ++ String.ofList (c :: rest.take n)) ++ String.ofList (rest.drop n) := by
  rw [h, String.append_assoc, ← String.ofList_append, List.cons_append, List.take_append_drop]

/-- The tokens of what is left of a text are laid out from where it begins. -/
theorem lexFrom_laid {text : String} (hsize : text.utf8ByteSize ≤ Span.maxOffset)
    (offset : Nat) (cs : List Char) :
    ∀ before : String, text = before ++ String.ofList cs → before.utf8ByteSize = offset →
      Laid text offset (lexFrom offset cs) := by
  -- The induction follows the lexemes: what has been read so far stays a prefix of the text.
  induction offset, cs using lexFrom.induct with
  | case1 offset =>
    intro before htext hbefore
    have hoffset : offset = text.utf8ByteSize := by rw [htext, ← hbefore]; simp
    subst hoffset
    rw [lexFrom]
    exact .last rfl (by simp [endOfFile, Span.ofRange_of_le hsize hsize, Span.point]) le_rfl
  | case2 offset c rest lexeme word stop kind hkind ih =>
    intro before htext hbefore
    have hread := eq_append_take_drop lexeme.2 htext
    have hstop : (before ++ word).utf8ByteSize = stop := by
      rw [String.utf8ByteSize_append, hbefore]
    have hboundary : Text.IsBoundary text stop := ⟨before ++ word, _, hread, hstop⟩
    have hle : stop ≤ Span.maxOffset := le_trans hboundary.le_size hsize
    have hlt : offset < stop := by
      have hword : word.utf8ByteSize ≠ 0 := by
        rw [Ne, String.utf8ByteSize_eq_zero_iff]
        simp [word]
      change offset < offset + word.utf8ByteSize
      omega
    have hspan : Span.ofRange offset stop = ⟨offset, stop⟩ :=
      Span.ofRange_of_le (le_trans hlt.le hle) hle
    have hlater := ih (before ++ word) hread hstop
    rw [lexFrom]
    simp only [show (Scan.scan c rest).1 = .token kind from hkind]
    refine .cons ?_ ?_ ?_ ?_ ?_ ?_
    · rintro rfl
      exact scan_ne_endOfFile c rest hkind
    · exact hspan ▸ le_rfl
    · exact hspan ▸ hlt
    · exact hspan ▸ ⟨before, _, htext, hbefore⟩
    · exact hspan ▸ hboundary
    · exact hspan ▸ hlater
  | case3 offset c rest lexeme word stop hother ih =>
    intro before htext hbefore
    have hstop : (before ++ word).utf8ByteSize = stop := by
      rw [String.utf8ByteSize_append, hbefore]
    have hlater := ih (before ++ word) (eq_append_take_drop lexeme.2 htext) hstop
    rw [lexFrom]
    split
    · rename_i kind hkind
      exact absurd hkind (hother kind)
    · exact hlater.mono (Nat.le_add_right _ _)

end Token

/-- The tokens of a text are laid out in it. -/
theorem lex_laid {text : String} (hsize : text.utf8ByteSize ≤ Span.maxOffset) :
    Token.Laid text 0 (lex text) :=
  Token.lexFrom_laid hsize 0 text.toList "" (by simp) (by simp)

end TolkAnalysis
