import Mathlib.Data.List.Infix
import Mathlib.Data.List.TakeWhile
import TolkAnalysis.Token.Basic
import TolkAnalysis.Token.Scan

/-!
# Lexemes that are read alone

A lexeme is the longest that fits, but how far it reaches depends only on the characters that
it takes: read without what follows it, it is the same lexeme (`Scan.scan_take`). What is skipped
between tokens is made of blanks or is one comment that ends where it is cut off
(`Scan.skipped_of_scan`).

A delimiter or an operator has one spelling, so the text of such a token of a source is known from
its kind: `spells_lex`.
-/

namespace TolkAnalysis

namespace Scan

variable {p : Char → Bool} {c : Char} {cs rest : List Char}

/-! ### Runs and bodies -/

theorem take_run (p : Char → Bool) (cs : List Char) : cs.take (run p cs) = cs.takeWhile p :=
  (List.prefix_iff_eq_take.mp (List.takeWhile_prefix p)).symm

/-- A run is found again in every part of the text that holds it. -/
theorem run_take {n : Nat} (h : run p cs ≤ n) : run p (cs.take n) = run p cs := by
  induction cs generalizing n with
  | nil => rw [List.take_nil]
  | cons c cs ih =>
      unfold run at ih h ⊢
      cases hc : p c with
      | true =>
          rw [List.takeWhile_cons_of_pos hc, List.length_cons] at h
          obtain ⟨m, rfl⟩ : ∃ m, n = m + 1 := ⟨n - 1, by omega⟩
          rw [List.take_succ_cons, List.takeWhile_cons_of_pos hc, List.takeWhile_cons_of_pos hc,
            List.length_cons, List.length_cons, ih (Nat.le_of_succ_le_succ h)]
      | false =>
          cases n with
          | zero => rw [List.take_zero, List.takeWhile_cons_of_neg (by simp [hc])]; rfl
          | succ n =>
              rw [List.take_succ_cons, List.takeWhile_cons_of_neg (by simp [hc]),
                List.takeWhile_cons_of_neg (by simp [hc])]

/-- After a run stands nothing or a character of another class. -/
theorem not_of_head?_drop_run (p : Char → Bool) (cs : List Char) :
    ∀ c ∈ (cs.drop (run p cs)).head?, p c = false := by
  induction cs with
  | nil => simp
  | cons c cs ih =>
      intro d hd
      unfold run at ih hd
      cases hc : p c with
      | true =>
          rw [List.takeWhile_cons_of_pos hc] at hd
          exact ih d hd
      | false =>
          rw [List.takeWhile_cons_of_neg (by simp [hc])] at hd
          obtain rfl : c = d := by simpa using hd
          exact hc

/-- The end of the first `*/` is found, and it lies in no shorter text. -/
theorem commentEnd?_take {n : Nat} (h : commentEnd? cs = some n) :
    commentEnd? (cs.take n) = some n := by
  fun_induction commentEnd? cs generalizing n with
  | case1 => cases h
  | case2 cs =>
      cases h
      rfl
  | case3 c cs hne ih =>
      obtain ⟨m, hm, rfl⟩ := Option.map_eq_some_iff.mp h
      rw [List.take_succ_cons]
      have hother : ∀ tail : List Char, c = '*' → cs.take m = '/' :: tail → False := by
        intro tail hstar htail
        have hhead := congrArg List.head? htail
        cases cs with
        | nil => simp at htail
        | cons d ds =>
            cases m with
            | zero => simp at htail
            | succ m =>
                obtain rfl : d = '/' := by simpa using hhead
                exact hne ds hstar rfl
      rw [commentEnd?]
      · rw [ih hm]
        rfl
      · exact hother

/-- A comment takes its first `*/` and nothing after it. -/
theorem exists_of_commentEnd? {n : Nat} (h : commentEnd? cs = some n) :
    ∃ body, cs.take n = body ++ ['*', '/'] ∧ ¬['*', '/'] <:+: body ++ ['*'] := by
  fun_induction commentEnd? cs generalizing n with
  | case1 => cases h
  | case2 cs =>
      cases h
      refine ⟨[], rfl, fun hin => ?_⟩
      have hlength := hin.length_le
      simp at hlength
  | case3 c cs hne ih =>
      obtain ⟨m, hm, rfl⟩ := Option.map_eq_some_iff.mp h
      obtain ⟨body, htake, hfirst⟩ := ih hm
      refine ⟨c :: body, by rw [List.take_succ_cons, htake]; rfl, fun hin => ?_⟩
      rcases List.infix_cons_iff.mp hin with hstart | hin
      · -- A mark at the very beginning would have been found there.
        obtain ⟨hstar, hslash⟩ := List.cons_prefix_cons.mp hstart
        have hcs : ['/'] <+: cs.take m := by
          rw [htake]
          exact hslash.trans ⟨['/'], List.append_assoc body ['*'] ['/']⟩
        obtain ⟨tail, htail⟩ := hcs.trans (List.take_prefix m cs)
        exact hne tail hstar.symm htail.symm
      · exact hfirst hin

theorem stringBody_take (cs : List Char) :
    stringBody (cs.take (stringBody cs).1) = stringBody cs := by
  fun_induction stringBody cs with
  | case1 => rfl
  | case2 cs => rfl
  | case3 cs => rfl
  | case4 => rfl
  | case5 cs => rfl
  | case6 c cs hc n closed hbody ih =>
      rw [hbody] at ih
      dsimp only at ih ⊢
      rw [List.take_succ_cons, List.take_succ_cons, stringBody, ih]
      exact hc
  | case7 c cs hquote hline hlast hescaped hescape n closed hbody ih =>
      rw [hbody] at ih
      have hslash : c ≠ '\\' := by
        intro hc
        cases cs with
        | nil => exact hlast hc rfl
        | cons d cs => exact hescape d cs hc rfl
      dsimp only at ih ⊢
      rw [List.take_succ_cons, stringBody, ih]
      · exact hquote
      · exact hline
      · exact fun hc _ => hslash hc
      · exact fun _ hc _ => hslash hc
      · exact fun _ _ hc _ => hslash hc

/-! ### One lexeme -/

theorem afterSlash_take (rest : List Char) :
    afterSlash (rest.take (afterSlash rest).2) = afterSlash rest := by
  fun_cases afterSlash rest with
  | case1 cs =>
      rw [Nat.add_comm, List.take_succ_cons, afterSlash, run_take le_rfl, Nat.add_comm]
  | case2 cs n hn =>
      rw [Nat.add_comm, List.take_succ_cons, afterSlash, commentEnd?_take hn]
      exact congrArg _ (Nat.add_comm 1 n)
  | case3 cs hn =>
      rw [Nat.add_comm, List.take_succ_cons, List.take_length, afterSlash, hn, Nat.add_comm]
  | case4 cs => rfl
  | case5 hline hblock hassign => rfl

theorem afterBacktick_take (rest : List Char) :
    afterBacktick (rest.take (afterBacktick rest).2) = afterBacktick rest := by
  fun_cases afterBacktick rest with
  | case1 body h =>
      have hbody : run (fun c => c ≠ '\x60' && c ≠ '\n') (rest.take (body + 1)) = body :=
        run_take (Nat.le_succ body)
      have hmark : ((rest.take (body + 1)).drop body).head? = some '\x60' := by
        rw [List.drop_take, Nat.add_sub_cancel_left, List.head?_take, if_neg Nat.one_ne_zero]
        exact h.2
      unfold afterBacktick
      dsimp only
      rw [hbody, if_pos ⟨h.1, hmark⟩]
  | case2 body h =>
      have hbody : run (fun c => c ≠ '\x60' && c ≠ '\n') (rest.take body) = body := run_take le_rfl
      have hopen : ¬(0 < body ∧ ((rest.take body).drop body).head? = some '\x60') := by
        simp
      unfold afterBacktick
      dsimp only
      rw [hbody, if_neg hopen]

theorem afterQuote_take (rest : List Char) :
    afterQuote (rest.take (afterQuote rest).2) = afterQuote rest := by
  unfold afterQuote
  dsimp only
  rw [stringBody_take]

theorem afterDigit_take (c : Char) (rest : List Char) :
    afterDigit c (rest.take (afterDigit c rest).2) = afterDigit c rest := by
  cases rest with
  | nil => rfl
  | cons x cs =>
      by_cases hhex : (c = '0' && (x = 'x' || x = 'X') && 0 < run isHexPart cs) = true
      · simp only [afterDigit, hhex, if_true, Option.getD_some, Nat.add_comm 1, List.take_succ_cons,
          run_take le_rfl]
      by_cases hbinary : (c = '0' && (x = 'b' || x = 'B') && 0 < run isBinaryPart cs) = true
      · have hmark : (x = 'x' || x = 'X') = false := by
          simp only [Bool.and_eq_true, Bool.or_eq_true, decide_eq_true_eq] at hbinary
          obtain ⟨⟨-, rfl | rfl⟩, -⟩ := hbinary <;> rfl
        simp only [afterDigit, hmark, hbinary, Bool.and_false, Bool.false_and, Bool.false_eq_true,
          if_false, if_true, Option.getD_none, Option.getD_some, Nat.add_comm 1,
          List.take_succ_cons, run_take le_rfl]
      · have hlength : afterDigit c (x :: cs) = (.token .number, run isDecimalPart (x :: cs)) := by
          simp only [afterDigit, hhex, hbinary, Bool.false_eq_true, if_false, Option.getD_none]
        rw [hlength]
        dsimp only
        cases hx : isDecimalPart x with
        | false => 
            have hnone : run isDecimalPart (x :: cs) = 0 := by
              rw [run, List.takeWhile_cons_of_neg (by simp [hx]), List.length_nil]
            rw [hnone]
            rfl
        | true =>
            -- A digit after the first one is no base mark.
            have hmarks : (x = 'x' || x = 'X') = false ∧ (x = 'b' || x = 'B') = false := by
              constructor <;> by_contra hmark <;>
                simp only [Bool.not_eq_false, Bool.or_eq_true, decide_eq_true_eq] at hmark <;>
                rcases hmark with rfl | rfl <;> cases hx
            have hrun : run isDecimalPart (x :: cs) = run isDecimalPart cs + 1 := by
              rw [run, List.takeWhile_cons_of_pos hx, List.length_cons, run]
            have hagain : run isDecimalPart ((x :: cs).take _) = run isDecimalPart (x :: cs) :=
              run_take le_rfl
            rw [hrun, List.take_succ_cons] at hagain ⊢
            simp only [afterDigit, hmarks, Bool.and_false, Bool.false_and, Bool.false_eq_true,
              if_false, Option.getD_none, hagain]

/-- The operator at the start of a text is the one that its spelling is. -/
theorem operator?_spelling {spelling : String} {kind : TokenKind}
    (h : operator? cs = some (spelling, kind)) :
    operator? spelling.toList = some (spelling, kind) := by
  obtain ⟨hfits, before, after, hsplit, hbefore⟩ := List.find?_eq_some_iff_append.mp h
  refine List.find?_eq_some_iff_append.mpr ⟨?_, before, after, hsplit, fun entry hentry => ?_⟩
  · exact List.isPrefixOf_iff_prefix.mpr (List.prefix_refl _)
  · have hearlier := hbefore entry hentry
    simp only [Bool.not_eq_true', Bool.eq_false_iff, ne_eq, List.isPrefixOf_iff_prefix]
      at hearlier hfits ⊢
    exact fun hshort => hearlier (hshort.trans hfits)

/-- Where no operator begins, none begins with the first character alone. -/
theorem operator?_single (h : operator? (c :: rest) = none) : operator? [c] = none := by
  refine List.find?_eq_none.mpr fun entry hentry hshort => ?_
  rw [List.isPrefixOf_iff_prefix] at hshort
  refine List.find?_eq_none.mp h entry hentry (List.isPrefixOf_iff_prefix.mpr ?_)
  exact hshort.trans (List.cons_prefix_cons.mpr ⟨rfl, List.nil_prefix⟩)

/-- An operator is what is written. -/
theorem spelling_of_operator? {spelling : String} {kind : TokenKind}
    (h : operator? (c :: rest) = some (spelling, kind)) :
    spelling.toList = c :: rest.take (spelling.length - 1) := by
  have hnonempty : ∀ entry ∈ TokenKind.operators, entry.1.toList ≠ [] := by decide
  obtain ⟨hfits, -⟩ := List.find?_eq_some_iff_append.mp h
  obtain ⟨tail, htail⟩ := List.isPrefixOf_iff_prefix.mp hfits
  have hne := hnonempty _ (List.mem_of_find?_eq_some h)
  dsimp only at htail hne
  rw [← String.length_toList]
  cases hspelling : spelling.toList with
  | nil => exact absurd hspelling hne
  | cons d ds =>
      rw [hspelling] at htail
      obtain ⟨rfl, rfl⟩ := List.cons_eq_cons.mp htail
      simp

/-- A lexeme that is read alone is the same lexeme. -/
theorem scan_take (c : Char) (rest : List Char) :
    scan c (rest.take (scan c rest).2) = scan c rest := by
  fun_cases scan c rest with
  | case1 hblank => rw [scan, if_pos hblank, run_take le_rfl]
  | case2 hblank hslash => rw [scan, if_neg hblank, if_pos hslash, afterSlash_take]
  | case3 hblank hslash hword n =>
      rw [scan, if_neg hblank, if_neg hslash, if_pos hword]
      dsimp only
      rw [run_take le_rfl, List.take_take, Nat.min_self]
  | case4 hblank hslash hword hmark =>
      rw [scan, if_neg hblank, if_neg hslash, if_neg hword, if_pos hmark, afterBacktick_take]
  | case5 hblank hslash hword hmark hdigit =>
      rw [scan, if_neg hblank, if_neg hslash, if_neg hword, if_neg hmark, if_pos hdigit,
        afterDigit_take]
  | case6 hblank hslash hword hmark hdigit hquote =>
      rw [scan, if_neg hblank, if_neg hslash, if_neg hword, if_neg hmark, if_neg hdigit,
        if_pos hquote, afterQuote_take]
  | case7 hblank hslash hword hmark hdigit hquote spelling kind hoperator =>
      rw [scan, if_neg hblank, if_neg hslash, if_neg hword, if_neg hmark, if_neg hdigit,
        if_neg hquote, ← spelling_of_operator? hoperator, operator?_spelling hoperator]
  | case8 hblank hslash hword hmark hdigit hquote hoperator =>
      rw [scan, if_neg hblank, if_neg hslash, if_neg hword, if_neg hmark, if_neg hdigit,
        if_neg hquote, List.take_zero, operator?_single hoperator]

/-! ### What is skipped -/

/-- A complete comment in front of what follows it: a line comment takes the rest of its line, a
block comment ends at its first end mark. -/
inductive Comment : List Char → List Char → Prop
  | line {body after : List Char} (inside : '\n' ∉ body) (ends : ∀ c ∈ after.head?, c = '\n') :
      Comment ('/' :: '/' :: body) after
  | block {body after : List Char} (first : ¬['*', '/'] <:+: body ++ ['*']) :
      Comment ('/' :: '*' :: (body ++ ['*', '/'])) after

/-- What may stand between tokens, in front of what follows it: blanks, or a complete comment. -/
def Skipped (word after : List Char) : Prop := (∀ c ∈ word, isBlank c = true) ∨ Comment word after

theorem comment_of_afterSlash (h : (afterSlash rest).1 = .comment) :
    Comment ('/' :: rest.take (afterSlash rest).2) (rest.drop (afterSlash rest).2) := by
  revert h
  fun_cases afterSlash rest with
  | case1 cs =>
      intro h
      rw [Nat.add_comm, List.take_succ_cons, List.drop_succ_cons, take_run]
      refine .line (fun hline => ?_) fun c hc => ?_
      · simpa using List.mem_takeWhile_imp hline
      · simpa using not_of_head?_drop_run _ _ c hc
  | case2 cs n hn =>
      intro h
      rw [Nat.add_comm, List.take_succ_cons, List.drop_succ_cons]
      obtain ⟨body, hbody, hfirst⟩ := exists_of_commentEnd? hn
      rw [hbody]
      exact .block hfirst
  | case3 cs hn => exact fun h => nomatch h
  | case4 cs => exact fun h => nomatch h
  | case5 hline hblock hassign => exact fun h => nomatch h

theorem token_or_comment_of_afterSlash (rest : List Char) :
    (∃ kind, (afterSlash rest).1 = .token kind) ∨ (afterSlash rest).1 = .comment := by
  fun_cases afterSlash rest with
  | case1 cs => exact .inr rfl
  | case2 cs n hn => exact .inr rfl
  | case3 cs hn => exact .inl ⟨_, rfl⟩
  | case4 cs => exact .inl ⟨_, rfl⟩
  | case5 hline hblock hassign => exact .inl ⟨_, rfl⟩

theorem exists_token_of_afterBacktick (rest : List Char) :
    ∃ kind, (afterBacktick rest).1 = .token kind := by
  unfold afterBacktick
  dsimp only
  split
  · exact ⟨_, rfl⟩
  · exact ⟨_, rfl⟩

/-- A lexeme that is no token may stand between tokens. -/
theorem skipped_of_scan (h : ∀ kind, (scan c rest).1 ≠ .token kind) :
    Skipped (c :: rest.take (scan c rest).2) (rest.drop (scan c rest).2) := by
  revert h
  fun_cases scan c rest with
  | case1 hblank =>
      refine fun _ => .inl fun d hd => ?_
      dsimp only at hd
      rw [take_run] at hd
      rcases List.mem_cons.mp hd with rfl | hd
      · exact hblank
      · exact List.mem_takeWhile_imp hd
  | case2 hblank hslash =>
      intro h
      obtain ⟨kind, hkind⟩ | hcomment := token_or_comment_of_afterSlash rest
      · exact absurd hkind (h kind)
      · exact .inr (hslash ▸ comment_of_afterSlash hcomment)
  | case3 hblank hslash hword n => exact fun h => absurd rfl (h _)
  | case4 hblank hslash hword hmark =>
      obtain ⟨kind, hkind⟩ := exists_token_of_afterBacktick rest
      exact fun h => absurd hkind (h kind)
  | case5 hblank hslash hword hmark hdigit => exact fun h => absurd rfl (h _)
  | case6 hblank hslash hword hmark hdigit hquote => exact fun h => absurd rfl (h _)
  | case7 hblank hslash hword hmark hdigit hquote spelling kind hoperator =>
      exact fun h => absurd rfl (h _)
  | case8 hblank hslash hword hmark hdigit hquote hoperator => exact fun h => absurd rfl (h _)

end Scan

/-! ### How operators are spelled -/

namespace TokenKind

/-- A text is the spelling of a kind, if that is one of a delimiter or an operator. -/
def Spells (kind : TokenKind) (text : String) : Prop :=
  ∀ spelling, (spelling, kind) ∈ operators → text = spelling

/-- Only one spelling belongs to a kind. -/
theorem spelling_unique : ∀ p ∈ operators, ∀ q ∈ operators, p.2 = q.2 → p.1 = q.1 := by
  decide +kernel

/-- What is no delimiter and no operator may be written in any way. -/
theorem Spells.of_forall {kind : TokenKind} {text : String} (h : ∀ p ∈ operators, p.2 ≠ kind) :
    kind.Spells text :=
  fun _ hmem => absurd rfl (h _ hmem)

theorem Spells.of_mem {kind : TokenKind} {text : String} (h : (text, kind) ∈ operators) :
    kind.Spells text :=
  fun _ hmem => spelling_unique _ h _ hmem rfl

end TokenKind

namespace Scan

variable {c : Char} {rest : List Char} {kind : TokenKind}

theorem spells_wordKind (word text : String) : (wordKind word).Spells text := by
  have hkeywords : ∀ k ∈ TokenKind.keywords, ∀ p ∈ TokenKind.operators, p.2 ≠ k.2 := by
    decide +kernel
  refine .of_forall ?_
  unfold wordKind
  split
  · decide
  · cases hfind : TokenKind.keywords.find? (·.1 = word) with
    | none => decide
    | some k => exact hkeywords k (List.mem_of_find?_eq_some hfind)

theorem spells_afterSlash (h : (afterSlash rest).1 = .token kind) :
    kind.Spells (String.ofList ('/' :: rest.take (afterSlash rest).2)) := by
  unfold afterSlash at h ⊢
  split at h
  · cases h
  · split at h <;> cases h
    exact .of_forall (by decide)
  · cases h
    exact .of_mem (show ("/=", TokenKind.slashAssign) ∈ TokenKind.operators by decide)
  · cases h
    exact .of_mem (show ("/", TokenKind.slash) ∈ TokenKind.operators by decide)

/-- A token is written as its kind says. -/
theorem spells_scan (h : (scan c rest).1 = .token kind) :
    kind.Spells (String.ofList (c :: rest.take (scan c rest).2)) := by
  fun_cases scan c rest with
  | case1 hblank =>
    rw [scan, if_pos hblank] at h
    cases h
  | case2 hblank hslash =>
    subst hslash
    rw [scan, if_neg hblank, if_pos rfl] at h
    exact spells_afterSlash h
  | case3 hblank hslash hword n =>
    rw [scan, if_neg hblank, if_neg hslash, if_pos hword] at h
    cases h
    exact spells_wordKind _ _
  | case4 hblank hslash hword hmark =>
    rw [scan, if_neg hblank, if_neg hslash, if_neg hword, if_pos hmark, afterBacktick] at h
    split at h <;> cases h <;> exact .of_forall (by decide)
  | case5 hblank hslash hword hmark hdigit =>
    rw [scan, if_neg hblank, if_neg hslash, if_neg hword, if_neg hmark, if_pos hdigit] at h
    cases h
    exact .of_forall (by decide)
  | case6 hblank hslash hword hmark hdigit hquote =>
    rw [scan, if_neg hblank, if_neg hslash, if_neg hword, if_neg hmark, if_neg hdigit,
      if_pos hquote, afterQuote] at h
    dsimp only at h
    cases h
    refine .of_forall ?_
    split <;> decide
  | case7 hblank hslash hword hmark hdigit hquote spelling kind' hoperator =>
    rw [scan, if_neg hblank, if_neg hslash, if_neg hword, if_neg hmark, if_neg hdigit,
      if_neg hquote, hoperator] at h
    cases h
    rw [← spelling_of_operator? hoperator, String.ofList_toList]
    exact .of_mem (List.mem_of_find?_eq_some hoperator)
  | case8 hblank hslash hword hmark hdigit hquote hoperator =>
    rw [scan, if_neg hblank, if_neg hslash, if_neg hword, if_neg hmark, if_neg hdigit,
      if_neg hquote, hoperator] at h
    cases h
    exact .of_forall (by decide)

end Scan

theorem Token.spells_lexFrom (offset : Nat) (cs : List Char) :
    ∀ t ∈ lexFrom offset cs, t.kind.Spells t.text := by
  induction offset, cs using lexFrom.induct with
  | case1 offset =>
    rw [lexFrom]
    rintro t (_ | ⟨_, ⟨⟩⟩)
    exact .of_forall (show ∀ p ∈ TokenKind.operators, p.2 ≠ TokenKind.endOfFile by decide)
  | case2 offset c rest lexeme word stop kind hkind ih =>
    rw [lexFrom]
    simp only [show (Scan.scan c rest).1 = .token kind from hkind]
    rintro t (_ | ⟨_, ht⟩)
    · exact Scan.spells_scan hkind
    · exact ih t ht
  | case3 offset c rest lexeme word stop hother ih =>
    rw [lexFrom]
    split
    · rename_i kind hkind
      exact absurd hkind (hother kind)
    · exact ih

/-- The delimiters and operators of a source are written as their kinds say. -/
theorem spells_lex (source : String) : ∀ t ∈ lex source, t.kind.Spells t.text :=
  Token.spells_lexFrom 0 source.toList

end TolkAnalysis
