import Mathlib.Data.List.Find
import TolkAnalysis.Proofs.Token.Respelled

/-!
# Names in backticks

A lexeme looks at what follows it only to find out where it ends, and neither the beginning of a
name nor a backtick lets it go on (`Scan.scan_of_mark`). So a text in which names are written in
backticks, `Text.inBackticksAt`, is cut into the same lexemes as before, but for those names
(`Text.lexemes_inBackticksAt`).
-/

namespace TolkAnalysis

namespace Scan

variable {p t t' : List Char} {c d : Char}

/-! ### A backtick in place of the beginning of a name -/

theorem ne_of_isWordStart {e : Char} (hd : isWordStart d = true) (he : isWordStart e = false) :
    d ≠ e := by
  rintro rfl
  rw [hd] at he
  cases he

section Run

variable {q : Char → Bool}

theorem run_cons_of_pos {cs : List Char} (hc : q c = true) : run q (c :: cs) = run q cs + 1 := by
  rw [run, List.takeWhile_cons_of_pos hc, List.length_cons, run]

theorem run_cons_of_neg {cs : List Char} (hc : q c = false) : run q (c :: cs) = 0 := by
  rw [run, List.takeWhile_cons_of_neg (by rw [hc]; exact Bool.false_ne_true), List.length_nil]

theorem run_of_mark (hq : q d = true ∨ q '\x60' = false)
    (h : run q (p ++ d :: t) ≤ p.length) : run q (p ++ '\x60' :: t') = run q (p ++ d :: t) := by
  induction p with
  | nil =>
      cases hd : q d with
      | true =>
          rw [List.nil_append, run_cons_of_pos hd] at h
          exact absurd h (Nat.not_succ_le_zero _)
      | false =>
          have hmark : q '\x60' = false := hq.resolve_left (by rw [hd]; exact Bool.false_ne_true)
          rw [List.nil_append, List.nil_append, run_cons_of_neg hd, run_cons_of_neg hmark]
  | cons e p ih =>
      rw [List.cons_append] at h
      rw [List.cons_append, List.cons_append]
      cases he : q e with
      | true =>
          rw [run_cons_of_pos he] at h
          rw [run_cons_of_pos he, run_cons_of_pos he, ih (Nat.le_of_succ_le_succ h)]
      | false => rw [run_cons_of_neg he, run_cons_of_neg he]

/-- A run that could go on with the next character has ended before. -/
theorem run_lt_of_pos (hd : q d = true) (h : run q (p ++ d :: t) ≤ p.length) :
    run q (p ++ d :: t) < p.length := by
  induction p with
  | nil =>
      rw [List.nil_append, run_cons_of_pos hd] at h
      exact absurd h (Nat.not_succ_le_zero _)
  | cons e p ih =>
      rw [List.cons_append] at h ⊢
      cases he : q e with
      | true =>
          rw [run_cons_of_pos he] at h ⊢
          exact Nat.succ_lt_succ (ih (Nat.le_of_succ_le_succ h))
      | false =>
          rw [run_cons_of_neg he]
          exact Nat.succ_pos _

end Run

/-- The end of a comment is found whatever follows it. -/
theorem commentEnd?_append {cs after : List Char} {n : Nat} (h : commentEnd? cs = some n) :
    commentEnd? (cs ++ after) = some n := by
  fun_induction commentEnd? cs generalizing n with
  | case1 => cases h
  | case2 cs => exact h
  | case3 c cs hne ih =>
      obtain ⟨m, hm, rfl⟩ := Option.map_eq_some_iff.mp h
      rw [List.cons_append, commentEnd?, ih hm]
      · rfl
      · intro tail hstar htail
        cases cs with
        | nil => cases hm
        | cons e cs =>
            rw [List.cons_append] at htail
            exact hne cs hstar (by rw [(List.cons.inj htail).1])

theorem commentEnd?_of_mark {n : Nat} (h : commentEnd? (p ++ d :: t) = some n)
    (hn : n ≤ p.length) : commentEnd? (p ++ '\x60' :: t') = some n := by
  have hread := commentEnd?_take h
  rw [List.take_append_of_le_length hn] at hread
  have hagain : commentEnd? (p.take n ++ (p.drop n ++ '\x60' :: t')) = some n :=
    commentEnd?_append hread
  rwa [← List.append_assoc, List.take_append_drop] at hagain

theorem stringBody_of_other {cs : List Char} (hquote : c ≠ '"') (hline : c ≠ '\n')
    (hescape : c ≠ '\\') :
    stringBody (c :: cs) = ((stringBody cs).1 + 1, (stringBody cs).2) := by
  rw [stringBody]
  · exact hquote
  · exact hline
  · exact fun hc _ => hescape hc
  · exact fun _ hc _ => hescape hc
  · exact fun _ _ hc _ => hescape hc

theorem stringBody_of_mark (hd : isWordStart d = true)
    (h : (stringBody (p ++ d :: t)).1 ≤ p.length) :
    stringBody (p ++ '\x60' :: t') = stringBody (p ++ d :: t) := by
  have hother {e : Char} (he : isWordStart e = false) := ne_of_isWordStart hd he
  induction p using stringBody.induct with
  | case1 =>
      rw [List.nil_append, stringBody_of_other (hother rfl) (hother rfl) (hother rfl)] at h
      exact absurd h (Nat.not_succ_le_zero _)
  | case2 p => rfl
  | case3 p => rfl
  | case4 =>
      rw [List.cons_append, List.nil_append, stringBody] at h
      · exact absurd h (by simp)
      · exact hother rfl
  | case5 p => rfl
  | case6 e p he n closed hbody ih =>
      have hescaped (tail : List Char) : stringBody ('\\' :: e :: tail) =
          ((stringBody tail).1 + 2, (stringBody tail).2) := by
        rw [stringBody]
        exact he
      rw [List.cons_append, List.cons_append, hescaped] at h ⊢
      rw [List.cons_append, List.cons_append, hescaped, ih (Nat.le_of_add_le_add_right h)]
  | case7 e p hquote hline hlast hescaped hescape n closed hbody ih =>
      have hslash : e ≠ '\\' := by
        intro hc
        cases p with
        | nil => exact hlast hc rfl
        | cons d p => exact hescape d p hc rfl
      rw [List.cons_append, stringBody_of_other hquote hline hslash] at h ⊢
      rw [List.cons_append, stringBody_of_other hquote hline hslash,
        ih (Nat.le_of_succ_le_succ h)]

theorem isPrefixOf_of_mark {s : List Char} (hd : d ∉ s) (hmark : '\x60' ∉ s) :
    s.isPrefixOf (p ++ '\x60' :: t') = s.isPrefixOf (p ++ d :: t) := by
  induction s generalizing p with
  | nil => rfl
  | cons e s ih =>
      rw [List.mem_cons, not_or] at hd hmark
      cases p with
      | nil =>
          rw [List.nil_append, List.nil_append, List.isPrefixOf, List.isPrefixOf,
            beq_eq_false_iff_ne.mpr (Ne.symm hd.1), beq_eq_false_iff_ne.mpr (Ne.symm hmark.1)]
          rfl
      | cons f p =>
          rw [List.cons_append, List.cons_append, List.isPrefixOf, List.isPrefixOf,
            ih hd.2 hmark.2]

theorem operator?_of_mark (hd : isWordStart d = true) :
    operator? (p ++ '\x60' :: t') = operator? (p ++ d :: t) := by
  have hall : ∀ entry ∈ TokenKind.operators,
      entry.1.toList.all (fun c => !isWordStart c && c ≠ '\x60') = true := by decide
  unfold operator?
  refine List.find?_congr fun entry hentry => isPrefixOf_of_mark (fun hmem => ?_) fun hmem => ?_
  · have hother := List.all_eq_true.mp (hall entry hentry) d hmem
    rw [hd] at hother
    cases hother
  · cases List.all_eq_true.mp (hall entry hentry) _ hmem

theorem afterSlash_of_other {cs : List Char} (hline : c ≠ '/') (hblock : c ≠ '*')
    (hassign : c ≠ '=') : afterSlash (c :: cs) = (.token .slash, 0) := by
  rw [afterSlash]
  · exact fun _ h => hline (List.cons.inj h).1
  · exact fun _ h => hblock (List.cons.inj h).1
  · exact fun _ h => hassign (List.cons.inj h).1

theorem afterSlash_of_mark (hd : isWordStart d = true)
    (h : (afterSlash (p ++ d :: t)).2 ≤ p.length) :
    afterSlash (p ++ '\x60' :: t') = afterSlash (p ++ d :: t) := by
  have hother {e : Char} (he : isWordStart e = false) := ne_of_isWordStart hd he
  cases p with
  | nil =>
      rw [List.nil_append, List.nil_append, afterSlash_of_other (hother rfl) (hother rfl) (hother rfl),
        afterSlash_of_other (by decide) (by decide) (by decide)]
  | cons e p =>
      rw [List.cons_append, List.length_cons] at h
      rw [List.cons_append, List.cons_append]
      by_cases hline : e = '/'
      · subst hline
        have hpos : decide (d ≠ '\n') = true := decide_eq_true (hother rfl)
        rw [afterSlash, Nat.add_comm] at h
        rw [afterSlash, afterSlash, run_of_mark (.inl hpos) (Nat.le_of_succ_le_succ h)]
      by_cases hblock : e = '*'
      · subst hblock
        rw [afterSlash] at h
        rw [afterSlash, afterSlash]
        cases hend : commentEnd? (p ++ d :: t) with
        | none =>
            -- An open comment takes all that is left.
            rw [hend] at h
            simp only [List.length_append, List.length_cons] at h
            omega
        | some n =>
            simp only [hend, Nat.add_comm 1] at h
            rw [commentEnd?_of_mark hend (Nat.le_of_succ_le_succ h)]
      by_cases hassign : e = '='
      · subst hassign
        rfl
      · rw [afterSlash_of_other hline hblock hassign, afterSlash_of_other hline hblock hassign]

theorem afterBacktick_of_mark (hd : isWordStart d = true)
    (h : (afterBacktick (p ++ d :: t)).2 ≤ p.length) :
    afterBacktick (p ++ '\x60' :: t') = afterBacktick (p ++ d :: t) := by
  have hpos : (d ≠ '\x60' && d ≠ '\n') = true := by
    rw [Bool.and_eq_true, decide_eq_true_eq, decide_eq_true_eq]
    exact ⟨ne_of_isWordStart hd rfl, ne_of_isWordStart hd rfl⟩
  have hbody : run (fun c => c ≠ '\x60' && c ≠ '\n') (p ++ d :: t) ≤ p.length := by
    unfold afterBacktick at h
    dsimp only at h
    split at h
    · exact Nat.le_of_succ_le h
    · exact h
  have hlt := run_lt_of_pos hpos hbody
  have hagain : run (fun c => c ≠ '\x60' && c ≠ '\n') (p ++ '\x60' :: t') = _ :=
    run_of_mark (.inl hpos) hbody
  unfold afterBacktick
  dsimp only
  rw [hagain]
  generalize run (fun c => c ≠ '\x60' && c ≠ '\n') (p ++ d :: t) = n at hlt
  have hhead (tail : List Char) : ((p ++ tail).drop n).head? = (p.drop n).head? := by
    rw [List.drop_append_of_le_length hlt.le, List.head?_append_of_ne_nil]
    exact List.drop_eq_nil_iff.not.mpr (Nat.not_le.mpr hlt)
  rw [hhead, hhead]

theorem afterQuote_of_mark (hd : isWordStart d = true)
    (h : (afterQuote (p ++ d :: t)).2 ≤ p.length) :
    afterQuote (p ++ '\x60' :: t') = afterQuote (p ++ d :: t) := by
  unfold afterQuote at h ⊢
  dsimp only at h ⊢
  rw [stringBody_of_mark hd h]

/-- A base mark is followed by a digit, or the number is decimal. -/
theorem afterDigit_cons (c x : Char) (cs : List Char) : afterDigit c (x :: cs) = (.token .number,
    if c = '0' && (x = 'x' || x = 'X') && 0 < run isHexPart cs then 1 + run isHexPart cs
    else if c = '0' && (x = 'b' || x = 'B') && 0 < run isBinaryPart cs then 1 + run isBinaryPart cs
    else run isDecimalPart (x :: cs)) := by
  unfold afterDigit
  dsimp only
  split <;> split <;> rfl

/-- After a base mark stand as many digits as before. -/
theorem digits_of_mark {mark : Bool} {part : Char → Bool} {n n' : Nat} (hpart : part '\x60' = false)
    (h : (if mark && 0 < run part (p ++ d :: t) then 1 + run part (p ++ d :: t) else n) ≤
      p.length + 1)
    (hn : n ≤ p.length + 1 → n' = n) :
    (if mark && 0 < run part (p ++ '\x60' :: t') then 1 + run part (p ++ '\x60' :: t') else n') =
      if mark && 0 < run part (p ++ d :: t) then 1 + run part (p ++ d :: t) else n := by
  cases mark with
  | false => exact hn h
  | true =>
      rw [Bool.true_and] at h
      have hrun : run part (p ++ '\x60' :: t') = run part (p ++ d :: t) := by
        refine run_of_mark (.inr hpart) (Nat.le_of_not_lt fun hlt => ?_)
        rw [if_pos (decide_eq_true (Nat.zero_lt_of_lt hlt))] at h
        omega
      rw [Bool.true_and, Bool.true_and, hrun]
      split at h
      · rw [if_pos ‹_›, if_pos ‹_›]
      · rw [if_neg ‹_›, if_neg ‹_›, hn h]

theorem afterDigit_of_mark (h : (afterDigit c (p ++ d :: t)).2 ≤ p.length) :
    afterDigit c (p ++ '\x60' :: t') = afterDigit c (p ++ d :: t) := by
  have hdecimal : run isDecimalPart (p ++ d :: t) ≤ p.length →
      run isDecimalPart (p ++ '\x60' :: t') = run isDecimalPart (p ++ d :: t) :=
    run_of_mark (.inr (by decide))
  cases p with
  | nil =>
      rw [List.nil_append, afterDigit_cons, List.length_nil] at h
      rw [List.nil_append, List.nil_append, afterDigit_cons, afterDigit_cons]
      dsimp only at h ⊢
      split at h
      · omega
      rename_i hhex
      split at h
      · omega
      rename_i hbinary
      rw [if_neg hhex, if_neg hbinary, if_neg (by simp), if_neg (by simp)]
      exact congrArg _ (hdecimal h)
  | cons x p =>
      rw [List.cons_append, afterDigit_cons, List.length_cons] at h
      rw [List.cons_append, List.cons_append, afterDigit_cons, afterDigit_cons]
      exact congrArg _ (digits_of_mark (by decide) h fun h => digits_of_mark (by decide) h hdecimal)

/-- A lexeme that ends before a name is read in the same way when the name is in backticks. -/
theorem scan_of_mark (hd : isWordStart d = true) (h : (scan c (p ++ d :: t)).2 ≤ p.length) :
    scan c (p ++ '\x60' :: t') = scan c (p ++ d :: t) := by
  have hoperator : operator? (c :: (p ++ '\x60' :: t')) = operator? (c :: (p ++ d :: t)) :=
    operator?_of_mark (p := c :: p) hd
  revert h
  fun_cases scan c (p ++ d :: t) with
  | case1 hblank => exact fun h => by rw [scan, if_pos hblank, run_of_mark (.inr (by decide)) h]
  | case2 hblank hslash =>
      exact fun h => by rw [scan, if_neg hblank, if_pos hslash, afterSlash_of_mark hd h]
  | case3 hblank hslash hword n =>
      intro h
      have hrun : run isWordPart (p ++ '\x60' :: t') = n := run_of_mark (.inr (by decide)) h
      rw [scan, if_neg hblank, if_neg hslash, if_pos hword]
      dsimp only
      rw [hrun, List.take_append_of_le_length h, List.take_append_of_le_length h]
  | case4 hblank hslash hword hmark =>
      intro h
      rw [scan, if_neg hblank, if_neg hslash, if_neg hword, if_pos hmark, afterBacktick_of_mark hd h]
  | case5 hblank hslash hword hmark hdigit =>
      intro h
      rw [scan, if_neg hblank, if_neg hslash, if_neg hword, if_neg hmark, if_pos hdigit,
        afterDigit_of_mark h]
  | case6 hblank hslash hword hmark hdigit hquote =>
      intro h
      rw [scan, if_neg hblank, if_neg hslash, if_neg hword, if_neg hmark, if_neg hdigit,
        if_pos hquote, afterQuote_of_mark hd h]
  | case7 hblank hslash hword hmark hdigit hquote spelling kind hsome =>
      intro h
      rw [scan, if_neg hblank, if_neg hslash, if_neg hword, if_neg hmark, if_neg hdigit,
        if_neg hquote, hoperator, hsome]
  | case8 hblank hslash hword hmark hdigit hquote hnone =>
      intro h
      rw [scan, if_neg hblank, if_neg hslash, if_neg hword, if_neg hmark, if_neg hdigit,
        if_neg hquote, hoperator, hnone]

end Scan

namespace Text

/-- A name as it is written without backticks. -/
structure IsWord (x : String) : Prop where
  start : x.toList.head?.any Scan.isWordStart = true
  parts : x.toList.all Scan.isWordPart = true

/-- A name in backticks. -/
def inBackticks (x : String) : String := "\x60" ++ x ++ "\x60"

variable {x : String}

theorem toList_inBackticks (x : String) :
    (inBackticks x).toList = '\x60' :: (x.toList ++ ['\x60']) := by
  rw [inBackticks, String.toList_append, String.toList_append]
  rfl

theorem IsWord.exists_cons (h : IsWord x) :
    ∃ c cs, x.toList = c :: cs ∧ Scan.isWordStart c = true := by
  have hstart := h.start
  cases hx : x.toList with
  | nil =>
    rw [hx] at hstart
    cases hstart
  | cons c cs =>
    rw [hx] at hstart
    exact ⟨c, cs, rfl, hstart⟩

/-- A name in backticks is one lexeme, whatever follows it. -/
theorem IsWord.scan_inBackticks (h : IsWord x) (after : List Char) :
    Scan.scan '\x60' (x.toList ++ '\x60' :: after) = (.token .ident, x.toList.length + 1) := by
  have hbody : Scan.run (fun c => c ≠ '\x60' && c ≠ '\n') (x.toList ++ '\x60' :: after) =
      x.toList.length := by
    have hparts : ∀ c ∈ x.toList, (c ≠ '\x60' && c ≠ '\n') = true := by
      intro c hc
      have hpart := List.all_eq_true.mp h.parts c hc
      rw [Bool.and_eq_true, decide_eq_true_eq, decide_eq_true_eq]
      constructor <;> rintro rfl <;> cases hpart
    rw [Scan.run, List.takeWhile_append_of_pos hparts,
      List.takeWhile_cons_of_neg (by decide), List.append_nil]
  have hpos : 0 < x.toList.length := by
    obtain ⟨c, cs, hx, -⟩ := h.exists_cons
    rw [hx]
    exact Nat.succ_pos _
  have hclosed : (((x.toList ++ '\x60' :: after).drop x.toList.length).head?) = some '\x60' := by
    rw [List.drop_left]
    rfl
  rw [Scan.scan, if_neg (by decide), if_neg (by decide), if_neg (by decide), if_pos rfl,
    Scan.afterBacktick, hbody, if_pos ⟨hpos, hclosed⟩]

end Text

namespace Lexeme

/-- A name without backticks and the same in backticks. -/
def Quotes (x y : String) : Prop := Text.IsWord x ∧ y = Text.inBackticks x

variable {ls ls' : List Lexeme} {cs : List Char}

/-- The texts agree up to the first name that is in backticks in one of them. -/
theorem concat_of_quotes (h : List.Forall₂ (Respells Quotes) ls ls') :
    concat ls' = concat ls ∨ ∃ p d t t', Scan.isWordStart d = true ∧
      concat ls = p ++ d :: t ∧ concat ls' = p ++ '\x60' :: t' := by
  induction h with
  | nil => exact .inl rfl
  | @cons l l' ls ls' hl _ ih =>
    obtain rfl | ⟨-, -, hword, hquoted⟩ := hl
    · obtain heq | ⟨p, d, t, t', hd, hconcat, hconcat'⟩ := ih
      · exact .inl (congrArg (l'.text.toList ++ ·) heq)
      · refine .inr ⟨l'.text.toList ++ p, d, t, t', hd, ?_, ?_⟩
        · exact (congrArg (l'.text.toList ++ ·) hconcat).trans (List.append_assoc _ _ _).symm
        · exact (congrArg (l'.text.toList ++ ·) hconcat').trans (List.append_assoc _ _ _).symm
    · obtain ⟨d, ds, hx, hd⟩ := hword.exists_cons
      refine .inr ⟨[], d, ds ++ concat ls, (l.text.toList ++ ['\x60']) ++ concat ls', hd, ?_, ?_⟩
      · exact congrArg (· ++ concat ls) hx
      · rw [List.nil_append, ← List.cons_append, ← Text.toList_inBackticks, ← hquoted]
        rfl

/-- A lexeme that ends where it is put together with the rest of the text is cut off there. -/
theorem cut_append {w after : List Char} {c : Char} {n : Nat} {kind : LexemeKind}
    (hscan : Scan.scan c (w ++ after) = (kind, n)) (hlength : w.length ≤ n)
    (hend : w.length = n ∨ after = []) :
    cut (c :: (w ++ after)) = ⟨kind, String.ofList (c :: w)⟩ :: cut after := by
  have htake : (w ++ after).take n = w ∧ (w ++ after).drop n = after := by
    obtain rfl | rfl := hend
    · exact ⟨List.take_left, List.drop_left⟩
    · rw [List.append_nil]
      exact ⟨List.take_of_length_le hlength, List.drop_of_length_le hlength⟩
  rw [cut, hscan, htake.1, htake.2]

/-- A text with names in backticks is cut into the lexemes that it has been put together from. -/
theorem cut_concat (h : List.Forall₂ (Respells Quotes) (cut cs) ls') : cut (concat ls') = ls' := by
  fun_induction cut cs generalizing ls' with
  | case1 =>
    cases h
    rw [concat, List.flatMap_nil, cut]
  | case2 c rest lexeme =>
    rename_i ih
    have hread : Scan.scan c rest = lexeme := rfl
    clear_value lexeme
    obtain ⟨kind, n⟩ := lexeme
    dsimp only at ih h
    cases h with
    | @cons _ l' _ ls' hl hls =>
    have hlater := ih hls
    have hlength : (rest.take n).length = n ∨ rest.drop n = [] := by
      rcases Nat.le_total n rest.length with hle | hge
      · exact .inl (List.length_take_of_le hle)
      · exact .inr (List.drop_of_length_le hge)
    obtain rfl | ⟨-, hkind', hword, hquoted⟩ := hl
    · have hscan : Scan.scan c (rest.take n ++ concat ls') = (kind, n) := by
        obtain heq | ⟨p, d, t, t', hd, hconcat, hconcat'⟩ := concat_of_quotes hls
        · rw [heq, concat_cut, List.take_append_drop, hread]
        · rw [concat_cut] at hconcat
          have hrest : rest.take n ++ p ++ d :: t = rest := by
            rw [List.append_assoc, ← hconcat, List.take_append_drop]
          have hn : (rest.take n).length = n :=
            hlength.resolve_right (by rw [hconcat]; simp)
          rw [hconcat', ← List.append_assoc, Scan.scan_of_mark hd, hrest, hread]
          rw [hrest, hread, List.length_append, hn]
          exact Nat.le_add_right _ _
      have hconcat : concat (⟨kind, String.ofList (c :: rest.take n)⟩ :: ls') =
          c :: (rest.take n ++ concat ls') :=
        congrArg (· ++ concat ls') String.toList_ofList
      have hend : rest.drop n = [] → concat ls' = [] := by
        intro hdrop
        rw [hdrop, cut] at hls
        cases hls
        rfl
      rw [hconcat, cut_append hscan (List.length_take_le _ _) (hlength.imp_right hend), hlater]
    · obtain ⟨kind', text'⟩ := l'
      dsimp only at hkind' hword hquoted
      subst hkind' hquoted
      generalize String.ofList (c :: rest.take n) = x at hword
      have hconcat : concat (⟨.token .ident, Text.inBackticks x⟩ :: ls') =
          '\x60' :: (x.toList ++ ['\x60'] ++ concat ls') :=
        congrArg (· ++ concat ls') (Text.toList_inBackticks x)
      have hlast : (x.toList ++ ['\x60']).length = x.toList.length + 1 := by
        rw [List.length_append, List.length_singleton]
      rw [hconcat, cut_append ?_ hlast.le (.inl hlast), hlater, ← Text.toList_inBackticks,
        String.ofList_toList]
      rw [List.append_assoc]
      exact hword.scan_inBackticks _

end Lexeme

namespace Text

/-- The text with the names at the given positions in backticks. -/
def inBackticksAt (source : String) (places : List Nat) : String :=
  String.ofList (Lexeme.concat ((lexemes source).mapIdx fun k l =>
    if k ∈ places then ⟨l.kind, inBackticks l.text⟩ else l))

/-- The lexemes of the text are the old ones, but for those names. -/
theorem lexemes_inBackticksAt {source : String} {places : List Nat}
    (h : ∀ k ∈ places, ∀ l ∈ (lexemes source)[k]?, l.kind = .token .ident ∧ IsWord l.text) :
    lexemes (inBackticksAt source places) = (lexemes source).mapIdx fun k l =>
      if k ∈ places then ⟨l.kind, inBackticks l.text⟩ else l := by
  have hquotes : List.Forall₂ (Lexeme.Respells Lexeme.Quotes) (lexemes source)
      ((lexemes source).mapIdx fun k l =>
        if k ∈ places then ⟨l.kind, inBackticks l.text⟩ else l) := by
    refine List.forall₂_iff_get.mpr ⟨List.length_mapIdx.symm, fun k hk hk' => ?_⟩
    rw [List.get_eq_getElem, List.get_eq_getElem, List.getElem_mapIdx]
    split
    · obtain ⟨hkind, hword⟩ := h k ‹_› _ (List.getElem?_eq_getElem hk)
      exact .inr ⟨hkind, hkind, hword, rfl⟩
    · exact .inl rfl
  rw [lexemes, inBackticksAt, String.toList_ofList]
  exact Lexeme.cut_concat hquotes

end Text

end TolkAnalysis
