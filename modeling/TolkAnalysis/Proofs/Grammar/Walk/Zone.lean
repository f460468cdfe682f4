import TolkAnalysis.Token.Basic

/-!
# Braces in a word

A zone says which tokens may stand outside of any braces of a word: in a phrase no semicolon and no
closing brace, between braces no closing brace, at the top of a file any token. `z.depth d word` is
the number of braces that are open after a word, if `d` are open before it, or nothing if the word
leaves the zone. `z.Fits word` says that it does not, from outside of braces on.

A word that fits may be put after another one (`Fits.append`), and what fits between braces may be
put in braces (`Fits.opened`, `Fits.closed`).
-/

namespace TolkAnalysis

/-- Where a word stands. -/
inductive Zone where
  | phrase
  | body
  | file
deriving DecidableEq

namespace Zone

/-- How many braces are open after a token of some kind. -/
def step (z : Zone) (depth : Nat) (kind : TokenKind) : Option Nat :=
  match kind with
  | .lBrace => some (depth + 1)
  | .rBrace => if depth = 0 ∧ z ≠ .file then none else some (depth - 1)
  | .semi => if depth = 0 ∧ z = .phrase then none else some depth
  | _ => some depth

/-- How many braces are open after a word. -/
def depth (z : Zone) (d : Nat) (word : List Token) : Option Nat :=
  word.foldlM (fun e t => z.step e t.kind) d

/-- A word does not leave a zone. -/
def Fits (z : Zone) (word : List Token) : Prop := ∃ d, z.depth 0 word = some d

variable {z z' : Zone} {a d e k : Nat} {t : Token} {word later : List Token} {kind : TokenKind}

@[simp] theorem depth_nil (z : Zone) (d : Nat) : z.depth d [] = some d := rfl

theorem depth_cons (z : Zone) (d : Nat) (t : Token) (word : List Token) :
    z.depth d (t :: word) = (z.step d t.kind).bind fun e => z.depth e word := rfl

theorem depth_append (z : Zone) (d : Nat) (word later : List Token) :
    z.depth d (word ++ later) = (z.depth d word).bind fun e => z.depth e later :=
  List.foldlM_append

/-! ### A word with more braces open before it -/

theorem step_add (hz : z ≠ .file) (h : z.step a kind = some e) :
    z.step (a + k) kind = some (e + k) := by
  unfold step at h ⊢
  split at h
  · cases h
    exact congrArg some (by omega)
  · split at h
    · cases h
    · rename_i hopen
      have ha : a ≠ 0 := fun ha => hopen ⟨ha, hz⟩
      cases h
      rw [if_neg (by omega)]
      exact congrArg some (by omega)
  · split at h
    · cases h
    · rename_i hopen
      cases h
      rw [if_neg fun hboth => hopen ⟨by omega, hboth.2⟩]
  · cases h
    rfl

theorem depth_add (hz : z ≠ .file) (h : z.depth a word = some e) :
    z.depth (a + k) word = some (e + k) := by
  induction word generalizing a with
  | nil =>
    cases h
    rfl
  | cons t word ih =>
    rw [depth_cons] at h ⊢
    obtain ⟨b, hb, hword⟩ := Option.bind_eq_some_iff.mp h
    rw [step_add hz hb]
    exact ih hword

/-- Inside of braces it does not matter where the braces stand. -/
theorem depth_inside (h : body.depth a word = some e) : z.depth (a + 1) word = some (e + 1) := by
  induction word generalizing a with
  | nil =>
    cases h
    rfl
  | cons t word ih =>
    rw [depth_cons] at h ⊢
    obtain ⟨b, hb, hword⟩ := Option.bind_eq_some_iff.mp h
    have hstep : z.step (a + 1) t.kind = some (b + 1) := by
      unfold step at hb ⊢
      split at hb
      · cases hb
        rfl
      · split at hb
        · cases hb
        · rename_i hopen
          have ha : a ≠ 0 := fun ha => hopen ⟨ha, by decide⟩
          cases hb
          rw [if_neg (by simp)]
          exact congrArg some (by omega)
      · rw [if_neg (by simp)] at hb
        cases hb
        rw [if_neg (by simp)]
      · cases hb
        rfl
    rw [hstep]
    exact ih hword

theorem depth_file (word : List Token) (d : Nat) : ∃ e, file.depth d word = some e := by
  induction word generalizing d with
  | nil => exact ⟨d, rfl⟩
  | cons t word ih =>
    obtain ⟨b, hb⟩ : ∃ b, file.step d t.kind = some b := by
      unfold step
      split <;> simp
    rw [depth_cons, hb]
    exact ih b

/-- A phrase may stand anywhere. -/
theorem depth_of_phrase (h : phrase.depth a word = some e) : z.depth a word = some e := by
  induction word generalizing a with
  | nil => exact h
  | cons t word ih =>
    rw [depth_cons] at h ⊢
    obtain ⟨b, hb, hword⟩ := Option.bind_eq_some_iff.mp h
    have hstep : z.step a t.kind = some b := by
      unfold step at hb ⊢
      split at hb
      · exact hb
      · split at hb
        · cases hb
        · rename_i hopen
          rw [if_neg fun hboth => hopen ⟨hboth.1, by decide⟩]
          exact hb
      · split at hb
        · cases hb
        · rename_i hopen
          rw [if_neg fun hboth => hopen ⟨hboth.1, rfl⟩]
          exact hb
      · exact hb
    rw [hstep]
    exact ih hword

/-- A word without semicolons that may stand between braces is a phrase. -/
theorem depth_phrase (h : body.depth a word = some e) (hsemi : ∀ t ∈ word, t.kind ≠ .semi) :
    phrase.depth a word = some e := by
  induction word generalizing a with
  | nil => exact h
  | cons t word ih =>
    rw [depth_cons] at h ⊢
    obtain ⟨b, hb, hword⟩ := Option.bind_eq_some_iff.mp h
    have ht : t.kind ≠ .semi := hsemi t List.mem_cons_self
    have hstep : phrase.step a t.kind = body.step a t.kind := by
      unfold step
      split
      · rfl
      · simp
      · exact absurd (by assumption) ht
      · rfl
    rw [hstep, hb]
    exact ih hword fun u hu => hsemi u (List.mem_cons_of_mem t hu)

/-- Where braces are closed that were open before a word, a brace of the word closes the first of
them. What stands before that brace is balanced. -/
theorem exists_closing (h : body.depth (a + k + 1) word = some e) (he : e ≤ k) :
    ∃ inner brace later, word = inner ++ brace :: later ∧ brace.kind = .rBrace ∧
      body.depth a inner = some 0 := by
  induction word generalizing a with
  | nil =>
    cases h
    omega
  | cons t word ih =>
    rw [depth_cons] at h
    obtain ⟨b, hb, hword⟩ := Option.bind_eq_some_iff.mp h
    have hgoesOn : ∀ c, b = c + k + 1 → body.step a t.kind = some c →
        ∃ inner brace later, t :: word = inner ++ brace :: later ∧ brace.kind = .rBrace ∧
          body.depth a inner = some 0 := by
      rintro c rfl hstep
      obtain ⟨inner, brace, later, rfl, hbrace, hinner⟩ := ih hword
      refine ⟨t :: inner, brace, later, rfl, hbrace, ?_⟩
      rw [depth_cons, hstep]
      exact hinner
    unfold step at hb hgoesOn
    split at hb
    · cases hb
      rename_i hkind
      exact hgoesOn (a + 1) (by omega) (by rw [hkind])
    · rename_i hkind
      rcases a with _ | a
      · exact ⟨[], t, word, rfl, hkind, rfl⟩
      · rw [if_neg (by simp)] at hb
        cases hb
        exact hgoesOn a (by omega) (by simp [hkind])
    · rename_i hkind
      rw [if_neg (by simp)] at hb
      cases hb
      exact hgoesOn a rfl (by simp [hkind])
    · cases hb
      refine hgoesOn a rfl ?_
      split <;> first | rfl | contradiction

/-! ### Words that fit -/

namespace Fits

theorem nil (z : Zone) : z.Fits [] := ⟨0, rfl⟩

theorem of_phrase (h : phrase.Fits word) : z.Fits word := by
  obtain ⟨d, hd⟩ := h
  exact ⟨d, depth_of_phrase hd⟩

theorem append (h : z.Fits word) (hlater : z.Fits later) : z.Fits (word ++ later) := by
  by_cases hz : z = .file
  · subst hz
    exact depth_file _ _
  · obtain ⟨d, hd⟩ := h
    obtain ⟨e, he⟩ := hlater
    have hshift : z.depth (0 + d) later = some (e + d) := depth_add hz he
    rw [Nat.zero_add] at hshift
    exact ⟨e + d, by rw [depth_append, hd, Option.bind_some, hshift]⟩

theorem one (h : z.step 0 t.kind = some d) : z.Fits [t] := ⟨d, by rw [depth_cons, h]; rfl⟩

/-- What fits between braces fits after an opening brace. -/
theorem opened (h : body.Fits word) (ht : t.kind = .lBrace) : z.Fits (t :: word) := by
  obtain ⟨d, hd⟩ := h
  refine ⟨d + 1, ?_⟩
  rw [depth_cons, ht]
  exact depth_inside hd

/-- What fits between braces fits in braces. -/
theorem closed {last : Token} (h : body.Fits word) (ht : t.kind = .lBrace)
    (hlast : last.kind = .rBrace) : z.Fits (t :: word ++ [last]) := by
  obtain ⟨d, hd⟩ := h
  refine ⟨d, ?_⟩
  have hopen : z.depth 0 (t :: word) = some (d + 1) := by
    rw [depth_cons, ht]
    exact depth_inside hd
  rw [depth_append, hopen, Option.bind_some, depth_cons, hlast]
  rfl

end Fits

end Zone

end TolkAnalysis
