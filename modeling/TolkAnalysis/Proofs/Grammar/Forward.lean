import TolkAnalysis.Proofs.Grammar.Abreast.Twice
import TolkAnalysis.Proofs.Grammar.Passage

/-!
# Parsers go forward

`c.StandsAt tokens p` says that `p` of some tokens have been read. A parser `Progresses` if it goes
forward from there, and has read a token where it succeeds, and a round of a loop
`ProgressesOrLeaves`. Loops of such rounds end by themselves, whatever their bounds
(`collect_eq_of_progresses`, `commaList_eq_of_progresses`).

That the parsers of the grammar go forward comes out of reading the tokens twice
(`runs_of_agree`). So does that no production uses a nonterminal where it began itself
(`production_guarded`).
-/

namespace TolkAnalysis

open TolkAnalysis.Parser TolkAnalysis.Grammar

/-- So many of the tokens have been read, and not all of them. -/
structure Cursor.StandsAt (tokens : List Token) (p : Nat) (c : Cursor) : Prop where
  lt : p < tokens.length
  rest : c.rest = tokens.drop p
  previous : p = 0 ∨ c.previous = tokens[p - 1]?

/-- From a place on, a parser goes forward, and where it succeeds it has read a token. -/
def Progresses {α : Type} (tokens : List Token) (p : Nat) (m : Parser α) : Prop :=
  ∀ s : ParserState, s.StandsAt tokens p → Runs m s
    (fun _ s' => ∃ q, p < q ∧ s'.StandsAt tokens q) fun s' => ∃ q, p ≤ q ∧ s'.StandsAt tokens q

/-- From a place on, a round of a loop goes forward, and it has read a token if another round
follows. -/
def ProgressesOrLeaves {α : Type} (tokens : List Token) (p : Nat) (m : Parser (Option α)) : Prop :=
  ∀ s : ParserState, s.StandsAt tokens p → Runs m s
    (fun o s' => ∃ q, p ≤ q ∧ (o.isSome → p < q) ∧ s'.StandsAt tokens q)
    fun s' => ∃ q, p ≤ q ∧ s'.StandsAt tokens q

section

variable {ts : List Token} {e : Token} {p P : Nat} {α β : Type} {hend : e.kind = .endOfFile}
  {hkinds : ∀ t ∈ ts, t.kind ≠ .endOfFile}

namespace Cursor.StandsAt

variable {c : Cursor}

theorem le (h : c.StandsAt (ts ++ [e]) p) : p ≤ ts.length := by
  have hlt := h.lt
  rw [List.length_append, List.length_singleton] at hlt
  exact Nat.le_of_lt_succ hlt

theorem current_stop (h : c.StandsAt (ts ++ [e]) ts.length) : c.current = e := by
  rw [Cursor.current, h.rest, List.drop_left]
  rfl

theorem advance (h : c.StandsAt (ts ++ [e]) p) (hend : e.kind = .endOfFile)
    (hcurrent : c.current.kind ≠ .endOfFile) : c.advance.StandsAt (ts ++ [e]) (p + 1) := by
  have hlt : p < ts.length := by
    refine h.le.lt_of_ne ?_
    rintro rfl
    rw [h.current_stop] at hcurrent
    exact hcurrent hend
  obtain ⟨rest, hrest, hadvance⟩ := advance_eq hcurrent
  have hget : (ts ++ [e])[p]? = some c.current := by
    have hhead := congrArg List.head? (h.rest.symm.trans hrest)
    rwa [List.head?_drop] at hhead
  rw [hadvance]
  refine ⟨by simpa using hlt, ?_, .inr hget.symm⟩
  rw [← List.tail_drop, ← h.rest, hrest]
  rfl

/-- What has been read between two places. -/
theorem passes {tokens : List Token} {c' : Cursor} {q : Nat} (h : c.StandsAt tokens p)
    (h' : c'.StandsAt tokens q) (hpq : p < q) :
    c.Passes ((tokens.drop p).take (q - p)) c' where
  rest := by
    have hsplit := (List.take_append_drop (q - p) (tokens.drop p)).symm
    rw [List.drop_drop, Nat.add_sub_cancel' hpq.le] at hsplit
    rw [h.rest, h'.rest]
    exact hsplit
  previous := by
    obtain ⟨j, rfl⟩ := Nat.exists_eq_add_one_of_ne_zero (Nat.ne_zero_of_lt hpq)
    have hlt : j < tokens.length := Nat.lt_of_succ_lt h'.lt
    have hj : tokens[j]? = some tokens[j] := List.getElem?_eq_getElem hlt
    rw [h'.previous.resolve_left (Nat.succ_ne_zero j), Nat.add_sub_cancel, hj,
      Token.getLast?_slice (Nat.le_of_lt_succ hpq) hj]
    rfl

end Cursor.StandsAt

theorem Pairing.Meet.standsAt {base : Arena} {before : List ParseError} {q : Nat}
    {t t' : ParserState} (h : (Pairing.twice [] hend hkinds base before).Meet P q t t') :
    t'.StandsAt (ts ++ [e]) q := by
  have hle : q ≤ ts.length := h.cursors.le.trans Pairing.length_tokens_twice.le
  refine ⟨?_, h.rest_twice.2, ?_⟩
  · rw [List.length_append, List.length_singleton]
    exact Nat.lt_succ_of_le hle
  · cases q with
    | zero => exact .inl rfl
    | succ i =>
      have hi : i < ts.length := hle
      have htwice : (Pairing.twice [] hend hkinds base before).tokens[i]? =
          some (ts[i], ts[i]) := by
        rw [Pairing.twice, List.getElem?_map, List.getElem?_eq_getElem hi]
        rfl
      rw [(h.cursors.previous rfl htwice).2, Nat.add_sub_cancel, List.getElem?_append_left hi,
        List.getElem?_eq_getElem hi]
      exact .inr rfl

namespace Cursor.StandsAt

variable {s : ParserState} {m : Parser α} {V : Nat → α → β → Prop} {m' : Parser β} {bound : Nat}

theorem meet (hs : s.StandsAt (ts ++ [e]) p) (hend : e.kind = .endOfFile)
    (hkinds : ∀ t ∈ ts, t.kind ≠ .endOfFile) :
    (Pairing.twice [] hend hkinds s.arena s.errors.toList).Meet P p s.fresh s := by
  refine Pairing.meet_twice hs.le hs.rest fun {i t} hi ht => ?_
  subst hi
  have hprevious := hs.previous.resolve_left (Nat.succ_ne_zero i)
  rw [hprevious, Nat.add_sub_cancel,
    List.getElem?_append_left (List.getElem?_eq_some_iff.mp ht).1, ht]

/-- Where parsers that read abreast come to. -/
theorem run (hs : s.StandsAt (ts ++ [e]) p)
    (h : (Pairing.twice [] hend hkinds s.arena s.errors.toList).Abreast P p m m' V) :
    Runs m' s
      (fun b s' => ∃ q a, p ≤ q ∧ V q a b ∧ s'.StandsAt (ts ++ [e]) q ∧ s.arena.Kept s'.arena)
      fun s' => ∃ q, p ≤ q ∧ s'.StandsAt (ts ++ [e]) q ∧ s.arena.Kept s'.arena := by
  have hrun := h.run (hs.meet hend hkinds)
  unfold Runs
  generalize m s.fresh = r, m' s = r' at hrun ⊢
  cases hrun with
  | ok hle ht hV => exact ⟨_, _, hle, hV, ht.standsAt, ht.built.arena.kept⟩
  | error hle ht he => exact ⟨_, hle, ht.standsAt, ht.built.arena.kept⟩

/-- Parsers that read abreast go forward. -/
theorem forward {f : α → β} (hs : s.StandsAt (ts ++ [e]) p)
    (h : (Pairing.twice [] hend hkinds s.arena s.errors.toList).Abreast P p m m'
      (Pairing.Moves p f)) :
    Runs m' s (fun _ s' => ∃ q, p < q ∧ s'.StandsAt (ts ++ [e]) q)
      fun s' => ∃ q, p ≤ q ∧ s'.StandsAt (ts ++ [e]) q :=
  (hs.run h).mono (fun _ _ ⟨q, _, _, hV, hq, _⟩ => ⟨q, hV.1, hq⟩)
    fun _ ⟨q, hle, hq, _⟩ => ⟨q, hle, hq⟩

end Cursor.StandsAt

end

/-! ### Loops -/

section

variable {ts : List Token} {e : Token} {p bound bound' : Nat} {α : Type} {s : ParserState}

theorem run_check {kind : TokenKind} {yes no : Parser α} :
    (check kind >>= fun b => if b = true then yes else no) s =
      if s.isAt kind = true then yes s else no s := by
  change (if s.isAt kind = true then yes else no) s = _
  split <;> rfl

theorem run_eat {kind : TokenKind} {yes no : Parser α} :
    (eat kind >>= fun b => if b = true then yes else no) s =
      if s.isAt kind = true then yes s.advance else no s := by
  rw [eat, bind_assoc, run_bind]
  change (((if s.isAt kind = true then _ else _) >>= _ : Parser α) s) = _
  split <;> rfl

/-- A loop ends where a round answers nothing, whatever its bound. -/
theorem collect_eq_of_progresses {item : Parser (Option α)}
    (hitem : ∀ q, p ≤ q → ProgressesOrLeaves (ts ++ [e]) q item)
    (hbound : (ts ++ [e]).length ≤ p + bound) (hbound' : (ts ++ [e]).length ≤ p + bound')
    (hs : s.StandsAt (ts ++ [e]) p) : collect item bound s = collect item bound' s := by
  induction bound generalizing p bound' s with
  | zero => exact absurd hs.lt (Nat.not_lt.mpr hbound)
  | succ bound ih =>
    cases bound' with
    | zero => exact absurd hs.lt (Nat.not_lt.mpr hbound')
    | succ bound' =>
      have hround := hitem p le_rfl s hs
      unfold Runs at hround
      rw [collect, collect, run_bind, run_bind]
      generalize item s = r at hround ⊢
      obtain ⟨_ | _ | a, s'⟩ := r
      · rfl
      · rfl
      · obtain ⟨q, -, hlt, hq⟩ := hround
        have hpq := hlt rfl
        have hsame : collect item bound s' = collect item bound' s' :=
          ih (fun r hr => hitem r (hpq.le.trans hr)) (by omega) (by omega) hq
        dsimp only
        rw [run_bind, run_bind, hsame]

theorem commaList_eq_of_progresses {item : Parser α} {close : TokenKind}
    (hend : e.kind = .endOfFile) (hitem : ∀ q, p ≤ q → Progresses (ts ++ [e]) q item)
    (hbound : (ts ++ [e]).length ≤ p + bound) (hbound' : (ts ++ [e]).length ≤ p + bound')
    (hs : s.StandsAt (ts ++ [e]) p) :
    commaList close item bound s = commaList close item bound' s := by
  induction bound generalizing p bound' s with
  | zero => exact absurd hs.lt (Nat.not_lt.mpr hbound)
  | succ bound ih =>
    cases bound' with
    | zero => exact absurd hs.lt (Nat.not_lt.mpr hbound')
    | succ bound' =>
      have hround := hitem p le_rfl s hs
      unfold Runs at hround
      rw [commaList, commaList, run_check, run_check, run_bind, run_bind]
      generalize item s = r at hround ⊢
      obtain ⟨_ | a, s'⟩ := r
      · rfl
      · obtain ⟨q, hpq, hq⟩ := hround
        dsimp only
        rw [run_eat, run_eat]
        split
        · rfl
        · split
          · rename_i hcomma
            have hq' := hq.advance hend (by simp [Cursor.current_kind_eq_of_isAt hcomma])
            have hsame : commaList close item bound s'.advance =
                commaList close item bound' s'.advance :=
              ih (fun r hr => hitem r (by omega)) (by omega) (by omega) hq'
            rw [run_check, run_check, run_bind, run_bind, hsame]
          · rfl

end

/-! ### What the parsers of the grammar do from a place -/

namespace Grammar

open Pairing

variable {ts : List Token} {e : Token} {p P bound : Nat} {α : Type} {s s₁ : ParserState}

/-- A place before the end of the file. -/
theorem lt_of_not_isAtEnd (hend : e.kind = .endOfFile) (hs : s.StandsAt (ts ++ [e]) p)
    (hhere : (!s.isAtEnd) = true) : p < ts.length := by
  refine hs.le.lt_of_ne ?_
  rintro rfl
  simp [Cursor.isAtEnd, Cursor.isAt, hs.current_stop, hend] at hhere

/-- A round of a loop that reads an item where a test holds. -/
theorem progressesOrLeaves_whenAt {here : Cursor → Bool} {item : Parser α}
    (hitem : ∀ s : ParserState, s.StandsAt (ts ++ [e]) p → here s.toCursor = true →
      Runs item s (fun _ s' => ∃ q, p < q ∧ s'.StandsAt (ts ++ [e]) q)
        fun s' => ∃ q, p ≤ q ∧ s'.StandsAt (ts ++ [e]) q) :
    ProgressesOrLeaves (ts ++ [e]) p (whenAt here item) := by
  intro s hs
  refine .cursor ?_
  split
  · refine .bind ((hitem s hs (by assumption)).mono (fun a s' ⟨q, hpq, hq⟩ => ?_) fun _ hE => hE)
    exact .pure ⟨q, hpq.le, fun _ => hpq, hq⟩
  · exact .pure ⟨p, le_rfl, nofun, hs⟩

/-- What is known of a parser that reads tokens abreast with itself, from a state on. -/
theorem runs_of_agree (hend : e.kind = .endOfFile) (hkinds : ∀ t ∈ ts, t.kind ≠ .endOfFile)
    (hbound : (ts ++ [e]).length ≤ p + bound) {m : Parser α} {f : Pairing → α → α}
    (hs : s.StandsAt (ts ++ [e]) p)
    (h : ∀ {F : Pairing}, F.Agree bound bound bound (parser bound) (parser bound) →
      F.tokens.length < p + bound → F.tokens.length = ts.length → F.Mid p →
      F.Cursors p s.toCursor s.toCursor → F.Abreast P p m m (Moves p (f F))) :
    Runs m s (fun _ s' => ∃ q, p < q ∧ s'.StandsAt (ts ++ [e]) q)
      fun s' => ∃ q, p ≤ q ∧ s'.StandsAt (ts ++ [e]) q := by
  rw [List.length_append, List.length_singleton] at hbound
  have hlength : (twice [] hend hkinds s.arena s.errors.toList).tokens.length = ts.length :=
    length_tokens_twice
  refine hs.forward (h (agree_grammar le_rfl le_rfl) (by omega) hlength (.inr rfl) ?_)
  exact (hs.meet (P := P) hend hkinds).cursors

/-- What is skipped after a failure goes beyond where the construct that failed began. -/
theorem recover_of_agree (hend : e.kind = .endOfFile) (hkinds : ∀ t ∈ ts, t.kind ≠ .endOfFile)
    (hbound : (ts ++ [e]).length ≤ p + bound) {m : Parser Nat} {stop : TokenKind → Bool}
    {error : ParseError} {f : Pairing → Nat → Nat}
    (hs : s.StandsAt (ts ++ [e]) p) (hfails : m s = (.error error, s₁)) (hlt : p < ts.length)
    (hstop : 0 < P ∨ ∀ kind, kind.startsItem = true → stop kind = true)
    (hbrace : P = 0 ∨ s.isAt .rBrace = false)
    (h : ∀ {F : Pairing}, F.Agree bound bound bound (parser bound) (parser bound) →
      F.tokens.length < p + bound → F.Mid p → F.Abreast P p m m (Moves p (f F))) :
    Runs (recover bound error s.checkpoint stop) s₁
      (fun _ s' => ∃ q, p < q ∧ s'.StandsAt (ts ++ [e]) q) fun _ => False := by
  rw [List.length_append, List.length_singleton] at hbound
  have hmeet := hs.meet (P := P) hend hkinds
  generalize htwice : twice [] hend hkinds s.arena s.errors.toList = F at hmeet
  have hlength : F.tokens.length = ts.length := htwice ▸ length_tokens_twice
  have hrun := (h (F := F) (agree_grammar le_rfl le_rfl) (by omega) (.inr (htwice ▸ rfl))).run hmeet
  rw [hfails] at hrun
  generalize m s.fresh = r at hrun
  cases hrun with
  | error hle hfailed herror =>
    have hnotBrace : P = 0 ∨ F.kind? p ≠ some .rBrace := by
      refine hbrace.imp_right fun hat hkind => ?_
      rw [(hmeet.cursors.isAt_of_kind? hkind).2] at hat
      cases hat
    rename_i q e₀ t₀
    have hskip : F.Abreast P q (recover bound e₀ s.fresh.checkpoint stop)
        (recover bound error s.checkpoint stop) (Moves p F.node) :=
      .recover hstop herror hmeet.cursors hmeet.built.arena.size_eq hle (by omega) hnotBrace
        (by omega) (by omega)
    have hskipped := hskip.run hfailed
    have htotal : Runs _ s₁ _ _ := total_recover bound error s.checkpoint stop s₁
    unfold Runs at htotal ⊢
    generalize recover bound e₀ s.fresh.checkpoint stop t₀ = r,
      recover bound error s.checkpoint stop s₁ = r' at hskipped htotal ⊢
    cases hskipped with
    | ok _ hend hread =>
      subst htwice
      exact ⟨_, hread.1, hend.standsAt⟩
    | error => exact htotal

/-! ### Guarded recursion -/

/-- The parsers of the nonterminals, where something else is done where fewer tokens than a number
have been read. -/
def guarded (left : Nat) (parse other : Nonterminal → Parser Nat) (nonterminal : Nonterminal) :
    Parser Nat := fun s =>
  if s.rest.length < left then parse nonterminal s else other nonterminal s

/-- No production uses a nonterminal before it has read a token. -/
theorem production_guarded (hend : e.kind = .endOfFile) (hkinds : ∀ t ∈ ts, t.kind ≠ .endOfFile)
    (hbound : (ts ++ [e]).length ≤ p + bound) (hs : s.StandsAt (ts ++ [e]) p)
    (other : Nonterminal → Parser Nat) (nonterminal : Nonterminal) :
    Alike (production bound (parser bound) nonterminal s)
      (production bound (guarded s.rest.length (parser bound) other) nonterminal s) := by
  rw [List.length_append, List.length_singleton] at hbound
  have hle := hs.le
  have hmeet := hs.meet (P := 0) hend hkinds
  have hlength : (twice [] hend hkinds s.arena s.errors.toList).tokens.length = ts.length :=
    length_tokens_twice
  have hagree : (twice [] hend hkinds s.arena s.errors.toList).Agree (ts.length - p) bound bound
      (parser bound) (guarded s.rest.length (parser bound) other) := by
    refine ⟨by omega, by omega, fun P q nonterminal hq => ⟨fun {t t'} ht => ?_⟩⟩
    have hless : t'.rest.length < s.rest.length := by
      rw [ht.rest_twice.2, hs.rest, List.length_drop, List.length_drop]
      simp
      omega
    rw [guarded, if_pos hless]
    have hparser : (twice [] hend hkinds s.arena s.errors.toList).Agree bound bound bound
        (parser bound) (parser bound) := agree_grammar le_rfl le_rfl
    exact (hparser.abreast P q nonterminal (by omega)).run ht
  have hself : (twice [] hend hkinds s.arena s.errors.toList).Agree (ts.length - p) bound bound
      (parser bound) (parser bound) := agree_grammar (by omega) (by omega)
  exact (abreast_production hself (by omega) nonterminal).alike
    (abreast_production hagree (by omega) nonterminal) (fun _ _ _ hV => hV.2)
    (fun _ _ _ hV => hV.2) hmeet

end Grammar

end TolkAnalysis
