import TolkAnalysis.Proofs.Grammar.Abreast.ReadAlike
import TolkAnalysis.Proofs.Grammar.Progress
import TolkAnalysis.Proofs.Grammar.Recovery

/-!
# Where a file is read on

What cannot be read at the top of a file is skipped, and the file is read on where a token begins a
declaration or where a brace is closed that was open where the parser failed. `Skips` says that from
one place to another one there is nothing but semicolons and what is skipped, and from there on a
file is read as if it stood alone (`Skips.readFile`).

Behind a broken declaration the parser skips one word for each brace that was open, and then what is
left. `Token.ClosesOff` says that nothing is left but semicolons: then, and only then, the parser
comes to what follows before it skips anything of it (`skips_broken`).
-/

namespace TolkAnalysis

open TolkAnalysis.Parser

namespace Token

/-- Behind the place where a declaration breaks off, the outermost of the braces is closed that are
open there, and nothing but semicolons follows. A declaration that does not even begin is nothing but
semicolons. -/
def ClosesOff (front back : List Token) : Prop :=
  ∃ outer semis, back = outer ++ semis ∧ (∀ t ∈ semis, t.kind = .semi) ∧
    (front = [] ∧ outer = [] ∨ ∃ k inner brace, Zone.body.depth 0 front = some (k + 1) ∧
      outer = inner ++ [brace] ∧ Zone.body.depth k inner = some 0 ∧ brace.kind = .rBrace)

/-- No token of a word begins a declaration or ends the file. -/
def Idle (word : List Token) : Prop := ∀ t ∈ word, t.kind.startsItem = false ∧ t.kind ≠ .endOfFile

variable {word later inner inner' tail tail' : List Token} {brace brace' : Token} {k : Nat}

theorem Idle.left (h : Idle (word ++ later)) : Idle word :=
  fun t ht => h t (List.mem_append_left _ ht)

theorem Idle.right (h : Idle (word ++ later)) : Idle later :=
  fun t ht => h t (List.mem_append_right _ ht)

/-- An idle word is not followed by a function where it begins. -/
theorem Idle.head_ne (h : Idle word) (hlater : ∀ t ∈ later.head?, t.kind ≠ .kwFun) :
    ∀ t ∈ (word ++ later).head?, t.kind ≠ .kwFun := by
  cases word with
  | nil => exact hlater
  | cons u word =>
    rintro _ ⟨⟩ hkind
    have hstarts := (h u List.mem_cons_self).1
    rw [hkind] at hstarts
    cases hstarts

/-- A word begins with semicolons, and behind them it ends or something else follows. -/
theorem exists_semis (word : List Token) : (∀ t ∈ word, t.kind = .semi) ∨
    ∃ semis t later, word = semis ++ t :: later ∧ (∀ u ∈ semis, u.kind = .semi) ∧
      t.kind ≠ .semi := by
  induction word with
  | nil => exact .inl fun _ ht => absurd ht List.not_mem_nil
  | cons t word ih =>
    by_cases ht : t.kind = .semi
    · obtain hall | ⟨semis, u, later, rfl, hsemis, hu⟩ := ih
      · exact .inl (List.forall_mem_cons.mpr ⟨ht, hall⟩)
      · exact .inr ⟨t :: semis, u, later, rfl, List.forall_mem_cons.mpr ⟨ht, hsemis⟩, hu⟩
    · exact .inr ⟨[], t, word, rfl, nofun, ht⟩

/-- Semicolons leave the braces as they are. -/
theorem balanced_of_semis (h : ∀ t ∈ word, t.kind = .semi) : Balanced word := by
  induction word with
  | nil => rfl
  | cons t word ih =>
    obtain ⟨ht, hword⟩ := List.forall_mem_cons.mp h
    rw [Balanced, Zone.depth_cons, ht]
    exact ih hword

theorem Balanced.depth (h : Balanced word) (k : Nat) : Zone.body.depth k word = some k := by
  have hdeeper : Zone.body.depth (0 + k) word = some (0 + k) := Zone.depth_add (by decide) h
  rwa [Nat.zero_add] at hdeeper

/-- A word that closes some braces closes the innermost one first, and then the other ones. -/
theorem exists_closing_first (h : Zone.body.depth (k + 1) word = some 0) :
    ∃ inner brace tail, word = inner ++ brace :: tail ∧ Balanced inner ∧ brace.kind = .rBrace ∧
      Zone.body.depth k tail = some 0 := by
  have hopen : Zone.body.depth (0 + k + 1) word = some 0 := by rwa [Nat.zero_add]
  obtain ⟨inner, brace, tail, rfl, hbrace, hinner⟩ := Zone.exists_closing hopen (Nat.zero_le k)
  refine ⟨inner, brace, tail, rfl, hinner, hbrace, ?_⟩
  have hclosed : Balanced inner := hinner
  rw [Zone.depth_append, hclosed.depth, Option.bind_some, Zone.depth_cons, hbrace] at h
  exact h

/-- The brace that closes the outermost one stands at one place only. -/
theorem closing_unique (h : Zone.body.depth k inner = some 0)
    (h' : Zone.body.depth k inner' = some 0) (hbrace : brace.kind = .rBrace)
    (hbrace' : brace'.kind = .rBrace) (heq : inner ++ brace :: tail = inner' ++ brace' :: tail') :
    tail = tail' := by
  have hgoesOn : ∀ {a b : List Token} {u : Token}, Zone.body.depth k a = some 0 →
      u.kind = .rBrace → Zone.body.depth k (a ++ u :: b) ≠ some 0 := by
    intro a b u ha hu hab
    rw [Zone.depth_append, ha, Option.bind_some, Zone.depth_cons, hu] at hab
    cases hab
  obtain ⟨past, hinner, hlater⟩ | ⟨past, hinner, hlater⟩ := List.append_eq_append_iff.mp heq
  · cases past with
    | nil => exact (List.cons.inj hlater).2
    | cons u past =>
      obtain rfl := (List.cons.inj hlater).1
      exact absurd (hinner ▸ h') (hgoesOn h hbrace)
  · cases past with
    | nil => exact (List.cons.inj hlater).2.symm
    | cons u past =>
      obtain rfl := (List.cons.inj hlater).1
      exact absurd (hinner ▸ h) (hgoesOn h' hbrace')

end Token

namespace Grammar

/-- The declarations of a file. -/
def declarations (bound rounds : Nat) : Parser (List (List Child)) :=
  collect (whenAt (!·.isAtEnd) (fileItem bound (parser bound))) rounds

/-- From one place between the declarations of a file the parser comes to another one. Semicolons
stand between them, and words that cannot be read. -/
structure Skips (bound : Nat) (s : ParserState) (skipped : List Nat) (t : ParserState) : Prop where
  arena : s.arena.Extends t.arena
  stored : ∀ id ∈ skipped, ∃ span, t.arena.Stores id .error span []
  run : ∃ rounds, rounds + t.rest.length ≤ s.rest.length ∧
    ∀ {left items u}, declarations bound left t = (.ok items, u) →
      ∃ before, declarations bound (rounds + left) s = (.ok (before ++ items), u) ∧
        before.flatten = skipped.map .plain

variable {bound : Nat} {s t u : ParserState} {skipped skipped' : List Nat}

namespace Skips

theorem refl (s : ParserState) : Skips bound s [] s where
  arena := .refl _
  stored _ hid := absurd hid List.not_mem_nil
  run := by
    refine ⟨0, (Nat.zero_add _).le, fun {left items u} hlater => ⟨[], ?_, rfl⟩⟩
    rwa [Nat.zero_add]

theorem trans (h : Skips bound s skipped t) (h' : Skips bound t skipped' u) :
    Skips bound s (skipped ++ skipped') u where
  arena := h.arena.trans h'.arena
  stored id hid := by
    obtain hid | hid := List.mem_append.mp hid
    · obtain ⟨span, hstores⟩ := h.stored id hid
      exact ⟨span, h'.arena _ _ _ _ hstores⟩
    · exact h'.stored id hid
  run := by
    obtain ⟨rounds, hrounds, hrun⟩ := h.run
    obtain ⟨rounds', hrounds', hrun'⟩ := h'.run
    refine ⟨rounds + rounds', by omega, fun {left items v} hlater => ?_⟩
    obtain ⟨before', hbefore', hflatten'⟩ := hrun' hlater
    obtain ⟨before, hbefore, hflatten⟩ := hrun hbefore'
    refine ⟨before ++ before', ?_, ?_⟩
    · rw [Nat.add_assoc, List.append_assoc]
      exact hbefore
    · rw [List.flatten_append, hflatten, hflatten', List.map_append]

/-- One round of the loop over declarations. -/
theorem of_fileItem (hhere : s.current.kind ≠ .endOfFile)
    (hitem : fileItem bound (parser bound) s = (.ok (skipped.map .plain), t))
    (harena : s.arena.Extends t.arena)
    (hstored : ∀ id ∈ skipped, ∃ span, t.arena.Stores id .error span [])
    (hlt : t.rest.length < s.rest.length) : Skips bound s skipped t where
  arena := harena
  stored := hstored
  run := by
    refine ⟨1, by omega, fun {left items u} hlater => ⟨[skipped.map .plain], ?_, by simp⟩⟩
    have hmore : (!s.isAtEnd) = true := by simpa [Cursor.isAtEnd, Cursor.isAt] using hhere
    rw [Nat.add_comm]
    exact run_collect_cons hmore hitem hlater

theorem rest_le (h : Skips bound s skipped t) : t.rest.length ≤ s.rest.length := by
  obtain ⟨rounds, hrounds, -⟩ := h.run
  omega

/-- From where something has been skipped on, a file is read as if it stood alone. -/
theorem readFile {tokens : List Token}
    (h : Skips (tokens.length + 1) (initialState tokens) skipped t) (hended : Token.Ended t.rest) :
    (Grammar.readFile tokens).1 =
        skipped.map .plain ++ (Grammar.readFile t.rest).1.map (Child.shift t.arena.size) ∧
      (Grammar.readFile tokens).2.arena.Includes t.arena.size (Grammar.readFile t.rest).2.arena ∧
      (∀ id ∈ skipped, ∃ span, (Grammar.readFile tokens).2.arena.Stores id .error span []) ∧
      ∃ later, (Grammar.readFile tokens).2.errors.toList = t.errors.toList ++ later := by
  obtain ⟨ts, e, hrest, hend, hkinds⟩ := hended
  obtain ⟨rounds, hrounds, hrun⟩ := h.run
  have hlength : ts.length + 1 + rounds ≤ tokens.length := by
    have hle : rounds + t.rest.length ≤ tokens.length := hrounds
    rw [hrest, List.length_append, List.length_singleton] at hle
    omega
  have hcompares : Pairing.Compares ts ts e e (fun a b => a = b) fun _ _ => True :=
    ⟨fun _ ht hu ht' hu' => by
      rw [ht] at ht'
      rw [hu] at hu'
      cases ht'
      cases hu'
      exact ⟨rfl, rfl, rfl⟩, fun _ _ _ => trivial⟩
  obtain ⟨items, u, u', hitems, hcollect, harena, later, hlater, -⟩ := Pairing.meet_readAlike
    (Token.Respaced.readAlike ⟨rfl, rfl⟩) hend hkinds hcompares t hrest
    (show ts.length < tokens.length + 1 by omega)
    (show ts.length < tokens.length + 1 - rounds by omega)
  obtain ⟨before, hbefore, hflatten⟩ := hrun hcollect
  rw [Nat.add_sub_cancel' (by omega)] at hbefore
  rw [readFile_eq hbefore, hrest, hitems]
  refine ⟨?_, harena.includes, fun id hid => ?_, later, hlater⟩
  · rw [List.flatten_append, hflatten, List.map_flatten]
  · obtain ⟨span, hstores⟩ := h.stored id hid
    exact ⟨span, harena.kept.extends _ _ _ _ hstores⟩

end Skips

/-! ### One round -/

variable {parse : Nonterminal → Parser Nat} {v w : Token} {rest word later : List Token}
  {error : ParseError} {failed : ParserState} {id : Nat}

theorem run_fileItem_of_reads (hrest : s.rest = v :: rest) (hv : v.kind ≠ .semi)
    (hitem : item bound parse s = (.ok id, t)) : fileItem bound parse s = (.ok [.plain id], t) := by
  have hread : itemOrSkipped bound parse s = (.ok id, t) := by
    unfold itemOrSkipped
    rw [run_bind]
    change (MonadExcept.tryCatch _ _ : Parser Nat) s = _
    rw [run_tryCatch, hitem]
  unfold fileItem
  rw [run_eat, if_neg (by simp [Cursor.isAt, Cursor.current_of_rest hrest, hv]), run_bind, hread]
  rfl

/-- What cannot be read is skipped. -/
theorem run_fileItem_of_fails (hrest : s.rest = v :: rest) (hv : v.kind ≠ .semi)
    (hitem : item bound parse s = (.error error, failed))
    (hskip : recover bound error s.checkpoint TokenKind.startsItem failed = (.ok id, t)) :
    fileItem bound parse s = (.ok [.plain id], t) := by
  have hskipped : itemOrSkipped bound parse s = (.ok id, t) := by
    unfold itemOrSkipped
    rw [run_bind]
    change (MonadExcept.tryCatch _ _ : Parser Nat) s = _
    rw [run_tryCatch, hitem]
    exact hskip
  unfold fileItem
  rw [run_eat, if_neg (by simp [Cursor.isAt, Cursor.current_of_rest hrest, hv]), run_bind, hskipped]
  rfl

/-- With a token that begins no declaration, only a get method may begin. -/
theorem run_item_of_not_starts (bound : Nat) (parse : Nonterminal → Parser Nat)
    (hstarts : s.current.kind.startsItem = false) :
    item bound parse s = (if (s.isAtWord "get" && s.kindAt 1 == .kwFun) = true then
      next >>= fun _ => function bound parse s.start none true else fail .declaration) s := by
  have hannotations : annotations? bound parse s = (.ok none, s) := by
    have hat : s.isAt .atSign = false := by
      rw [Cursor.isAt, beq_eq_false_iff_ne]
      rintro hkind
      rw [hkind] at hstarts
      cases hstarts
    change (if s.isAt .atSign = true then _ else _ : Parser (Option Nat)) s = _
    rw [hat]
    rfl
  unfold item
  rw [run_bind]
  change ((annotations? bound parse >>= _ : Parser Nat)) s = _
  rw [run_bind, hannotations]
  dsimp only
  rw [run_bind, show cursor s = (.ok s.toCursor, s) from rfl]
  dsimp only
  generalize s.current.kind = kind at hstarts ⊢
  cases kind <;> first | rfl | cases hstarts

/-- No declaration begins with a name that no function follows. -/
theorem run_item_of_not_get (bound : Nat) (parse : Nonterminal → Parser Nat)
    (hrest : s.rest = v :: rest) (hv : v.kind.startsItem = false)
    (hfun : ∀ w ∈ rest.head?, w.kind ≠ .kwFun) :
    item bound parse s = (.error (s.mismatch .declaration), s) := by
  have hnext : s.kindAt 1 ≠ .kwFun := by
    unfold Cursor.kindAt
    rw [hrest, List.getElem?_cons_succ, ← List.head?_eq_getElem?]
    cases hhead : rest.head? with
    | none => simp
    | some w => exact hfun w hhead
  rw [run_item_of_not_starts bound parse (by rwa [Cursor.current_of_rest hrest]),
    if_neg (by simp [hnext])]
  rfl

/-! ### Words that are skipped -/

/-- Semicolons between declarations are read. -/
theorem skips_semis (bound : Nat) (hword : ∀ t ∈ word, t.kind = .semi) (hrest : s.rest = word ++ later) :
    ∃ t, Skips bound s [] t ∧ t.rest = later := by
  induction word generalizing s with
  | nil => exact ⟨s, .refl s, hrest⟩
  | cons v word ih =>
    obtain ⟨hv, hword⟩ := List.forall_mem_cons.mp hword
    have hcurrent := Cursor.current_of_rest hrest
    obtain ⟨hpass, hlater⟩ := Cursor.Passes.of_rest hrest (by simp [hv])
    obtain ⟨t, hskips, ht⟩ := ih hword (s := s.advance) hlater
    have hitem : fileItem bound (parser bound) s = (.ok [], s.advance) := by
      unfold fileItem
      rw [run_eat, if_pos (by simp [Cursor.isAt, hcurrent, hv])]
      rfl
    have hone : Skips bound s [] s.advance :=
      .of_fileItem (by simp [hcurrent, hv]) hitem (.refl _) (fun _ hid => absurd hid List.not_mem_nil)
        (hpass.rest_lt (List.cons_ne_nil v []))
    exact ⟨t, hone.trans hskips, ht⟩

/-- A closing brace between declarations is skipped by itself. -/
theorem skips_brace (bound : Nat) (hrest : s.rest = v :: later) (hv : v.kind = .rBrace)
    (hfun : ∀ w ∈ later.head?, w.kind ≠ .kwFun) :
    ∃ id t, Skips bound s [id] t ∧ t.rest = later := by
  have hcurrent := Cursor.current_of_rest hrest
  obtain ⟨hpass, hlater⟩ := Cursor.Passes.of_rest hrest (by simp [hv])
  have hread := run_fileItem_of_fails hrest (by simp [hv])
    (run_item_of_not_get bound (parser bound) hrest (by rw [hv]; rfl) hfun)
    (run_recover_brace _ _ hv hrest)
  refine ⟨_, _, .of_fileItem (by simp [hcurrent, hv]) hread
    (((Arena.Extends.refl _).truncate le_rfl).trans (.push _ _ _ _)) ?_
    (hpass.rest_lt (List.cons_ne_nil v [])), hlater⟩
  intro id hid
  rw [List.mem_singleton.mp hid]
  exact ⟨_, Arena.stores_push_last _ _ _⟩

/-- What has been read of a declaration that fails is skipped, and a balanced word behind it. -/
theorem skips_of_fails (hrest : s.rest = v :: rest) (hv : v.kind ≠ .semi)
    (hend : v.kind ≠ .endOfFile) (hitem : item bound (parser bound) s = (.error error, failed))
    (harena : s.arena.Extends failed.arena) (hfailed : failed.rest = word ++ w :: later)
    (hkinds : ∀ x ∈ word, x.kind ≠ .endOfFile)
    (hfirst : failed.rest.length < s.rest.length → ∀ x ∈ word.head?, x.kind.startsItem = false)
    (htail : ∀ x ∈ word.tail, x.kind.startsItem = false) (hbalanced : Token.Balanced word)
    (hw : w.kind = .rBrace ∨ w.kind.startsItem = true)
    (hmoved : failed.rest.length < s.rest.length ∨ word ≠ []) (hbound : word.length < bound)
    (hforward : (w :: later).length < s.rest.length) :
    ∃ id t, Skips bound s [id] t ∧ t.rest = w :: later := by
  obtain ⟨c, -, hc, hskip⟩ := run_recover TokenKind.startsItem s.checkpoint error hw hkinds hfailed
    hfirst htail hbalanced hmoved hbound
  refine ⟨_, _, .of_fileItem (by rwa [Cursor.current_of_rest hrest])
    (run_fileItem_of_fails hrest hv hitem hskip)
    ((harena.truncate le_rfl).trans (.push _ _ _ _)) ?_ (hc ▸ hforward), hc⟩
  intro id hid
  rw [List.mem_singleton.mp hid]
  exact ⟨_, Arena.stores_push_last _ _ _⟩

/-- A balanced word that no declaration begins with is skipped. -/
theorem skips_word (hrest : s.rest = v :: (word ++ w :: later)) (hbound : s.rest.length ≤ bound)
    (hv : v.kind ≠ .semi) (hidle : Token.Idle (v :: word))
    (hfun : ∀ x ∈ (word ++ w :: later).head?, x.kind ≠ .kwFun)
    (hbalanced : Token.Balanced (v :: word)) (hw : w.kind = .rBrace ∨ w.kind.startsItem = true) :
    ∃ id t, Skips bound s [id] t ∧ t.rest = w :: later := by
  have hlength : s.rest.length = (v :: word).length + (w :: later).length := by
    rw [hrest, ← List.cons_append, List.length_append]
  obtain ⟨hfirst, hend⟩ := hidle v List.mem_cons_self
  refine skips_of_fails hrest hv hend (run_item_of_not_get _ _ hrest hfirst hfun) (.refl _) hrest
    (fun x hx => (hidle x hx).2) (fun _ x hx => (hidle x (List.mem_of_mem_head? hx)).1)
    (fun x hx => (hidle x (List.mem_of_mem_tail hx)).1) hbalanced hw
    (.inr (List.cons_ne_nil v word)) ?_ ?_
  · rw [List.length_cons] at hlength
    simp only [List.length_cons] at hlength ⊢
    omega
  · simp only [List.length_cons] at hlength ⊢
    omega

/-- A balanced word is skipped with the closing brace behind it. -/
theorem skips_past_brace (hrest : s.rest = word ++ v :: later) (hbound : s.rest.length ≤ bound)
    (hidle : Token.Idle word) (hbalanced : Token.Balanced word) (hv : v.kind = .rBrace)
    (hfun : ∀ x ∈ later.head?, x.kind ≠ .kwFun) :
    ∃ skipped t, Skips bound s skipped t ∧ t.rest = later := by
  obtain hsemis | ⟨semis, x, word', rfl, hsemis, hx⟩ := Token.exists_semis word
  · obtain ⟨t, hskips, ht⟩ := skips_semis bound hsemis hrest
    obtain ⟨id, u, hskips', hu⟩ := skips_brace bound ht hv hfun
    exact ⟨_, u, hskips.trans hskips', hu⟩
  · rw [List.append_assoc, List.cons_append] at hrest
    have hbalanced' : Token.Balanced (x :: word') := by
      rw [Token.Balanced, Zone.depth_append, Token.balanced_of_semis hsemis] at hbalanced
      exact hbalanced
    have hword' : Token.Idle word' := fun t ht => hidle.right t (List.mem_cons_of_mem x ht)
    have hnext : ∀ y ∈ (v :: later).head?, y.kind ≠ .kwFun := by
      rintro y hy
      cases hy
      simp [hv]
    obtain ⟨t₁, hskips₁, ht₁⟩ := skips_semis bound hsemis hrest
    obtain ⟨id, t₂, hskips₂, ht₂⟩ := skips_word ht₁ (hskips₁.rest_le.trans hbound) hx hidle.right
      (hword'.head_ne hnext) hbalanced' (.inl hv)
    obtain ⟨id', t₃, hskips₃, ht₃⟩ := skips_brace bound ht₂ hv hfun
    exact ⟨_, t₃, (hskips₁.trans hskips₂).trans hskips₃, ht₃⟩

/-- Where braces are open, the parser comes to what stands behind the brace that closes the outermost
one of them, be it a brace in front of the word. -/
theorem skips_closings {k : Nat} (hrest : s.rest = word ++ later) (hbound : s.rest.length ≤ bound)
    (hidle : Token.Idle word) (hdepth : Zone.body.depth k word = some 0)
    (hfun : ∀ x ∈ later.head?, x.kind ≠ .kwFun) :
    ∃ outer tail skipped t, word = outer ++ tail ∧ Token.Balanced tail ∧
      Skips bound s skipped t ∧ t.rest = tail ++ later ∧
      ∀ first brace, Token.Balanced first → brace.kind = .rBrace →
        ∃ inner last, first ++ brace :: outer = inner ++ [last] ∧
          Zone.body.depth k inner = some 0 ∧ last.kind = .rBrace := by
  induction k generalizing s word with
  | zero =>
    exact ⟨[], word, [], s, rfl, hdepth, .refl s, hrest,
      fun first brace hfirst hbrace => ⟨first, brace, rfl, hfirst, hbrace⟩⟩
  | succ k ih =>
    obtain ⟨first, brace, word', rfl, hfirst, hbrace, hdepth'⟩ := Token.exists_closing_first hdepth
    have hidle' : Token.Idle word' := fun t ht => hidle.right t (List.mem_cons_of_mem brace ht)
    rw [List.append_assoc, List.cons_append] at hrest
    obtain ⟨skipped, t, hskips, ht⟩ := skips_past_brace hrest hbound hidle.left hfirst hbrace
      (hidle'.head_ne hfun)
    obtain ⟨outer, tail, skipped', u, rfl, htail, hskips', hu, houter⟩ :=
      ih ht (hskips.rest_le.trans hbound) hidle' hdepth'
    refine ⟨first ++ brace :: outer, tail, skipped ++ skipped', u, by simp, htail,
      hskips.trans hskips', hu, fun first' brace' hfirst' hbrace' => ?_⟩
    obtain ⟨inner, last, heq, hinner, hlast⟩ := houter first brace hfirst hbrace
    refine ⟨first' ++ brace' :: inner, last, by simp [heq], ?_, hlast⟩
    rw [Zone.depth_append, hfirst'.depth, Option.bind_some, Zone.depth_cons, hbrace']
    exact hinner

/-- A declaration at the beginning of a file is skipped if it cannot be read. -/
theorem skips_first {tokens : List Token} (hended : Token.Ended tokens)
    (htokens : tokens = v :: rest) (hv : v.kind ≠ .semi) (hvEnd : v.kind ≠ .endOfFile)
    (hfails : item (tokens.length + 1) (parser (tokens.length + 1)) (initialState tokens) =
      (.error error, failed)) :
    ∃ id t, Skips (tokens.length + 1) (initialState tokens) [id] t ∧ t.rest <:+ failed.rest ∧
      Token.Ended t.rest ∧ t.errors = failed.errors.push error := by
  have hhere : (initialState tokens).current = v := Cursor.current_of_rest htokens
  obtain ⟨ts, e, hlast, hend, hkinds⟩ := id hended
  have hforward : Runs (recover (tokens.length + 1) error (initialState tokens).checkpoint
      TokenKind.startsItem) failed _ _ := runs_recover_forward _ _ _
  have hbound : (ts ++ [e]).length ≤ 0 + (tokens.length + 1) := by
    rw [hlast]
    omega
  have hmoves : Runs (recover (tokens.length + 1) error (initialState tokens).checkpoint
      TokenKind.startsItem) failed _ _ :=
    (progress hend hkinds).declarationSkipped hbound (hlast ▸ standsAt_initialState ts e)
      (by simpa [Cursor.isAtEnd, Cursor.isAt, hhere]) hfails
  unfold Runs at hforward hmoves
  split at hforward
  · rename_i id t hskip
    obtain ⟨hsuffix, -, hstores, herrors⟩ := hforward
    rw [hskip] at hmoves
    obtain ⟨q, hq, hstands⟩ := hmoves
    have hrest : t.rest = tokens.drop q := hlast ▸ hstands.rest
    have hne : tokens.drop q ≠ [] := by
      have hlt := hstands.lt
      rw [← hlast] at hlt
      simpa using hlt
    have hlater : Token.Ended (tokens.take q ++ tokens.drop q) := by
      rwa [List.take_append_drop]
    refine ⟨id, t, .of_fileItem (by rwa [hhere]) (run_fileItem_of_fails htokens hv hfails hskip)
      (fun i _ _ _ h => absurd h.lt (Nat.not_lt_zero i)) ?_ ?_, hsuffix, ?_, herrors⟩
    · intro id' hid
      rwa [List.mem_singleton.mp hid]
    · rw [hrest, List.length_drop]
      exact Nat.sub_lt (List.length_pos_of_ne_nil (by simp [htokens])) hq
    · rw [hrest]
      exact (hlater.split hne).1
  · exact hforward.elim

/-! ### A get method behind what is skipped -/

section

variable {bad more tail : List Token} {get fn : Token}

/-- Behind semicolons a get method is come to. Behind anything else the word `get` is skipped. -/
theorem skips_tail (hrest : s.rest = tail ++ get :: fn :: more) (hbound : s.rest.length ≤ bound)
    (hget : get.kind = .ident) (hfn : fn.kind = .kwFun) (hidle : Token.Idle tail)
    (hbalanced : Token.Balanced tail) : ∃ skipped t, Skips bound s skipped t ∧
      ((∀ v ∈ tail, v.kind = .semi) ∧ t.rest = get :: fn :: more ∨
        (¬ ∀ v ∈ tail, v.kind = .semi) ∧ t.rest = fn :: more) := by
  obtain hsemis | ⟨semis, x, word, rfl, hsemis, hx⟩ := Token.exists_semis tail
  · obtain ⟨t, hskips, ht⟩ := skips_semis bound hsemis hrest
    exact ⟨[], t, hskips, .inl ⟨hsemis, ht⟩⟩
  · rw [List.append_assoc, List.cons_append] at hrest
    obtain ⟨t, hskips, ht⟩ := skips_semis bound hsemis hrest
    rw [Token.Balanced, Zone.depth_append, Token.balanced_of_semis hsemis] at hbalanced
    have hword : Token.Idle word := fun v hv => hidle.right v (List.mem_cons_of_mem x hv)
    have hshape : t.rest = x :: ((word ++ [get]) ++ fn :: more) := by simp [ht]
    have hidle' : Token.Idle (x :: (word ++ [get])) := by
      intro v hv
      rw [← List.cons_append] at hv
      obtain hv | hv := List.mem_append.mp hv
      · exact hidle.right v hv
      · rw [List.mem_singleton.mp hv, hget]
        exact ⟨rfl, by decide⟩
    have hbalanced' : Token.Balanced (x :: (word ++ [get])) := by
      have hone : Zone.body.depth 0 [get] = some 0 := by rw [Zone.depth_cons, hget]; rfl
      rw [Token.Balanced, ← List.cons_append, Zone.depth_append]
      exact Option.bind_eq_some_iff.mpr ⟨0, hbalanced, hone⟩
    have hnext : ∀ v ∈ (word ++ get :: fn :: more).head?, v.kind ≠ .kwFun := by
      refine hword.head_ne ?_
      rintro v ⟨⟩
      simp [hget]
    obtain ⟨id, u, hskips', hu⟩ := skips_word hshape (hskips.rest_le.trans hbound) hx hidle'
      (by simpa using hnext) hbalanced'
      (.inr (by rw [hfn]; rfl))
    refine ⟨_, u, hskips.trans hskips', .inr ⟨fun hall => hx (hall x (by simp)), hu⟩⟩

/-- A declaration breaks off within some tokens, or it is read on into what follows them. -/
theorem exists_back_or_later (hended : Token.Ended (bad ++ later))
    (hfails : item ((bad ++ later).length + 1) (parser ((bad ++ later).length + 1))
      (initialState (bad ++ later)) = (.error error, failed)) :
    (∃ front back, bad = front ++ back ∧ failed.rest = back ++ later) ∨
      failed.rest <:+ later.tail := by
  obtain ⟨ts, e, htokens, hend, hkinds⟩ := hended
  have hruns := (progress hend hkinds).declaration
    (show (ts ++ [e]).length ≤ 0 + ((ts ++ [e]).length + 1) by omega) _ (standsAt_initialState ts e)
  unfold Runs at hruns
  rw [← htokens, hfails] at hruns
  obtain ⟨q, -, hq⟩ := hruns
  rcases Nat.lt_or_ge bad.length q with hlt | hle
  · right
    obtain ⟨k, rfl⟩ := Nat.exists_eq_add_of_lt hlt
    have hdrop : failed.rest = later.drop (k + 1) := by
      rw [hq.rest, Nat.add_assoc, List.drop_append]
      simp
    rw [hdrop, ← List.drop_tail]
    exact List.drop_suffix k later.tail
  · left
    refine ⟨bad.take q, bad.drop q, (List.take_append_drop q bad).symm, ?_⟩
    rw [hq.rest, List.drop_append_of_le_length hle]

/-- The words `front` and `back` are no declaration: it breaks off behind `front`. No declaration
begins within them. -/
structure BreaksOff (bound : Nat) (s failed : ParserState) (front back later : List Token) : Prop where
  fails : ∃ error, item bound (parser bound) s = (.error error, failed)
  arena : s.arena.Extends failed.arena
  first : ∃ v rest, s.rest = v :: rest ∧ v.kind ≠ .semi ∧ v.kind ≠ .endOfFile
  bounded : s.rest.length ≤ bound
  here : s.rest = front ++ back ++ later
  left : failed.rest = back ++ later
  ne_nil : front ++ back ≠ []
  ends : ∀ x ∈ back, x.kind ≠ .endOfFile
  starts : ∀ x ∈ (front ++ back).tail, x.kind.startsItem = false

namespace BreaksOff

variable {front back : List Token}

/-- Behind the first word nothing begins a declaration. -/
theorem idle (h : BreaksOff bound s failed front back later) (hfront : front ≠ []) :
    Token.Idle back := by
  intro x hx
  refine ⟨h.starts x ?_, h.ends x hx⟩
  rw [List.tail_append_of_ne_nil hfront]
  exact List.mem_append_right _ hx

theorem length_eq (h : BreaksOff bound s failed front back later) :
    s.rest.length = front.length + back.length + later.length := by
  rw [h.here, List.length_append, List.length_append]

/-- Where no brace is open, what is left is skipped up to the word `fun`, and `get` with it. -/
theorem skips_of_closed (h : BreaksOff bound s failed front back (get :: fn :: more))
    (hget : get.kind = .ident) (hfn : fn.kind = .kwFun) (hback : Token.Balanced back) :
    ∃ skipped t, Skips bound s skipped t ∧ t.rest = fn :: more := by
  obtain ⟨error, hitem⟩ := h.fails
  obtain ⟨v, rest, hrest, hv, hend⟩ := h.first
  have hget' : get.kind.startsItem = false := by rw [hget]; rfl
  have hword : Token.Balanced (back ++ [get]) := by
    have hone : Zone.body.depth 0 [get] = some 0 := by rw [Zone.depth_cons, hget]; rfl
    rw [Token.Balanced, Zone.depth_append, hback]
    exact hone
  have hends : ∀ x ∈ back ++ [get], x.kind ≠ .endOfFile := by
    intro x hx
    obtain hx | hx := List.mem_append.mp hx
    · exact h.ends x hx
    · simp [List.mem_singleton.mp hx, hget]
  have hfirst : failed.rest.length < s.rest.length →
      ∀ x ∈ (back ++ [get]).head?, x.kind.startsItem = false := by
    intro hless x hx
    have hfront : front ≠ [] := by
      rintro rfl
      rw [h.left, h.here] at hless
      exact absurd hless (Nat.lt_irrefl _)
    obtain hx | hx := List.mem_append.mp (List.mem_of_mem_head? hx)
    · exact (h.idle hfront x hx).1
    · exact List.mem_singleton.mp hx ▸ hget'
  have htail : ∀ x ∈ (back ++ [get]).tail, x.kind.startsItem = false := by
    intro x hx
    cases back with
    | nil => exact absurd hx List.not_mem_nil
    | cons y back =>
      obtain hx | hx := List.mem_append.mp hx
      · refine h.starts x ?_
        cases front with
        | nil => exact hx
        | cons z front => exact List.mem_append_right front (List.mem_cons_of_mem y hx)
      · exact List.mem_singleton.mp hx ▸ hget'
  have hshort : (back ++ [get]).length < bound ∧ (fn :: more).length < s.rest.length := by
    have hlength := h.length_eq
    have hbound := h.bounded
    simp only [List.length_append, List.length_cons, List.length_nil] at hlength ⊢
    omega
  have hleft : failed.rest = (back ++ [get]) ++ fn :: more := by simp [h.left]
  obtain ⟨id, t, hskips, ht⟩ := skips_of_fails hrest hv hend hitem h.arena hleft hends hfirst htail
    hword (.inr (by rw [hfn]; rfl)) (.inr (by simp)) hshort.1 hshort.2
  exact ⟨[id], t, hskips, ht⟩

/-- Where braces are open, the parser comes to what stands behind the brace that closes the
outermost one of them. -/
theorem skips_of_open {k : Nat} (h : BreaksOff bound s failed front back later) (hfront : front ≠ [])
    (hback : Zone.body.depth (k + 1) back = some 0) (hfun : ∀ x ∈ later.head?, x.kind ≠ .kwFun) :
    ∃ inner last tail skipped t, back = inner ++ last :: tail ∧
      Zone.body.depth k inner = some 0 ∧ last.kind = .rBrace ∧ Token.Balanced tail ∧
      Skips bound s skipped t ∧ t.rest = tail ++ later := by
  obtain ⟨error, hitem⟩ := h.fails
  obtain ⟨v, rest, hrest, hv, hend⟩ := h.first
  have hlength := h.length_eq
  have hbound := h.bounded
  have hleft := h.left
  have hidle := h.idle hfront
  obtain ⟨inner, brace, word, rfl, hinner, hbrace, hword⟩ := Token.exists_closing_first hback
  have hidle' : Token.Idle word := fun x hx => hidle.right x (List.mem_cons_of_mem brace hx)
  rw [List.append_assoc, List.cons_append] at hleft
  have hpos := List.length_pos_of_ne_nil hfront
  simp only [List.length_append, List.length_cons] at hlength
  have hless : failed.rest.length < s.rest.length := by
    rw [hleft, hlength]
    simp only [List.length_append, List.length_cons]
    omega
  obtain ⟨id, t₁, hskips₁, ht₁⟩ := skips_of_fails hrest hv hend hitem h.arena hleft
    (fun x hx => (hidle.left x hx).2) (fun _ x hx => (hidle.left x (List.mem_of_mem_head? hx)).1)
    (fun x hx => (hidle.left x (List.mem_of_mem_tail hx)).1) hinner (.inl hbrace) (.inl hless)
    (by omega) (by simp only [List.length_append, List.length_cons]; omega)
  obtain ⟨id', t₂, hskips₂, ht₂⟩ := skips_brace bound ht₁ hbrace (hidle'.head_ne hfun)
  have hskips₁₂ := hskips₁.trans hskips₂
  obtain ⟨outer, tail, skipped, t₃, rfl, htail, hskips₃, ht₃, houter⟩ :=
    skips_closings ht₂ (hskips₁₂.rest_le.trans hbound) hidle' hword hfun
  obtain ⟨inner', last, heq, hinner', hlast⟩ := houter inner brace hinner hbrace
  refine ⟨inner', last, tail, _, t₃, ?_, hinner', hlast, htail, hskips₁₂.trans hskips₃, ht₃⟩
  rw [← List.cons_append, ← List.append_assoc, heq, List.append_assoc, List.singleton_append]

/-- What is left of a declaration where it breaks off is skipped. -/
theorem skips (h : BreaksOff bound s failed front back (get :: fn :: more)) (hget : get.kind = .ident)
    (hfn : fn.kind = .kwFun) (hbalanced : Token.Balanced (front ++ back)) :
    ∃ skipped t, Skips bound s skipped t ∧
      (Token.ClosesOff front back ∧ t.rest = get :: fn :: more ∨
        ¬ Token.ClosesOff front back ∧ t.rest = fn :: more) := by
  rw [Token.Balanced, Zone.depth_append] at hbalanced
  obtain ⟨d, hfront, hback⟩ := Option.bind_eq_some_iff.mp hbalanced
  cases d with
  | zero =>
    obtain ⟨skipped, t, hskips, ht⟩ := h.skips_of_closed hget hfn hback
    refine ⟨skipped, t, hskips, .inr ⟨?_, ht⟩⟩
    rintro ⟨outer, semis, rfl, hsemis, ⟨rfl, rfl⟩ | ⟨k, inner, brace, hopen, -⟩⟩
    · obtain ⟨v, rest, hrest, hv, -⟩ := h.first
      obtain ⟨x, word, rfl⟩ := List.exists_cons_of_ne_nil h.ne_nil
      cases h.here.symm.trans hrest
      exact hv (hsemis v List.mem_cons_self)
    · rw [hfront] at hopen
      cases hopen
  | succ k =>
    have hnonempty : front ≠ [] := by
      rintro rfl
      cases hfront
    have hnext : ∀ x ∈ (get :: fn :: more).head?, x.kind ≠ .kwFun := by
      rintro x ⟨⟩
      simp [hget]
    obtain ⟨inner, last, tail, skipped, t, rfl, hinner, hlast, htail, hskips, ht⟩ :=
      h.skips_of_open hnonempty hback hnext
    have hidle : Token.Idle tail :=
      fun x hx => (h.idle hnonempty).right x (List.mem_cons_of_mem last hx)
    obtain ⟨skipped', t', hskips', ht'⟩ :=
      skips_tail ht (hskips.rest_le.trans h.bounded) hget hfn hidle htail
    refine ⟨_, t', hskips.trans hskips', ht'.imp (And.imp_left fun hsemis => ?_)
      (And.imp_left fun hnot hcloses => hnot ?_)⟩
    · exact ⟨inner ++ [last], tail, by simp, hsemis,
        .inr ⟨k, inner, last, hfront, rfl, hinner, hlast⟩⟩
    · obtain ⟨outer', semis, hsplit, hsemis, ⟨hnil, -⟩ | ⟨k', inner', last', hopen, rfl, hinner',
        hlast'⟩⟩ := hcloses
      · exact absurd hnil hnonempty
      · rw [hfront] at hopen
        cases hopen
        rw [List.append_assoc, List.singleton_append] at hsplit
        exact Token.closing_unique hinner hinner' hlast hlast' hsplit ▸ hsemis

end BreaksOff

/-- A declaration breaks off in front of a get method, and what is left of it closes it off. -/
def ClosesOffBefore (bad later : List Token) (failed : ParserState) : Prop :=
  ∃ front back, bad = front ++ back ∧ failed.rest = back ++ later ∧ Token.ClosesOff front back

theorem closesOffBefore_iff {front back : List Token} (hbad : bad = front ++ back)
    (hfailed : failed.rest = back ++ later) :
    ClosesOffBefore bad later failed ↔ Token.ClosesOff front back := by
  refine ⟨?_, fun hcloses => ⟨front, back, hbad, hfailed, hcloses⟩⟩
  rintro ⟨front', back', hbad', hfailed', hcloses⟩
  obtain rfl := List.append_cancel_right (hfailed.symm.trans hfailed')
  obtain rfl := List.append_cancel_right (hbad.symm.trans hbad')
  exact hcloses

/-- Where no token has been read, only semicolons close off. -/
theorem closesOff_nil_iff {back : List Token} :
    Token.ClosesOff [] back ↔ ∀ t ∈ back, t.kind = .semi := by
  constructor
  · rintro ⟨outer, semis, rfl, hsemis, ⟨-, rfl⟩ | ⟨k, inner, brace, hopen, -⟩⟩
    · exact hsemis
    · cases hopen
  · exact fun hsemis => ⟨[], back, rfl, hsemis, .inl ⟨rfl, rfl⟩⟩

/-- Behind a broken declaration the parser comes to a get method if what is left of the declaration
where it breaks off closes it off. Otherwise it skips the word `get`. -/
theorem skips_broken (hended : Token.Ended (bad ++ get :: fn :: more)) (hget : get.kind = .ident)
    (hfn : fn.kind = .kwFun) (hne : bad ≠ []) (hbalanced : Token.Balanced bad)
    (hstarts : ∀ t ∈ bad.tail, t.kind.startsItem = false)
    (hfails : item ((bad ++ get :: fn :: more).length + 1)
      (parser ((bad ++ get :: fn :: more).length + 1)) (initialState (bad ++ get :: fn :: more)) =
        (.error error, failed)) :
    ∃ skipped t, Skips ((bad ++ get :: fn :: more).length + 1)
        (initialState (bad ++ get :: fn :: more)) skipped t ∧
      (ClosesOffBefore bad (get :: fn :: more) failed ∧ t.rest = get :: fn :: more ∨
        ¬ ClosesOffBefore bad (get :: fn :: more) failed ∧ t.rest <:+ fn :: more) ∧
      Token.Ended t.rest := by
  obtain ⟨hmethod, hkinds⟩ := hended.split (List.cons_ne_nil get (fn :: more))
  have hfunction : Token.Ended (fn :: more) := by
    have happend : Token.Ended ([get] ++ fn :: more) := hmethod
    exact (happend.split (List.cons_ne_nil fn more)).1
  obtain ⟨v, word, rfl⟩ := List.exists_cons_of_ne_nil hne
  generalize htokens : v :: word ++ get :: fn :: more = tokens at hended hfails ⊢
  have hrest : (initialState tokens).rest = v :: (word ++ get :: fn :: more) := htokens.symm
  have hbound : (initialState tokens).rest.length ≤ tokens.length + 1 := Nat.le_succ _
  have harena : (initialState tokens).arena.Extends failed.arena :=
    fun i _ _ _ h => absurd h.lt (Nat.not_lt_zero i)
  have hend : v.kind ≠ .endOfFile := hkinds v List.mem_cons_self
  have hlast : ∀ {skipped t p}, Skips (tokens.length + 1) (initialState tokens) skipped t →
      (p ∧ t.rest = get :: fn :: more ∨ ¬ p ∧ t.rest = fn :: more) →
      ∃ skipped t, Skips (tokens.length + 1) (initialState tokens) skipped t ∧
        (p ∧ t.rest = get :: fn :: more ∨ ¬ p ∧ t.rest <:+ fn :: more) ∧ Token.Ended t.rest := by
    intro skipped t p hskips ht
    refine ⟨skipped, t, hskips, ht.imp_right fun ⟨hnot, heq⟩ => ⟨hnot, heq ▸ List.suffix_refl _⟩, ?_⟩
    obtain ⟨-, heq⟩ | ⟨-, heq⟩ := ht
    · rwa [heq]
    · rwa [heq]
  by_cases hv : v.kind = .semi
  · -- A stray semicolon is read, and what follows is no declaration either.
    have hidle : Token.Idle (v :: word) := List.forall_mem_cons.mpr
      ⟨⟨by rw [hv]; rfl, hend⟩, fun t ht => ⟨hstarts t ht, hkinds t (List.mem_cons_of_mem v ht)⟩⟩
    have hword : Token.Idle word := fun t ht => hidle t (List.mem_cons_of_mem v ht)
    have hnext : ∀ x ∈ (get :: fn :: more).head?, x.kind ≠ .kwFun := by
      rintro x ⟨⟩
      simp [hget]
    obtain rfl : failed = initialState tokens := congrArg Prod.snd (hfails.symm.trans
      (run_item_of_not_get _ _ hrest (hidle v List.mem_cons_self).1 (hword.head_ne hnext)))
    have hall : (initialState tokens).rest = v :: word ++ get :: fn :: more := htokens.symm
    obtain ⟨skipped, t, hskips, ht⟩ := skips_tail hall hbound hget hfn hidle hbalanced
    have hiff := closesOffBefore_iff (List.nil_append (v :: word)).symm hall
    rw [hiff, closesOff_nil_iff]
    exact hlast hskips ht
  · subst htokens
    obtain ⟨front, back, hbad, hfailed⟩ | hfailed := exists_back_or_later hended hfails
    · have hbreaks : BreaksOff _ _ failed front back (get :: fn :: more) :=
        { fails := ⟨error, hfails⟩
          arena := harena
          first := ⟨v, _, hrest, hv, hend⟩
          bounded := hbound
          here := by rw [← hbad]; rfl
          left := hfailed
          ne_nil := hbad ▸ hne
          ends := fun x hx => hkinds x (hbad ▸ List.mem_append_right front hx)
          starts := hbad ▸ hstarts }
      obtain ⟨skipped, t, hskips, ht⟩ := hbreaks.skips hget hfn (hbad ▸ hbalanced)
      rw [closesOffBefore_iff hbad hfailed]
      exact hlast hskips ht
    · obtain ⟨id, t, hskips, hsuffix, hlater, -⟩ := skips_first hended rfl hv hend hfails
      refine ⟨[id], t, hskips, .inr ⟨?_, hsuffix.trans hfailed⟩, hlater⟩
      rintro ⟨front, back, -, hback, -⟩
      have hlong := hfailed.length_le
      rw [hback] at hlong
      simp only [List.tail_cons, List.length_cons, List.length_append] at hlong
      omega

end

end Grammar

end TolkAnalysis
