import TolkAnalysis.Proofs.Token.Lossless

/-!
# Texts in which names are spelled in another way

A text is cut into its lexemes, `Lexeme.cut`, and its tokens are the lexemes that are tokens, at the
places where they stand (`lex_eq_map`). So nothing is lost if two texts are compared lexeme by
lexeme: `Lexeme.Respells` says that a lexeme is kept, blanks and comments included, or that a name
is replaced by another one. Texts that are related in this way are read alike
(`Lexeme.readAlike_of_respells`), and nodes at the same tokens cover the same lexemes,
`Lexeme.SameRange`.
-/

namespace TolkAnalysis

/-- A part of a text and what it is. -/
structure Lexeme where
  kind : LexemeKind
  text : String
deriving DecidableEq

namespace Lexeme

variable {ls ls' : List Lexeme} {l l' : Lexeme} {i j : Nat} {cs : List Char}

/-! ### Texts as lexemes -/

/-- The lexemes of a text. -/
def cut : List Char → List Lexeme
  | [] => []
  | c :: rest =>
      let lexeme := Scan.scan c rest
      ⟨lexeme.1, String.ofList (c :: rest.take lexeme.2)⟩ :: cut (rest.drop lexeme.2)
termination_by cs => cs.length
decreasing_by
  simp only [List.length_drop, List.length_cons]
  omega

/-- The text that is made up of lexemes. -/
def concat (ls : List Lexeme) : List Char := ls.flatMap (·.text.toList)

theorem concat_append (ls ls' : List Lexeme) : concat (ls ++ ls') = concat ls ++ concat ls' :=
  List.flatMap_append

theorem concat_cut (cs : List Char) : concat (cut cs) = cs := by
  induction cs using cut.induct with
  | case1 => rw [cut, concat, List.flatMap_nil]
  | case2 c rest lexeme ih =>
    unfold concat at ih ⊢
    rw [cut, List.flatMap_cons, ih, String.toList_ofList, List.cons_append, List.take_append_drop]

/-- No lexeme is empty. -/
theorem size_pos_of_mem_cut (h : l ∈ cut cs) : 0 < l.text.utf8ByteSize := by
  induction cs using cut.induct with
  | case1 =>
    rw [cut] at h
    cases h
  | case2 c rest lexeme ih =>
    rw [cut] at h
    rcases List.mem_cons.mp h with rfl | h
    · refine Nat.pos_of_ne_zero fun hzero => ?_
      have hempty := String.utf8ByteSize_eq_zero_iff.mp hzero
      simp at hempty
    · exact ih h

/-! ### Places of lexemes -/

/-- Where the lexeme at a position begins. -/
def offset (ls : List Lexeme) (i : Nat) : Nat := (String.ofList (concat (ls.take i))).utf8ByteSize

theorem offset_succ (h : ls[i]? = some l) :
    offset ls (i + 1) = offset ls i + l.text.utf8ByteSize := by
  obtain ⟨hi, rfl⟩ := List.getElem?_eq_some_iff.mp h
  have hlast : concat [ls[i]] = ls[i].text.toList := List.flatMap_singleton _ _
  rw [offset, List.take_succ_eq_append_getElem hi, concat_append, String.ofList_append,
    String.utf8ByteSize_append, hlast, String.ofList_toList, offset]

theorem offset_length (cs : List Char) :
    offset (cut cs) (cut cs).length = (String.ofList cs).utf8ByteSize := by
  rw [offset, List.take_length, concat_cut]

theorem offset_lt (hij : i < j) (hj : j ≤ (cut cs).length) :
    offset (cut cs) i < offset (cut cs) j := by
  induction hij with
  | refl =>
    have hl := List.getElem?_eq_getElem (Nat.lt_of_succ_le hj)
    rw [offset_succ hl]
    exact Nat.lt_add_of_pos_right (size_pos_of_mem_cut (List.getElem_mem _))
  | @step j _ ih =>
    have hl := List.getElem?_eq_getElem (Nat.lt_of_succ_le hj)
    rw [offset_succ hl]
    exact (ih (Nat.le_of_succ_le hj)).trans_le (Nat.le_add_right _ _)

theorem offset_le (hij : i ≤ j) (hj : j ≤ (cut cs).length) :
    offset (cut cs) i ≤ offset (cut cs) j := by
  rcases hij.lt_or_eq with hlt | rfl
  · exact (offset_lt hlt hj).le
  · exact le_rfl

theorem offset_inj (hi : i ≤ (cut cs).length) (hj : j ≤ (cut cs).length)
    (h : offset (cut cs) i = offset (cut cs) j) : i = j := by
  rcases lt_trichotomy i j with hlt | heq | hgt
  · exact absurd h (offset_lt hlt hj).ne
  · exact heq
  · exact absurd h (offset_lt hgt hi).ne'

/-- Between the beginnings of two lexemes stand the lexemes from the one up to the other. -/
theorem isSlice_offset (hij : i ≤ j) :
    Text.IsSlice (String.ofList (concat ls)) (offset ls i) (offset ls j)
      (String.ofList (concat ((ls.take j).drop i))) := by
  have htake : ls.take i ++ (ls.take j).drop i = ls.take j := by
    conv_rhs => rw [← List.take_append_drop i (ls.take j), List.take_take, Nat.min_eq_left hij]
  refine ⟨String.ofList (concat (ls.take i)), String.ofList (concat (ls.drop j)), ?_, rfl, ?_⟩
  · rw [← String.ofList_append, ← String.ofList_append, ← concat_append, ← concat_append, htake,
      List.take_append_drop]
  · rw [offset, offset, ← String.utf8ByteSize_append, ← String.ofList_append, ← concat_append, htake]

/-! ### Tokens -/

/-- The lexeme is a token. -/
def isToken (l : Lexeme) : Bool :=
  match l.kind with
  | .token _ => true
  | _ => false

/-- The positions of the tokens and the one after the last lexeme, where the text ends. -/
def places (ls : List Lexeme) : List Nat :=
  (List.range ls.length).filter (fun i => ls[i]?.any isToken) ++ [ls.length]

/-- The token at a position. Where there is none the text ends. -/
def token (ls : List Lexeme) (i : Nat) : Token :=
  match ls[i]? with
  | some ⟨.token kind, text⟩ => ⟨kind, text, Span.ofRange (offset ls i) (offset ls (i + 1))⟩
  | _ => Token.endOfFile (offset ls i)

theorem lexFrom_eq_map (ls : List Lexeme) (start : Nat) (cs : List Char) :
    ∀ before : List Lexeme, ls = before ++ cut cs → offset ls before.length = start →
      Token.lexFrom start cs =
        ((List.range' before.length (cut cs).length).filter (fun i => ls[i]?.any isToken) ++
          [ls.length]).map (token ls) := by
  -- The induction follows the lexemes: those that have been read stay in front of the others.
  induction start, cs using Token.lexFrom.induct with
  | case1 start =>
    intro before hls hstart
    have hlength : ls.length = before.length := by rw [hls, cut, List.append_nil]
    rw [Token.lexFrom, cut, List.length_nil, List.range'_zero, List.filter_nil, List.nil_append,
      List.map_singleton, token, List.getElem?_eq_none le_rfl, hlength, hstart]
  | case2 start c rest lexeme word stop kind hkind ih =>
    intro before hls hstart
    have hcut : cut (c :: rest) = ⟨.token kind, word⟩ :: cut (rest.drop lexeme.2) := by
      rw [cut]
      exact congrArg (fun k => (⟨k, word⟩ : Lexeme) :: _) hkind
    have hread : ls = (before ++ [⟨.token kind, word⟩]) ++ cut (rest.drop lexeme.2) := by
      rw [hls, hcut, List.append_assoc]
      rfl
    have hget : ls[before.length]? = some ⟨.token kind, word⟩ := by
      rw [hls, hcut, List.getElem?_append_right le_rfl, Nat.sub_self, List.getElem?_cons_zero]
    have hstop : offset ls (before.length + 1) = stop := by rw [offset_succ hget, hstart]
    have hlater := ih _ hread (by rw [List.length_append, List.length_singleton, hstop])
    rw [List.length_append, List.length_singleton] at hlater
    rw [Token.lexFrom]
    simp only [show (Scan.scan c rest).1 = .token kind from hkind]
    rw [hcut, List.length_cons, List.range'_succ, List.filter_cons_of_pos (by rw [hget]; rfl),
      List.cons_append, List.map_cons, token, hget]
    dsimp only
    rw [hstart, hstop]
    exact congrArg _ hlater
  | case3 start c rest lexeme word stop hother ih =>
    intro before hls hstart
    have hcut : cut (c :: rest) = ⟨lexeme.1, word⟩ :: cut (rest.drop lexeme.2) := by rw [cut]
    have hread : ls = (before ++ [⟨lexeme.1, word⟩]) ++ cut (rest.drop lexeme.2) := by
      rw [hls, hcut, List.append_assoc]
      rfl
    have hget : ls[before.length]? = some ⟨lexeme.1, word⟩ := by
      rw [hls, hcut, List.getElem?_append_right le_rfl, Nat.sub_self, List.getElem?_cons_zero]
    have hskip : isToken ⟨lexeme.1, word⟩ = false := by
      unfold isToken
      dsimp only
      split
      · exact absurd ‹_› (hother _)
      · rfl
    have hstop : offset ls (before.length + 1) = stop := by rw [offset_succ hget, hstart]
    have hlater := ih _ hread (by rw [List.length_append, List.length_singleton, hstop])
    rw [List.length_append, List.length_singleton] at hlater
    rw [hcut, List.length_cons, List.range'_succ, List.filter_cons_of_neg (by rw [hget]; simp [hskip]),
      ← hlater, Token.lexFrom]
    split
    · rename_i kind hkind
      exact absurd hkind (hother kind)
    · rfl

theorem pairwise_places (ls : List Lexeme) : (places ls).Pairwise (· < ·) := by
  refine List.pairwise_append.mpr ⟨List.pairwise_lt_range.filter _, List.pairwise_singleton _ _,
    fun i hi j hj => ?_⟩
  rw [List.mem_singleton.mp hj]
  exact List.mem_range.mp (List.mem_filter.mp hi).1

theorem lt_of_places {p q : Nat} (hpq : p < q) (hi : (places ls)[p]? = some i)
    (hj : (places ls)[q]? = some j) : i < j := by
  obtain ⟨hp, rfl⟩ := List.getElem?_eq_some_iff.mp hi
  obtain ⟨hq, rfl⟩ := List.getElem?_eq_some_iff.mp hj
  exact List.pairwise_iff_getElem.mp (pairwise_places ls) p q hp hq hpq

theorem le_of_mem_places (h : i ∈ places ls) : i ≤ ls.length := by
  rcases List.mem_append.mp h with hi | hi
  · exact (List.mem_range.mp (List.mem_filter.mp hi).1).le
  · exact (List.mem_singleton.mp hi).le

theorem getElem?_of_kind_token (h : (token ls i).kind ≠ .endOfFile) :
    ls[i]? = some ⟨.token (token ls i).kind, (token ls i).text⟩ := by
  unfold token at h ⊢
  split at h
  · rename_i kind text hget
    rw [hget]
  · exact absurd rfl h

end Lexeme

/-- The lexemes of a source. -/
def lexemes (source : String) : List Lexeme := Lexeme.cut source.toList

open Lexeme

/-- The tokens of a source are the lexemes that are tokens, at their places. -/
theorem lex_eq_map (source : String) :
    lex source = (places (lexemes source)).map (token (lexemes source)) := by
  have hlex := lexFrom_eq_map (lexemes source) 0 source.toList [] rfl rfl
  rw [List.length_nil, ← List.range_eq_range'] at hlex
  exact hlex

namespace Lexeme

section Places

variable {source : String} (hsize : source.utf8ByteSize ≤ Span.maxOffset)

include hsize

theorem offset_le_maxOffset (hi : i ≤ (lexemes source).length) :
    offset (lexemes source) i ≤ Span.maxOffset := by
  refine (offset_le hi le_rfl).trans ((offset_length source.toList).trans_le ?_)
  rwa [String.ofList_toList]

theorem start_token (hi : i ≤ (lexemes source).length) :
    (token (lexemes source) i).span.start = offset (lexemes source) i := by
  have hle := offset_le_maxOffset hsize hi
  unfold token
  split <;> exact Nat.min_eq_left hle

theorem stop_token (h : (token (lexemes source) i).kind ≠ .endOfFile) :
    (token (lexemes source) i).span.stop = offset (lexemes source) (i + 1) := by
  have hget := getElem?_of_kind_token h
  have hi := (List.getElem?_eq_some_iff.mp hget).1
  unfold token at h ⊢
  split at h
  · exact Nat.min_eq_left (offset_le_maxOffset hsize hi)
  · exact absurd rfl h

/-- A token of a source stands at the place of a lexeme. -/
theorem exists_of_mem_lex {t : Token} (ht : t ∈ lex source) (hkind : t.kind ≠ .endOfFile) :
    ∃ k, (lexemes source)[k]? = some ⟨.token t.kind, t.text⟩ ∧
      t.span = ⟨offset (lexemes source) k, offset (lexemes source) (k + 1)⟩ := by
  rw [lex_eq_map] at ht
  obtain ⟨k, -, rfl⟩ := List.mem_map.mp ht
  have hget := getElem?_of_kind_token hkind
  have hk := (List.getElem?_eq_some_iff.mp hget).1
  exact ⟨k, hget, by rw [← start_token hsize hk.le, ← stop_token hsize hkind]⟩

end Places

/-- A token of a source stands at the place of the same number. -/
theorem exists_place {source : String} {p : Nat} {t : Token} (ht : (lex source)[p]? = some t) :
    ∃ i, (places (lexemes source))[p]? = some i ∧ token (lexemes source) i = t := by
  rw [lex_eq_map, List.getElem?_map] at ht
  exact Option.map_eq_some_iff.mp ht

/-! ### Names in another spelling -/

variable {names : String → String → Prop}

/-- The second lexeme is the first one, or both are names that are related. -/
def Respells (names : String → String → Prop) (l l' : Lexeme) : Prop :=
  l' = l ∨ l.kind = .token .ident ∧ l'.kind = .token .ident ∧ names l.text l'.text

instance [DecidableRel names] (l l' : Lexeme) : Decidable (Respells names l l') :=
  inferInstanceAs (Decidable (_ ∨ _ ∧ _ ∧ _))

theorem Respells.kind_eq (h : Respells names l l') : l'.kind = l.kind := by
  rcases h with rfl | ⟨hkind, hkind', -⟩
  · rfl
  · rw [hkind, hkind']

/-- Lexemes at one position of both lists are related. -/
theorem getElem?_cases {R : Lexeme → Lexeme → Prop} (h : List.Forall₂ R ls ls') (i : Nat) :
    (ls[i]? = none ∧ ls'[i]? = none) ∨
      ∃ l l', ls[i]? = some l ∧ ls'[i]? = some l' ∧ R l l' := by
  induction h generalizing i with
  | nil => exact .inl ⟨rfl, rfl⟩
  | cons hl _ ih =>
    cases i with
    | zero => exact .inr ⟨_, _, rfl, rfl, hl⟩
    | succ i =>
      rw [List.getElem?_cons_succ, List.getElem?_cons_succ]
      exact ih i

theorem places_eq (h : List.Forall₂ (Respells names) ls ls') : places ls' = places ls := by
  unfold places
  rw [h.length_eq]
  congr 1
  refine List.filter_congr fun i _ => ?_
  obtain ⟨hl, hl'⟩ | ⟨l, l', hl, hl', hrespells⟩ := getElem?_cases h i
  · rw [hl, hl']
  · rw [hl, hl', Option.any_some, Option.any_some, isToken, isToken, hrespells.kind_eq]

theorem token_cases (h : List.Forall₂ (Respells names) ls ls') (i : Nat) :
    (token ls' i).kind = (token ls i).kind ∧ ((token ls' i).text = (token ls i).text ∨
      names (token ls i).text (token ls' i).text) := by
  obtain ⟨hl, hl'⟩ | ⟨⟨kind, text⟩, ⟨kind', text'⟩, hl, hl', hrespells⟩ := getElem?_cases h i
  · rw [token, token, hl, hl']
    exact ⟨rfl, .inl rfl⟩
  · rw [token, token, hl, hl']
    obtain heq | ⟨hkind, hkind', hnames⟩ := hrespells
    · cases heq
      split <;> exact ⟨rfl, .inl rfl⟩
    · dsimp only at hkind hkind' hnames
      subst hkind hkind'
      exact ⟨rfl, .inr hnames⟩

/-- Lexemes make up the same text, or there is a name among them on either side. -/
theorem concat_cases {P : Char → Prop} (hnames : ∀ x y, names x y →
    (∃ c ∈ x.toList, P c) ∧ ∃ c ∈ y.toList, P c) (h : List.Forall₂ (Respells names) ls ls') :
    concat ls' = concat ls ∨ (∃ c ∈ concat ls, P c) ∧ ∃ c ∈ concat ls', P c := by
  induction h with
  | nil => exact .inl rfl
  | @cons l l' ls ls' hl _ ih =>
    have hmem : ∀ {l : Lexeme} {ls : List Lexeme}, (∃ c ∈ l.text.toList, P c) ∨
        (∃ c ∈ concat ls, P c) → ∃ c ∈ concat (l :: ls), P c := by
      rintro l ls (⟨c, hc, hP⟩ | ⟨c, hc, hP⟩)
      · exact ⟨c, List.mem_append_left _ hc, hP⟩
      · exact ⟨c, List.mem_append_right _ hc, hP⟩
    obtain rfl | ⟨-, -, hrelated⟩ := hl
    · obtain heq | ⟨hl, hl'⟩ := ih
      · exact .inl (congrArg (l'.text.toList ++ ·) heq)
      · exact .inr ⟨hmem (.inr hl), hmem (.inr hl')⟩
    · obtain ⟨hx, hy⟩ := hnames _ _ hrelated
      exact .inr ⟨hmem (.inl hx), hmem (.inl hy)⟩

/-- Two spans that cover the lexemes at the same positions. -/
def SameRange (ls ls' : List Lexeme) (s s' : Span) : Prop :=
  ∃ i j, i < j ∧ j ≤ ls.length ∧ s = ⟨offset ls i, offset ls j⟩ ∧ s' = ⟨offset ls' i, offset ls' j⟩

section Respelled

variable {source source' : String} (hsize : source.utf8ByteSize ≤ Span.maxOffset)
  (hsize' : source'.utf8ByteSize ≤ Span.maxOffset)
  (h : List.Forall₂ (Respells names) (lexemes source) (lexemes source'))

include hsize hsize' h

/-- A token touches a later one in both texts or in none. -/
theorem joins_token {j : Nat} (hi : i < j) (hj : j ≤ (lexemes source).length) :
    Token.joins (token (lexemes source') i) (token (lexemes source') j) =
      Token.joins (token (lexemes source) i) (token (lexemes source) j) := by
  have hkind := (token_cases h i).1
  have hj' : j ≤ (lexemes source').length := h.length_eq ▸ hj
  unfold Token.joins
  rw [hkind, (token_cases h j).1]
  by_cases hgt : (token (lexemes source) i).kind = .gt
  · have hend : (token (lexemes source) i).kind ≠ .endOfFile := by rw [hgt]; decide
    have hend' : (token (lexemes source') i).kind ≠ .endOfFile := by rw [hkind, hgt]; decide
    have htouch : (offset (lexemes source') (i + 1) = offset (lexemes source') j) ↔
        offset (lexemes source) (i + 1) = offset (lexemes source) j :=
      ⟨fun heq => congrArg _ (offset_inj (hi.trans_le hj') hj' heq),
        fun heq => congrArg _ (offset_inj (hi.trans_le hj) hj heq)⟩
    rw [stop_token hsize hend, stop_token hsize' hend', start_token hsize hj, start_token hsize' hj']
    congr 1
    rw [Bool.eq_iff_iff, beq_iff_eq, beq_iff_eq]
    exact htouch
  · rw [beq_eq_false_iff_ne.mpr hgt]
    rfl

/-- Texts that are spelled in another way are read alike. -/
theorem readAlike_of_respells
    (hnames : ∀ x y, names x y → ∀ word ∈ Token.words, (y == word) = (x == word)) :
    Token.ReadAlike (lex source) (lex source') := by
  rw [lex_eq_map, lex_eq_map, places_eq h]
  refine ⟨List.forall₂_map_left_iff.mpr (List.forall₂_map_right_iff.mpr
    (List.forall₂_same.mpr fun i _ => ?_)), ?_⟩
  · obtain ⟨hkind, heq | hrelated⟩ := token_cases h i
    · exact ⟨hkind, fun word _ => by rw [heq]⟩
    · exact ⟨hkind, hnames _ _ hrelated⟩
  · have hpairs : ∀ ls : List Lexeme, ∀ ps : List Nat, Token.joined (ps.map (token ls)) =
        (ps.zip ps.tail).map fun p => Token.joins (token ls p.1) (token ls p.2) := by
      intro ls ps
      rw [Token.joined, ← List.map_tail, List.zipWith_map, List.map_zip_eq_zipWith]
      rfl
    rw [hpairs, hpairs]
    refine List.map_congr_left fun p hp => ?_
    obtain ⟨k, hk⟩ := List.getElem?_of_mem hp
    obtain ⟨hi, hj⟩ := List.getElem?_zip_eq_some.mp hk
    rw [List.getElem?_tail] at hj
    exact joins_token hsize hsize' h (lt_of_places (Nat.lt_succ_self k) hi hj)
      (le_of_mem_places (List.mem_of_getElem? hj))

/-- What covers the tokens at the same positions covers the lexemes at the same positions. -/
theorem sameRange_of_tokens {ts ts' : List Token} {e e' : Token} (hlex : lex source = ts ++ [e])
    (hlex' : lex source' = ts' ++ [e']) (hkinds : ∀ t ∈ ts, t.kind ≠ .endOfFile)
    (hkinds' : ∀ t ∈ ts', t.kind ≠ .endOfFile) {s s' : Span} (hs : Token.SameRange ts ts' s s') :
    SameRange (lexemes source) (lexemes source') s s' := by
  obtain ⟨p, q, t, u, t', u', hpq, ht, hu, ht', hu', rfl, rfl⟩ := hs
  have hplace {source : String} {ts : List Token} {e : Token} {p : Nat} {t : Token}
      (hlex : lex source = ts ++ [e]) (ht : ts[p]? = some t) :
      ∃ i, (places (lexemes source))[p]? = some i ∧ token (lexemes source) i = t := by
    refine exists_place ?_
    rw [hlex, List.getElem?_append_left (List.getElem?_eq_some_iff.mp ht).1, ht]
  obtain ⟨i, hi, rfl⟩ := hplace hlex ht
  obtain ⟨j, hj, rfl⟩ := hplace hlex hu
  obtain ⟨i', hi', rfl⟩ := hplace hlex' ht'
  obtain ⟨j', hj', rfl⟩ := hplace hlex' hu'
  rw [places_eq h] at hi' hj'
  obtain rfl : i = i' := Option.some.inj (hi.symm.trans hi')
  obtain rfl : j = j' := Option.some.inj (hj.symm.trans hj')
  have hu := hkinds _ (List.mem_of_getElem? hu)
  have hu' := hkinds' _ (List.mem_of_getElem? hu')
  have hlt := (List.getElem?_eq_some_iff.mp (getElem?_of_kind_token hu)).1
  have hij : i ≤ j := by
    rcases hpq.lt_or_eq with hlt | rfl
    · exact (lt_of_places hlt hi hj).le
    · exact (Option.some.inj (hi.symm.trans hj)).le
  refine ⟨i, j + 1, Nat.lt_succ_of_le hij, hlt, ?_, ?_⟩
  · rw [start_token hsize (hij.trans hlt.le), stop_token hsize hu]
  · rw [start_token hsize' ((hij.trans hlt.le).trans_eq h.length_eq), stop_token hsize' hu']

end Respelled

end Lexeme

end TolkAnalysis
