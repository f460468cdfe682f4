import TolkAnalysis.Proofs.Grammar.Cursor
import TolkAnalysis.Proofs.Tree.Extends

/-!
# What stands between two states of a parser

A state of a parser is `Sound` in a text when its tokens and its arena are. `Reaches text s s'`
is what every parser keeps, also one that fails: from `s` to `s'` tokens are read, errors are
added, and the nodes of `s` stay as they are. That is why going back from `s'` to the
checkpoint of `s` gives exactly `s`.

`Built text s read parts children s'` adds what a parser has made on its way: children in a
row, in the order of a list of parts, that nothing stands above yet, and that carry every node
that has been built. Such stretches are put together by `Built.append`, and `Built.push` closes
one with a node above it.
-/

namespace TolkAnalysis

namespace ParserState

/-- The tokens and the nodes of a state belong to a text. -/
structure Sound (text : String) (s : ParserState) : Prop where
  cursor : s.toCursor.Laid text
  arena : s.arena.Sound text

/-- A state is reached from another one by reading tokens and adding nodes and errors. -/
structure Reaches (text : String) (s s' : ParserState) : Prop where
  before : s.Sound text
  sound : s'.Sound text
  reads : s.toCursor.Reads s'.toCursor
  kept : s.arena.Kept s'.arena
  errors : ∃ later, s'.errors = s.errors ++ later

/-- Children that make up a list of parts are built on the way from one state to another, and
if `read` holds a token has been read. -/
structure Built (text : String) (s : ParserState) (read : Bool) (parts : List Part)
    (children : List Child) (s' : ParserState) : Prop extends Reaches text s s' where
  row : s'.arena.Row none s.start s'.previousStop children
  new : ∀ c ∈ children, s.arena.size ≤ c.node
  fits : Fits parts (s'.arena.entries children)
  moved : read = true → s.start < s'.previousStop
  /-- No node is lost. -/
  carried : ∀ i, s.arena.size ≤ i → i < s'.arena.size →
    ∃ c ∈ children, s'.arena.Carries c.node i

/-- One node is built on the way from one state to another. -/
def Made (text : String) (s : ParserState) (kinds : NodeKind → Bool) (id : Nat)
    (s' : ParserState) : Prop :=
  ∀ slot, Built text s true [⟨.one, slot, kinds⟩] [⟨slot, id⟩] s'

variable {text : String} {s s' s'' : ParserState} {read read' : Bool} {parts parts' : List Part}
  {children children' : List Child} {kinds kinds' : NodeKind → Bool} {id : Nat}

/-- Going back undoes everything if errors were only added and the nodes stayed as they were. -/
theorem rewind_of_kept {later : Array ParseError} (hkept : s.arena.Kept s'.arena)
    (herrors : s'.errors = s.errors ++ later) : s'.rewind s.checkpoint = s := by
  have htake : s'.errors.take s.errors.size = s.errors := by
    rw [herrors, Array.take_eq_extract]
    simp
  unfold rewind checkpoint
  simp only [Arena.truncate_kept hkept, htake]

namespace Reaches

theorem refl (h : s.Sound text) : Reaches text s s :=
  ⟨h, h, .refl _, .refl _, #[], by simp⟩

theorem trans (h : Reaches text s s') (h' : Reaches text s' s'') : Reaches text s s'' := by
  obtain ⟨later, hlater⟩ := h.errors
  obtain ⟨later', hlater'⟩ := h'.errors
  exact ⟨h.before, h'.sound, h.reads.trans h'.reads, h.kept.trans h'.kept, later ++ later',
    by rw [hlater', hlater, Array.append_assoc]⟩

/-- Reading one token reaches the place after it. -/
theorem advance (h : s.Sound text) : Reaches text s s.advance :=
  ⟨h, ⟨h.cursor.advance, h.arena⟩, Cursor.reads_advance _, .refl _, #[],
    by simp [ParserState.advance]⟩

/-- Reading goes forward. -/
theorem forward (h : Reaches text s s') :
    s.previousStop ≤ s'.previousStop ∧ s.start ≤ s'.start :=
  ⟨(h.before.cursor.forward h.reads).1, (h.before.cursor.forward h.reads).2.1⟩

/-- Going back to where parsing began undoes everything. -/
theorem rewind_eq (h : Reaches text s s') : s'.rewind s.checkpoint = s := by
  obtain ⟨later, hlater⟩ := h.errors
  exact rewind_of_kept h.kept hlater

end Reaches

namespace Built

theorem nil (h : s.Sound text) : Built text s false [] [] s :=
  { Reaches.refl h with
    row := .nil
    new := by simp
    fits := rfl
    moved := by simp
    carried := fun _ hi hlt => absurd hlt (Nat.not_lt.mpr hi) }

/-- What is built after something else is built beside it. -/
theorem append (h : Built text s read parts children s')
    (h' : Built text s' read' parts' children' s'') :
    Built text s (read || read') (parts ++ parts') (children ++ children') s'' where
  toReaches := h.toReaches.trans h'.toReaches
  row := (h.row.kept h'.kept).append h'.row h.forward.2 h.sound.cursor.previousStop_le_start
    h'.forward.1
  new c hc := by
    rcases List.mem_append.1 hc with hmem | hmem
    · exact h.new c hmem
    · exact h.kept.size_le.trans (h'.new c hmem)
  fits := by
    rw [Arena.entries_append, Arena.entries_kept h'.kept h.row.lt_size]
    exact h.fits.append h'.fits
  moved hread := by
    rcases Bool.or_eq_true_iff.1 hread with hread | hread
    · exact lt_of_lt_of_le (h.moved hread) h'.forward.1
    · exact lt_of_le_of_lt h.forward.2 (h'.moved hread)
  carried i hi hlt := by
    rcases Nat.lt_or_ge i s'.arena.size with hbefore | hafter
    · obtain ⟨c, hc, hcarries⟩ := h.carried i hi hbefore
      exact ⟨c, List.mem_append_left _ hc, hcarries.mono h'.kept.extends⟩
    · obtain ⟨c, hc, hcarries⟩ := h'.carried i hafter hlt
      exact ⟨c, List.mem_append_right _ hc, hcarries⟩

/-- Reading on after something is built. -/
theorem then_reads (h : Built text s read parts children s')
    (h' : Built text s' read' [] [] s'') :
    Built text s (read || read') parts children s'' := by
  simpa using h.append h'

/-- Children that fit some parts may be seen as others that they fit. -/
theorem of_fits (h : Built text s read parts children s')
    (hfits : Fits parts (s'.arena.entries children) → Fits parts' (s'.arena.entries children)) :
    Built text s read parts' children s' :=
  { h with fits := hfits h.fits }

theorem of_read (h : Built text s read parts children s')
    (hread : read' = true → read = true) : Built text s read' parts children s' :=
  { h with moved := fun hr => h.moved (hread hr) }

/-- Whether a token has been read need not be known. -/
theorem unread (h : Built text s read parts children s') : Built text s false parts children s' :=
  h.of_read fun hr => absurd hr Bool.false_ne_true

/-- The next token is read. -/
theorem advance (h : s.Sound text) (hkind : s.current.kind ≠ .endOfFile) :
    Built text s true [] [] s.advance :=
  { Reaches.advance h with
    row := .nil
    new := by simp
    fits := rfl
    moved := fun _ => (h.cursor.current_span hkind).1
    carried := fun _ hi hlt => absurd hlt (Nat.not_lt.mpr hi) }

/-- A node is put above what is built last, with the span from where building began to what was
read then, and has what is built before that aside. More tokens may have been read since. -/
theorem pushAside {kind : NodeKind} {front : List Child} {s₁ : ParserState}
    (hfront : Built text s read parts front s₁) (h : Built text s₁ true kind.parts children s')
    (hlater : Reaches text s' s'') (harena : s''.arena = s'.arena)
    (haside : ∀ c ∈ front, ∀ i, s''.arena.Carries c.node i →
      (s''.arena.push kind ⟨s.start, s'.previousStop⟩ children).Aside s''.arena.size i) :
    Made text s (NodeKind.only kind) s''.arena.size
      { s'' with arena := s''.arena.push kind ⟨s.start, s'.previousStop⟩ children } := by
  intro slot
  have hall := hfront.append h
  have hsound := hlater.sound
  have hnew : ∀ c ∈ children, s.arena.size ≤ c.node := fun c hc =>
    hfront.kept.size_le.trans (h.new c hc)
  have hrow : s''.arena.Row none s.start s'.previousStop children :=
    harena ▸ h.row.mono hfront.forward.2 le_rfl
  have hfits : Fits kind.parts (s''.arena.entries children) := harena ▸ h.fits
  have hmoves : s.start < s'.previousStop := hall.moved (by simp)
  have hpushed : (s''.arena.push kind ⟨s.start, s'.previousStop⟩ children).Sound text :=
    hsound.arena.push hrow hmoves hall.before.cursor.start.2
      h.sound.cursor.boundary_previousStop hfits
  have hkeeps := hall.kept.trans hlater.kept
  have hkept : s.arena.Kept (s''.arena.push kind ⟨s.start, s'.previousStop⟩ children) :=
    Arena.kept_push hkeeps hrow.lt_size hnew
  have hnode : (s''.arena.push kind ⟨s.start, s'.previousStop⟩ children).node? s''.arena.size =
      some ⟨kind, ⟨s.start, s'.previousStop⟩, none, children⟩ := by
    rw [Arena.node?_push hrow.lt_size, if_pos rfl]
  have hmoved := lt_of_lt_of_le hmoves hlater.forward.1
  refine
    { before := hall.before
      sound := ⟨hsound.cursor, hpushed⟩
      reads := hall.reads.trans hlater.reads
      kept := hkept
      errors := (hall.toReaches.trans hlater).errors
      row := ⟨by simpa using ⟨_, hnode, rfl, le_rfl, hlater.forward.1⟩, by simp⟩
      new := by simpa using hkeeps.size_le
      fits := Fits.singleton ⟨by simp [Arena.entries, hnode, NodeKind.only], rfl⟩
      moved := fun _ => hmoved
      carried := fun i hi hlt => ⟨_, List.mem_singleton_self _, ?_⟩ }
  dsimp only at hlt ⊢
  rcases (Nat.lt_succ_iff.mp (Arena.size_push .. ▸ hlt)).lt_or_eq with hbefore | rfl
  · obtain ⟨c, hc, hcarries⟩ := hall.carried i hi (harena ▸ hbefore)
    rw [← harena] at hcarries
    rcases List.mem_append.1 hc with hc | hc
    · exact ⟨_, .refl (by simp), .inr (haside c hc i hcarries)⟩
    · exact (hcarries.mono (.push _ _ _ _)).of_child ⟨none, hnode⟩ hc
  · exact .refl (by simp)

/-- A node is put above what is built, with the span from where building began to what was
read then. More tokens may have been read since. -/
theorem push {kind : NodeKind} (h : Built text s true kind.parts children s')
    (hlater : Reaches text s' s'') (harena : s''.arena = s'.arena) :
    Made text s (NodeKind.only kind) s''.arena.size
      { s'' with arena := s''.arena.push kind ⟨s.start, s'.previousStop⟩ children } :=
  (nil h.before).pushAside h hlater harena nofun

/-- Children of one part, built one after the other. -/
theorem append_many {slot : Option Field}
    (h : Built text s read [⟨.many, slot, kinds⟩] children s')
    (h' : Built text s' read' [⟨.many, slot, kinds⟩] children' s'') :
    Built text s (read || read') [⟨.many, slot, kinds⟩] (children ++ children') s'' :=
  (h.append h').of_fits Fits.many_of_append

/-- A single child may be put into another slot. -/
theorem relabel {count : Multiplicity} {slot : Option Field} {c : Child}
    (h : Built text s read [⟨count, slot, kinds⟩] [c] s') (slot' : Option Field) :
    Built text s read [⟨.one, slot', kinds⟩] [⟨slot', c.node⟩] s' where
  toReaches := h.toReaches
  row := ⟨by simpa using h.row.stored, by simp⟩
  new := by simpa using h.new
  fits := by
    have hkind := (Fits.singleton_iff.1 h.fits).allowed _ (List.mem_singleton.2 rfl)
    exact Fits.singleton ⟨by simpa [Arena.entries] using hkind.2, rfl⟩
  moved := h.moved
  carried i hi hlt := by simpa using h.carried i hi hlt

end Built

theorem Made.mono (h : Made text s kinds id s') (hkinds : ∀ k, kinds k = true → kinds' k = true) :
    Made text s kinds' id s' :=
  fun slot => (h slot).of_fits fun hfits => hfits.mono_kinds hkinds

theorem Made.then_reads (h : Made text s kinds id s') (h' : Built text s' read [] [] s'') :
    Made text s kinds id s'' :=
  fun slot => ((h slot).then_reads h').of_read fun _ => by simp

/-- A node that is built after tokens have been read is built from where they were read on. -/
theorem Made.after (h : Made text s' kinds id s'') (h' : Built text s read [] [] s') :
    Made text s kinds id s'' :=
  fun slot => (h'.append (h slot)).of_read fun _ => by simp

theorem Made.reaches (h : Made text s kinds id s') : Reaches text s s' := (h none).toReaches

end ParserState

end TolkAnalysis
