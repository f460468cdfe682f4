import Mathlib.Data.List.Basic
import Mathlib.Data.Nat.Basic
import Mathlib.Order.Basic
import TolkAnalysis.Proofs.Text.Boundary
import TolkAnalysis.Proofs.Tree.Shape
import TolkAnalysis.Tree.Arena

/-!
# Sound arenas

`Arena.Row a parent lo hi children` says that children are stored with the given parent, one
after the other between two offsets. An arena is `Sound` in a text when every stored node
covers some whole characters, its children are a row inside its span with itself as their
parent, and they fit the shape of its kind.

`a.Kept b` says that the nodes of `a` are stored unchanged in `b`. Pushing a node above a row
without a parent keeps an arena sound, and `truncate_kept` says that cutting an arena back to
the size of one it keeps gives exactly that one.
-/

namespace TolkAnalysis

namespace Arena

/-- What is stored at a position. -/
def node? (a : Arena) (i : Nat) : Option NodeData := a.nodes[i]?

/-- The slots and kinds of children. -/
def entries (a : Arena) (children : List Child) : List Entry :=
  children.map fun c => (c.field, ((a.node? c.node).map (·.kind)).getD .error)

/-- Children are stored below `parent`, one after the other between `lo` and `hi`. -/
structure Row (a : Arena) (parent : Option Nat) (lo hi : Nat) (children : List Child) : Prop where
  stored : ∀ c ∈ children, ∃ data, a.node? c.node = some data ∧ data.parent = parent ∧
    lo ≤ data.span.start ∧ data.span.stop ≤ hi
  ordered : children.Pairwise fun c d => ∀ x y, a.node? c.node = some x →
    a.node? d.node = some y → x.span.stop ≤ y.span.start

/-- A stored node covers whole characters of a text and stands above its children. -/
structure Grown (a : Arena) (text : String) (i : Nat) (data : NodeData) : Prop where
  covers : data.span.start < data.span.stop
  start : Text.IsBoundary text data.span.start
  stop : Text.IsBoundary text data.span.stop
  row : a.Row (some i) data.span.start data.span.stop data.children
  shape : Fits data.kind.parts (a.entries data.children)

/-- Every stored node stands above its children. -/
def Sound (a : Arena) (text : String) : Prop :=
  ∀ i data, a.node? i = some data → a.Grown text i data

/-- The nodes of `a` are stored unchanged in `b`. -/
def Kept (a b : Arena) : Prop := ∀ i data, a.node? i = some data → b.node? i = some data

theorem node?_eq_some_iff {a : Arena} {i : Nat} {data : NodeData} :
    a.node? i = some data ↔ ∃ h : i < a.nodes.size, a.nodes[i] = data :=
  Array.getElem?_eq_some_iff

theorem lt_of_node? {a : Arena} {i : Nat} {data : NodeData} (h : a.node? i = some data) :
    i < a.size := (node?_eq_some_iff.1 h).1

theorem exists_node? {a : Arena} {i : Nat} (h : i < a.size) : ∃ data, a.node? i = some data := by
  have hi : i < a.nodes.size := h
  exact ⟨a.nodes[i], node?_eq_some_iff.2 ⟨hi, rfl⟩⟩

theorem node?_eq_none {a : Arena} {i : Nat} (h : a.size ≤ i) : a.node? i = none :=
  Array.getElem?_eq_none h

theorem ext_node? {a b : Arena} (h : ∀ i, a.node? i = b.node? i) : a = b := by
  cases a
  cases b
  congr
  exact Array.ext_getElem? h

theorem sound_empty (text : String) : empty.Sound text := by
  intro i data h
  exact absurd (lt_of_node? h) (Nat.not_lt_zero i)

namespace Kept

variable {a b c : Arena}

theorem refl (a : Arena) : a.Kept a := fun _ _ h => h

theorem trans (hab : a.Kept b) (hbc : b.Kept c) : a.Kept c :=
  fun i data h => hbc i data (hab i data h)

theorem size_le (h : a.Kept b) : a.size ≤ b.size := by
  rcases Nat.eq_zero_or_pos a.size with hzero | hpos
  · omega
  · obtain ⟨data, hlast⟩ := exists_node? (a := a) (i := a.size - 1) (by omega)
    have := lt_of_node? (h _ _ hlast)
    omega

theorem node?_eq (h : a.Kept b) {i : Nat} (hi : i < a.size) : b.node? i = a.node? i := by
  obtain ⟨data, hdata⟩ := exists_node? hi
  rw [hdata, h i data hdata]

end Kept

/-- Cutting back an arena to the size of one that it keeps gives that one: every parent
link of a kept node stays below the cut. -/
theorem truncate_kept {a b : Arena} (h : a.Kept b) : b.truncate a.size = a := by
  apply ext_node?
  intro i
  unfold truncate
  split
  · rename_i hle
    rcases Nat.lt_or_ge i a.size with hi | hi
    · exact h.node?_eq hi
    · rw [node?_eq_none hi, node?_eq_none (hle.trans hi)]
  · rename_i hlt
    change ((b.nodes.take a.size).map (orphan a.size))[i]? = a.node? i
    rw [Array.getElem?_map, Array.take_eq_extract, Array.getElem?_extract]
    split
    · rename_i hi
      obtain ⟨data, hdata⟩ := exists_node? (a := a) (i := i) (by omega)
      have hkept : b.nodes[0 + i]? = some data := by
        rw [Nat.zero_add]
        exact h i data hdata
      rw [hkept, hdata, Option.map_some]
      obtain ⟨hsize, hget⟩ := node?_eq_some_iff.1 hdata
      unfold orphan
      split
      · rename_i p hp
        have hlt : p < a.size := ((a.placed i hsize).parent_gt p (hget ▸ hp)).2
        rw [if_neg (Nat.not_le.2 hlt)]
      · rfl
    · rename_i hi
      have hsize : a.size ≤ b.nodes.size := h.size_le
      rw [node?_eq_none (by omega)]
      rfl

/-- What adopting a list of children does to each stored node. -/
theorem getElem?_foldl_adopt (p : Nat) (children : List Child) (nodes : Array NodeData) (i : Nat) :
    (children.foldl (adopt p) nodes)[i]? = (nodes[i]?).map fun data =>
      if i ∈ children.map (·.node) then { data with parent := some p } else data := by
  induction children generalizing nodes with
  | nil => simp
  | cons c cs ih =>
    rw [List.foldl_cons, ih, adopt, Array.getElem?_modify]
    by_cases hc : c.node = i
    · subst hc
      cases nodes[c.node]? with
      | none => simp
      | some data => by_cases hmem : c.node ∈ cs.map (·.node) <;> simp [hmem]
    · have hmem : i ∈ (c :: cs).map (·.node) ↔ i ∈ cs.map (·.node) := by
        simp [Ne.symm hc]
      simp only [hc, if_false, hmem]

theorem stored_eq_self {a : Arena} {children : List Child} (h : ∀ c ∈ children, c.node < a.size) :
    a.stored children = children := by
  simpa [stored] using h

variable {a : Arena} {text : String} {kind : NodeKind} {span : Span} {children : List Child}
  {parent : Option Nat} {lo hi : Nat}

namespace Row

theorem nil : a.Row parent lo hi [] := ⟨by simp, .nil⟩

theorem lt_size (h : a.Row parent lo hi children) : ∀ c ∈ children, c.node < a.size := by
  intro c hc
  obtain ⟨data, hdata, -⟩ := h.stored c hc
  exact lt_of_node? hdata

/-- Rows stay rows between offsets that lie further apart. -/
theorem mono {lo' hi' : Nat} (h : a.Row parent lo hi children) (hlo : lo' ≤ lo) (hhi : hi ≤ hi') :
    a.Row parent lo' hi' children where
  stored c hc := by
    obtain ⟨data, hdata, hparent, hstart, hstop⟩ := h.stored c hc
    exact ⟨data, hdata, hparent, hlo.trans hstart, hstop.trans hhi⟩
  ordered := h.ordered

theorem kept {b : Arena} (h : a.Row parent lo hi children) (hab : a.Kept b) :
    b.Row parent lo hi children where
  stored c hc := by
    obtain ⟨data, hdata, hrest⟩ := h.stored c hc
    exact ⟨data, hab _ _ hdata, hrest⟩
  ordered := by
    refine h.ordered.imp_of_mem ?_
    intro c d hc hd hcd x y hx hy
    rw [hab.node?_eq (h.lt_size c hc)] at hx
    rw [hab.node?_eq (h.lt_size d hd)] at hy
    exact hcd x y hx hy

/-- Rows one after the other are one row. -/
theorem append {mid mid' : Nat} {later : List Child} (h : a.Row parent lo mid children)
    (h' : a.Row parent mid' hi later) (hlo : lo ≤ mid') (hmid : mid ≤ mid') (hhi : mid ≤ hi) :
    a.Row parent lo hi (children ++ later) where
  stored c hc := by
    rcases List.mem_append.1 hc with hmem | hmem
    · exact (h.mono le_rfl hhi).stored c hmem
    · exact (h'.mono hlo le_rfl).stored c hmem
  ordered := by
    refine List.pairwise_append.2 ⟨h.ordered, h'.ordered, ?_⟩
    intro c hc d hd x y hx hy
    obtain ⟨data, hdata, -, -, hstop⟩ := h.stored c hc
    obtain ⟨data', hdata', -, hstart, -⟩ := h'.stored d hd
    rw [hdata] at hx
    rw [hdata'] at hy
    cases hx
    cases hy
    omega

end Row

theorem entries_kept {b : Arena} (hab : a.Kept b) (h : ∀ c ∈ children, c.node < a.size) :
    b.entries children = a.entries children := by
  refine List.map_congr_left fun c hc => ?_
  rw [hab.node?_eq (h c hc)]

theorem entries_append (children later : List Child) :
    a.entries (children ++ later) = a.entries children ++ a.entries later := List.map_append

/-- What a push does to each node: the new one stands last, and the children take it as
their parent. -/
theorem node?_push (h : ∀ c ∈ children, c.node < a.size) (i : Nat) :
    (a.push kind span children).node? i =
      if i = a.size then some ⟨kind, span, none, children⟩
      else (a.node? i).map fun data =>
        if i ∈ children.map (·.node) then { data with parent := some a.size } else data := by
  change (a.pushedNodes kind span children)[i]? = _
  rw [pushedNodes, stored_eq_self h, Array.getElem?_push, size_foldl_adopt]
  simp only [size, node?, getElem?_foldl_adopt]
  rfl

/-- A push changes no span, kind or list of children, and a parent link only of a child. -/
theorem exists_node?_push (kind : NodeKind) (span : Span)
    (h : ∀ c ∈ children, c.node < a.size) {i : Nat} {data : NodeData}
    (hi : a.node? i = some data) : ∃ data', (a.push kind span children).node? i = some data' ∧
      data'.kind = data.kind ∧ data'.span = data.span ∧ data'.children = data.children ∧
      (i ∉ children.map (·.node) → data' = data) ∧
      (i ∈ children.map (·.node) → data'.parent = some a.size) := by
  have hne : i ≠ a.size := (lt_of_node? hi).ne
  rw [node?_push h, if_neg hne, hi]
  by_cases hmem : i ∈ children.map (·.node)
  · exact ⟨{ data with parent := some a.size }, by simp [hmem], rfl, rfl, rfl,
      fun hn => absurd hmem hn, fun _ => rfl⟩
  · exact ⟨data, by simp [hmem], rfl, rfl, rfl, fun _ => rfl, fun hm => absurd hm hmem⟩

theorem kept_push {b : Arena} (hb : b.Kept a) (h : ∀ c ∈ children, c.node < a.size)
    (hnew : ∀ c ∈ children, b.size ≤ c.node) : b.Kept (a.push kind span children) := by
  intro i data hi
  obtain ⟨data', hdata', -, -, -, hsame, -⟩ := exists_node?_push kind span h
    (hb i data hi)
  have hnot : i ∉ children.map (·.node) := by
    rintro hmem
    obtain ⟨c, hc, rfl⟩ := List.mem_map.1 hmem
    exact absurd (lt_of_node? hi) (Nat.not_lt.2 (hnew c hc))
  rw [hdata', hsame hnot]

theorem entries_push (kind : NodeKind) (span : Span) {later : List Child}
    (h : ∀ c ∈ children, c.node < a.size) (hlater : ∀ c ∈ later, c.node < a.size) :
    (a.push kind span children).entries later = a.entries later := by
  refine List.map_congr_left fun c hc => ?_
  obtain ⟨data, hdata⟩ := exists_node? (hlater c hc)
  obtain ⟨data', hdata', hkind, -⟩ := exists_node?_push kind span h hdata
  rw [hdata, hdata']
  simp [hkind]

/-- The row that is pushed becomes the row of the new node. -/
theorem Row.push (h : a.Row none lo hi children) :
    (a.push kind span children).Row (some a.size) lo hi children where
  stored c hc := by
    obtain ⟨data, hdata, -, hbounds⟩ := h.stored c hc
    obtain ⟨data', hdata', -, hspan, -, -, hparent⟩ :=
      exists_node?_push kind span h.lt_size hdata
    exact ⟨data', hdata', hparent (List.mem_map_of_mem hc), hspan ▸ hbounds⟩
  ordered := by
    refine h.ordered.imp_of_mem ?_
    intro c d hc hd hcd x y hx hy
    obtain ⟨data, hdata, -⟩ := h.stored c hc
    obtain ⟨other, hother, -⟩ := h.stored d hd
    obtain ⟨data', hdata', -, hspan, -⟩ :=
      exists_node?_push kind span h.lt_size hdata
    obtain ⟨other', hother', -, hspan', -⟩ :=
      exists_node?_push kind span h.lt_size hother
    rw [hdata'] at hx
    rw [hother'] at hy
    cases hx
    cases hy
    rw [hspan, hspan']
    exact hcd data other hdata hother

/-- Every other row stays as it is. -/
theorem Row.push_of_parent (kind : NodeKind) (span : Span) {i : Nat} {later : List Child}
    {lo' hi' : Nat}
    (h : a.Row none lo hi children) (hlater : a.Row (some i) lo' hi' later) :
    (a.push kind span children).Row (some i) lo' hi' later := by
  have hsame : ∀ c ∈ later, (a.push kind span children).node? c.node = a.node? c.node := by
    intro c hc
    obtain ⟨data, hdata, hparent, -⟩ := hlater.stored c hc
    obtain ⟨data', hdata', -, -, -, hold, -⟩ :=
      exists_node?_push kind span h.lt_size hdata
    have hnot : c.node ∉ children.map (·.node) := by
      -- A pushed child has no parent yet, and this one has.
      intro hmem
      obtain ⟨d, hd, hdc⟩ := List.mem_map.1 hmem
      obtain ⟨other, hother, hnone, -⟩ := h.stored d hd
      rw [hdc, hdata] at hother
      cases hother
      rw [hnone] at hparent
      cases hparent
    rw [hdata', hold hnot, hdata]
  refine ⟨fun c hc => ?_, ?_⟩
  · rw [hsame c hc]
    exact hlater.stored c hc
  · refine hlater.ordered.imp_of_mem ?_
    intro c d hc hd hcd
    rw [hsame c hc, hsame d hd]
    exact hcd

/-- A node that is stored already keeps standing above its children. -/
theorem Sound.grown_push (ha : a.Sound text) (hrow : a.Row none lo hi children) {i : Nat}
    {data : NodeData} (hi : (a.push kind span children).node? i = some data) (hne : i ≠ a.size) :
    (a.push kind span children).Grown text i data := by
  rw [node?_push hrow.lt_size, if_neg hne] at hi
  obtain ⟨old, hold, rfl⟩ := Option.map_eq_some_iff.1 hi
  have hgrown := ha i old hold
  have hrows := hrow.push_of_parent kind span hgrown.row
  have hentries := entries_push kind span hrow.lt_size hgrown.row.lt_size
  by_cases hmem : i ∈ children.map (·.node)
  · simp only [hmem, if_true]
    exact ⟨hgrown.covers, hgrown.start, hgrown.stop, hrows, hentries ▸ hgrown.shape⟩
  · simp only [hmem, if_false]
    exact ⟨hgrown.covers, hgrown.start, hgrown.stop, hrows, hentries ▸ hgrown.shape⟩

/-- Pushing a node above a row without a parent, inside the node's span, keeps an arena
sound. -/
theorem Sound.push (ha : a.Sound text) (hrow : a.Row none span.start span.stop children)
    (hcovers : span.start < span.stop) (hstart : Text.IsBoundary text span.start)
    (hstop : Text.IsBoundary text span.stop) (hshape : Fits kind.parts (a.entries children)) :
    (a.push kind span children).Sound text := by
  intro i data hi
  by_cases hlast : i = a.size
  · rw [node?_push hrow.lt_size, if_pos hlast] at hi
    cases hi
    subst hlast
    refine ⟨hcovers, hstart, hstop, hrow.push, ?_⟩
    rwa [entries_push kind span hrow.lt_size hrow.lt_size]
  · exact ha.grown_push hrow hi hlast

end Arena

end TolkAnalysis
