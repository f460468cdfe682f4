import TolkAnalysis.Grammar.Item
import TolkAnalysis.Proofs.Grammar.Abreast.Statement

/-!
# Declarations read abreast

A declaration begins before the point where the lists may part, and inside of it the lists do not
part: what its rules ask for there is no token that may follow a declaration. One that cannot be
read is skipped up to the next token that begins a declaration, so skipping stops where the second
list goes on.
-/

namespace TolkAnalysis

namespace Pairing

open TolkAnalysis.Parser TolkAnalysis.Grammar

variable {F : Pairing} {P p n i bound bound' : Nat} {parse parse' : Nonterminal → Parser Nat}
  {start start' : Nat} {c c' : Cursor}

@[simp] theorem optional_node (slot : Field) (node : Option Nat) :
    optional slot (node.map F.node) = (optional slot node).map F.child := by
  cases node <;> rfl

variable (h : F.Agree n bound bound' parse parse')

include h

/-! ### Annotations and imports -/

theorem abreast_annotationArguments? (hp : F.tokens.length < p + n) (hmid : F.Mid p) :
    F.Abreast P p (annotationArguments? bound parse) (annotationArguments? bound' parse')
      (fun q as as' => as' = as.map F.child ∧ F.Mid q) := by
  refine .ifCheck (.inl rfl) (by decide) (fun _ => ?_) (.pure ⟨rfl, hmid⟩)
  refine .bind (abreast_argumentList h hp.le) fun q args _ _ ⟨⟨_, hargs⟩, hmid'⟩ => ?_
  subst hargs
  exact .pure ⟨rfl, hmid'⟩

theorem abreast_annotationEntry (hp : F.tokens.length < p + n)
    (hkind : F.kind? p = some .atSign) :
    F.Abreast P p (annotationEntry bound parse) (annotationEntry bound' parse')
      (fun q a a' => Moves p F.child q a a' ∧ F.Mid q) := by
  refine .start fun hstart => ?_
  refine .next hkind (by decide) fun _ => ?_
  refine .bind .expectName fun q name _ _ ⟨hident, hq, hname⟩ => ?_
  subst hname hq
  have hmid := mid_succ hident (by decide) (by decide)
  refine .bind (abreast_annotationArguments? h (by omega) hmid) fun r args _ hr ⟨hargs, hmid'⟩ => ?_
  subst hargs
  refine (Abreast.finish_here hstart (by omega) (by simp)).map fun u id _ _ ⟨hu, hid⟩ => ?_
  subst hu hid
  exact ⟨⟨by omega, rfl⟩, hmid'⟩

/-- A row of annotations. Between them the lists do not part. -/
theorem abreast_annotationEntries (hp : F.tokens.length < p + n)
    (hkind : F.kind? p = some .atSign) :
    F.Abreast P p
      (collect (whenAt (·.isAt .atSign) (annotationEntry bound parse)) bound)
      (collect (whenAt (·.isAt .atSign) (annotationEntry bound' parse')) bound')
      (fun q as as' => p < q ∧ as' = as.map F.child ∧ F.Mid q) := by
  have hle := h.le
  have hle' := h.le'
  refine .collect_first (.cursor fun {c c'} hc _ => ?_) (fun q hq hmid => ?_) (by omega) (by omega)
  · obtain ⟨hat, hat'⟩ := hc.isAt_of_kind? hkind
    rw [if_pos hat, if_pos hat']
    refine .bind (abreast_annotationEntry h hp hkind) fun q entry _ _ ⟨⟨hq, hentry⟩, hmid⟩ => ?_
    subst hentry
    exact .pure ⟨entry, rfl, rfl, hq, hmid⟩
  · exact .whenAt_keeping (fun c c' hc _ => ⟨hc.isAt_eq (.inr hmid), fun hat =>
      abreast_annotationEntry h (by omega) (hc.kind?_of_isAt (by decide) hat)⟩) hmid

theorem abreast_annotations? (hp : F.tokens.length < p + n) (hmid : F.Mid p) :
    F.Abreast P p (annotations? bound parse) (annotations? bound' parse')
      (fun q o o' => o' = o.map F.node ∧ F.Mid q) := by
  refine .cursor fun {c c'} hc _ => ?_
  have hstart := hc.start
  rw [hc.isAt_eq (.inr hmid)]
  split
  · rename_i hat
    have hkind := hc.kind?_of_isAt (by decide) hat
    refine .bind (abreast_annotationEntries h hp hkind) fun q entries _ _ ⟨hq, hentries, hmid'⟩ => ?_
    subst hentries
    refine (Abreast.finish_here hstart hq rfl).map fun r id _ _ ⟨hr, hid⟩ => ?_
    subst hr hid
    exact ⟨rfl, hmid'⟩
  · exact .pure ⟨rfl, hmid⟩

omit h in
theorem abreast_importPath : F.Abreast P p importPath importPath (Moves p F.node) :=
  .ifCheck (.inl rfl) (by decide) (fun hkind => .leaf_moves hkind (by decide)) (.fail _)

omit h in
/-- The end of a declaration with an optional semicolon. -/
theorem abreast_eat_semi_finish (hstart : F.Starts i start start') (hi : i < p) {kind : NodeKind}
    {children children' : List Child} (hchildren : children' = children.map F.child) :
    F.Abreast P p (eat .semi >>= fun _ => finish kind start children)
      (eat .semi >>= fun _ => finish kind start' children') (Moves i F.node) :=
  .eat (.inl rfl) (by decide) (by decide) (fun _ => .finish hstart (by omega) hchildren)
    (.finish hstart hi hchildren)

omit h in
theorem abreast_importDirective (hmid : F.Mid p) (hstart : F.Starts i start start')
    (hip : i ≤ p) :
    F.Abreast P p (importDirective start) (importDirective start') (Moves i F.node) := by
  refine .expect (.inr hmid) (by decide) (by decide) fun _ _ => ?_
  refine .bind abreast_importPath fun q path _ _ ⟨hq, hpath⟩ => ?_
  subst hpath
  exact abreast_eat_semi_finish hstart (by omega) rfl

/-! ### Functions -/

theorem abreast_typeParameter (hp : F.tokens.length < p + n) :
    F.Abreast P p (typeParameter bound parse) (typeParameter bound' parse') (Moves p F.child) := by
  refine .start fun hstart => ?_
  refine .bind .expectName fun q name _ _ ⟨_, hq, hname⟩ => ?_
  subst hname
  refine .bind (.after? rfl (by decide) fun r hr => abreast_type h (by omega))
    fun r default _ hr hdefault => ?_
  subst hdefault
  exact (Abreast.finish hstart (by omega) (by simp)).map fun _ id _ _ ⟨hi, hid⟩ =>
    ⟨hi, by rw [hid]; rfl⟩

theorem abreast_typeParameters? (hp : F.tokens.length < p + n) :
    F.Abreast P p (typeParameters? bound parse) (typeParameters? bound' parse')
      (Maps (List.map F.child)) := by
  have hle := h.le
  have hle' := h.le'
  refine .cursor fun {c c'} hc _ => ?_
  have hstart := hc.start
  dsimp only
  rw [hc.isAt_eq (.inl rfl)]
  split
  · refine .expect (.inl rfl) (by decide) (by decide) fun _ _ => ?_
    refine .bind (.commaList rfl (fun q hq => abreast_typeParameter h (by omega)) (by omega)
      (by omega)) fun q params _ hq hparams => ?_
    subst hparams
    refine .expect (.inl rfl) (by decide) (by decide) fun _ _ => ?_
    refine .bind (.finish hstart (by omega) rfl) fun r id _ _ ⟨_, hid⟩ => ?_
    subst hid
    exact .pure rfl
  · exact .pure rfl

theorem abreast_parameter (hp : F.tokens.length < p + n) :
    F.Abreast P p (parameter bound parse) (parameter bound' parse') (Moves p F.child) := by
  refine .start fun hstart => ?_
  refine .bind (.mark? fun c c' hc => ⟨hc.isAtMutate_eq, hc.kind?_of_isAtMutate⟩)
    fun q mutate _ hq hmutate => ?_
  subst hmutate
  refine .bind .expectName fun r name _ _ ⟨_, hr, hname⟩ => ?_
  subst hname
  refine .bind (.after? rfl (by decide) fun u hu => abreast_type h (by omega))
    fun u typed _ hu htyped => ?_
  subst htyped
  refine .bind (.after? rfl (by decide) fun v hv => abreast_expression h (by omega))
    fun v default _ hv hdefault => ?_
  subst hdefault
  exact (Abreast.finish hstart (by omega) (by simp)).map fun _ id _ _ ⟨hi, hid⟩ =>
    ⟨hi, by rw [hid]; rfl⟩

theorem abreast_parameterList (hp : F.tokens.length < p + n) :
    F.Abreast P p (parameterList bound parse) (parameterList bound' parse') (Moves p F.node) := by
  have hle := h.le
  have hle' := h.le'
  refine .start fun hstart => ?_
  refine .expect (.inl rfl) (by decide) (by decide) fun _ _ => ?_
  refine .bind (.commaList rfl (fun q hq => abreast_parameter h (by omega)) (by omega) (by omega))
    fun q params _ hq hparams => ?_
  subst hparams
  refine .expect (.inl rfl) (by decide) (by decide) fun _ _ => ?_
  exact .finish hstart (by omega) rfl

theorem abreast_receiver? (hp : F.tokens.length < p + n) :
    F.Abreast P p (receiver? bound parse) (receiver? bound' parse') (Maps (Option.map F.node)) := by
  refine .start fun hstart => ?_
  refine .bind (.attempt (abreast_type h hp.le) (A := fun q => F.kind? q = some .dot)
    fun q c c' _ hc => ⟨hc.isAt_eq (.inl rfl), hc.kind?_of_isAt (by decide)⟩)
    fun q type _ hq ⟨htype, hsome, hnone⟩ => ?_
  subst htype
  cases type with
  | none => exact .pure rfl
  | some type =>
    obtain ⟨hlt, hdot⟩ := hsome rfl
    obtain ⟨j, rfl⟩ := Nat.exists_eq_add_of_le' (Nat.succ_le_of_lt (Nat.zero_lt_of_lt hlt))
    refine .cursor fun {d d'} hd _ => ?_
    have hj : j < F.tokens.length := hd.le
    have hu := List.getElem?_eq_getElem hj
    have ht := List.getElem?_eq_getElem (Nat.lt_of_le_of_lt (Nat.le_of_lt_succ hlt) hj)
    obtain ⟨hstop, hstop'⟩ := hd.previousStop hu
    obtain ⟨hbegin, hbegin'⟩ := hstart _ ht
    have hspan := (F.between (Nat.le_of_lt_succ hlt) ht hu).1
    dsimp only
    rw [hstop, hstop', hbegin, hbegin']
    refine .next hdot (by decide) fun _ => ?_
    exact (Abreast.push hspan rfl).map fun _ id _ _ ⟨_, hid⟩ => by rw [hid]; rfl

omit h in
theorem abreast_asmString (hkind : F.kind? p = some .stringLit) :
    F.Abreast P p (Child.plain <$> leaf .stringLiteral) (Child.plain <$> leaf .stringLiteral)
      (Moves p F.child) :=
  (Abreast.leaf_moves hkind (by decide)).map fun _ id _ _ ⟨hlt, hid⟩ => ⟨hlt, by rw [hid]; rfl⟩

omit h in
theorem abreast_asmBody (hbound : F.tokens.length < p + bound)
    (hbound' : F.tokens.length < p + bound') (hkind : F.kind? p = some .ident) :
    F.Abreast P p (asmBody bound) (asmBody bound') (Moves p F.node) := by
  refine .start fun hstart => ?_
  refine .next hkind (by decide) fun _ => ?_
  refine .bind (.collect (fun q hq => .whenAt fun c c' hc _ =>
    ⟨hc.isAt_eq (.inl rfl), fun hat => abreast_asmString (hc.kind?_of_isAt (by decide) hat)⟩)
    (by omega) (by omega)) fun q strings _ hq hstrings => ?_
  subst hstrings
  refine .bind (.finish hstart (by omega) rfl) fun r body _ _ ⟨hr, hbody⟩ => ?_
  subst hbody
  exact .eat_pure rfl (by decide) ⟨by omega, rfl⟩ ⟨by omega, rfl⟩

theorem abreast_functionBody (hp : F.tokens.length < p + n) :
    F.Abreast P p (functionBody bound parse) (functionBody bound' parse') (Moves p F.node) := by
  have hle := h.le
  have hle' := h.le'
  refine .ifCheck (.inl rfl) (by decide) (fun _ => abreast_block h hp.le) ?_
  refine .checkWord (by decide) (fun hkind => abreast_asmBody (by omega) (by omega) hkind) ?_
  refine .checkWord (by decide) (fun hkind => ?_) (.fail _)
  refine .bind (.leaf hkind (by decide)) fun q body _ _ ⟨hq, hbody⟩ => ?_
  subst hbody
  exact .eat_pure rfl (by decide) ⟨by omega, rfl⟩ ⟨by omega, rfl⟩

theorem abreast_functionFromName (hp : F.tokens.length < p + n) (hstart : F.Starts i start start')
    (hip : i ≤ p) (kind : NodeKind) (before : List Child) :
    F.Abreast P p (functionFromName bound parse start kind before)
      (functionFromName bound' parse' start' kind (before.map F.child)) (Moves i F.node) := by
  refine .bind .expectName fun q name _ _ ⟨_, hq, hname⟩ => ?_
  subst hname
  refine .bind (abreast_typeParameters? h (by omega)) fun r typeParams _ hr htypeParams => ?_
  subst htypeParams
  refine .bind (abreast_parameterList h (by omega)) fun u params _ _ ⟨hu, hparams⟩ => ?_
  subst hparams
  refine .bind (.after? rfl (by decide) fun v hv => abreast_type h (by omega))
    fun v result _ hv hresult => ?_
  subst hresult
  refine .bind (abreast_functionBody h (by omega)) fun w body _ _ ⟨hw, hbody⟩ => ?_
  subst hbody
  exact .finish hstart (by omega) (by simp)

theorem abreast_functionReceiver? (hp : F.tokens.length < p + n) (isGetMethod : Bool) :
    F.Abreast P p (functionReceiver? bound parse isGetMethod)
      (functionReceiver? bound' parse' isGetMethod) (Maps (Option.map F.node)) := by
  cases isGetMethod with
  | true => exact .pure rfl
  | false => exact abreast_receiver? h hp

theorem abreast_function (hp : F.tokens.length < p + n) (hmid : F.Mid p)
    (hstart : F.Starts i start start') (hip : i ≤ p) (annotations : Option Nat)
    (isGetMethod : Bool) :
    F.Abreast P p (function bound parse start annotations isGetMethod)
      (function bound' parse' start' (annotations.map F.node) isGetMethod) (Moves i F.node) := by
  refine .expect (.inr hmid) (by decide) (by decide) fun _ _ => ?_
  refine .bind (abreast_functionReceiver? h (by omega) isGetMethod)
    fun q receiver _ hq hreceiver => ?_
  subst hreceiver
  have hkind : functionKind isGetMethod (receiver.map F.node) = functionKind isGetMethod receiver := by
    rw [functionKind, functionKind, Option.isSome_map]
  rw [hkind, optional_node, optional_node, ← List.map_append]
  exact abreast_functionFromName h (by omega) hstart (by omega) _ _

/-! ### Structs and enums -/

omit h in
theorem abreast_packNumber : F.Abreast P p packNumber packNumber (Moves p F.node) :=
  .ifCheck (.inl rfl) (by decide) (fun hkind => .leaf_moves hkind (by decide)) (.fail _)

omit h in
theorem abreast_packPrefix? :
    F.Abreast P p packPrefix? packPrefix? (Maps (List.map F.child)) := by
  refine .ifEat rfl (by decide) (fun _ => ?_) (.pure rfl)
  refine .bind abreast_packNumber fun q number _ _ ⟨_, hnumber⟩ => ?_
  subst hnumber
  exact .expect (.inl rfl) (by decide) (by decide) fun _ _ => .pure rfl

omit h in
theorem Cursors.isAtModifier_eq (hc : F.Cursors p c c') :
    isAtModifier c' = isAtModifier c ∧ (isAtModifier c = true → F.kind? p = some .ident) := by
  have hident : (c.isAtWord "readonly" || c.isAtWord "private") = true →
      F.kind? p = some .ident := fun hat =>
    (Bool.or_eq_true_iff.mp hat).elim hc.kind?_of_isAtWord hc.kind?_of_isAtWord
  unfold isAtModifier
  rw [hc.isAtWord_eq (by decide), hc.isAtWord_eq (by decide)]
  rcases hat : c.isAtWord "readonly" || c.isAtWord "private" with _ | _
  · exact ⟨rfl, nofun⟩
  · rw [hc.kindAt_one (hident hat) (by decide) (by decide)]
    exact ⟨rfl, fun _ => hident hat⟩

omit h in
theorem abreast_fieldModifier (hkind : F.kind? p = some .ident) :
    F.Abreast P p fieldModifier fieldModifier (Moves p F.child) :=
  (Abreast.leaf_moves hkind (by decide)).map fun _ id _ _ ⟨hlt, hid⟩ => ⟨hlt, by rw [hid]; rfl⟩

theorem abreast_structField (hp : F.tokens.length < p + n) :
    F.Abreast P p (structField bound parse) (structField bound' parse') (Moves p F.child) := by
  have hle := h.le
  have hle' := h.le'
  refine .start fun hstart => ?_
  refine .bind (.collect (fun q hq => .whenAt fun c c' hc _ =>
    ⟨hc.isAtModifier_eq.1, fun hat => abreast_fieldModifier (hc.isAtModifier_eq.2 hat)⟩)
    (by omega) (by omega)) fun q modifiers _ hq hmodifiers => ?_
  subst hmodifiers
  refine .bind .expectName fun r name _ _ ⟨_, hr, hname⟩ => ?_
  subst hname
  refine .expect (.inl rfl) (by decide) (by decide) fun _ _ => ?_
  refine .bind (abreast_type h (by omega)) fun u type _ _ ⟨hu, htype⟩ => ?_
  subst htype
  refine .bind (.after? rfl (by decide) fun v hv => abreast_expression h (by omega))
    fun v default _ hv hdefault => ?_
  subst hdefault
  exact (Abreast.finish hstart (by omega) (by simp)).map fun _ id _ _ ⟨hi, hid⟩ =>
    ⟨hi, by rw [hid]; rfl⟩

omit h in
theorem abreast_separated (hbound : F.tokens.length < p + bound)
    (hbound' : F.tokens.length < p + bound') {member member' : Parser Child}
    (hmember : F.Abreast P p member member' (Moves p F.child)) :
    F.Abreast P p (separated bound member) (separated bound' member') (Moves p F.child) := by
  refine .bind hmember fun q child _ _ ⟨hq, hchild⟩ => ?_
  subst hchild
  refine .bind (.skipSeparators (by omega) (by omega)) fun r _ _ hr _ => ?_
  exact .pure ⟨by omega, rfl⟩

omit h in
theorem abreast_members (hbound : F.tokens.length < p + bound)
    (hbound' : F.tokens.length < p + bound') {member member' : Parser Child} (kind : NodeKind)
    (hmember : ∀ q, p < q → F.Abreast (P + 1) q member member' (Moves q F.child)) :
    F.Abreast P p (members bound kind member) (members bound' kind member') (Moves p F.node) := by
  refine .start fun hstart => ?_
  refine .expect_lBrace fun _ _ _ => ?_
  refine .bind (.collect (fun q hq => .whenAt fun c c' hc hdeep => ⟨hc.isInside_eq hdeep,
    fun _ => abreast_separated (by omega) (by omega) (hmember q hq)⟩) (by omega) (by omega))
    fun q children _ hq hchildren => ?_
  subst hchildren
  refine .expect_rBrace fun _ => ?_
  exact .finish hstart (by omega) rfl

theorem abreast_struct (hp : F.tokens.length < p + n) (hmid : F.Mid p)
    (hstart : F.Starts i start start') (hip : i ≤ p) (annotations : Option Nat) :
    F.Abreast P p (struct bound parse start annotations)
      (struct bound' parse' start' (annotations.map F.node)) (Moves i F.node) := by
  have hle := h.le
  have hle' := h.le'
  refine .expect (.inr hmid) (by decide) (by decide) fun _ _ => ?_
  refine .bind abreast_packPrefix? fun q packing _ hq hpacking => ?_
  subst hpacking
  refine .bind .expectName fun r name _ _ ⟨_, hr, hname⟩ => ?_
  subst hname
  refine .bind (abreast_typeParameters? h (by omega)) fun u typeParams _ hu htypeParams => ?_
  subst htypeParams
  refine .bind (abreast_members (by omega) (by omega) _
    fun v hv => abreast_structField h (by omega)) fun v body _ _ ⟨hv, hbody⟩ => ?_
  subst hbody
  exact .finish hstart (by omega) (by simp)

theorem abreast_enumMember (hp : F.tokens.length < p + n) :
    F.Abreast P p (enumMember bound parse) (enumMember bound' parse') (Moves p F.child) := by
  refine .start fun hstart => ?_
  refine .bind .expectName fun q name _ _ ⟨_, hq, hname⟩ => ?_
  subst hname
  refine .bind (.after? rfl (by decide) fun r hr => abreast_expression h (by omega))
    fun r value _ hr hvalue => ?_
  subst hvalue
  exact (Abreast.finish hstart (by omega) (by simp)).map fun _ id _ _ ⟨hi, hid⟩ =>
    ⟨hi, by rw [hid]; rfl⟩

theorem abreast_enum (hp : F.tokens.length < p + n) (hmid : F.Mid p)
    (hstart : F.Starts i start start') (hip : i ≤ p) (annotations : Option Nat) :
    F.Abreast P p (Grammar.enum bound parse start annotations)
      (Grammar.enum bound' parse' start' (annotations.map F.node)) (Moves i F.node) := by
  have hle := h.le
  have hle' := h.le'
  refine .expect (.inr hmid) (by decide) (by decide) fun _ _ => ?_
  refine .bind .expectName fun q name _ _ ⟨_, hq, hname⟩ => ?_
  subst hname
  refine .bind (.after? rfl (by decide) fun r hr => abreast_type h (by omega))
    fun r backed _ hr hbacked => ?_
  subst hbacked
  refine .bind (abreast_members (by omega) (by omega) _
    fun u hu => abreast_enumMember h (by omega)) fun u body _ _ ⟨hu, hbody⟩ => ?_
  subst hbody
  exact .finish hstart (by omega) (by simp)

/-! ### Aliases, constants and global variables -/

theorem abreast_underlyingType (hp : F.tokens.length < p + n) :
    F.Abreast P p (underlyingType bound parse) (underlyingType bound' parse') (Moves p F.node) := by
  refine .cursor fun {c c'} hc _ => ?_
  rw [hc.isAtWord_eq (by decide)]
  rcases hat : c.isAtWord "builtin" with _ | _
  · exact abreast_type h hp.le
  · have hkind := hc.kind?_of_isAtWord hat
    rw [hc.kindAt_one hkind (by decide) (by decide)]
    split
    · exact .leaf_moves hkind (by decide)
    · exact abreast_type h hp.le

theorem abreast_typeAlias (hp : F.tokens.length < p + n) (hmid : F.Mid p)
    (hstart : F.Starts i start start') (hip : i ≤ p) (annotations : Option Nat) :
    F.Abreast P p (typeAlias bound parse start annotations)
      (typeAlias bound' parse' start' (annotations.map F.node)) (Moves i F.node) := by
  refine .expect (.inr hmid) (by decide) (by decide) fun _ _ => ?_
  refine .bind .expectName fun q name _ _ ⟨_, hq, hname⟩ => ?_
  subst hname
  refine .bind (abreast_typeParameters? h (by omega)) fun r typeParams _ hr htypeParams => ?_
  subst htypeParams
  refine .expect (.inl rfl) (by decide) (by decide) fun _ _ => ?_
  refine .bind (abreast_underlyingType h (by omega)) fun u underlying _ _ ⟨hu, hunderlying⟩ => ?_
  subst hunderlying
  exact abreast_eat_semi_finish hstart (by omega) (by simp)

theorem abreast_constant (hp : F.tokens.length < p + n) (hmid : F.Mid p)
    (hstart : F.Starts i start start') (hip : i ≤ p) (annotations : Option Nat) :
    F.Abreast P p (constant bound parse start annotations)
      (constant bound' parse' start' (annotations.map F.node)) (Moves i F.node) := by
  refine .expect (.inr hmid) (by decide) (by decide) fun _ _ => ?_
  refine .bind .expectName fun q name _ _ ⟨_, hq, hname⟩ => ?_
  subst hname
  refine .bind (.after? rfl (by decide) fun r hr => abreast_type h (by omega))
    fun r typed _ hr htyped => ?_
  subst htyped
  refine .expect (.inl rfl) (by decide) (by decide) fun _ _ => ?_
  refine .bind (abreast_expression h (by omega)) fun u value _ _ ⟨hu, hvalue⟩ => ?_
  subst hvalue
  exact abreast_eat_semi_finish hstart (by omega) (by simp)

theorem abreast_globalVariable (hp : F.tokens.length < p + n) (hmid : F.Mid p)
    (hstart : F.Starts i start start') (hip : i ≤ p) (annotations : Option Nat) :
    F.Abreast P p (globalVariable bound parse start annotations)
      (globalVariable bound' parse' start' (annotations.map F.node)) (Moves i F.node) := by
  refine .expect (.inr hmid) (by decide) (by decide) fun _ _ => ?_
  refine .bind .expectName fun q name _ _ ⟨_, hq, hname⟩ => ?_
  subst hname
  refine .expect (.inl rfl) (by decide) (by decide) fun _ _ => ?_
  refine .bind (abreast_type h (by omega)) fun r type _ _ ⟨hr, htype⟩ => ?_
  subst htype
  exact abreast_eat_semi_finish hstart (by omega) (by simp)

/-! ### Files -/

theorem abreast_item (hp : F.tokens.length < p + n) (hmid : F.Mid p) :
    F.Abreast P p (item bound parse) (item bound' parse') (Moves p F.node) := by
  refine .start fun hstart => ?_
  refine .bind (abreast_annotations? h hp hmid) fun q annotations _ hq ⟨hannotations, hmid'⟩ => ?_
  subst hannotations
  refine .cursor fun {c c'} hc _ => ?_
  rw [hc.kind_eq_of_mid hmid']
  split
  · exact abreast_importDirective hmid' hstart hq
  · exact abreast_function h (by omega) hmid' hstart hq annotations false
  · exact abreast_struct h (by omega) hmid' hstart hq annotations
  · exact abreast_enum h (by omega) hmid' hstart hq annotations
  · exact abreast_typeAlias h (by omega) hmid' hstart hq annotations
  · exact abreast_constant h (by omega) hmid' hstart hq annotations
  · exact abreast_globalVariable h (by omega) hmid' hstart hq annotations
  · rw [hc.isAtWord_eq (by decide)]
    rcases hat : c.isAtWord "get" with _ | _
    · exact .fail _
    · have hkind := hc.kind?_of_isAtWord hat
      rw [hc.kindAt_one hkind (by decide) (by decide)]
      split
      · refine .next hkind (by decide) fun _ => ?_
        have hmid'' := mid_succ hkind (by decide) (by decide)
        exact abreast_function h (by omega) hmid'' hstart (by omega) annotations true
      · exact .fail _

/-- Outside braces, skipping what cannot be read stops where the lists part. -/
theorem abreast_itemOrSkipped (hp : F.tokens.length < p + n) (hlt : p < F.tokens.length) :
    F.Abreast 0 p (itemOrSkipped bound parse) (itemOrSkipped bound' parse') (Moves p F.node) := by
  have hle := h.le
  have hle' := h.le'
  refine .get fun {s s'} hs => ?_
  refine .tryCatch (abreast_item h hp (.inl hlt)) fun q e e' hq herror => ?_
  exact .recover (.inr fun _ hkind => hkind) herror hs.cursors hs.built.arena.size_eq hq hlt
    (.inl rfl) (by omega) (by omega)

theorem abreast_fileItem (hp : F.tokens.length < p + n) (hlt : p < F.tokens.length) :
    F.Abreast 0 p (fileItem bound parse) (fileItem bound' parse')
      (Moves p (List.map F.child)) := by
  refine .ifEat rfl (by decide) (fun _ => .pure ⟨Nat.lt_succ_self p, rfl⟩) ?_
  refine .bind (abreast_itemOrSkipped h hp hlt) fun q id _ _ ⟨hq, hid⟩ => ?_
  subst hid
  exact .pure ⟨hq, rfl⟩

end Pairing

end TolkAnalysis
