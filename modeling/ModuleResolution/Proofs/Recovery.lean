import ModuleResolution.Proofs.Joining
import ModuleResolution.Proofs.Remainders

/-!
# Going on behind a mistake

Behind a mistake reading goes on at the next semicolon outside the brackets that are opened from
there on.  Brackets that were open already are not counted, so that inside of them recovery may stop
in front of the end of a segment, and what is left of it is a mistake again.  It never goes on
behind that end, so a mistake is no matter of the other segments.

* `Program.Tail.items_append` : what is left of a segment is read as it is alone.
* `Program.recover_eq_nil_iff` : recovery stops at the end where one segment is left.
* `Program.length_mistakes_le_iff` : when a segment has no more than one mistake.
* `Program.mistakes_of_segments` : the mistakes of a text are those of its segments.
* `Program.recovery_cascades` : two mistakes in one segment.
-/

namespace ModuleResolution

namespace Program

open Reading Grammar

variable {ending : Span} {tokens rest left front : List Token} {token first : Token}
  {error : SyntaxError} {depth : Nat}

/-! ### Items and mistakes of a segment -/

variable {found : Located Item}

theorem Remainder.inside_of_item (h : Remainder depth (first :: rest))
    (hi : item first ending rest = .done found left) : Inside left := by
  obtain ⟨taken, part, htokens, hm⟩ := matches_of_item hi
  obtain ⟨first', body, semicolon, rfl, -⟩ := hm.extent
  rw [htokens, ← List.cons_append, List.append_assoc] at h
  exact h.inside

/-- Recovery leaves tokens of the segment, whatever stands behind it. -/
theorem Remainder.recover_of_mistake (h : Remainder depth (first :: rest))
    (hi : item first ending rest = .fail error left) (hne : left ≠ []) :
    Inside (recover 0 left) ∧ ∀ more, recover 0 (left ++ more) = recover 0 left ++ more := by
  obtain ⟨front, hfront⟩ := suffix_of_mistake hi
  rw [← hfront] at h
  obtain ⟨depth', -, hleft⟩ := h.of_append hne
  obtain ⟨inner, span, more, rfl, hrecover, happend⟩ := hleft.recover_spec (Nat.zero_le depth')
  rw [← List.append_assoc] at h
  rw [hrecover]
  exact ⟨h.inside, happend⟩

/-- The tokens are left of a segment, inside brackets or with a type that is bounded, unless there
are none. -/
def Tail (tokens : List Token) : Prop :=
  tokens ≠ [] → ∃ depth, Remainder depth tokens ∧ (depth = 0 → Bounded tokens)

theorem Inside.tail (h : Inside tokens) : Tail tokens := by
  intro hne
  obtain ⟨depth, hpos, hremainder⟩ := h hne
  exact ⟨depth, hremainder, fun hzero => absurd hzero (Nat.ne_of_gt hpos)⟩

/-- **The items and the mistakes of a segment are its own**, whatever stands behind it. -/
theorem Tail.items_append (h : Tail tokens) (ending ending' : Span) (more : List Token) :
    items ending' (tokens ++ more) = ((items ending tokens).1 ++ (items ending' more).1,
      (items ending tokens).2 ++ (items ending' more).2) := by
  -- what an item leaves, and what recovery leaves, is inside brackets and so a tail again
  fun_induction items ending tokens with
  | case1 => rfl
  | case2 first rest hk ih =>
    obtain ⟨depth, hremainder, -⟩ := h (List.cons_ne_nil _ _)
    obtain ⟨k, span⟩ := first
    cases hk
    have hrest : Inside rest := @Remainder.inside _ [] _ _ hremainder
    rw [List.cons_append, items_cons_of_semicolon rfl]
    exact ih hrest.tail
  | case3 first rest hk found left hi =>
    rename_i ih
    obtain ⟨depth, hremainder, -⟩ := h (List.cons_ne_nil _ _)
    have hends := hremainder.ends.of_cons hk
    rw [List.cons_append, items_cons_of_done hk (item_append_of_done hi hends ending' more),
      ih (hremainder.inside_of_item hi).tail]
    rfl
  | case4 first rest hk error left hi =>
    rename_i ih
    obtain ⟨depth, hremainder, hbounded⟩ := h (List.cons_ne_nil _ _)
    have hends := hremainder.ends.of_cons hk
    have hne : left ≠ [] := by
      rintro rfl
      exact hremainder.item_ne_fail hbounded hk hi
    obtain ⟨hinside, happend⟩ := hremainder.recover_of_mistake hi hne
    have hitem : item first ending' (rest ++ more) = .fail error (left ++ more) := by
      rw [local_item first ending rest hends (by simpa [hi] using hne), hi]
      rfl
    rw [List.cons_append, items_cons_of_fail hk hitem, happend, ih hinside.tail]
    rfl

/-- Inside brackets something is wrong, since no item closes a bracket that it did not open. -/
theorem Inside.mistakes_ne_nil (h : Inside tokens) (hne : tokens ≠ []) :
    (items ending tokens).1 ≠ [] := by
  intro hnil
  obtain ⟨depth, hpos, body, span, rfl, hl, -⟩ := h hne
  obtain ⟨parts, hparts⟩ := divides_of_items (Prod.ext hnil rfl)
  have hlevel := level_of_derives hparts.derives depth
  rw [List.map_append, level_append, hl] at hlevel
  obtain rfl : 0 = depth := Option.some.inj hlevel
  exact Nat.lt_irrefl 0 hpos

theorem Inside.mistakes_eq_nil_iff (h : Inside tokens) :
    (items ending tokens).1 = [] ↔ tokens = [] := by
  constructor
  · intro hnil
    by_contra hne
    exact h.mistakes_ne_nil hne hnil
  · rintro rfl
    rw [items]

/-! ### Where recovery stops -/

theorem recover_cons (depth : Nat) (token : Token) (rest : List Token) :
    recover depth (token :: rest) = if depth = 0 ∧ token.kind = .semicolon then rest
      else recover (deepen depth token.kind) rest := by
  obtain ⟨k, span⟩ := token
  cases k with
  | semicolon => simp [recover, deepen]
  | _ => simp [recover, deepen]

/-- Recovery leaves what stands behind the first segment. -/
theorem recover_eq (depth : Nat) (tokens : List Token) :
    recover depth tokens = (segmentsFrom depth tokens).tail.flatten := by
  induction tokens generalizing depth with
  | nil => rfl
  | cons token rest ih =>
    rw [recover_cons, segmentsFrom]
    split_ifs
    · exact (flatten_segmentsFrom 0 rest).symm
    · rw [ih]
      cases segmentsFrom (deepen depth token.kind) rest <;> rfl

theorem ne_nil_of_mem_segmentsFrom {segment : List Token}
    (h : segment ∈ segmentsFrom depth tokens) : segment ≠ [] := by
  induction tokens generalizing depth segment with
  | nil => cases h
  | cons token rest ih =>
    rw [segmentsFrom] at h
    split_ifs at h
    · rcases List.mem_cons.1 h with rfl | h
      · exact List.cons_ne_nil _ _
      · exact ih h
    · cases hrest : segmentsFrom (deepen depth token.kind) rest with
      | nil =>
        rw [hrest] at h
        rw [List.mem_singleton.1 h]
        exact List.cons_ne_nil _ _
      | cons segment' more =>
        rw [hrest] at h
        rcases List.mem_cons.1 h with rfl | h
        · exact List.cons_ne_nil _ _
        · exact ih (hrest ▸ List.mem_cons_of_mem _ h)

theorem recover_eq_nil_iff (hne : tokens ≠ []) :
    recover 0 tokens = [] ↔ segments tokens = [tokens] := by
  have hflatten := flatten_segmentsFrom 0 tokens
  rw [recover_eq, segments]
  cases hsegments : segmentsFrom 0 tokens with
  | nil =>
    rw [hsegments] at hflatten
    exact absurd hflatten.symm hne
  | cons segment more =>
    rw [hsegments, List.flatten_cons] at hflatten
    constructor
    · intro hnil
      have hmore : more = [] := by
        rw [List.eq_nil_iff_forall_not_mem]
        intro segment' hmem
        have hmem' : segment' ∈ segmentsFrom 0 tokens := hsegments ▸ List.mem_cons_of_mem _ hmem
        exact ne_nil_of_mem_segmentsFrom hmem' (List.flatten_eq_nil_iff.1 hnil segment' hmem)
      rw [hmore] at hflatten ⊢
      rw [List.flatten_nil, List.append_nil] at hflatten
      rw [hflatten]
    · intro h
      rw [(List.cons.inj h).2]
      rfl

/-! ### Mistakes of a segment -/

/-- Tokens with balanced brackets that end with the only semicolon outside them. -/
def Segment (tokens : List Token) : Prop := Remainder 0 tokens

instance (tokens : List Token) : Decidable (Segment tokens) :=
  inferInstanceAs (Decidable (Remainder 0 tokens))

/-- Wherever a mistake is noticed in the segment, the semicolon at its end is the next one outside
the brackets that are opened from there on. -/
def Regained (segment : List Token) : Prop :=
  ∀ first rest ending error left, segment = first :: rest →
    item first ending rest = .fail error left → segments left = [left]

/-- What is made of an item does not depend on where the file ends. -/
theorem item_ending (hends : Ends rest) (h : ∀ error, item first ending rest ≠ .fail error [])
    (ending' : Span) : item first ending' rest = item first ending rest := by
  have hlocal := local_item first ending rest hends h ending' []
  rwa [List.append_nil, Step.append_nil] at hlocal

/-- An item takes the whole segment. -/
theorem eq_nil_of_item (h : Segment (first :: rest))
    (hi : item first ending rest = .done found left) : left = [] := by
  by_contra hne
  obtain ⟨taken, part, htokens, hm⟩ := matches_of_item hi
  obtain ⟨body, span, rfl, hl, -⟩ := hm.exists_body
  rw [Segment, htokens, List.append_assoc] at h
  exact Nat.lt_irrefl 0 (h.pos_of_semicolon hl hne)

/-- **A segment has more than one mistake only where recovery stops in front of its end.** -/
theorem length_mistakes_le_iff (h : Segment tokens) (hb : Bounded tokens) (ending : Span) :
    (items ending tokens).1.length ≤ 1 ↔ Regained tokens := by
  obtain ⟨first, rest, rfl⟩ := List.exists_cons_of_ne_nil h.ends.ne_nil
  by_cases hk : first.kind = .semicolon
  · -- the semicolon alone, where nothing is read
    obtain ⟨k, span⟩ := first
    cases hk
    obtain rfl : rest = [] := by
      by_contra hne
      have hfront : Remainder 0 ([] ++ ⟨.semicolon, span⟩ :: rest) := h
      exact Nat.lt_irrefl 0 (hfront.pos_of_semicolon rfl hne)
    refine iff_of_true ?_ ?_
    · rw [items_cons_of_semicolon rfl, items]
      exact Nat.zero_le 1
    · rintro first rest ending' error left htokens hi
      cases htokens
      cases hi
      rfl
  have hends := h.ends.of_cons hk
  have hmistake : ∀ error, item first ending rest ≠ .fail error [] := fun error =>
    h.item_ne_fail (fun _ => hb) hk
  have hitem := item_ending hends hmistake
  cases hi : item first ending rest with
  | done found left =>
    rw [items_cons_of_done hk hi, eq_nil_of_item h hi, items]
    refine iff_of_true (Nat.zero_le 1) ?_
    rintro first' rest' ending' error left' htokens hfail
    cases htokens
    rw [hitem, hi] at hfail
    cases hfail
  | fail error left =>
    have hleft : left ≠ [] := by
      rintro rfl
      exact hmistake error hi
    obtain ⟨hinside, -⟩ := h.recover_of_mistake hi hleft
    have hregained : segments left = [left] ↔ Regained (first :: rest) := by
      constructor
      · rintro hsegments first' rest' ending' error' left' htokens hfail
        cases htokens
        rw [hitem, hi] at hfail
        cases hfail
        exact hsegments
      · intro hr
        exact hr first rest ending error left rfl hi
    rw [items_cons_of_fail hk hi, List.length_cons, Nat.succ_le_succ_iff, Nat.le_zero,
      List.length_eq_zero_iff, hinside.mistakes_eq_nil_iff, recover_eq_nil_iff hleft, hregained]

/-! ### Mistakes of a text -/

/-- What is wrong with the tokens. -/
def mistakes (tokens : List Token) : List SyntaxError :=
  match ofTokens tokens with
  | .ok _ => []
  | .error errors => errors

/-- The tokens as a file of their own, which ends at `span`. -/
def alone (span : Span) (tokens : List Token) : List Token := tokens ++ [⟨.endOfFile, span⟩]

/-- How many of the segments are no program, each as a file of its own. -/
def rejected (span : Span) (segments : List (List Token)) : Nat :=
  segments.countP fun segment => !(ofTokens (alone span segment)).isOk

theorem isOk_ofTokens (tokens : List Token) :
    (ofTokens tokens).isOk = (mistakes tokens).isEmpty := by
  unfold mistakes
  cases h : ofTokens tokens with
  | ok found => rfl
  | error errors =>
    cases errors with
    | nil =>
      unfold ofTokens at h
      split at h
      · cases h
      · simp_all
    | cons error errors => rfl

theorem mistakes_alone (hk : ∀ t ∈ tokens, t.kind ≠ .endOfFile) (span : Span) :
    mistakes (alone span tokens) = (items span tokens).1 := by
  rw [mistakes, alone, ofTokens_closed hk]
  obtain ⟨errors, found⟩ := items span tokens
  cases errors <;> rfl

theorem items_flatten {pieces : List (List Token)} (h : ∀ piece ∈ pieces, Tail piece)
    (ending ending' : Span) : items ending' pieces.flatten =
      (pieces.flatMap fun piece => (items ending piece).1,
        pieces.flatMap fun piece => (items ending piece).2) := by
  induction pieces with
  | nil => simp [items]
  | cons piece pieces ih =>
    obtain ⟨hpiece, hpieces⟩ := List.forall_mem_cons.1 h
    rw [List.flatten_cons, hpiece.items_append ending ending', ih hpieces]
    rfl

section Count

variable {α β : Type} (f : α → List β) (l : List α)

theorem countP_le_length_flatMap : l.countP (fun a => !(f a).isEmpty) ≤ (l.flatMap f).length := by
  induction l with
  | nil => exact Nat.le_refl 0
  | cons a l ih =>
    rw [List.countP_cons, List.flatMap_cons, List.length_append]
    cases f a with
    | nil => simpa using ih
    | cons b more =>
      simp only [List.isEmpty_cons, Bool.not_false, if_true, List.length_cons]
      omega

theorem length_flatMap_eq_iff :
    (l.flatMap f).length = l.countP (fun a => !(f a).isEmpty) ↔ ∀ a ∈ l, (f a).length ≤ 1 := by
  induction l with
  | nil => simp
  | cons a l ih =>
    have hle := countP_le_length_flatMap f l
    rw [List.forall_mem_cons, ← ih, List.countP_cons, List.flatMap_cons, List.length_append]
    cases f a with
    | nil => simp
    | cons b more =>
      simp only [List.isEmpty_cons, Bool.not_false, if_true, List.length_cons]
      omega

end Count

/-- **What is wrong with segments is wrong with each of them**: the mistakes of a text are those of
its segments, each as a file of its own, if no type runs over the end of its segment.  So no segment
that is no program is passed over, and there is one mistake for each exactly where recovery stops at
the end of the segment. -/
theorem mistakes_of_segments {source : String} {pieces : List (List Token)}
    (ht : tokenize source = .ok tokens) (hp : beforeEnd tokens = pieces.flatten)
    (hs : ∀ piece ∈ pieces, Segment piece ∧ Bounded piece) (span : Span) :
    mistakes tokens = pieces.flatMap (fun piece => mistakes (alone span piece)) ∧
    rejected span pieces ≤ (mistakes tokens).length ∧
    ((mistakes tokens).length = rejected span pieces ↔ ∀ piece ∈ pieces, Regained piece) := by
  obtain ⟨body, ending, rfl, hk⟩ := tokenize_closed ht
  rw [beforeEnd_closed hk] at hp
  have hkinds : ∀ piece ∈ pieces, ∀ t ∈ piece, t.kind ≠ .endOfFile := by
    intro piece hpiece t ht
    exact hk t (hp ▸ List.mem_flatten_of_mem hpiece ht)
  have htail : ∀ piece ∈ pieces, Tail piece := fun piece hpiece _ =>
    ⟨0, (hs piece hpiece).1, fun _ => (hs piece hpiece).2⟩
  have hmistakes : mistakes (body ++ [⟨.endOfFile, ending⟩]) =
      pieces.flatMap fun piece => mistakes (alone span piece) := by
    rw [← alone, mistakes_alone hk, hp, items_flatten htail span]
    refine List.flatMap_congr fun piece hpiece => ?_
    exact (mistakes_alone (hkinds piece hpiece) span).symm
  have hrejected : rejected span pieces =
      pieces.countP fun piece => !(mistakes (alone span piece)).isEmpty := by
    simp only [rejected, isOk_ofTokens]
  refine ⟨hmistakes, ?_, ?_⟩
  · rw [hmistakes, hrejected]
    exact countP_le_length_flatMap _ pieces
  · rw [hmistakes, hrejected, length_flatMap_eq_iff]
    refine forall₂_congr fun piece hpiece => ?_
    rw [mistakes_alone (hkinds piece hpiece)]
    exact length_mistakes_le_iff (hs piece hpiece).1 (hs piece hpiece).2 span

/-- A text with two bindings that are read, of which one holds a semicolon in brackets, one without
a value and an import whose mistake is noticed inside its parentheses. -/
def patchy : String := "x := ; y := a[1; 2]; import(b); z: t = \x7b p \x7d;"

/-- Two of the four segments are no programs, and there is one mistake for each: recovery stops at
the end of both. -/
theorem patchy_mistakes :
    let tokens := (tokenize patchy).toOption.getD []
    let pieces := segments (beforeEnd tokens)
    tokenize patchy = .ok tokens ∧ beforeEnd tokens = pieces.flatten ∧ pieces.length = 4 ∧
      (∀ piece ∈ pieces, Segment piece ∧ Bounded piece) ∧
      pieces.flatMap (fun piece => mistakes (alone ⟨45, 45⟩ piece)) =
        [⟨.expectedValue "x", ⟨5, 6⟩⟩, ⟨.expectedPath, ⟨28, 29⟩⟩] ∧
      (mistakes tokens).length = rejected ⟨45, 45⟩ pieces ∧ ∀ piece ∈ pieces, Regained piece := by
  intro tokens pieces
  have ht : tokenize patchy = .ok tokens := by decide +kernel
  have hp : beforeEnd tokens = pieces.flatten := (flatten_segmentsFrom 0 _).symm
  have hs : ∀ piece ∈ pieces, Segment piece ∧ Bounded piece := by decide +kernel
  have hmistakes : mistakes tokens =
      [⟨.expectedValue "x", ⟨5, 6⟩⟩, ⟨.expectedPath, ⟨28, 29⟩⟩] := by decide +kernel
  have hcount : (mistakes tokens).length = rejected ⟨45, 45⟩ pieces := by decide +kernel
  obtain ⟨heach, -, hregained⟩ := mistakes_of_segments ht hp hs ⟨45, 45⟩
  exact ⟨ht, hp, by decide +kernel, hs, heach.symm.trans hmistakes, hcount, hregained.1 hcount⟩

/-- A text of one segment, with an import in the block that its only binding has for a value. -/
def nested : String := "x := \x7b import(\"a\"); y \x7d;"

/-- Recovery stops at the semicolon inside the block, since it does not count the bracket that was
opened in front of the mistake, and what stands behind it is a mistake again. -/
theorem recovery_cascades :
    let tokens := (tokenize nested).toOption.getD []
    let pieces := [beforeEnd tokens]
    tokenize nested = .ok tokens ∧ beforeEnd tokens = pieces.flatten ∧
      (∀ piece ∈ pieces, Segment piece ∧ Bounded piece) ∧
      mistakes tokens = [⟨.innerImport, ⟨7, 13⟩⟩,
        ⟨.expected .define (.afterName "y") (.closing .curly), ⟨22, 23⟩⟩] ∧
      rejected ⟨24, 24⟩ pieces = 1 ∧ (mistakes tokens).length ≠ rejected ⟨24, 24⟩ pieces := by
  intro tokens pieces
  exact ⟨by decide +kernel, (List.append_nil _).symm, by decide +kernel, by decide +kernel,
    by decide +kernel, by decide +kernel⟩

/-- A type that runs over the end of its segment hides the mistakes in two of them. -/
example :
    let tokens := (tokenize "x: ; y = 1;").toOption.getD []
    let pieces := segments (beforeEnd tokens)
    (∀ piece ∈ pieces, Segment piece) ∧ ¬ (∀ piece ∈ pieces, Bounded piece) ∧
      mistakes tokens = [] ∧ rejected ⟨11, 11⟩ pieces = 2 := by
  decide +kernel

end Program

end ModuleResolution
