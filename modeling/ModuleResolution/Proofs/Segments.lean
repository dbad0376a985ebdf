import Mathlib.Data.List.Forall2
import ModuleResolution.Proofs.Parsing

/-!
# Segments of programs

A semicolon outside brackets ends an item, but not in the type of a binding, where only `=` ends
what is gone over.  So the items of a text are its segments, as the semicolons outside brackets
divide it, exactly where no type holds such a semicolon.

* `Program.segments` : tokens divided behind each semicolon outside brackets.
* `Grammar.Part.Sealed` : the type of a part holds no semicolon outside brackets.
* `Program.fills_segments_iff` : the items fill the segments where all parts are sealed, and only
  there.
* `Program.annotation_swallows` : an item over two segments.
-/

namespace ModuleResolution

namespace Grammar

variable {part : Part}

/-! ### Parts that are sealed -/

/-- The type of the part, if it has one, holds no semicolon outside brackets. -/
def Part.Sealed : Part → Prop
  | typed _ type _ => Avoids .semicolon 0 type
  | _ => True

instance : (part : Part) → Decidable part.Sealed
  | .semicolon | .bare _ | .selection _ _ _ | .plain _ _ => inferInstanceAs (Decidable True)
  | .typed _ type _ => inferInstanceAs (Decidable (Avoids .semicolon 0 type))

theorem mem_listed {requests : List Request} {trailing : Bool} {kind : Token.Kind}
    (h : kind ∈ listed requests trailing) :
    (∃ name, kind = .word name) ∨ kind = .colon ∨ kind = .comma := by
  induction requests with
  | nil =>
    cases trailing with
    | false => cases h
    | true => exact .inr (.inr (List.mem_singleton.1 h))
  | cons q more ih =>
    rw [listed_cons] at h
    rcases List.mem_append.1 h with hq | hmore
    · obtain ⟨exported, _ | renamed⟩ := q
      · exact .inl ⟨exported, List.mem_singleton.1 hq⟩
      · simp only [Request.kinds, List.mem_cons, List.not_mem_nil, or_false] at hq
        rcases hq with rfl | rfl | rfl
        · exact .inl ⟨exported, rfl⟩
        · exact .inr (.inl rfl)
        · exact .inl ⟨renamed, rfl⟩
    · split at hmore
      · cases trailing with
        | false => cases hmore
        | true => exact .inr (.inr (List.mem_singleton.1 hmore))
      · rcases List.mem_cons.1 hmore with rfl | hmore
        · exact .inr (.inr rfl)
        · exact ih hmore

/-- Values are balanced, and a semicolon in them stands in brackets. -/
theorem Value.enclosed {v : Value} (h : v.Wellformed) :
    level 0 v.kinds = some 0 ∧ Avoids .semicolon 0 v.kinds := by
  cases v with
  | imported path => exact ⟨rfl, avoids_of_notMem (by simp [kinds, importKinds])⟩
  | other kinds => exact ⟨h.2.level_eq, h.2.avoids⟩

/-- An item ends with a semicolon; what stands in front of it is balanced, and holds a semicolon
outside brackets only where the part is not sealed. -/
theorem Part.kinds_eq_append (hw : part.Wellformed) (hp : part ≠ .semicolon) :
    ∃ body, part.kinds = body ++ [.semicolon] ∧ level 0 body = some 0 ∧
      (Avoids .semicolon 0 body ↔ part.Sealed) := by
  cases part with
  | semicolon => exact absurd rfl hp
  | bare path =>
    exact ⟨importKinds path, rfl, rfl,
      iff_of_true (avoids_of_notMem (by simp [importKinds])) trivial⟩
  | selection requests trailing path =>
    refine ⟨.opening .curly :: (listed requests trailing ++
      .closing .curly :: .define :: importKinds path), by simp [kinds], ?_, ?_⟩
    · have hlisted : level 1 (listed requests trailing) = some 1 := by
        refine level_of_inert fun kind hkind => ?_
        rcases mem_listed hkind with ⟨name, rfl⟩ | rfl | rfl <;> simp [Inert]
      exact (level_append 1 _ _).trans (by rw [hlisted]; rfl)
    · refine iff_of_true (avoids_of_notMem fun hmem => ?_) trivial
      simp only [importKinds, List.mem_cons, List.mem_append, reduceCtorEq, false_or,
        List.not_mem_nil, or_false] at hmem
      rcases mem_listed hmem with ⟨name, h⟩ | h | h <;> cases h
  | plain name v =>
    obtain ⟨hl, ha⟩ := Value.enclosed hw
    refine ⟨[.word name, .define] ++ v.kinds, rfl, hl, iff_of_true ?_ trivial⟩
    exact (avoids_of_notMem (by simp)).append rfl ha
  | typed name type v =>
    obtain ⟨hl, ha⟩ := Value.enclosed hw.2
    have hsigns : Avoids .semicolon 0 [.word name, .colon] := avoids_of_notMem (by simp)
    have hvalue : Avoids .semicolon 0 ([.equals] ++ v.kinds) :=
      (avoids_of_notMem (by simp)).append rfl ha
    refine ⟨[.word name, .colon] ++ (type ++ ([.equals] ++ v.kinds)), by simp [kinds], ?_, ?_⟩
    · exact (level_append 0 type _).trans (by rw [hw.1.level_eq]; exact hl)
    · rw [avoids_append_iff rfl, avoids_append_iff hw.1.level_eq]
      exact ⟨fun h => h.2.1, fun h => ⟨hsigns, h, hvalue⟩⟩

theorem Part.kinds_ne_semicolon (hp : part ≠ .semicolon) : part.kinds ≠ [.semicolon] := by
  cases part with
  | semicolon => exact absurd rfl hp
  | _ => exact fun h => by cases h

end Grammar

namespace Program

open Reading Grammar

variable {tokens taken rest body : List Token} {token : Token} {depth : Nat} {part : Part}
  {parts : List Part} {x : Located Item} {found : List (Located Item)}

/-! ### Segments -/

/-- The depth of brackets behind a token of the given kind; where no bracket is open, none is
closed. -/
def deepen (depth : Nat) : Token.Kind → Nat
  | .opening _ => depth + 1
  | .closing _ => depth - 1
  | _ => depth

/-- The tokens divided behind each semicolon outside brackets, with `depth` brackets open in
front. -/
def segmentsFrom (depth : Nat) : List Token → List (List Token)
  | [] => []
  | token :: rest =>
    if depth = 0 ∧ token.kind = .semicolon then [token] :: segmentsFrom 0 rest
    else
      match segmentsFrom (deepen depth token.kind) rest with
      | [] => [[token]]
      | segment :: more => (token :: segment) :: more

/-- The tokens divided behind each semicolon outside brackets. -/
def segments (tokens : List Token) : List (List Token) := segmentsFrom 0 tokens

/-- The segments that are more than a semicolon. -/
def fullSegments (tokens : List Token) : List (List Token) :=
  (segments tokens).filter (·.map Token.kind ≠ [.semicolon])

/-- The item stretches from the first token of the segment to the semicolon at its end. -/
def Fills (segment : List Token) (x : Located Item) : Prop :=
  ∃ first body semicolon, segment = first :: (body ++ [⟨.semicolon, semicolon⟩]) ∧
    x.span = ⟨first.span.start, semicolon.stop⟩

theorem flatten_segmentsFrom (depth : Nat) (tokens : List Token) :
    (segmentsFrom depth tokens).flatten = tokens := by
  induction tokens generalizing depth with
  | nil => rfl
  | cons token rest ih =>
    rw [segmentsFrom]
    split_ifs
    · rw [List.flatten_cons, ih, List.singleton_append]
    · have hrest := ih (deepen depth token.kind)
      split
      · rename_i hnil
        rw [hnil] at hrest
        rw [← hrest]
        rfl
      · rename_i hcons
        rw [hcons] at hrest
        rw [← hrest]
        rfl

theorem level_deepen {kind : Token.Kind} {kinds : List Token.Kind}
    (h : level depth (kind :: kinds) = some 0) : level (deepen depth kind) kinds = some 0 := by
  cases kind with
  | closing bracket =>
    rw [level] at h
    split_ifs at h
    exact h
  | _ => exact h

theorem avoids_deepen {stop kind : Token.Kind} {kinds : List Token.Kind}
    (ha : Avoids stop depth (kind :: kinds)) (hl : level depth (kind :: kinds) = some 0) :
    Avoids stop (deepen depth kind) kinds := by
  rintro front behind rfl hfront
  refine ha (kind :: front) behind rfl ?_
  cases kind with
  | closing bracket =>
    rw [level] at hl ⊢
    split_ifs at hl ⊢
    exact hfront
  | _ => exact hfront

/-- Behind a semicolon outside brackets the division starts anew. -/
theorem segmentsFrom_append (h : level depth (body.map Token.kind) = some 0) (span : Span)
    (rest : List Token) :
    segmentsFrom depth (body ++ ⟨.semicolon, span⟩ :: rest) =
      segmentsFrom depth (body ++ [⟨.semicolon, span⟩]) ++ segmentsFrom 0 rest := by
  induction body generalizing depth with
  | nil =>
    obtain rfl : depth = 0 := Option.some.inj h
    rfl
  | cons token body ih =>
    rw [List.cons_append, List.cons_append, segmentsFrom, segmentsFrom]
    split_ifs with hends
    · obtain ⟨rfl, hk⟩ := hends
      have hbody : level 0 (body.map Token.kind) = some 0 := by
        rw [List.map_cons, hk] at h
        exact h
      rw [ih hbody, List.cons_append]
    · rw [ih (level_deepen h)]
      cases hsegments : segmentsFrom (deepen depth token.kind) (body ++ [⟨.semicolon, span⟩]) with
      | nil =>
        have hflatten := flatten_segmentsFrom (deepen depth token.kind)
          (body ++ [⟨.semicolon, span⟩])
        rw [hsegments] at hflatten
        exact absurd hflatten.symm (List.append_ne_nil_of_right_ne_nil _ (List.cons_ne_nil _ _))
      | cons segment more => rfl

theorem segmentsFrom_of_avoids (hl : level depth (body.map Token.kind) = some 0)
    (ha : Avoids .semicolon depth (body.map Token.kind)) (span : Span) :
    segmentsFrom depth (body ++ [⟨.semicolon, span⟩]) = [body ++ [⟨.semicolon, span⟩]] := by
  induction body generalizing depth with
  | nil =>
    obtain rfl : depth = 0 := Option.some.inj hl
    rfl
  | cons token body ih =>
    have hends : ¬ (depth = 0 ∧ token.kind = .semicolon) := by
      rintro ⟨rfl, hk⟩
      exact ha [] (body.map Token.kind) (by rw [List.map_cons, hk, List.nil_append]) rfl
    rw [List.cons_append, segmentsFrom, if_neg hends, ih (level_deepen hl) (avoids_deepen ha hl)]

/-! ### Full segments -/

theorem fullSegments_append (h : level 0 (body.map Token.kind) = some 0) (span : Span)
    (rest : List Token) :
    fullSegments (body ++ ⟨.semicolon, span⟩ :: rest) =
      fullSegments (body ++ [⟨.semicolon, span⟩]) ++ fullSegments rest := by
  rw [fullSegments, segments, segmentsFrom_append h, List.filter_append]
  rfl

theorem fullSegments_ne_nil (ht : token ∈ tokens) (hk : token.kind ≠ .semicolon) :
    fullSegments tokens ≠ [] := by
  intro hnil
  rw [← flatten_segmentsFrom 0 tokens] at ht
  obtain ⟨segment, hsegment, hmem⟩ := List.mem_flatten.1 ht
  have hlone : segment.map Token.kind = [.semicolon] := by
    have hfull := List.filter_eq_nil_iff.1 hnil segment hsegment
    simpa using hfull
  have hkind : token.kind ∈ segment.map Token.kind := List.mem_map_of_mem hmem
  rw [hlone] at hkind
  exact hk (List.mem_singleton.1 hkind)

/-! ### Items and segments -/

theorem Matches.ne_semicolon (hm : Matches part taken x) : part ≠ .semicolon := by
  rintro rfl
  cases hm.sketch_eq

theorem Matches.exists_body (hm : Matches part taken x) :
    ∃ body span, taken = body ++ [⟨.semicolon, span⟩] ∧ level 0 (body.map Token.kind) = some 0 ∧
      (Avoids .semicolon 0 (body.map Token.kind) ↔ part.Sealed) := by
  obtain ⟨kinds, hkinds, hl, ha⟩ := Part.kinds_eq_append hm.wellformed hm.ne_semicolon
  obtain ⟨body, span, rfl, rfl⟩ := map_kind_eq_concat (hm.kinds_eq.trans hkinds)
  exact ⟨body, span, rfl, hl, ha⟩

theorem Matches.fullSegments_append (hm : Matches part taken x) (rest : List Token) :
    fullSegments (taken ++ rest) = fullSegments taken ++ fullSegments rest := by
  obtain ⟨body, span, rfl, hl, -⟩ := hm.exists_body
  rw [List.append_assoc, List.singleton_append, Program.fullSegments_append hl]

/-- A part that is sealed is one segment. -/
theorem Matches.fullSegments_eq (hm : Matches part taken x) (hs : part.Sealed) :
    fullSegments taken = [taken] := by
  have hfull : taken.map Token.kind ≠ [.semicolon] :=
    hm.kinds_eq ▸ Part.kinds_ne_semicolon hm.ne_semicolon
  obtain ⟨body, span, rfl, hl, ha⟩ := hm.exists_body
  rw [fullSegments, segments, segmentsFrom_of_avoids hl (ha.2 hs)]
  exact List.filter_cons_of_pos (decide_eq_true hfull)

/-- A part that is not sealed is two segments or more. -/
theorem Matches.two_le_length (hm : Matches part taken x) (hs : ¬ part.Sealed) :
    2 ≤ (fullSegments taken).length := by
  cases part with
  | typed name type v =>
    simp only [Part.Sealed, Avoids, not_forall, not_not] at hs
    obtain ⟨front, behind, rfl, hl⟩ := hs
    -- one segment holds the name, another one the sign behind the type
    have hkinds : taken.map Token.kind = (.word name :: .colon :: front) ++
        .semicolon :: (behind ++ .equals :: (v.kinds ++ [.semicolon])) := by
      rw [hm.kinds_eq]
      simp [Part.kinds]
    obtain ⟨before, rest, rfl, hbefore, hrest⟩ := List.map_eq_append_iff.1 hkinds
    obtain ⟨span, more, rfl, hmore⟩ := map_kind_eq_cons.1 hrest
    obtain ⟨nameSpan, before', rfl, -⟩ := map_kind_eq_cons.1 hbefore
    have hname : fullSegments (⟨.word name, nameSpan⟩ :: (before' ++ [⟨.semicolon, span⟩])) ≠ [] :=
      fullSegments_ne_nil List.mem_cons_self (by simp)
    obtain ⟨equals, hequals, hkind⟩ : ∃ t ∈ more, t.kind = .equals := by
      have hmem : Token.Kind.equals ∈ more.map Token.kind := by
        rw [hmore]
        exact List.mem_append_right _ List.mem_cons_self
      exact List.mem_map.1 hmem
    have hsign := fullSegments_ne_nil hequals (by simp [hkind])
    rw [Program.fullSegments_append (by rw [hbefore]; exact hl), List.length_append]
    exact Nat.add_le_add (List.length_pos_iff.2 hname) (List.length_pos_iff.2 hsign)
  | _ => exact absurd trivial hs

theorem Matches.fills (hm : Matches part taken x) (ho : Token.Ordered taken) : Fills taken x := by
  obtain ⟨first, body, semicolon, rfl, hspan⟩ := hm.extent
  have hlast : ⟨.semicolon, semicolon⟩ ∈ body ++ [⟨.semicolon, semicolon⟩] :=
    List.mem_append_right body List.mem_cons_self
  have hfirst := ho.forward first List.mem_cons_self
  have hapart := (List.pairwise_cons.1 ho.apart).1 _ hlast
  have hforward := ho.forward _ (List.mem_cons_of_mem first hlast)
  refine ⟨first, body, semicolon, rfl, ?_⟩
  rw [hspan, Span.join, Nat.min_eq_left (Nat.le_trans hfirst hapart),
    Nat.max_eq_right (Nat.le_trans hapart hforward)]

theorem fullSegments_semicolon (span : Span) (rest : List Token) :
    fullSegments (⟨.semicolon, span⟩ :: rest) = fullSegments rest := by
  change fullSegments ([] ++ ⟨.semicolon, span⟩ :: rest) = fullSegments rest
  rw [fullSegments_append rfl]
  rfl

/-- Where all parts are sealed, the items fill the segments. -/
theorem Divides.fills (h : Divides tokens parts found) (ho : Token.Ordered tokens)
    (hs : ∀ part ∈ parts, part.Sealed) : List.Forall₂ Fills (fullSegments tokens) found := by
  induction h with
  | nil => exact .nil
  | semicolon span _ ih =>
    rw [fullSegments_semicolon]
    exact ih (ho.sublist (List.sublist_cons_self _ _)) (List.forall_mem_cons.1 hs).2
  | item hm _ ih =>
    obtain ⟨hpart, hparts⟩ := List.forall_mem_cons.1 hs
    rw [hm.fullSegments_append, hm.fullSegments_eq hpart]
    exact .cons (hm.fills (ho.sublist (List.sublist_append_left _ _)))
      (ih (ho.sublist (List.sublist_append_right _ _)) hparts)

/-- There are as many full segments as items, and more where a part is not sealed. -/
theorem Divides.length_le (h : Divides tokens parts found) :
    found.length ≤ (fullSegments tokens).length ∧
      ((∃ part ∈ parts, ¬ part.Sealed) → found.length < (fullSegments tokens).length) := by
  induction h with
  | nil =>
    refine ⟨Nat.le_refl _, ?_⟩
    rintro ⟨part, hpart, -⟩
    cases hpart
  | semicolon span _ ih =>
    rw [fullSegments_semicolon]
    refine ⟨ih.1, ?_⟩
    rintro ⟨part, hpart, hs⟩
    rcases List.mem_cons.1 hpart with rfl | hpart
    · exact absurd trivial hs
    · exact ih.2 ⟨part, hpart, hs⟩
  | @item part taken x rest parts found hm _ ih =>
    rw [hm.fullSegments_append, List.length_append, List.length_cons]
    by_cases hs : part.Sealed
    · rw [hm.fullSegments_eq hs, List.length_singleton, Nat.add_comm 1]
      refine ⟨Nat.succ_le_succ ih.1, ?_⟩
      rintro ⟨part', hpart', hs'⟩
      rcases List.mem_cons.1 hpart' with rfl | hpart'
      · exact absurd hs hs'
      · exact Nat.succ_lt_succ (ih.2 ⟨part', hpart', hs'⟩)
    · have htwo := hm.two_le_length hs
      have hle := ih.1
      exact ⟨by omega, fun _ => by omega⟩

/-- **Semicolons outside brackets separate the items** of a text exactly where no type holds one:
each segment that is more than a semicolon is filled by one item, in order. -/
theorem fills_segments_iff {source : String} (ht : tokenize source = .ok tokens)
    (hf : ofText source = .ok found) (hd : Derives parts (kindsOf tokens)) :
    List.Forall₂ Fills (fullSegments (beforeEnd tokens)) found ↔
      ∀ part ∈ parts, part.Sealed := by
  simp only [ofText, ht] at hf
  obtain ⟨parts', hparts⟩ := divides_of_items (ofTokens_eq_ok_iff.1 hf)
  obtain rfl := hd.unique hparts.derives
  constructor
  · intro hfills
    by_contra hs
    simp only [not_forall] at hs
    obtain ⟨part, hpart, hs⟩ := hs
    have hlt := hparts.length_le.2 ⟨part, hpart, hs⟩
    rw [hfills.length_eq] at hlt
    exact Nat.lt_irrefl _ hlt
  · exact hparts.fills (solid_beforeEnd ht).toOrdered

/-- The items of the medley fill its segments. -/
theorem medley_fills :
    let tokens := (tokenize medley).toOption.getD []
    let found := (ofText medley).toOption.getD []
    tokenize medley = .ok tokens ∧ ofText medley = .ok found ∧
      Derives medleyParts (kindsOf tokens) ∧ (∀ part ∈ medleyParts, part.Sealed) ∧
      List.Forall₂ Fills (fullSegments (beforeEnd tokens)) found := by
  intro tokens found
  have ht : tokenize medley = .ok tokens := by decide +kernel
  have hf : ofText medley = .ok found := by decide +kernel
  have hd : Derives medleyParts (kindsOf tokens) := by decide +kernel
  have hs : ∀ part ∈ medleyParts, part.Sealed := by decide +kernel
  exact ⟨ht, hf, hd, hs, (fills_segments_iff ht hf hd).2 hs⟩

/-- A text whose first segment ends in the type of its only item. -/
def swallowing : String := "x: a; y: b = 1;"

/-- The text is read without a mistake, as one item over two segments: what is bound in the second
one is lost. -/
theorem annotation_swallows :
    let tokens := (tokenize swallowing).toOption.getD []
    let found := (ofText swallowing).toOption.getD []
    tokenize swallowing = .ok tokens ∧ ofText swallowing = .ok found ∧
      found.map (·.value.sketch) = [.declaration "x"] ∧
      (fullSegments (beforeEnd tokens)).length = 2 ∧
      ¬ List.Forall₂ Fills (fullSegments (beforeEnd tokens)) found := by
  intro tokens found
  have hfound : found.length = 1 := by decide +kernel
  have hsegments : (fullSegments (beforeEnd tokens)).length = 2 := by decide +kernel
  refine ⟨by decide +kernel, by decide +kernel, by decide +kernel, hsegments, ?_⟩
  intro hfills
  have hlength := hfills.length_eq
  rw [hfound, hsegments] at hlength
  cases hlength

end Program

end ModuleResolution
