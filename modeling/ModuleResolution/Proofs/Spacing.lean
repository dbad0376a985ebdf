import ModuleResolution.Proofs.Joining

/-!
# Texts that differ in their spacing

Blanks and comments say where tokens stand, and nothing else.  Tokens that hold a byte each can be
numbered, the `i`-th of them standing from offset `2 * i` to offset `2 * i + 1`, and if these
offsets are moved to where the tokens stand in a text, the numbered tokens become the tokens of the
text.  So what is read off a text is read off the kinds of its tokens, and then moved.

* `Token.numbered` : tokens of some kinds, which stand at the offsets of their numbers.
* `Token.offset` : where the offsets of numbered tokens are in a text.
* `Program.items_numbered` : what is read off numbered tokens is read off the tokens of a text.
* `Program.unplaced` : what is read off a text, but for where it stands.
* `Program.spacing_irrelevant` : texts that differ in their spacing alone say the same.
-/

namespace ModuleResolution

/-! ### Numbered tokens -/

namespace Token

/-- Tokens of the given kinds: the `i`-th stands from offset `2 * i` to offset `2 * i + 1`. -/
def numbered (kinds : List Kind) : List Token :=
  kinds.mapIdx fun i kind => ⟨kind, 2 * i, 2 * i + 1⟩

/-- Where an offset of numbered tokens is among `tokens`, which end at `stop`. -/
def offset (tokens : List Token) (stop : Nat) (n : Nat) : Nat :=
  match tokens[n / 2]? with
  | some token => if n % 2 = 0 then token.span.start else token.span.stop
  | none => stop

variable {tokens : List Token} {token : Token} {stop i : Nat}

theorem offset_even (h : tokens[i]? = some token) :
    offset tokens stop (2 * i) = token.span.start := by
  have hdiv : 2 * i / 2 = i := by omega
  simp [offset, hdiv, h]

theorem offset_odd (h : tokens[i]? = some token) :
    offset tokens stop (2 * i + 1) = token.span.stop := by
  have hdiv : (2 * i + 1) / 2 = i := by omega
  simp [offset, hdiv, h]

theorem offset_of_none {n : Nat} (hn : n / 2 = i) (h : tokens[i]? = none) :
    offset tokens stop n = stop := by
  rw [offset, hn, h]

/-- The numbered tokens, moved to where the tokens stand, are the tokens. -/
theorem numbered_move (tokens : List Token) (stop : Nat) :
    (numbered (tokens.map Token.kind)).map (Token.move (offset tokens stop)) = tokens := by
  refine List.ext_getElem (by simp [numbered]) fun i _ hi => ?_
  have hget : tokens[i]? = some tokens[i] := List.getElem?_eq_getElem hi
  simp [numbered, Token.move, Span.move, offset_even hget, offset_odd hget]

theorem mem_numbered {kinds : List Kind} (h : token ∈ numbered kinds) :
    ∃ i, i < kinds.length ∧ token.span = ⟨2 * i, 2 * i + 1⟩ := by
  obtain ⟨i, hi, rfl⟩ := List.mem_mapIdx.1 h
  exact ⟨i, hi, rfl⟩

theorem monotone_offset (h : Ordered tokens) (hstop : ∀ t ∈ tokens, t.span.stop ≤ stop) :
    Monotone (offset tokens stop) := by
  refine monotone_nat_of_le_succ fun n => ?_
  obtain ⟨i, rfl | rfl⟩ : ∃ i, n = 2 * i ∨ n = 2 * i + 1 := ⟨n / 2, by omega⟩
  · -- from where a token starts to where it ends
    cases hi : tokens[i]? with
    | some token =>
      rw [offset_even hi, offset_odd hi]
      exact h.forward token (List.mem_of_getElem? hi)
    | none => rw [offset_of_none (n := 2 * i) (by omega) hi, offset_of_none (by omega) hi]
  · -- from where a token ends to where the next one starts
    cases hi : tokens[i]? with
    | some token =>
      rw [offset_odd hi]
      cases hi' : tokens[i + 1]? with
      | some token' =>
        rw [show 2 * i + 1 + 1 = 2 * (i + 1) by omega, offset_even hi']
        obtain ⟨hlt, rfl⟩ := List.getElem?_eq_some_iff.1 hi
        obtain ⟨hlt', rfl⟩ := List.getElem?_eq_some_iff.1 hi'
        exact List.pairwise_iff_getElem.1 h.apart i (i + 1) hlt hlt' (Nat.lt_succ_self i)
      | none =>
        rw [offset_of_none (by omega) hi']
        exact hstop token (List.mem_of_getElem? hi)
    | none =>
      have hi' : tokens[i + 1]? = none := by
        rw [List.getElem?_eq_none_iff] at hi ⊢
        omega
      rw [offset_of_none (by omega) hi, offset_of_none (by omega) hi']

/-- Numbered tokens may be moved to where tokens stand that hold a byte each. -/
theorem moves_offset (h : Solid tokens) (hstop : ∀ t ∈ tokens, t.span.stop ≤ stop) :
    Moves (offset tokens stop) (numbered (tokens.map Token.kind)) := by
  have hmono := monotone_offset h.toOrdered hstop
  refine ⟨hmono, fun t ht t' ht' hle => ?_⟩
  obtain ⟨i, hi, hspan⟩ := mem_numbered ht
  obtain ⟨j, hj, hspan'⟩ := mem_numbered ht'
  rw [List.length_map] at hi
  rw [hspan, hspan'] at hle ⊢
  by_contra hlt
  have hstart : offset tokens stop (2 * i) = tokens[i].span.start :=
    offset_even (List.getElem?_eq_getElem hi)
  have hend : offset tokens stop (2 * i + 1) = tokens[i].span.stop :=
    offset_odd (List.getElem?_eq_getElem hi)
  -- the first token does not end before the second one starts, which holds a byte
  have hwide := h.wide tokens[i] (List.getElem_mem hi)
  rw [← hstart, ← hend] at hwide
  have hbehind : offset tokens stop (2 * i + 1) ≤ offset tokens stop (2 * j + 1) :=
    hmono (by dsimp only at hlt; omega)
  dsimp only at hle
  omega

end Token

/-! ### Readings without places -/

section Unplaced

variable {f g : Nat → Nat}

theorem Located.move_move {α : Type} (x : Located α) :
    (x.move f).move g = x.move (g ∘ f) := rfl

theorem Import.Form.move_move (form : Import.Form) :
    (form.move f).move g = form.move (g ∘ f) := by
  cases form with
  | whole alias? => cases alias? <;> rfl
  | selected requests =>
    simp only [move, List.map_map, selected.injEq]
    refine List.map_congr_left fun q _ => ?_
    cases hq : q.renamed <;> simp [Request.move, hq, Located.move_move]

theorem Item.move_move (x : Item) : (x.move f).move g = x.move (g ∘ f) := by
  cases x with
  | declaration d =>
    simp only [move, Declaration.move, List.map_map]
    rfl
  | importing i =>
    simp only [move, Import.move, Import.Form.move_move]
    rfl

end Unplaced

namespace Program

variable {tokens : List Token} {stop : Nat}

/-- What is read off a text, but for where it stands: the items, or the problems, each of which has
its message and its hint. -/
def unplaced : Except (List SyntaxError) (List (Located Item)) → Except (List Problem) (List Item)
  | .ok found => .ok (found.map fun x => x.value.move fun _ => 0)
  | .error errors => .error (errors.map Located.value)

/-- **What is read off tokens is read off their kinds**, and then moved to where they stand. -/
theorem items_numbered (h : Token.Solid tokens) (hstop : ∀ t ∈ tokens, t.span.stop ≤ stop) :
    let numbered := items (.point (2 * tokens.length)) (Token.numbered (tokens.map Token.kind))
    items (.point stop) tokens =
      (numbered.1.map (Located.move (Token.offset tokens stop)),
        numbered.2.map (Item.moveAt (Token.offset tokens stop))) := by
  intro numbered
  have hend : Token.offset tokens stop (2 * tokens.length) = stop :=
    Token.offset_of_none (by omega) (List.getElem?_eq_none (Nat.le_refl tokens.length))
  have hpoint : (Span.point (2 * tokens.length)).move (Token.offset tokens stop) = .point stop := by
    rw [Span.move, Span.point, hend, Span.point]
  rw [← items_move (Token.moves_offset h hstop), Token.numbered_move, hpoint]

/-- Moving what is read changes where it stands, and nothing else. -/
theorem unplaced_judge_move (f : Nat → Nat) (errors : List SyntaxError)
    (found : List (Located Item)) :
    unplaced (judge (errors.map (Located.move f), found.map (Item.moveAt f))) =
      unplaced (judge (errors, found)) := by
  cases errors with
  | nil =>
    simp only [List.map_nil, judge, unplaced, List.map_map]
    refine congrArg Except.ok (List.map_congr_left fun x _ => ?_)
    exact Item.move_move x.value
  | cons error errors =>
    simp only [List.map_cons, judge, unplaced, List.map_map]
    rfl

/-- What a text says is what the kinds of its tokens say. -/
theorem unplaced_ofText {source : String} {body : List Token} {span : Span}
    (h : tokenize source = .ok (body ++ [⟨.endOfFile, span⟩]))
    (hk : ∀ t ∈ body, t.kind ≠ .endOfFile) :
    unplaced (ofText source) = unplaced (judge (items (.point (2 * (body.map Token.kind).length))
      (Token.numbered (body.map Token.kind)))) := by
  obtain ⟨n, rfl, hstop⟩ : ∃ n, span = .point n ∧ ∀ t ∈ body, t.span.stop ≤ n := by
    obtain ⟨body', htokens, -⟩ := Lexeme.tokensFrom_append 0 (Lexeme.cut source.toList)
    obtain ⟨rfl, hspan⟩ := List.append_inj' ((tokenize_eq_ok h).trans htokens) rfl
    cases hspan
    exact ⟨_, rfl, fun t ht => (List.pairwise_append.1 (tokenize_ordered h).apart).2.2 t ht _
      (List.mem_singleton_self _)⟩
  simp only [ofText, h, ofTokens_closed hk, items_numbered (solid_of_tokenize h hk) hstop,
    List.length_map]
  exact unplaced_judge_move _ _ _

/-- **Spacing says nothing.**  Texts that are cut into tokens of the same kinds, and so differ in
blanks and comments alone, say the same: either both have the same items, but for where they stand,
or the same is wrong with both. -/
theorem spacing_irrelevant {source source' : String} {tokens tokens' : List Token}
    (h : tokenize source = .ok tokens) (h' : tokenize source' = .ok tokens')
    (hk : tokens.map Token.kind = tokens'.map Token.kind) :
    unplaced (ofText source) = unplaced (ofText source') := by
  obtain ⟨body, span, rfl, hbody⟩ := tokenize_closed h
  obtain ⟨body', span', rfl, hbody'⟩ := tokenize_closed h'
  rw [List.map_append, List.map_append] at hk
  rw [unplaced_ofText h hbody, unplaced_ofText h' hbody', (List.append_inj' hk rfl).1]

/-- A text with items of each form, as dense as can be. -/
def dense : String := "import(\"a\");\x7bP:Q,o\x7d:=import(\"b\");x:a::T=a::P\x7b\x7d;f:=(n)=>n;"

/-- The same text with blanks and comments of all sorts in it. -/
def airy : String :=
  "// é\nimport ( \"a\" ) ;\n\x7b P : Q , o \x7d := import(\"b\"); /* x := 1; */\n" ++
    "x : a :: T = a /**/ :: P\n\x7b \x7d ;\tf := ( n ) => n // ;\n ;"

/-- The two texts have the same four items.  Where two mistakes are made, they are made whatever the
spacing is. -/
theorem dense_airy :
    let tokens := (tokenize dense).toOption.getD []
    let tokens' := (tokenize airy).toOption.getD []
    let wrong := (tokenize "x:=;y").toOption.getD []
    let wrong' := (tokenize "x := // ;\n ; y ").toOption.getD []
    tokenize dense = .ok tokens ∧ tokenize airy = .ok tokens' ∧
      tokens.map Token.kind = tokens'.map Token.kind ∧
      (ofText dense).toOption.map List.length = some 4 ∧
      unplaced (ofText dense) = unplaced (ofText airy) ∧
      wrong.map Token.kind = wrong'.map Token.kind ∧
      unplaced (ofText "x:=;y") =
        .error [.expectedValue "x", .expected .define (.afterName "y") .endOfFile] ∧
      unplaced (ofText "x:=;y") = unplaced (ofText "x := // ;\n ; y ") := by
  intro tokens tokens' wrong wrong'
  have h : tokenize dense = .ok tokens := by decide +kernel
  have h' : tokenize airy = .ok tokens' := by decide +kernel
  have hk : tokens.map Token.kind = tokens'.map Token.kind := by decide +kernel
  have hw : tokenize "x:=;y" = .ok wrong := by decide +kernel
  have hw' : tokenize "x := // ;\n ; y " = .ok wrong' := by decide +kernel
  have hkw : wrong.map Token.kind = wrong'.map Token.kind := by decide +kernel
  exact ⟨h, h', hk, by decide +kernel, spacing_irrelevant h h' hk, hkw, by decide +kernel,
    spacing_irrelevant hw hw' hkw⟩

end Program

end ModuleResolution
