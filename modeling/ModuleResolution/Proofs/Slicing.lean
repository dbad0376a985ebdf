import ModuleResolution.Proofs.Anatomy

/-!
# Slices of a text

A stretch of a text that goes from the first to the last of some of its tokens is itself a text, and
it is cut into those tokens, moved to the front.  So what an item says of where it and its parts
stand can be read back from the text.

* `Lexeme.Tiles.stretch` : a stretch of a text that is tiled is tiled by its tokens.
* `Program.tokenize_slice` : the slice from the first to the last of some tokens is cut into them.
* `Program.Sliced` : what an item says of where it stands is so in the text.
* `Program.spans_exact` : so it is for all items of a text.
-/

namespace ModuleResolution

/-! ### Stretches of a text that is tiled -/

namespace Lexeme

variable {cs text rest more : List Char} {kind : Token.Kind} {offset n : Nat}
  {tokens front taken behind : List Token} {first : Token}

/-- What does not go on with a token does not do so where it is cut off. -/
theorem Stops.of_append (h : Stops kind (rest ++ more)) : Stops kind rest := by
  cases rest with
  | nil => exact .of_nil kind
  | cons c rest =>
    unfold Stops at h ⊢
    split
    · exact h
    · refine fun d hd => ⟨(h d hd).1, fun hdot e he => ?_⟩
      cases rest with
      | nil => cases he
      | cons e' rest => exact (h d hd).2 hdot e he
    iterate 4 · exact h
    · trivial

/-- Behind its first tokens a text that is tiled is tiled by the others. -/
theorem Tiles.drop (h : Tiles offset cs (front ++ tokens)) (hne : tokens ≠ []) :
    ∃ before cs', cs = before ++ cs' ∧ Tiles (offset + width before) cs' tokens := by
  induction front generalizing offset cs with
  | nil => exact ⟨[], cs, rfl, h⟩
  | cons t front ih =>
    generalize htokens : t :: front ++ tokens = all at h
    cases h with
    | done =>
      have hnil := (List.cons.inj htokens).2
      exact absurd (List.append_eq_nil_iff.1 hnil).2 hne
    | @token _ gap text _ _ _ hg hr h =>
      obtain ⟨-, rfl⟩ := List.cons.inj htokens
      obtain ⟨before, cs', rfl, htiles⟩ := ih h
      exact ⟨gap ++ (text ++ before), cs', by simp, by simpa [Nat.add_assoc] using htiles⟩

theorem Tiles.take (h : Tiles offset cs (taken ++ behind)) (hne : behind ≠ []) :
    ∃ text more, cs = text ++ more ∧ Program.lastStop offset taken = offset + width text ∧
      Tiles offset text (taken ++ [⟨.endOfFile, .point (offset + width text)⟩]) := by
  induction taken generalizing offset cs with
  | nil => exact ⟨[], cs, rfl, rfl, .done (.inl .nil)⟩
  | cons t taken ih =>
    generalize htokens : t :: taken ++ behind = all at h
    cases h with
    | done =>
      have hnil := (List.cons.inj htokens).2
      exact absurd (List.append_eq_nil_iff.1 hnil).2 hne
    | @token _ gap text _ kind _ hg hr h =>
      obtain ⟨rfl, rfl⟩ := List.cons.inj htokens
      obtain ⟨text', more, rfl, hstop, htiles⟩ := ih h
      have hreads : Reads text (.token kind) text' := by
        cases hr with
        | token hw hs => exact .token hw hs.of_append
      refine ⟨gap ++ (text ++ text'), more, by simp, ?_, ?_⟩
      · exact hstop.trans (by simp [Nat.add_assoc])
      · simpa [Nat.add_assoc] using Tiles.token hg hreads htiles

theorem Tiles.ungap (h : Tiles offset cs (first :: tokens)) (hk : first.kind ≠ .endOfFile) :
    ∃ gap text, cs = gap ++ text ∧ first.span.start = offset + width gap ∧
      Tiles (offset + width gap) text (first :: tokens) := by
  cases h with
  | done => exact absurd rfl hk
  | @token _ gap text rest _ _ _ hr h =>
    exact ⟨gap, text ++ rest, rfl, rfl, by simpa using Tiles.token .nil hr h⟩

/-- **A stretch of a text that is tiled**, from the first to the last of some tokens, is tiled by
them. -/
theorem Tiles.stretch (h : Tiles offset cs (front ++ (first :: taken ++ behind)))
    (hk : first.kind ≠ .endOfFile) (hne : behind ≠ []) :
    ∃ before text after, cs = before ++ (text ++ after) ∧
      Program.extent (first :: taken) =
        ⟨offset + width before, offset + width (before ++ text)⟩ ∧
      Tiles (offset + width before) text
        (first :: taken ++ [⟨.endOfFile, .point (offset + width (before ++ text))⟩]) := by
  obtain ⟨before, cs', rfl, hdrop⟩ := h.drop (by simp)
  obtain ⟨gap, cs'', rfl, hstart, hungap⟩ := hdrop.ungap hk
  rw [Nat.add_assoc, ← width_append] at hstart hungap
  have hall : Tiles (offset + width (before ++ gap)) cs'' (first :: taken ++ behind) := hungap
  obtain ⟨text, after, rfl, hstop, htake⟩ := hall.take hne
  rw [Nat.add_assoc, ← width_append] at hstop htake
  refine ⟨before ++ gap, text, after, by simp, ?_, htake⟩
  rw [← hstop, ← hstart]
  rfl

/-- A text that starts further behind is tiled by tokens that stand further behind. -/
theorem Tiles.unshift (h : Tiles (n + offset) cs tokens) :
    ∃ inner, tokens = inner.map (Token.shift n) ∧ Tiles offset cs inner := by
  generalize hm : n + offset = m at h
  induction h generalizing offset with
  | @done _ cs htrail =>
    subst hm
    refine ⟨[⟨.endOfFile, .point (offset + width cs)⟩], ?_, .done htrail⟩
    simp [Token.shift, Span.shift, Span.point, Nat.add_assoc]
  | @token _ gap text rest kind tokens hg hr _ ih =>
    subst hm
    have hwidth : n + (offset + width gap + width text) = n + offset + width gap + width text := by
      omega
    obtain ⟨inner, rfl, htiles⟩ := ih hwidth
    refine ⟨_, ?_, .token hg hr htiles⟩
    simp [Token.shift, Span.shift, Nat.add_assoc]

end Lexeme

theorem Token.shift_eq {n : Nat} {t : Token} {kind : Token.Kind} {start stop : Nat}
    (h : t.shift n = ⟨kind, n + start, n + stop⟩) : t = ⟨kind, start, stop⟩ := by
  obtain ⟨kind', start', stop'⟩ := t
  simp only [Token.shift, Span.shift, Token.mk.injEq, Span.mk.injEq] at h ⊢
  exact ⟨h.1, by omega, by omega⟩

namespace Program

open Reading Grammar Lexeme

variable {source : String} {tokens before taken piece front behind left : List Token}
  {found : List (Located Item)} {x : Located Item} {d : Declaration} {t : Token}
  {run : List Token} {names : List String}

/-- **The slice from the first to the last of some tokens is cut into them**, moved to the front. -/
theorem tokenize_slice (ht : tokenize source = .ok tokens)
    (hp : beforeEnd tokens = front ++ (taken ++ behind)) (hne : taken ≠ []) :
    ∃ inner, tokenize ((extent taken).slice source) =
        .ok (inner ++ [⟨.endOfFile, .point (extent taken).length⟩]) ∧
      taken = inner.map (Token.shift (extent taken).start) := by
  obtain ⟨body, span, rfl, hkinds⟩ := tokenize_closed ht
  rw [beforeEnd_closed hkinds] at hp
  obtain ⟨first, rest, rfl⟩ := List.exists_cons_of_ne_nil hne
  have htiles := tokenize_eq_ok_iff_tiles.1 ht
  have hfirst : first.kind ≠ .endOfFile := hkinds first (by simp [hp])
  rw [hp, List.append_assoc, List.append_assoc] at htiles
  obtain ⟨cs, text, after, hcs, hextent, hstretch⟩ := htiles.stretch hfirst (by simp)
  rw [Nat.zero_add, Nat.zero_add] at hextent
  rw [Nat.zero_add, Nat.zero_add, width_append] at hstretch
  have hshifted : Tiles (width cs + 0) text _ := hstretch
  obtain ⟨all, hall, hinner⟩ := hshifted.unshift
  obtain ⟨inner, last, rfl, hrest, hlast⟩ := List.append_eq_map_iff.1 hall
  obtain ⟨eof, rfl, heof⟩ := List.map_eq_singleton_iff.1 hlast
  obtain rfl : eof = ⟨.endOfFile, width text, width text⟩ := Token.shift_eq heof
  have hlength : (extent (first :: rest)).length = width text := by
    rw [hextent, Span.length, width_append, Nat.add_sub_cancel_left]
  refine ⟨inner, ?_, ?_⟩
  · rw [hlength, hextent, Span.slice_eq hcs, tokenize_eq_ok_iff_tiles, String.toList_ofList]
    exact hinner
  · rw [hextent]
    exact hrest.symm

/-! ### Where tokens stand -/

theorem exists_extent (hne : taken ≠ []) :
    ∃ a ∈ taken, ∃ b ∈ taken, extent taken = ⟨a.span.start, b.span.stop⟩ := by
  obtain ⟨first, rest, rfl⟩ := List.exists_cons_of_ne_nil hne
  refine ⟨first, List.mem_cons_self, ?_⟩
  rcases List.eq_nil_or_concat' rest with rfl | ⟨front, last, rfl⟩
  · exact ⟨first, List.mem_cons_self, rfl⟩
  · exact ⟨last, by simp, extent_cons_concat⟩

theorem within_extent (ho : Token.Ordered taken) (ht : t ∈ taken) :
    t.span.Within (extent taken) := by
  obtain ⟨first, rest, rfl⟩ := List.exists_cons_of_ne_nil (List.ne_nil_of_mem ht)
  have hforward := ho.forward t ht
  refine ⟨?_, ?_⟩
  · rcases List.mem_cons.1 ht with rfl | hmem
    · exact Nat.le_refl _
    · have hfirst := ho.forward first List.mem_cons_self
      exact Nat.le_trans hfirst ((List.pairwise_cons.1 ho.apart).1 t hmem)
  · change t.span.stop ≤ lastStop 0 (first :: rest)
    rcases List.eq_nil_or_concat' (first :: rest) with hnil | ⟨front, last, hlast⟩
    · cases hnil
    · rw [hlast] at ht ho ⊢
      rw [lastStop_append]
      rcases List.mem_append.1 ht with hmem | hmem
      · have hapart := (List.pairwise_append.1 ho.apart).2.2 t hmem last List.mem_cons_self
        exact Nat.le_trans hapart (ho.forward last (by simp))
      · rw [List.mem_singleton.1 hmem]
        exact Nat.le_refl _

theorem extent_within (ho : Token.Ordered taken) (hs : piece ⊆ taken) (hne : piece ≠ []) :
    (extent piece).Within (extent taken) := by
  obtain ⟨a, ha, b, hb, he⟩ := exists_extent hne
  rw [he]
  exact ⟨(within_extent ho (hs ha)).1, (within_extent ho (hs hb)).2⟩

theorem extent_apart {piece' : List Token} (ho : Token.Ordered (front ++ behind))
    (hs : piece ⊆ front) (hne : piece ≠ []) (hs' : piece' ⊆ behind) (hne' : piece' ≠ []) :
    (extent piece).stop ≤ (extent piece').start := by
  obtain ⟨_, _, b, hb, he⟩ := exists_extent hne
  obtain ⟨a, ha, _, _, he'⟩ := exists_extent hne'
  rw [he, he']
  exact (List.pairwise_append.1 ho.apart).2.2 b (hs hb) a (hs' ha)

theorem extent_wide (hs : Token.Solid taken) (hne : taken ≠ []) :
    (extent taken).start < (extent taken).stop := by
  obtain ⟨first, rest, rfl⟩ := List.exists_cons_of_ne_nil hne
  have hlt : first.span.start < lastStop first.span.stop (first :: rest) := lt_lastStop hs
  exact hlt

theorem extent_fits (ht : tokenize source = .ok tokens) (hs : piece ⊆ tokens) (hne : piece ≠ []) :
    (extent piece).Fits source := by
  have htiled := tokenize_tiled ht
  obtain ⟨a, ha, b, hb, he⟩ := exists_extent hne
  rw [he]
  exact ⟨(htiled.fits a (hs ha)).1, (htiled.fits b (hs hb)).2⟩

/-! ### What is among the tokens of an item -/

/-- The last of the tokens is a semicolon, and there are others in front of it. -/
def Stopped (taken : List Token) : Prop :=
  ∃ front stop, front ≠ [] ∧ taken = front ++ [⟨.semicolon, stop⟩]

theorem Stopped.append (h : Stopped taken) (front : List Token) : Stopped (front ++ taken) := by
  obtain ⟨inner, stop, hne, rfl⟩ := h
  exact ⟨front ++ inner, stop, by simp [hne], (List.append_assoc _ _ _).symm⟩

theorem Imports.stopped {path : Located String} (h : Imports path taken) : Stopped taken := by
  obtain ⟨word, round, closing, stop⟩ := h
  exact ⟨[_, _, _, _], stop, List.cons_ne_nil _ _, rfl⟩

theorem Heads.word_mem {name : Located String} {head type : List Token} {sign : Token}
    (h : Heads name head type sign) : name.word ∈ head := by
  cases h with
  | plain => exact List.mem_cons_self
  | typed => exact List.mem_cons_self

theorem Imports.path_mem {path : Located String} (h : Imports path taken) :
    ⟨.text path.value, path.span⟩ ∈ taken := by
  cases h
  simp

namespace Anatomy

theorem word_mem {it : Item} (h : Anatomy before left taken it) :
    ∀ n ∈ it.written, n.word ∈ taken := by
  intro n hn
  cases h with
  | bare => cases hn
  | selection _ _ _ _ hwords _ =>
    obtain ⟨q, hq, hn⟩ := List.mem_flatMap.1 hn
    have hmem := hwords q hq n hn
    simp [hmem]
  | bound hh =>
    obtain rfl := List.mem_singleton.1 hn
    exact List.mem_append_left _ hh.word_mem
  | declaration hd =>
    obtain rfl := List.mem_singleton.1 hn
    exact List.mem_append_left _ hd.heads.word_mem

theorem path_mem {i : Import} (h : Anatomy before left taken (.importing i)) :
    ⟨.text i.path.value, i.path.span⟩ ∈ taken := by
  cases h with
  | bare himports => exact himports.path_mem
  | selection _ _ _ _ _ himports =>
    have hmem := himports.path_mem
    simp [hmem]
  | bound _ himports =>
    have hmem := himports.path_mem
    simp [hmem]

theorem stopped {it : Item} (h : Anatomy before left taken it) : Stopped taken := by
  cases h with
  | bare himports => exact himports.stopped
  | @selection _ _ names _ start close define _ _ himports =>
    have hstopped := himports.stopped.append
      (⟨.opening .curly, start⟩ :: (names ++ [⟨.closing .curly, close⟩, ⟨.define, define⟩]))
    simpa using hstopped
  | @bound _ head type sign _ _ _ himports =>
    simpa using himports.stopped.append (head ++ (type ++ [sign]))
  | @declaration _ head type sign body stop hd =>
    have hbody : Stopped (body ++ [⟨.semicolon, stop⟩]) := ⟨body, stop, hd.body_ne, rfl⟩
    simpa using hbody.append (head ++ (type ++ [sign]))

end Anatomy

/-! ### Qualified names in a declaration -/

theorem Mention.In.eq {m : Mention} (h : m.In front taken left) :
    front ++ (taken ++ left) = m.before ++ (m.run ++ m.behind) := by
  obtain ⟨before, behind, hbefore, hbehind, rfl⟩ := h.within
  rw [hbefore, hbehind]
  simp

theorem Mention.In.run_subset {m : Mention} (h : m.In front taken left) : m.run ⊆ taken := by
  obtain ⟨before, behind, -, -, rfl⟩ := h.within
  exact fun t ht => List.mem_append_right _ (List.mem_append_left _ ht)

theorem Mention.apart {m m' : Mention} (ho : Token.Ordered tokens)
    (hm : tokens = m.before ++ (m.run ++ m.behind))
    (hm' : tokens = m'.before ++ (m'.run ++ m'.behind)) (hne : m.run ≠ []) (hne' : m'.run ≠ [])
    (hle : m.before.length + m.run.length ≤ m'.before.length) :
    (extent m.run).stop ≤ (extent m'.run).start := by
  have hprefix : m.before ++ m.run <+: m'.before := by
    have hfront : m.before ++ m.run <+: tokens := ⟨m.behind, by rw [hm, List.append_assoc]⟩
    have hfront' : m'.before <+: tokens := ⟨m'.run ++ m'.behind, hm'.symm⟩
    exact List.prefix_of_prefix_length_le hfront hfront' (by simpa using hle)
  rw [hm'] at ho
  refine extent_apart ho ?_ hne (List.subset_append_left _ _) hne'
  exact fun t ht => hprefix.subset (List.mem_append_right _ ht)

theorem Declares.exists_mentions {head type body : List Token} {sign : Token} {stop : Span}
    (h : Declares before left d head type sign body stop) :
    let all := before ++ (head ++ (type ++ sign :: (body ++ ⟨.semicolon, stop⟩ :: left)))
    ∃ mentions : List Mention, d.references = mentions.map Mention.reference ∧
      (mentions.Pairwise fun m m' => m.before.length + m.run.length ≤ m'.before.length) ∧
      ∀ m ∈ mentions, Spells m.run m.names ∧ all = m.before ++ (m.run ++ m.behind) ∧
        m.run ⊆ head ++ (type ++ sign :: (body ++ [⟨.semicolon, stop⟩])) := by
  intro all
  obtain ⟨inType, inBody, htype, hbody, hreferences⟩ := h.recorded
  refine ⟨inType ++ inBody, hreferences, ?_, ?_⟩
  · refine List.pairwise_append.2 ⟨htype.ordered, hbody.ordered, fun m hm m' hm' => ?_⟩
    -- the run in the type ends in front of the sign
    obtain ⟨inner, behind, hbefore, -, hinner⟩ := ((htype.mem_iff m).1 hm).within
    have hle := hbody.le_of_mem hm'
    have hlen := congrArg List.length hinner
    rw [hbefore]
    simp only [List.length_append, List.length_singleton] at hle hlen ⊢
    omega
  · intro m hm
    rcases List.mem_append.1 hm with hm | hm
    · have hin := (htype.mem_iff m).1 hm
      refine ⟨hin.qualified.spells, ?_, fun t ht => ?_⟩
      · rw [← hin.eq]
        simp [all]
      · simp [hin.run_subset ht]
    · have hin := (hbody.mem_iff m).1 hm
      refine ⟨hin.qualified.spells, ?_, fun t ht => ?_⟩
      · rw [← hin.eq]
        simp [all]
      · simp [hin.run_subset ht]

theorem Spells.ne_nil (h : Spells run names) : run ≠ [] :=
  List.ne_nil_of_length_pos h.length_pos

theorem Spells.kinds_eq (h : Spells run names) :
    run.map Token.kind = (names.map Token.Kind.word).intersperse .member := by
  cases h with
  | word span name h =>
    induction h generalizing span name with
    | nil => rfl
    | cons sign span' name' _ ih => exact congrArg (.word name :: .member :: ·) (ih span' name')

/-! ### What an item says of where it stands -/

/-- What an item says of where it and its parts stand is so in the text, whose tokens are `tokens`
and the end of the file.  All of them stand between characters of the text. -/
structure Sliced (source : String) (tokens : List Token) (x : Located Item) : Prop where
  wide : x.span.start < x.span.stop
  fits : x.span.Fits source
  /-- The item starts where its first token does, and ends where its semicolon does. -/
  stretch : ∃ before first inner stop left,
    tokens = before ++ (first :: (inner ++ ⟨.semicolon, stop⟩ :: left)) ∧
    Anatomy before left (first :: (inner ++ [⟨.semicolon, stop⟩])) x.value ∧
    x.span = ⟨first.span.start, stop.stop⟩
  /-- The names that are written in it stand in it, as they are. -/
  names : ∀ n ∈ x.value.written,
    n.span.Within x.span ∧ n.span.Fits source ∧ n.span.slice source = n.value
  /-- The path of an import stands in it, as a text literal. -/
  path : ∀ i, x.value = .importing i → i.path.span.Within x.span ∧ i.path.span.Fits source ∧
    tokenize (i.path.span.slice source) =
      .ok [⟨.text i.path.value, 0, i.path.span.length⟩,
        ⟨.endOfFile, .point i.path.span.length⟩]
  /-- The qualified names in a declaration stand in it one behind the other. -/
  apart : ∀ d, x.value = .declaration d →
    d.references.Pairwise fun r r' => r.span.stop ≤ r'.span.start
  /-- Each of them stands there as its names with `::` in between. -/
  references : ∀ d, x.value = .declaration d → ∀ r ∈ d.references,
    r.span.start < r.span.stop ∧ r.span.Within x.span ∧ r.span.Fits source ∧
      ∃ found, tokenize (r.span.slice source) = .ok found ∧ found.map Token.kind =
        (r.value.path.map Token.Kind.word).intersperse .member ++ [.endOfFile]
  /-- The value of a declaration stands in it: all tokens between the sign and the semicolon. -/
  body : ∀ d, x.value = .declaration d →
    d.body.Within x.span ∧ d.body.Fits source ∧ d.body.slice source ≠ "" ∧
    ∃ before head type sign body stop left inner,
      tokens = before ++ (head ++ (type ++ sign :: (body ++ ⟨.semicolon, stop⟩ :: left))) ∧
      Declares before left d head type sign body stop ∧
      tokenize (d.body.slice source) = .ok (inner ++ [⟨.endOfFile, .point d.body.length⟩]) ∧
      body = inner.map (Token.shift d.body.start)

theorem Mention.tokenize_slice {m : Mention} (ht : tokenize source = .ok tokens)
    (hp : beforeEnd tokens = m.before ++ (m.run ++ m.behind)) (hs : Spells m.run m.names) :
    ∃ found, tokenize (m.reference.span.slice source) = .ok found ∧ found.map Token.kind =
      (m.names.map Token.Kind.word).intersperse .member ++ [.endOfFile] := by
  obtain ⟨inner, hslice, hrun⟩ := Program.tokenize_slice ht hp hs.ne_nil
  refine ⟨_, hslice, ?_⟩
  rw [List.map_append, ← hs.kinds_eq, hrun, List.map_map]
  rfl

/-- The value of a declaration can be read back where it stands. -/
theorem Declares.tokenize_slice {head type body : List Token} {sign : Token} {stop : Span}
    (h : Declares before left d head type sign body stop) (ht : tokenize source = .ok tokens)
    (hp : beforeEnd tokens =
      before ++ (head ++ (type ++ sign :: (body ++ ⟨.semicolon, stop⟩ :: left)))) :
    d.body.slice source ≠ "" ∧ ∃ inner,
      tokenize (d.body.slice source) = .ok (inner ++ [⟨.endOfFile, .point d.body.length⟩]) ∧
      body = inner.map (Token.shift d.body.start) := by
  have hp' : beforeEnd tokens =
      (before ++ (head ++ (type ++ [sign]))) ++ (body ++ ⟨.semicolon, stop⟩ :: left) := by
    rw [hp]
    simp
  obtain ⟨inner, hslice, hbody⟩ := Program.tokenize_slice ht hp' h.body_ne
  rw [← h.body_eq] at hslice hbody
  refine ⟨fun hempty => ?_, inner, hslice, hbody⟩
  -- an empty text has no token but its end
  have hnil : tokenize "" = .ok [⟨.endOfFile, .point 0⟩] :=
    tokenize_eq_ok_iff_tiles.2 (.done (.inl .nil))
  rw [hempty, hnil] at hslice
  have hinner : inner = [] := by
    simpa using congrArg List.length (Except.ok.inj hslice)
  exact h.body_ne (by rw [hbody, hinner, List.map_nil])

theorem Declares.apart {head type body : List Token} {sign : Token} {stop : Span}
    (h : Declares before left d head type sign body stop)
    (hp : tokens = before ++ (head ++ (type ++ sign :: (body ++ ⟨.semicolon, stop⟩ :: left))))
    (ho : Token.Ordered tokens) :
    d.references.Pairwise fun r r' => r.span.stop ≤ r'.span.start := by
  obtain ⟨mentions, hreferences, hpairwise, hmentions⟩ := h.exists_mentions
  rw [hreferences, List.pairwise_map]
  refine hpairwise.imp_of_mem fun {m m'} hm hm' hle => ?_
  obtain ⟨hspells, hat, -⟩ := hmentions m hm
  obtain ⟨hspells', hat', -⟩ := hmentions m' hm'
  exact Mention.apart ho (hp.trans hat) (hp.trans hat') hspells.ne_nil hspells'.ne_nil hle

theorem Declares.exists_mention {head type body : List Token} {sign : Token} {stop : Span}
    {r : Located Reference} (h : Declares before left d head type sign body stop)
    (hp : tokens = before ++ (head ++ (type ++ sign :: (body ++ ⟨.semicolon, stop⟩ :: left))))
    (hr : r ∈ d.references) :
    ∃ m : Mention, r = m.reference ∧ Spells m.run m.names ∧
      tokens = m.before ++ (m.run ++ m.behind) ∧
      m.run ⊆ head ++ (type ++ sign :: (body ++ [⟨.semicolon, stop⟩])) := by
  obtain ⟨mentions, hreferences, -, hmentions⟩ := h.exists_mentions
  rw [hreferences] at hr
  obtain ⟨m, hm, rfl⟩ := List.mem_map.1 hr
  obtain ⟨hspells, hat, hsubset⟩ := hmentions m hm
  exact ⟨m, rfl, hspells, hp.trans hat, hsubset⟩

/-- An item that is read off some of the tokens says where it stands. -/
theorem Anatomy.sliced (ha : Anatomy before left taken x.value) (ht : tokenize source = .ok tokens)
    (hp : beforeEnd tokens = before ++ (taken ++ left)) (hx : x.span = extent taken) :
    Sliced source (beforeEnd tokens) x := by
  have hsub : beforeEnd tokens ⊆ tokens := (List.takeWhile_prefix _).subset
  have hsublist : taken.Sublist (beforeEnd tokens) := by
    rw [hp]
    exact (List.sublist_append_left _ _).trans (List.sublist_append_right _ _)
  have hall := solid_beforeEnd ht
  have hs : Token.Solid taken := hall.sublist hsublist
  have htiled := tokenize_tiled ht
  have hmem : taken ⊆ tokens := List.Subset.trans hsublist.subset hsub
  have hne : taken ≠ [] := by
    obtain ⟨front, stop, -, rfl⟩ := ha.stopped
    simp
  -- the tokens of a declaration among those of the text
  have hdeclares {d} (hd : x.value = .declaration d) : ∃ head type sign body stop,
      taken = head ++ (type ++ sign :: (body ++ [⟨.semicolon, stop⟩])) ∧ beforeEnd tokens =
        before ++ (head ++ (type ++ sign :: (body ++ ⟨.semicolon, stop⟩ :: left))) ∧
      Declares before left d head type sign body stop := by
    obtain ⟨head, type, sign, body, stop, rfl, h⟩ := ha.exists_declares hd
    exact ⟨head, type, sign, body, stop, rfl, by simpa using hp, h⟩
  refine ⟨hx ▸ extent_wide hs hne, hx ▸ extent_fits ht hmem hne, ?stretch, ?names, ?path, ?apart,
    ?references, ?body⟩
  case stretch =>
    obtain ⟨front, stop, hfront, rfl⟩ := ha.stopped
    obtain ⟨first, inner, rfl⟩ := List.exists_cons_of_ne_nil hfront
    exact ⟨before, first, inner, stop, left, by simpa using hp, ha, hx.trans extent_cons_concat⟩
  case names =>
    intro n hn
    have hword := ha.word_mem n hn
    rw [hx]
    exact ⟨within_extent hs.toOrdered hword, htiled.fits n.word (hmem hword),
      htiled.verbatim n.word (hmem hword) n.value (.inl rfl)⟩
  case path =>
    intro i hi
    rw [hi] at ha
    have hpath := ha.path_mem
    have halone := htiled.alone _ (hmem hpath) (by simp)
    rw [hx]
    exact ⟨within_extent hs.toOrdered hpath, htiled.fits _ (hmem hpath), halone⟩
  case apart =>
    intro d hd
    obtain ⟨_, _, _, _, _, -, hp', h⟩ := hdeclares hd
    exact h.apart hp' hall.toOrdered
  case references =>
    intro d hd r hr
    obtain ⟨head, type, sign, body, stop, htaken, hp', h⟩ := hdeclares hd
    obtain ⟨m, rfl, hspells, hat, hsubset⟩ := h.exists_mention hp' hr
    rw [← htaken] at hsubset
    have hrun : m.run.Sublist (beforeEnd tokens) := by
      rw [hat]
      exact (List.sublist_append_left _ _).trans (List.sublist_append_right _ _)
    rw [hx]
    exact ⟨extent_wide (hall.sublist hrun) hspells.ne_nil,
      extent_within hs.toOrdered hsubset hspells.ne_nil,
      extent_fits ht (List.Subset.trans hsubset hmem) hspells.ne_nil,
      m.tokenize_slice ht hat hspells⟩
  case body =>
    intro d hd
    obtain ⟨head, type, sign, body, stop, htaken, hp', h⟩ := hdeclares hd
    obtain ⟨hslice, inner, hinner, hbody⟩ := h.tokenize_slice ht hp'
    have hsubset : body ⊆ taken := by
      rw [htaken]
      exact fun t ht => by simp [ht]
    refine ⟨?_, ?_, hslice, before, head, type, sign, body, stop, left, inner, hp', h, hinner,
      hbody⟩
    · rw [hx, h.body_eq]
      exact extent_within hs.toOrdered hsubset h.body_ne
    · rw [h.body_eq]
      exact extent_fits ht (List.Subset.trans hsubset hmem) h.body_ne

/-! ### Texts -/

theorem Parted.exists_subset (h : Parted before tokens found) (hx : x ∈ found) :
    ∃ taken, taken ≠ [] ∧ taken ⊆ tokens ∧ x.span = extent taken := by
  induction h with
  | nil => cases hx
  | semicolon span _ ih =>
    obtain ⟨taken, hne, hsubset, hspan⟩ := ih hx
    exact ⟨taken, hne, List.subset_cons_of_subset _ hsubset, hspan⟩
  | @item _ taken _ _ _ ha hspan _ ih =>
    rcases List.mem_cons.1 hx with rfl | hx
    · obtain ⟨front, stop, -, rfl⟩ := ha.stopped
      exact ⟨_, by simp, List.subset_append_left _ _, hspan⟩
    · obtain ⟨taken', hne, hsubset, hspan⟩ := ih hx
      exact ⟨taken', hne, List.subset_append_of_subset_right _ hsubset, hspan⟩

theorem Parted.apart (h : Parted before tokens found) (ho : Token.Ordered tokens) :
    found.Pairwise fun x y => x.span.stop ≤ y.span.start := by
  induction h with
  | nil => exact List.Pairwise.nil
  | semicolon span _ ih => exact ih (ho.sublist (List.sublist_cons_self _ _))
  | @item _ taken rest x found ha hspan hrest ih =>
    refine List.pairwise_cons.2 ⟨fun y hy => ?_, ih (ho.sublist (List.sublist_append_right _ _))⟩
    obtain ⟨taken', hne', hsubset, hspan'⟩ := hrest.exists_subset hy
    obtain ⟨front, stop, -, rfl⟩ := ha.stopped
    rw [hspan, hspan']
    exact extent_apart ho (List.Subset.refl _) (by simp) hsubset hne'

/-- **What the items of a text say of where they stand is so**: the items stand one behind the
other, and each of them, and each part of it, can be read back from where it says that it stands. -/
theorem spans_exact (h : ofText source = .ok found) :
    ∃ tokens, tokenize source = .ok tokens ∧ Parted [] (beforeEnd tokens) found ∧
      (found.Pairwise fun x y => x.span.stop ≤ y.span.start) ∧
      ∀ x ∈ found, Sliced source (beforeEnd tokens) x := by
  obtain ⟨tokens, ht, hs, hparted⟩ := parted_of_ofText h
  refine ⟨tokens, ht, hparted, hparted.apart hs.toOrdered, fun x hx => ?_⟩
  obtain ⟨before, taken, left, hp, ha, hspan⟩ := hparted.exists_of_mem hx
  exact ha.sliced ht hp hspan

/-- A text with an item of each form, with characters of several bytes, with escapes, and with
comments in an import, in a value and in a qualified name. -/
def garland : String :=
  "import(/*é*/\"a\\t€\" );\x7bP: Q,o\x7d := import(\"b\"); // ß\nm := import(\"c\");\n" ++
    "f: x::T = \"\\\"é\" /* ; */ + y :: // ü\nz;"

/-- The items of the garland stand where they say. -/
theorem garland_spans :
    let found := (ofText garland).toOption.getD []
    ofText garland = .ok found ∧
    found.map (·.span) = [⟨0, 24⟩, ⟨24, 48⟩, ⟨55, 72⟩, ⟨73, 113⟩] ∧
    ∃ tokens, tokenize garland = .ok tokens ∧ Parted [] (beforeEnd tokens) found ∧
      (found.Pairwise fun x y => x.span.stop ≤ y.span.start) ∧
      ∀ x ∈ found, Sliced garland (beforeEnd tokens) x := by
  intro found
  have h : ofText garland = .ok found := by decide +kernel
  have hspans : found.map (·.span) = [⟨0, 24⟩, ⟨24, 48⟩, ⟨55, 72⟩, ⟨73, 113⟩] := by
    decide +kernel
  exact ⟨h, hspans, spans_exact h⟩

end Program

end ModuleResolution
