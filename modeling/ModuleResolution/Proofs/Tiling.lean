import Mathlib.Data.String.Basic
import ModuleResolution.Proofs.Enclosing
import ModuleResolution.Proofs.Lexing

/-!
# The tokens tile the text

A text that is cut into tokens is nothing but those tokens and what may stand between them.  Where a
token stands the text spells it, so that the stretch by itself is cut into that token alone.

* `Span.slice` : the stretch of a text that a span marks.
* `Lexeme.Trail` : what may stand behind the last token.
* `Lexeme.Tiles` : gaps and tokens make up a text.
* `tokenize_eq_ok_iff_tiles` : a text is cut into tokens where they do, with gaps.
* `Tiled` : what the tokens of a text are in the text, by their spans.
* `tokenize_tiled` : the tokens of a text are so.
-/

namespace ModuleResolution

/-- The stretch of the text that the span marks. -/
def Span.slice (source : String) (s : Span) : String :=
  String.Pos.Raw.extract source ⟨s.start⟩ ⟨s.stop⟩

/-- The span starts and stops between characters of the text. -/
def Span.Fits (source : String) (s : Span) : Prop :=
  String.Pos.Raw.IsValid source ⟨s.start⟩ ∧ String.Pos.Raw.IsValid source ⟨s.stop⟩

namespace Lexeme

/-- What may stand behind the last token: a gap, and a comment that the text ends in. -/
def Trail (cs : List Char) : Prop :=
  Gap cs ∨ ∃ gap body, Gap gap ∧ '\n' ∉ body ∧ cs = gap ++ '/' :: '/' :: body

/-- The text, which starts at `offset`, is made of the tokens and of gaps in front of them. -/
inductive Tiles : Nat → List Char → List Token → Prop
  | done {offset cs} (h : Trail cs) : Tiles offset cs [⟨.endOfFile, .point (offset + width cs)⟩]
  | token {offset gap text rest kind tokens} (hg : Gap gap) (hr : Reads text (.token kind) rest)
    (h : Tiles (offset + width gap + width text) rest tokens) :
    Tiles offset (gap ++ (text ++ rest))
      (⟨kind, offset + width gap, offset + width gap + width text⟩ :: tokens)

end Lexeme

/-- What the tokens of a text are in the text. -/
structure Tiled (source : String) (tokens : List Token) : Prop where
  /-- The last token alone is the end of the file, and it stands where the text ends. -/
  closed : ∃ body, tokens = body ++ [⟨.endOfFile, .point source.utf8ByteSize⟩] ∧
    ∀ t ∈ body, t.kind ≠ .endOfFile
  /-- Each of the other tokens holds a byte. -/
  wide : ∀ t ∈ tokens, t.kind ≠ .endOfFile → t.span.start < t.span.stop
  /-- The tokens stand one behind the other. -/
  apart : tokens.Pairwise fun t t' => t.span.stop ≤ t'.span.start
  /-- The tokens stand inside the text. -/
  within : ∀ t ∈ tokens, t.span.stop ≤ source.utf8ByteSize
  /-- The tokens start and stop between characters. -/
  fits : ∀ t ∈ tokens, t.span.Fits source
  /-- Between two tokens, and in front of the first, stands nothing but blanks and comments. -/
  gap : ∀ front t behind, tokens = front ++ t :: behind → t.kind ≠ .endOfFile →
    Lexeme.Gap (Span.slice source ⟨Program.lastStop 0 front, t.span.start⟩).toList
  /-- So it is behind the last token, where a comment may also end with the text. -/
  trail : ∀ front t, tokens = front ++ [t] →
    Lexeme.Trail (Span.slice source ⟨Program.lastStop 0 front, t.span.start⟩).toList
  /-- The stretch that a token marks is cut into that token alone. -/
  alone : ∀ t ∈ tokens, t.kind ≠ .endOfFile → tokenize (t.span.slice source) =
    .ok [⟨t.kind, 0, t.span.length⟩, ⟨.endOfFile, .point t.span.length⟩]
  /-- Words and numbers are kept as they are written. -/
  verbatim : ∀ t ∈ tokens, ∀ spelling, t.kind = .word spelling ∨ t.kind = .number spelling →
    t.span.slice source = spelling

namespace Lexeme

variable {cs text rest gap : List Char} {content : Content} {kind : Token.Kind} {offset : Nat}
  {tokens : List Token} {lexemes : List Lexeme}

/-! ### Tokens and gaps -/

theorem Reads.writes (h : Reads text (.token kind) rest) : Writes text kind := by
  cases h with
  | token hw => exact hw

theorem Writes.ne_endOfFile (h : Writes text kind) : kind ≠ .endOfFile := by
  rintro rfl
  cases h with
  | sign h => cases h

theorem Writes.head_ne (h : Writes text kind) : text.head? ≠ some '\n' := by
  intro hhead
  cases h with
  | word hc =>
    cases hhead
    exact absurd hc (by decide)
  | number hc =>
    cases hhead
    exact absurd hc (by decide)
  | text => cases hhead
  | character => cases hhead
  | sign h =>
    unfold sign? at h
    split at h
    all_goals try
      cases h
      cases hhead
    · split_ifs at h with _ hmem
      · cases h
        cases hhead
      · cases h
        cases hhead
        exact absurd hmem (by decide)
    · cases h

theorem Gap.of_newline (h : Gap ('\n' :: cs)) : Gap cs := by
  cases h with
  | blank _ h => exact h

theorem Gap.reads_append (hr : Reads text .gap (gap ++ rest)) (hg : Gap gap) (hne : rest ≠ [])
    (hn : rest.head? ≠ some '\n') : Gap (text ++ gap) := by
  cases hr with
  | blank hc => exact .blank hc hg
  | block hb => simpa using Gap.block hb hg
  | @line body _ hb hend =>
    cases gap with
    | nil =>
      obtain ⟨c, rest, rfl⟩ := List.exists_cons_of_ne_nil hne
      exact absurd (congrArg some (hend c rfl)) hn
    | cons c gap =>
      obtain rfl := hend c rfl
      exact .line hb hg.of_newline

theorem Trail.reads_append (hr : Reads text .gap rest) (h : Trail rest) : Trail (text ++ rest) := by
  cases hr with
  | blank hc =>
    rcases h with hg | ⟨gap, body, hg, hbody, rfl⟩
    · exact .inl (.blank hc hg)
    · exact .inr ⟨_, body, .blank hc hg, hbody, rfl⟩
  | block hb =>
    rcases h with hg | ⟨gap, body, hg, hbody, rfl⟩
    · exact .inl (by simpa using Gap.block hb hg)
    · exact .inr ⟨_, body, .block hb hg, hbody, by simp⟩
  | @line body _ hb hend =>
    cases rest with
    | nil => exact .inr ⟨[], body, .nil, hb, by simp⟩
    | cons c rest =>
      obtain rfl := hend c rfl
      rcases h with hg | ⟨gap, body', hg, hbody, hrest⟩
      · exact .inl (.line hb hg.of_newline)
      · cases gap with
        | nil => cases hrest
        | cons c gap =>
          obtain ⟨rfl, rfl⟩ := List.cons.inj hrest
          exact .inr ⟨_, body', .line hb hg.of_newline, hbody, by simp⟩

/-! ### Texts that are tiled -/

theorem Tiles.skip (hr : Reads text .gap rest) (h : Tiles (offset + width text) rest tokens) :
    Tiles offset (text ++ rest) tokens := by
  cases h with
  | done h =>
    rw [Nat.add_assoc, ← width_append]
    exact .done (h.reads_append hr)
  | @token _ gap text' rest' kind tokens hg hr' h =>
    have hgap : Gap (text ++ gap) := by
      refine hg.reads_append hr ?_ ?_
      · simp [hr'.ne_nil]
      · rw [List.head?_append_of_ne_nil _ hr'.ne_nil]
        exact hr'.writes.head_ne
    rw [← List.append_assoc, Nat.add_assoc offset, ← width_append] at *
    exact .token hgap hr' h

theorem Lexes.tiles (h : Lexes cs lexemes) (offset : Nat) :
    Tiles offset cs (tokensFrom offset lexemes) := by
  induction h generalizing offset with
  | nil => exact .done (.inl .nil)
  | @cons text content rest lexemes hr _ ih =>
    cases content with
    | gap => exact (ih _).skip hr
    | token kind =>
      have htoken := Tiles.token .nil hr (ih (offset + width text))
      simpa [tokensFrom] using htoken
    | faults errors => exact absurd hr.sound id

/-- The text, which starts at `offset`, is made of lexemes, and the tokens are those among them. -/
def Yields (offset : Nat) (cs : List Char) (tokens : List Token) : Prop :=
  ∃ lexemes, Lexes cs lexemes ∧ tokensFrom offset lexemes = tokens

theorem Yields.nil (offset : Nat) : Yields offset [] [⟨.endOfFile, .point offset⟩] :=
  ⟨[], .nil, rfl⟩

theorem Yields.skip (hr : Reads text .gap rest) (h : Yields (offset + width text) rest tokens) :
    Yields offset (text ++ rest) tokens := by
  obtain ⟨lexemes, hlexes, rfl⟩ := h
  exact ⟨_, .cons hr hlexes, rfl⟩

theorem Yields.token (hr : Reads text (.token kind) rest)
    (h : Yields (offset + width text) rest tokens) :
    Yields offset (text ++ rest) (⟨kind, offset, offset + width text⟩ :: tokens) := by
  obtain ⟨lexemes, hlexes, rfl⟩ := h
  exact ⟨_, .cons hr hlexes, rfl⟩

/-- A gap in front of a text adds no token to it. -/
theorem Yields.gap_append (hg : Gap gap) (h : Yields (offset + width gap) rest tokens) :
    Yields offset (gap ++ rest) tokens := by
  induction hg generalizing offset with
  | nil => exact h
  | @blank c cs hc _ ih =>
    refine @Yields.skip [c] _ _ _ (.blank hc) (ih ?_)
    simpa [Nat.add_assoc] using h
  | @line body cs hb _ ih =>
    have hend : ∀ c ∈ ('\n' :: (cs ++ rest)).head?, c = '\n' := by simp
    have hblank : Yields (offset + width ('/' :: '/' :: body)) ('\n' :: (cs ++ rest)) tokens := by
      refine @Yields.skip ['\n'] _ _ _ (.blank rfl) (ih ?_)
      simpa [Nat.add_assoc] using h
    simpa using hblank.skip (.line hb hend)
  | @block body cs hb _ ih =>
    have hcomment : Yields offset ('/' :: '*' :: (body ++ ['*', '/']) ++ (cs ++ rest)) tokens := by
      refine Yields.skip (.block hb) (ih ?_)
      simpa [Nat.add_assoc] using h
    simpa using hcomment

theorem Trail.yields (h : Trail cs) :
    Yields offset cs [⟨.endOfFile, .point (offset + width cs)⟩] := by
  rcases h with hg | ⟨gap, body, hg, hb, rfl⟩
  · simpa using Yields.gap_append hg (.nil (offset + width cs))
  · have hcomment : Reads ('/' :: '/' :: body) .gap [] := .line hb (by simp)
    have hyields := Yields.gap_append hg (.skip hcomment (.nil (offset + width gap + _)))
    simpa [Nat.add_assoc] using hyields

/-- A text that is tiled by tokens is cut into them. -/
theorem Tiles.yields (h : Tiles offset cs tokens) : Yields offset cs tokens := by
  induction h with
  | done h => exact h.yields
  | token hg hr _ ih => exact .gap_append hg (.token hr ih)

theorem Tiles.exists_eq (h : Tiles offset cs tokens) {front behind : List Token} {t : Token}
    (ht : tokens = front ++ t :: behind) : ∃ before gap text rest,
      cs = before ++ (gap ++ (text ++ rest)) ∧
      Program.lastStop offset front = offset + width before ∧
      t.span = ⟨offset + width (before ++ gap), offset + width (before ++ gap ++ text)⟩ ∧
      (Gap gap ∧ Writes text t.kind ∨
        t.kind = .endOfFile ∧ Trail gap ∧ text = [] ∧ rest = []) := by
  induction h generalizing front with
  | @done offset cs htrail =>
    cases front with
    | nil =>
      cases ht
      exact ⟨[], cs, [], [], by simp, rfl, by simp [Span.point], .inr ⟨rfl, htrail, rfl, rfl⟩⟩
    | cons t' front =>
      obtain ⟨-, hnil⟩ := List.cons.inj ht
      simp at hnil
  | @token offset gap text rest kind tokens hg hr _ ih =>
    cases front with
    | nil =>
      cases ht
      exact ⟨[], gap, text, rest, rfl, rfl, by simp [Nat.add_assoc], .inl ⟨hg, hr.writes⟩⟩
    | cons t' front =>
      obtain ⟨rfl, htail⟩ := List.cons.inj ht
      obtain ⟨before, gap', text', rest', rfl, hstop, hspan, hread⟩ := ih htail
      refine ⟨gap ++ (text ++ before), gap', text', rest', by simp, ?_, ?_, hread⟩
      · rw [width_append, width_append, ← Nat.add_assoc, ← Nat.add_assoc, ← hstop]
        rfl
      · simpa [Nat.add_assoc] using hspan

theorem width_toList (s : String) : width s.toList = s.utf8ByteSize := by
  rw [← String.utf8Len_toList]
  induction s.toList with
  | nil => rfl
  | cons c cs ih => rw [width_cons, String.utf8Len_cons, ih, Nat.add_comm]

end Lexeme

/-! ### Stretches of a text -/

open Lexeme

variable {source : String} {tokens : List Token} {before text rest : List Char}

theorem Span.slice_eq (h : source.toList = before ++ (text ++ rest)) :
    Span.slice source ⟨width before, width (before ++ text)⟩ = String.ofList text := by
  have hsource : source = String.ofList (before ++ text ++ rest) := by
    rw [List.append_assoc, ← h, String.ofList_toList]
  have hwidth : ∀ cs : List Char, width cs = String.utf8Len cs := fun cs => by
    rw [← String.utf8ByteSize_ofList, ← width_toList, String.toList_ofList]
  rw [hsource, Span.slice, hwidth before, width_append, hwidth before, hwidth text]
  exact String.extract_of_valid before text rest

theorem Span.isValid_width (h : source.toList = before ++ rest) :
    String.Pos.Raw.IsValid source ⟨width before⟩ := by
  refine String.Pos.Raw.isValid_iff_exists_append.2
    ⟨String.ofList before, String.ofList rest, ?_, ?_⟩
  · rw [← String.ofList_append, ← h, String.ofList_toList]
  · rw [String.rawEndPos, ← width_toList, String.toList_ofList]

/-- **A text is cut into tokens exactly where they tile it.** -/
theorem tokenize_eq_ok_iff_tiles : tokenize source = .ok tokens ↔ Tiles 0 source.toList tokens := by
  constructor
  · intro h
    obtain ⟨lexemes, hlexes, rfl⟩ := tokenize_eq_ok_iff.1 h
    exact hlexes.tiles 0
  · intro h
    obtain ⟨lexemes, hlexes, htokens⟩ := h.yields
    exact tokenize_eq_ok_iff.2 ⟨lexemes, hlexes, htokens.symm⟩

theorem tokenize_of_writes {kind : Token.Kind} (h : Writes text kind) :
    tokenize (String.ofList text) =
      .ok [⟨kind, 0, width text⟩, ⟨.endOfFile, .point (width text)⟩] := by
  have htiles : Tiles 0 (text ++ []) _ := .token .nil (.token h (.of_nil kind)) (.done (.inl .nil))
  rw [tokenize_eq_ok_iff_tiles, String.toList_ofList]
  simpa using htiles

theorem Lexeme.Writes.verbatim {kind : Token.Kind} {spelling : String} (h : Writes text kind)
    (hk : kind = .word spelling ∨ kind = .number spelling) : String.ofList text = spelling := by
  cases h with
  | word | number => simpa using hk
  | text | character => simp at hk
  | sign h => rcases hk with rfl | rfl <;> cases h

/-- **The tokens of a text tile it**: each is where the text spells it, and between them stands
nothing but blanks and comments. -/
theorem tokenize_tiled (h : tokenize source = .ok tokens) : Tiled source tokens := by
  have htiles := tokenize_eq_ok_iff_tiles.1 h
  -- where a token stands, and what stands in front of it
  have hstands {front behind : List Token} {t : Token} (ht : tokens = front ++ t :: behind) :=
    htiles.exists_eq ht
  simp only [Nat.zero_add] at hstands
  have hspells {t : Token} (ht : t ∈ tokens) : ∃ before text rest,
      source.toList = before ++ (text ++ rest) ∧ t.span = ⟨width before, width (before ++ text)⟩ ∧
      (t.kind ≠ .endOfFile → Writes text t.kind) := by
    obtain ⟨front, behind, rfl⟩ := List.append_of_mem ht
    obtain ⟨before, gap, text, rest, hcs, -, hspan, hread⟩ := hstands rfl
    refine ⟨before ++ gap, text, rest, by simp [hcs], hspan, fun hk => ?_⟩
    exact hread.elim And.right fun hend => absurd hend.1 hk
  refine ⟨?closed, ?wide, (tokenize_ordered h).apart, ?within, ?fits, ?gap, ?trail, ?alone,
    ?verbatim⟩
  case closed =>
    obtain ⟨body, span, hbody, hkinds⟩ := tokenize_closed h
    obtain ⟨before, gap, text, rest, hcs, -, hspan, ⟨-, hw⟩ | ⟨-, -, rfl, rfl⟩⟩ := hstands hbody
    · exact absurd rfl hw.ne_endOfFile
    · refine ⟨body, ?_, hkinds⟩
      rw [hbody, ← width_toList, hcs]
      simpa [Span.point] using hspan
  case wide =>
    intro t ht hk
    obtain ⟨before, text, rest, -, hspan, hw⟩ := hspells ht
    rw [hspan, width_append]
    exact Nat.lt_add_of_pos_right (width_pos (hw hk).ne_nil)
  case within =>
    intro t ht
    obtain ⟨before, text, rest, hcs, hspan, -⟩ := hspells ht
    rw [hspan, ← width_toList, hcs, ← List.append_assoc, width_append (before ++ text)]
    exact Nat.le_add_right _ _
  case fits =>
    intro t ht
    obtain ⟨before, text, rest, hcs, hspan, -⟩ := hspells ht
    rw [hspan]
    exact ⟨Span.isValid_width hcs, Span.isValid_width (by rwa [List.append_assoc])⟩
  case gap =>
    intro front t behind ht hk
    obtain ⟨before, gap, text, rest, hcs, hstop, hspan, ⟨hg, -⟩ | ⟨hend, -⟩⟩ := hstands ht
    · rwa [hstop, hspan, Span.slice_eq hcs, String.toList_ofList]
    · exact absurd hend hk
  case trail =>
    intro front t ht
    obtain ⟨before, gap, text, rest, hcs, hstop, hspan, ⟨hg, -⟩ | ⟨-, hg, -⟩⟩ := hstands ht
    · rw [hstop, hspan, Span.slice_eq hcs, String.toList_ofList]
      exact .inl hg
    · rwa [hstop, hspan, Span.slice_eq hcs, String.toList_ofList]
  case alone =>
    intro t ht hk
    obtain ⟨before, text, rest, hcs, hspan, hw⟩ := hspells ht
    rw [hspan, Span.slice_eq hcs, tokenize_of_writes (hw hk)]
    simp [Span.length]
  case verbatim =>
    intro t ht spelling hk
    obtain ⟨before, text, rest, hcs, hspan, hw⟩ := hspells ht
    rw [hspan, Span.slice_eq hcs]
    refine (hw ?_).verbatim hk
    rintro hend
    rw [hend] at hk
    rcases hk with hk | hk <;> cases hk

/-- A text with escapes, with nested comments, with characters of several bytes, and with a comment
that it ends in. -/
def motley : String := "/* é /* // */ */x:=\"\\t€\"; 1.5.y // ß\n ==='é' //*"

/-- The tokens of a motley text tile it. -/
theorem tokenize_tiled_motley :
    let tokens := (tokenize motley).toOption.getD []
    tokenize motley = .ok tokens ∧
      tokens.map Token.kind = [.word "x", .define, .text "\t€", .semicolon, .number "1.5", .dot,
        .word "y", .operator '=', .equals, .character 'é', .endOfFile] ∧
      Tiled motley tokens := by
  intro tokens
  have ht : tokenize motley = .ok tokens := by decide +kernel
  exact ⟨ht, by decide +kernel, tokenize_tiled ht⟩

end ModuleResolution
