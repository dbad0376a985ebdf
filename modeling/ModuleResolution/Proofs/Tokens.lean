import Mathlib.Data.List.Basic
import ModuleResolution.Source.Lexeme

/-!
# The tokens of a text

The tokens of a text stand one behind the other, and the last of them alone is the end of the file.

* `Token.Ordered` : tokens stand one behind the other.
* `tokenize_ordered` : the tokens of a text do.
* `tokenize_closed` : the last of them alone is the end of the file.
* `Token.Solid` : besides, each token holds a byte.
* `solid_of_tokenize` : the tokens of a text in front of the end of the file are solid.
-/

namespace ModuleResolution

/-- Each token ends where it starts or further on, and where the next one starts at the latest. -/
structure Token.Ordered (tokens : List Token) : Prop where
  forward : ∀ t ∈ tokens, t.span.start ≤ t.span.stop
  apart : tokens.Pairwise fun t t' => t.span.stop ≤ t'.span.start

/-- The tokens stand one behind the other, and each of them holds a byte. -/
structure Token.Solid (tokens : List Token) : Prop extends Token.Ordered tokens where
  wide : ∀ t ∈ tokens, t.span.start < t.span.stop

theorem Token.Ordered.sublist {tokens tokens' : List Token} (h : Token.Ordered tokens)
    (hs : tokens'.Sublist tokens) : Token.Ordered tokens' :=
  ⟨fun t ht => h.forward t (hs.subset ht), h.apart.sublist hs⟩

theorem Token.Solid.sublist {tokens tokens' : List Token} (h : Token.Solid tokens)
    (hs : tokens'.Sublist tokens) : Token.Solid tokens' :=
  ⟨h.toOrdered.sublist hs, fun t ht => h.wide t (hs.subset ht)⟩

namespace Lexeme

/-! ### Where tokens stand -/

theorem ordered_tokensFrom (offset : Nat) (lexemes : List Lexeme) :
    Token.Ordered (tokensFrom offset lexemes) ∧
      ∀ t ∈ tokensFrom offset lexemes, offset ≤ t.span.start := by
  induction lexemes generalizing offset with
  | nil =>
    refine ⟨⟨?_, List.pairwise_singleton _ _⟩, ?_⟩
    · intro t ht
      rw [List.mem_singleton.1 ht]
      exact Nat.le_refl _
    · intro t ht
      rw [List.mem_singleton.1 ht]
      exact Nat.le_refl _
  | cons lexeme rest ih =>
    have hle : offset ≤ offset + width lexeme.text := Nat.le_add_right _ _
    obtain ⟨hordered, hbehind⟩ := ih (offset + width lexeme.text)
    rw [tokensFrom]
    split
    · rename_i kind _
      refine ⟨⟨?_, List.pairwise_cons.2 ⟨hbehind, hordered.apart⟩⟩, ?_⟩
      · intro t ht
        rcases List.mem_cons.1 ht with rfl | ht
        · exact hle
        · exact hordered.forward t ht
      · intro t ht
        rcases List.mem_cons.1 ht with rfl | ht
        · exact Nat.le_refl _
        · exact Nat.le_trans hle (hbehind t ht)
    · exact ⟨hordered, fun t ht => Nat.le_trans hle (hbehind t ht)⟩

/-! ### The end of the file -/

section EndOfFile

variable {c : Char} {cs : List Char} {n : Nat} {kind : Token.Kind}

theorem ne_endOfFile_of_symbol (h : symbol c cs = some (n, kind)) : kind ≠ .endOfFile := by
  rintro rfl
  unfold symbol at h
  split at h <;> simp at h

theorem ne_endOfFile_of_textLiteral (h : textLiteral cs = (n, .token kind)) :
    kind ≠ .endOfFile := by
  rintro rfl
  have hcontent := congrArg Prod.snd h
  dsimp only [textLiteral] at hcontent
  split at hcontent
  · split at hcontent <;> cases hcontent
  · split at hcontent <;> cases hcontent

theorem ne_endOfFile_of_characterEnd {size stop : Nat} {value : Char} {errors : List SyntaxError}
    (h : characterEnd size stop value errors cs = (n, .token kind)) : kind ≠ .endOfFile := by
  rintro rfl
  unfold characterEnd at h
  split at h
  · have hcontent := congrArg Prod.snd h
    dsimp only at hcontent
    split at hcontent <;> cases hcontent
  · cases h

theorem ne_endOfFile_of_characterLiteral (h : characterLiteral cs = (n, .token kind)) :
    kind ≠ .endOfFile := by
  unfold characterLiteral at h
  split at h
  · cases h
  · cases h
  · cases h
  · dsimp only at h
    split at h <;> exact ne_endOfFile_of_characterEnd h
  · exact ne_endOfFile_of_characterEnd h

theorem ne_endOfFile_of_slash (h : slash cs = (n, .token kind)) : kind ≠ .endOfFile := by
  rintro rfl
  unfold slash at h
  split at h
  · cases h
  · split at h <;> cases h
  · cases h

theorem ne_endOfFile_of_first (h : first c cs = (n, .token kind)) : kind ≠ .endOfFile := by
  unfold first at h
  split at h
  · cases h
  split at h
  · exact ne_endOfFile_of_slash h
  split at h
  · exact ne_endOfFile_of_textLiteral h
  split at h
  · exact ne_endOfFile_of_characterLiteral h
  split at h
  · cases h
    exact fun hk => by cases hk
  split at h
  · cases h
    exact fun hk => by cases hk
  split at h
  · rename_i hs
    cases h
    exact ne_endOfFile_of_symbol hs
  · cases h

end EndOfFile

theorem ne_endOfFile_of_mem_cut {cs : List Char} {lexeme : Lexeme} (h : lexeme ∈ cut cs) :
    lexeme.content ≠ .token .endOfFile := by
  fun_induction cut cs with
  | case1 => cases h
  | case2 c cs n content hfirst ih =>
    rcases List.mem_cons.1 h with rfl | h
    · rintro rfl
      exact ne_endOfFile_of_first hfirst rfl
    · exact ih h

theorem tokensFrom_closed (offset : Nat) {lexemes : List Lexeme}
    (h : ∀ lexeme ∈ lexemes, lexeme.content ≠ .token .endOfFile) :
    ∃ body span, tokensFrom offset lexemes = body ++ [⟨.endOfFile, span⟩] ∧
      ∀ t ∈ body, t.kind ≠ .endOfFile := by
  induction lexemes generalizing offset with
  | nil => exact ⟨[], _, rfl, fun t ht => by cases ht⟩
  | cons lexeme rest ih =>
    have hrest : ∀ l ∈ rest, l.content ≠ .token .endOfFile := fun l hl =>
      h l (List.mem_cons_of_mem _ hl)
    obtain ⟨body, span, hbody, hkinds⟩ := ih (offset + width lexeme.text) hrest
    rw [tokensFrom]
    split
    · rename_i kind hcontent
      refine ⟨⟨kind, offset, offset + width lexeme.text⟩ :: body, span, ?_, ?_⟩
      · rw [hbody, List.cons_append]
      · intro t ht
        rcases List.mem_cons.1 ht with rfl | ht
        · rintro rfl
          exact h lexeme List.mem_cons_self hcontent
        · exact hkinds t ht
    · exact ⟨body, span, hbody, hkinds⟩

/-! ### How wide tokens are -/

theorem width_pos {cs : List Char} (h : cs ≠ []) : 0 < width cs := by
  cases cs with
  | nil => exact absurd rfl h
  | cons c cs => exact Nat.lt_of_lt_of_le c.utf8Size_pos (Nat.le_add_right _ _)

theorem ne_nil_of_mem_cut {cs : List Char} {lexeme : Lexeme} (h : lexeme ∈ cut cs) :
    lexeme.text ≠ [] := by
  fun_induction cut cs with
  | case1 => cases h
  | case2 c cs n content _ ih =>
    rcases List.mem_cons.1 h with rfl | h
    · exact List.cons_ne_nil _ _
    · exact ih h

theorem wide_tokensFrom (offset : Nat) {lexemes : List Lexeme}
    (h : ∀ lexeme ∈ lexemes, lexeme.text ≠ []) {t : Token} (ht : t ∈ tokensFrom offset lexemes)
    (hk : t.kind ≠ .endOfFile) : t.span.start < t.span.stop := by
  induction lexemes generalizing offset with
  | nil => exact absurd (congrArg Token.kind (List.mem_singleton.1 ht)) hk
  | cons lexeme rest ih =>
    have hrest : ∀ l ∈ rest, l.text ≠ [] := fun l hl => h l (List.mem_cons_of_mem _ hl)
    rw [tokensFrom] at ht
    split at ht
    · rcases List.mem_cons.1 ht with rfl | ht
      · exact Nat.lt_add_of_pos_right (width_pos (h lexeme List.mem_cons_self))
      · exact ih _ hrest ht
    · exact ih _ hrest ht

end Lexeme

/-! ### Texts -/

theorem tokenize_eq_ok {source : String} {tokens : List Token} (h : tokenize source = .ok tokens) :
    tokens = Lexeme.tokensFrom 0 (Lexeme.cut source.toList) := by
  unfold tokenize at h
  dsimp only at h
  split at h
  · exact (Except.ok.inj h).symm
  · cases h

/-- **The tokens of a text stand one behind the other.** -/
theorem tokenize_ordered {source : String} {tokens : List Token}
    (h : tokenize source = .ok tokens) : Token.Ordered tokens := by
  rw [tokenize_eq_ok h]
  exact (Lexeme.ordered_tokensFrom 0 _).1

/-- **The last token of a text is the end of the file**, and no other is. -/
theorem tokenize_closed {source : String} {tokens : List Token} (h : tokenize source = .ok tokens) :
    ∃ body span, tokens = body ++ [⟨.endOfFile, span⟩] ∧ ∀ t ∈ body, t.kind ≠ .endOfFile := by
  rw [tokenize_eq_ok h]
  exact Lexeme.tokensFrom_closed 0 fun _ => Lexeme.ne_endOfFile_of_mem_cut

/-- The tokens of a text without the end of the file are solid. -/
theorem solid_of_tokenize {source : String} {body : List Token} {span : Span}
    (h : tokenize source = .ok (body ++ [⟨.endOfFile, span⟩]))
    (hk : ∀ t ∈ body, t.kind ≠ .endOfFile) : Token.Solid body := by
  refine ⟨(tokenize_ordered h).sublist (List.sublist_append_left _ _), fun t ht => ?_⟩
  have htokens := tokenize_eq_ok h
  have hmem : t ∈ Lexeme.tokensFrom 0 (Lexeme.cut source.toList) :=
    htokens ▸ List.mem_append_left _ ht
  exact Lexeme.wide_tokensFrom 0 (fun _ => Lexeme.ne_nil_of_mem_cut) hmem (hk t ht)

end ModuleResolution
