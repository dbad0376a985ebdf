import ModuleResolution.Proofs.Moving
import ModuleResolution.Proofs.Tiling

/-!
# Texts one behind the other

Behind a text that is read without a mistake, with the end of a line between them, any text is read
as it is read alone, but for where it stands.

* `Lexeme.Lexes.cut_append` : a text is cut as if nothing stood behind the end of its last line.
* `tokenize_append` : the tokens of both texts, or what is wrong with the second.
* `Program.ofText_append` : the items of both texts, or the mistakes in the second.
-/

namespace ModuleResolution

namespace Lexeme

variable {text rest cs : List Char} {content : Content} {kind : Token.Kind} {lexemes : List Lexeme}

/-! ### Lexemes in front of the end of a line -/

/-- The end of a line goes on with no token. -/
theorem Stops.append_newline (h : Stops kind rest) (more : List Char) :
    Stops kind (rest ++ '\n' :: more) := by
  cases rest with
  | nil => exact .of_isBlank kind rfl more
  | cons c rest =>
    unfold Stops at h ⊢
    split
    · exact h
    · refine fun d hd => ⟨(h d hd).1, fun hdot e he => ?_⟩
      cases rest with
      | nil =>
        cases he
        decide
      | cons e' rest => exact (h d hd).2 hdot e he
    iterate 4 · exact h
    · trivial

theorem Reads.append_newline (h : Reads text content rest) (more : List Char) :
    Reads text content (rest ++ '\n' :: more) := by
  cases h with
  | token hw hs => exact .token hw (hs.append_newline more)
  | blank hc => exact .blank hc
  | line hb hr =>
    refine .line hb fun c hc => ?_
    cases rest with
    | nil =>
      cases hc
      rfl
    | cons d rest => exact hr c hc
  | block hb => exact .block hb

/-- **A text is cut as it is alone**, whatever stands behind the end of its last line. -/
theorem Lexes.cut_append (h : Lexes cs lexemes) (more : List Char) :
    cut (cs ++ '\n' :: more) = lexemes ++ ⟨['\n'], .gap⟩ :: cut more := by
  induction h with
  | nil => exact cut_of_reads (.blank rfl)
  | cons hr _ ih =>
    rw [List.append_assoc, cut_of_reads (hr.append_newline more), ih]
    rfl

/-! ### Tokens and errors of lexemes one behind the other -/

theorem tokensFrom_append (offset : Nat) (lexemes : List Lexeme) : ∃ body,
    tokensFrom offset lexemes =
      body ++ [⟨.endOfFile, .point (offset + width (lexemes.flatMap Lexeme.text))⟩] ∧
    ∀ rest, tokensFrom offset (lexemes ++ rest) =
      body ++ tokensFrom (offset + width (lexemes.flatMap Lexeme.text)) rest := by
  induction lexemes generalizing offset with
  | nil => exact ⟨[], rfl, fun rest => rfl⟩
  | cons lexeme lexemes ih =>
    obtain ⟨body, hbody, happend⟩ := ih (offset + width lexeme.text)
    simp only [List.flatMap_cons, width_append, List.cons_append, tokensFrom, ← Nat.add_assoc]
    split
    · rename_i kind _
      refine ⟨⟨kind, offset, offset + width lexeme.text⟩ :: body, ?_, fun rest => ?_⟩
      · rw [hbody, List.cons_append]
      · rw [happend, List.cons_append]
    · exact ⟨body, hbody, happend⟩

theorem errorsFrom_append (offset : Nat) (lexemes rest : List Lexeme) :
    errorsFrom offset (lexemes ++ rest) = errorsFrom offset lexemes ++
      errorsFrom (offset + width (lexemes.flatMap Lexeme.text)) rest := by
  induction lexemes generalizing offset with
  | nil => rfl
  | cons lexeme lexemes ih =>
    simp only [List.flatMap_cons, width_append, List.cons_append, errorsFrom, ← Nat.add_assoc, ih]
    split
    · rw [List.append_assoc]
    · rfl

theorem tokensFrom_add (n offset : Nat) (lexemes : List Lexeme) :
    tokensFrom (n + offset) lexemes = (tokensFrom offset lexemes).map (Token.move (n + ·)) := by
  induction lexemes generalizing offset with
  | nil => rfl
  | cons lexeme lexemes ih =>
    simp only [tokensFrom, Nat.add_assoc, ih]
    split <;> rfl

theorem errorsFrom_add (n offset : Nat) (lexemes : List Lexeme) :
    errorsFrom (n + offset) lexemes = (errorsFrom offset lexemes).map (Located.move (n + ·)) := by
  induction lexemes generalizing offset with
  | nil => rfl
  | cons lexeme lexemes ih =>
    simp only [errorsFrom, Nat.add_assoc, ih]
    split
    · rw [List.map_append, List.map_map]
      congr 2
      funext error
      simp [Located.shift, Located.move, Span.shift, Span.move, Nat.add_assoc]
    · rfl

end Lexeme

open Lexeme

variable {s₁ s₂ : String} {tokens body : List Token} {span : Span}

/-- The tokens of both texts one behind the other, or what is wrong with the second. -/
theorem tokenize_append (h : tokenize s₁ = .ok (body ++ [⟨.endOfFile, span⟩])) (s₂ : String) :
    let n := s₁.utf8ByteSize + 1
    tokenize (s₁ ++ "\n" ++ s₂) =
      match tokenize s₂ with
      | .ok tokens => .ok (body ++ tokens.map (Token.move (n + ·)))
      | .error errors => .error (errors.map (Located.move (n + ·))) := by
  intro n
  obtain ⟨lexemes, hlexes, htokens⟩ := tokenize_eq_ok_iff.1 h
  obtain ⟨body', hbody', happend⟩ := tokensFrom_append 0 lexemes
  -- the tokens of the first text but for its end
  obtain ⟨rfl, -⟩ := List.append_inj' (htokens.trans hbody') rfl
  have htext : width (lexemes.flatMap Lexeme.text) = s₁.utf8ByteSize := by
    rw [← hlexes.cut_eq, text_cut, width_toList]
  have hcut : cut (s₁ ++ "\n" ++ s₂).toList = lexemes ++ ⟨['\n'], .gap⟩ :: cut s₂.toList := by
    rw [String.append_assoc, String.toList_append, String.toList_append]
    exact hlexes.cut_append s₂.toList
  have hn : 0 + width (lexemes.flatMap Lexeme.text) + width ['\n'] = n + 0 := by
    rw [htext, Nat.zero_add]
    rfl
  have htokens' : tokensFrom 0 (cut (s₁ ++ "\n" ++ s₂).toList) =
      body ++ (tokensFrom 0 (cut s₂.toList)).map (Token.move (n + ·)) := by
    rw [hcut, happend, ← tokensFrom_add, ← hn]
    rfl
  have herrors' : errorsFrom 0 (cut (s₁ ++ "\n" ++ s₂).toList) =
      (errorsFrom 0 (cut s₂.toList)).map (Located.move (n + ·)) := by
    rw [hcut, errorsFrom_append, errorsFrom_of_sound 0 hlexes.sound, ← errorsFrom_add, ← hn]
    rfl
  simp only [tokenize, htokens', herrors']
  cases errorsFrom 0 (cut s₂.toList) <;> rfl

namespace Program

/-! ### Items -/

theorem moves_add (n : Nat) (tokens : List Token) : Token.Moves (n + ·) tokens :=
  ⟨fun _ _ hle => Nat.add_le_add_left hle n, fun _ _ _ _ hle => Nat.le_of_add_le_add_left hle⟩

/-- The items that were read, or else the mistakes. -/
def judge : List SyntaxError × List (Located Item) → Except (List SyntaxError) (List (Located Item))
  | ([], found) => .ok found
  | (errors, _) => .error errors

theorem ofTokens_closed (hk : ∀ t ∈ body, t.kind ≠ .endOfFile) (span : Span) :
    ofTokens (body ++ [⟨.endOfFile, span⟩]) = judge (items span body) := by
  have hending : ending (body ++ [⟨.endOfFile, span⟩]) = span := by
    have hnone : body.find? (·.kind == .endOfFile) = none := by
      simpa [List.find?_eq_none] using hk
    simp [ending, List.find?_append, hnone]
  rw [ofTokens, hending, ← beforeEnd, beforeEnd_closed hk]
  rfl

theorem judge_eq_ok {result : List SyntaxError × List (Located Item)} {found : List (Located Item)}
    (h : judge result = .ok found) : result = ([], found) := by
  unfold judge at h
  split at h
  · cases h
    rfl
  · cases h

/-- Behind tokens that are read without a mistake, others are read as they are alone. -/
theorem ofTokens_append {found : List (Located Item)} {body₂ : List Token}
    (h : items span body = ([], found)) (hk : ∀ t ∈ body, t.kind ≠ .endOfFile)
    (hk₂ : ∀ t ∈ body₂, t.kind ≠ .endOfFile) (span₂ : Span) (n : Nat) :
    ofTokens (body ++ (body₂ ++ [Token.mk .endOfFile span₂]).map (Token.move (n + ·))) =
      match ofTokens (body₂ ++ [⟨.endOfFile, span₂⟩]) with
      | .ok more => .ok (found ++ more.map (Item.moveAt (n + ·)))
      | .error errors => .error (errors.map (Located.move (n + ·))) := by
  have hall : ∀ t ∈ body ++ body₂.map (Token.move (n + ·)), t.kind ≠ .endOfFile := by
    intro t ht
    rcases List.mem_append.1 ht with ht | ht
    · exact hk t ht
    · obtain ⟨t₂, ht₂, rfl⟩ := List.mem_map.1 ht
      exact hk₂ t₂ ht₂
  have hclosed := ofTokens_closed hall (span₂.move (n + ·))
  rw [items_append h, items_move (moves_add n body₂), List.append_assoc] at hclosed
  rw [ofTokens_closed hk₂, List.map_append]
  refine hclosed.trans ?_
  cases items span₂ body₂ with
  | mk errors more => cases errors <;> rfl

/-- **Texts are read one behind the other**: behind a text that is read without a mistake, the items
or else the mistakes of any other text are what they are alone, moved behind the first. -/
theorem ofText_append {found : List (Located Item)} (h : ofText s₁ = .ok found) (s₂ : String) :
    let n := s₁.utf8ByteSize + 1
    ofText (s₁ ++ "\n" ++ s₂) =
      match ofText s₂ with
      | .ok more => .ok (found ++ more.map (Item.moveAt (n + ·)))
      | .error errors => .error (errors.map (Located.move (n + ·))) := by
  intro n
  obtain ⟨tokens, ht⟩ : ∃ tokens, tokenize s₁ = .ok tokens := by
    cases ht : tokenize s₁ with
    | ok tokens => exact ⟨tokens, rfl⟩
    | error errors =>
      simp only [ofText, ht] at h
      cases h
  obtain ⟨body, span, rfl, hk⟩ := tokenize_closed ht
  simp only [ofText, ht, ofTokens_closed hk] at h
  simp only [ofText, tokenize_append ht s₂]
  cases ht₂ : tokenize s₂ with
  | error errors => rfl
  | ok tokens₂ =>
    obtain ⟨body₂, span₂, rfl, hk₂⟩ := tokenize_closed ht₂
    exact ofTokens_append (judge_eq_ok h) hk hk₂ span₂ n

/-- A text that ends in a comment, with a character of two bytes in it. -/
def commented : String := "x: [=] = a::b(1);; // é"

/-- Behind the comment, the items of the medley and the mistake in a binding stand 25 bytes further
on. -/
theorem ofText_append_commented :
    let found := (ofText commented).toOption.getD []
    let more := (ofText medley).toOption.getD []
    ofText commented = .ok found ∧ found.length = 1 ∧ more.length = 4 ∧
      ofText (commented ++ "\n" ++ medley) = .ok (found ++ more.map (Item.moveAt (25 + ·))) ∧
      ofText "z := ;" = .error [⟨.expectedValue "z", ⟨5, 6⟩⟩] ∧
      ofText (commented ++ "\n" ++ "z := ;") = .error [⟨.expectedValue "z", ⟨30, 31⟩⟩] := by
  intro found more
  have hfound : ofText commented = .ok found := by decide +kernel
  have hmore : ofText medley = .ok more := by decide +kernel
  have hwrong : ofText "z := ;" = .error [⟨.expectedValue "z", ⟨5, 6⟩⟩] := by decide +kernel
  have hsize : commented.utf8ByteSize + 1 = 25 := by decide +kernel
  have hitems := ofText_append hfound medley
  have hmistakes := ofText_append hfound "z := ;"
  rw [hmore, hsize] at hitems
  rw [hwrong, hsize] at hmistakes
  exact ⟨hfound, by decide +kernel, by decide +kernel, hitems, hwrong, hmistakes⟩

end Program

end ModuleResolution
