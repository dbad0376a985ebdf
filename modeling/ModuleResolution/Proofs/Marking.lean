import ModuleResolution.Proofs.Tiling

/-!
# Stretches of a text

What is told of a text when it is cut is told of a stretch of it: the tokens mark such stretches,
and so do the mistakes of a text that is not cut into tokens.

* `Span.Marks` : a span starts and stops between characters of a text, in this order.
* `Lexeme.Marked` : a span is that of some of the characters.
* `Lexeme.marked_of_first` : the mistakes in a lexeme are told of some of its characters.
* `marks_of_tokenize`, `marked_of_tokenize_error` : so are the tokens and the mistakes of a text.
-/

namespace ModuleResolution

/-! ### Spans that mark -/

/-- The span marks a stretch of the text, which may be empty. -/
structure Span.Marks (source : String) (s : Span) : Prop where
  forward : s.start ≤ s.stop
  within : s.stop ≤ source.utf8ByteSize
  fits : s.Fits source

theorem Span.Marks.join {source : String} {a b : Span} (ha : a.Marks source)
    (hb : b.Marks source) : (a.join b).Marks source where
  forward := Nat.le_trans (Nat.min_le_left _ _) (Nat.le_trans ha.forward (Nat.le_max_left _ _))
  within := Nat.max_le.2 ⟨ha.within, hb.within⟩
  fits := by
    refine ⟨?_, ?_⟩
    · rcases Nat.le_total a.start b.start with h | h
      · rw [Span.join, Nat.min_eq_left h]
        exact ha.fits.1
      · rw [Span.join, Nat.min_eq_right h]
        exact hb.fits.1
    · rcases Nat.le_total a.stop b.stop with h | h
      · rw [Span.join, Nat.max_eq_right h]
        exact hb.fits.2
      · rw [Span.join, Nat.max_eq_left h]
        exact ha.fits.2

namespace Lexeme

theorem marks_of_eq {source : String} {before marked after : List Char}
    (h : source.toList = before ++ (marked ++ after)) :
    Span.Marks source ⟨width before, width (before ++ marked)⟩ where
  forward := by
    rw [width_append]
    exact Nat.le_add_right _ _
  within := by
    rw [← width_toList, h, ← List.append_assoc, width_append (before ++ marked)]
    exact Nat.le_add_right _ _
  fits := ⟨Span.isValid_width h, Span.isValid_width (by rwa [List.append_assoc])⟩

/-! ### Characters that are marked -/

/-- The span is that of some of the characters, of one at least. -/
def Marked (cs : List Char) (s : Span) : Prop :=
  ∃ before marked after, cs = before ++ (marked ++ after) ∧ marked ≠ [] ∧
    s = ⟨width before, width (before ++ marked)⟩

variable {cs rest front : List Char} {c : Char} {s : Span} {n offset stop size : Nat}
  {errors : List SyntaxError} {e : SyntaxError}

theorem marked_front (hf : front ≠ []) (rest : List Char) :
    Marked (front ++ rest) ⟨0, width front⟩ :=
  ⟨[], front, rest, rfl, hf, rfl⟩

theorem marked_all (h : cs ≠ []) : Marked cs ⟨0, width cs⟩ := by
  simpa using marked_front h []

theorem Marked.append (h : Marked cs s) (more : List Char) : Marked (cs ++ more) s := by
  obtain ⟨before, marked, after, rfl, hne, hs⟩ := h
  exact ⟨before, marked, after ++ more, by simp, hne, hs⟩

theorem Marked.shift (h : Marked cs s) (front : List Char) :
    Marked (front ++ cs) (s.shift (width front)) := by
  obtain ⟨before, marked, after, rfl, hne, rfl⟩ := h
  exact ⟨front ++ before, marked, after, by simp, hne, by simp [Span.shift]⟩

theorem Marked.marks {source : String} (h : Marked source.toList s) : s.Marks source := by
  obtain ⟨before, marked, after, hcs, -, rfl⟩ := h
  exact marks_of_eq hcs

/-! ### Mistakes in a lexeme -/

theorem size_textBody (h : (textBody offset cs).closed = false) :
    (textBody offset cs).size = cs.length := by
  fun_induction textBody offset cs with
  | case1 | case3 => rfl
  | case2 => cases h
  | case4 _ _ _ _ _ _ _ ih | case5 _ _ _ _ _ _ ih | case6 _ _ _ _ _ _ _ ih => simpa using ih h

theorem width_append_escape (front : List Char) (c : Char) :
    width (front ++ ['\\', c]) = width front + 1 + c.utf8Size := by
  rw [width_append, Nat.add_assoc]
  rfl

/-- The unknown escapes in a text literal are among its characters; `front` are those in front of
what is read. -/
theorem marked_textBody : ∀ front, width front = offset → ∀ e ∈ (textBody offset cs).errors,
    Marked (front ++ cs.take (textBody offset cs).size) e.span := by
  fun_induction textBody offset cs with
  | case1 | case2 | case3 => exact fun _ _ _ he => by cases he
  | case4 offset c rest stop body value hvalue ih =>
    rintro front rfl e he
    simpa using ih _ (width_append_escape front c) e he
  | case5 offset c rest stop body hvalue ih =>
    rintro front rfl e he
    rcases List.mem_cons.1 he with rfl | he
    · exact ⟨front, ['\\', c], rest.take body.size, by simp, by simp,
        by rw [width_append_escape]⟩
    · simpa using ih _ (width_append_escape front c) e he
  | case6 offset c rest _ _ _ body ih =>
    rintro front rfl e he
    simpa using ih (front ++ [c]) (by simp) e he

/-- The mistakes in a text literal are its unknown escapes, and behind these that it is left
open. -/
theorem errors_of_textLiteral (h : textLiteral cs = (n, .faults errors)) :
    (textBody 1 cs).size = n ∧ ((textBody 1 cs).errors = errors ∨ (textBody 1 cs).closed = false ∧
      (textBody 1 cs).errors ++ [⟨.openText, 0, width cs + 1⟩] = errors) := by
  unfold textLiteral at h
  obtain ⟨hsize, hcontent⟩ := Prod.mk.inj h
  refine ⟨hsize, ?_⟩
  cases hclosed : (textBody 1 cs).closed
  all_goals
    simp only [hclosed, if_true, Bool.false_eq_true, if_false] at hcontent
    split at hcontent
    · cases hcontent
  · exact .inr ⟨rfl, Content.faults.inj hcontent⟩
  · exact .inl (Content.faults.inj hcontent)

theorem marked_of_textLiteral (h : textLiteral cs = (n, .faults errors)) (he : e ∈ errors) :
    Marked ('"' :: cs.take n) e.span := by
  obtain ⟨rfl, herrors⟩ := errors_of_textLiteral h
  have hescape : e ∈ (textBody 1 cs).errors →
      Marked ('"' :: cs.take (textBody 1 cs).size) e.span := marked_textBody ['"'] rfl e
  rcases herrors with rfl | ⟨hclosed, rfl⟩
  · exact hescape he
  · rcases List.mem_append.1 he with he | he
    · exact hescape he
    · -- all of the text is left open
      rw [List.mem_singleton.1 he, size_textBody hclosed, List.take_length, Nat.add_comm]
      exact marked_all (List.cons_ne_nil '"' cs)

theorem marked_of_slash (h : slash cs = (n, .faults errors)) (he : e ∈ errors) :
    Marked ('/' :: cs.take n) e.span := by
  unfold slash at h
  split at h
  · cases h
  · split at h
    · cases h
    · rename_i rest _ _
      cases h
      rw [List.mem_singleton.1 he, List.take_succ_cons, List.take_length]
      have hwidth : width ('/' :: '*' :: rest) = width rest + 2 := by
        rw [width_cons, width_cons, ← Nat.add_assoc, Nat.add_comm]
        rfl
      exact hwidth ▸ marked_all (List.cons_ne_nil _ _)
  · cases h

theorem errors_of_characterEnd {value : Char} {errors' : List SyntaxError}
    (h : characterEnd size stop value errors cs = (n, .faults errors')) :
    size ≤ n ∧ ∀ e ∈ errors', e ∈ errors ∨ e.span = ⟨0, stop⟩ := by
  unfold characterEnd at h
  split at h
  · obtain ⟨rfl, h⟩ := Prod.mk.inj h
    split at h <;> cases h
    exact ⟨Nat.le_succ _, fun e he => .inl he⟩
  · cases h
    refine ⟨Nat.le_refl _, fun e he => ?_⟩
    rcases List.mem_append.1 he with he | he
    · exact .inl he
    · exact .inr (by rw [List.mem_singleton.1 he])

theorem marked_of_characterEnd (front : List Char) {value : Char} {errors' : List SyntaxError}
    (h : characterEnd front.length (1 + width front) value errors cs = (n, .faults errors'))
    (herrors : ∀ e ∈ errors, e.span = ⟨0, 1 + width front⟩) (he : e ∈ errors') :
    Marked ('\'' :: (front ++ cs).take n) e.span := by
  obtain ⟨hle, hspan⟩ := errors_of_characterEnd h
  have hs : e.span = ⟨0, 1 + width front⟩ := (hspan e he).elim (herrors e) id
  rw [hs, List.take_append, List.take_of_length_le hle]
  exact marked_front (List.cons_ne_nil '\'' front) _

theorem marked_of_characterLiteral (h : characterLiteral cs = (n, .faults errors))
    (he : e ∈ errors) : Marked ('\'' :: cs.take n) e.span := by
  unfold characterLiteral at h
  split at h
  · cases h
    rw [List.mem_singleton.1 he]
    exact marked_all (List.cons_ne_nil _ _)
  · cases h
    rw [List.mem_singleton.1 he]
    exact marked_all (List.cons_ne_nil '\'' ['\''])
  · cases h
    rw [List.mem_singleton.1 he]
    exact marked_all (List.cons_ne_nil '\'' ['\\'])
  · rename_i c rest
    have hwidth : 2 + c.utf8Size = 1 + width ['\\', c] := by
      rw [width_cons, width_cons, width_nil, Nat.add_zero, ← Nat.add_assoc]
      rfl
    dsimp only at h
    rw [hwidth] at h
    split at h
    · exact marked_of_characterEnd ['\\', c] h (fun e he => by cases he) he
    · refine marked_of_characterEnd ['\\', c] h (fun e he => ?_) he
      rw [List.mem_singleton.1 he]
  · rename_i c rest _ _ _
    exact marked_of_characterEnd [c] h (fun e he => by cases he) he

/-- **The mistakes in a lexeme are told of some of its characters.** -/
theorem marked_of_first (h : first c cs = (n, .faults errors)) (he : e ∈ errors) :
    Marked (c :: cs.take n) e.span := by
  unfold first at h
  split_ifs at h with _ hslash hquote hcharacter
  · cases h
  · exact hslash ▸ marked_of_slash h he
  · exact hquote ▸ marked_of_textLiteral h he
  · exact hcharacter ▸ marked_of_characterLiteral h he
  · cases h
  · cases h
  · split at h
    · cases h
    · cases h
      rw [List.mem_singleton.1 he]
      exact marked_all (List.cons_ne_nil c [])

/-! ### Mistakes in a text -/

/-- The mistakes in a text are told of some of its characters; `front` are those in front of it. -/
theorem marked_errorsFrom (front : List Char) (he : e ∈ errorsFrom (width front) (cut cs)) :
    Marked (front ++ cs) e.span := by
  fun_induction cut cs generalizing front with
  | case1 => cases he
  | case2 c cs n content hfirst ih =>
    have htext : front ++ c :: cs = (front ++ c :: cs.take n) ++ cs.drop n := by simp
    have hrest : e ∈ errorsFrom (width front + width (c :: cs.take n)) (cut (cs.drop n)) →
        Marked (front ++ c :: cs) e.span := by
      intro he
      rw [← width_append] at he
      exact htext ▸ ih _ he
    rw [errorsFrom] at he
    split at he
    · rename_i errors hcontent
      rcases List.mem_append.1 he with he | he
      · -- the mistake is one of the lexeme in front
        obtain ⟨e', he', rfl⟩ := List.mem_map.1 he
        rw [htext]
        dsimp only at hcontent
        rw [hcontent] at hfirst
        exact ((marked_of_first hfirst he').shift front).append _
      · exact hrest he
    · exact hrest he

end Lexeme

open Lexeme

variable {source : String} {errors : List SyntaxError}

theorem tokenize_eq_error (h : tokenize source = .error errors) :
    errorsFrom 0 (cut source.toList) = errors ∧ errors ≠ [] := by
  unfold tokenize at h
  dsimp only at h
  split at h
  · cases h
  · rename_i hne
    obtain rfl := Except.error.inj h
    exact ⟨rfl, hne⟩

/-- **The mistakes of a text that cannot be cut into tokens mark stretches of it**, each of which
holds a character. -/
theorem marked_of_tokenize_error (h : tokenize source = .error errors) {e : SyntaxError}
    (he : e ∈ errors) : Marked source.toList e.span := by
  rw [← (tokenize_eq_error h).1] at he
  exact marked_errorsFrom [] he

/-- The tokens of a text mark stretches of it. -/
theorem marks_of_tokenize {tokens : List Token} (h : tokenize source = .ok tokens) {t : Token}
    (ht : t ∈ tokens) : t.span.Marks source := by
  obtain ⟨front, behind, htokens⟩ := List.append_of_mem ht
  obtain ⟨before, gap, text, rest, hcs, -, hspan, -⟩ :=
    (tokenize_eq_ok_iff_tiles.1 h).exists_eq htokens
  rw [hspan, Nat.zero_add, Nat.zero_add]
  exact marks_of_eq (by rw [hcs, List.append_assoc])

end ModuleResolution
