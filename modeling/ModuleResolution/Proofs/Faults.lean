import ModuleResolution.Proofs.Marking

/-!
# Where a text cannot be cut

A text that cannot be cut into tokens is cut nevertheless, so that all that is wrong with it is
told.  The mistakes are told of stretches of the text, in the order in which these end.  A comment
or a text literal that is left open takes the rest of the text with it, so that nothing is told
behind it.

* `Problem.IsOpen` : the mistake is that something is left open.
* `Lexeme.Reported` : the mistakes in a stretch of a text, in the order in which they end.
* `Lexeme.reported_of_first` : so are those in a lexeme.
* `Lexeme.reported_errorsFrom` : so are those in a text.
* `faults_wellPlaced` : they are well placed where a text cannot be cut into tokens.
-/

namespace ModuleResolution

/-- A comment or a text literal is left open. -/
def Problem.IsOpen (p : Problem) : Prop := p = .openComment ∨ p = .openText

namespace Lexeme

variable {cs rest : List Char} {c : Char} {start middle stop n offset : Nat}
  {errors more : List SyntaxError}

/-- The mistakes end from `start` to `stop`, none of them in front of an earlier one.  If something
is left open this is the last of them, and it goes on up to `stop`. -/
structure Reported (start stop : Nat) (errors : List SyntaxError) : Prop where
  within : ∀ e ∈ errors, start ≤ e.span.stop ∧ e.span.stop ≤ stop
  ordered : errors.Pairwise fun e e' => e.span.stop ≤ e'.span.stop
  closed : ∀ e ∈ errors.dropLast, ¬ e.value.IsOpen
  open_stop : ∀ e ∈ errors, e.value.IsOpen → e.span.stop = stop

theorem reported_nil (start stop : Nat) : Reported start stop [] where
  within := List.forall_mem_nil _
  ordered := List.Pairwise.nil
  closed := List.forall_mem_nil _
  open_stop := List.forall_mem_nil _

theorem reported_of_closed (hw : ∀ e ∈ errors, start ≤ e.span.stop ∧ e.span.stop ≤ stop)
    (ho : errors.Pairwise fun e e' => e.span.stop ≤ e'.span.stop)
    (hc : ∀ e ∈ errors, ¬ e.value.IsOpen) : Reported start stop errors where
  within := hw
  ordered := ho
  closed := fun e he => hc e (List.dropLast_subset errors he)
  open_stop := fun e he hopen => absurd hopen (hc e he)

theorem Reported.shift (h : Reported start stop errors) (n : Nat) :
    Reported (n + start) (n + stop) (errors.map (Located.shift n)) where
  within := by
    intro e he
    obtain ⟨e', he', rfl⟩ := List.mem_map.1 he
    obtain ⟨hstart, hstop⟩ := h.within e' he'
    exact ⟨Nat.add_le_add_left hstart n, Nat.add_le_add_left hstop n⟩
  ordered := List.pairwise_map.2 (h.ordered.imp fun hle => Nat.add_le_add_left hle n)
  closed := by
    intro e he
    rw [← List.map_dropLast] at he
    obtain ⟨e', he', rfl⟩ := List.mem_map.1 he
    exact h.closed e' he'
  open_stop := by
    intro e he hopen
    obtain ⟨e', he', rfl⟩ := List.mem_map.1 he
    exact congrArg (n + ·) (h.open_stop e' he' hopen)

/-- Behind mistakes others are reported, if nothing was left open or nothing stands behind. -/
theorem Reported.append (h : Reported start middle errors) (h' : Reported middle stop more)
    (hstart : start ≤ middle) (hstop : middle ≤ stop)
    (hopen : ∀ e ∈ errors, e.value.IsOpen → more = [] ∧ middle = stop) :
    Reported start stop (errors ++ more) where
  within := by
    intro e he
    rcases List.mem_append.1 he with he | he
    · exact ⟨(h.within e he).1, Nat.le_trans (h.within e he).2 hstop⟩
    · exact ⟨Nat.le_trans hstart (h'.within e he).1, (h'.within e he).2⟩
  ordered := List.pairwise_append.2 ⟨h.ordered, h'.ordered, fun e he e' he' =>
    Nat.le_trans (h.within e he).2 (h'.within e' he').1⟩
  closed := by
    intro e he
    by_cases hnil : more = []
    · rw [hnil, List.append_nil] at he
      exact h.closed e he
    · rw [List.dropLast_append_of_ne_nil hnil] at he
      rcases List.mem_append.1 he with he | he
      · exact fun hisopen => hnil (hopen e he hisopen).1
      · exact h'.closed e he
  open_stop := by
    intro e he hisopen
    rcases List.mem_append.1 he with he | he
    · rw [h.open_stop e he hisopen]
      exact (hopen e he hisopen).2
    · exact h'.open_stop e he hisopen

/-! ### Mistakes in a lexeme -/

theorem Marked.stop_le {s : Span} (h : Marked cs s) : s.stop ≤ width cs := by
  obtain ⟨before, marked, after, rfl, -, rfl⟩ := h
  rw [← List.append_assoc, width_append (before ++ marked)]
  exact Nat.le_add_right _ _

theorem Marked.lt {s : Span} (h : Marked cs s) : s.start < s.stop := by
  obtain ⟨before, marked, after, rfl, hne, rfl⟩ := h
  rw [width_append]
  exact Nat.lt_add_of_pos_right (width_pos hne)

theorem textBody_ordered (offset : Nat) (cs : List Char) :
    ((textBody offset cs).errors.Pairwise fun e e' => e.span.stop ≤ e'.span.stop) ∧
      ∀ e ∈ (textBody offset cs).errors, offset ≤ e.span.stop ∧ ¬ e.value.IsOpen := by
  fun_induction textBody offset cs with
  | case1 | case2 | case3 => exact ⟨List.Pairwise.nil, List.forall_mem_nil _⟩
  | case4 offset c rest stop body value hvalue ih =>
    have hle : offset ≤ stop := by omega
    exact ⟨ih.1, fun e he => ⟨Nat.le_trans hle (ih.2 e he).1, (ih.2 e he).2⟩⟩
  | case5 offset c rest stop body hvalue ih =>
    have hle : offset ≤ stop := by omega
    refine ⟨List.pairwise_cons.2 ⟨fun e he => (ih.2 e he).1, ih.1⟩, ?_⟩
    refine List.forall_mem_cons.2 ⟨⟨hle, by simp [Problem.IsOpen]⟩, fun e he => ?_⟩
    exact ⟨Nat.le_trans hle (ih.2 e he).1, (ih.2 e he).2⟩
  | case6 offset c rest _ _ _ body ih =>
    exact ⟨ih.1, fun e he => ⟨Nat.le_trans (Nat.le_add_right _ _) (ih.2 e he).1, (ih.2 e he).2⟩⟩

/-- The mistakes in a text literal; one that is left open goes on to the end of the text. -/
theorem reported_of_textLiteral (h : textLiteral cs = (n, .faults errors)) :
    Reported 0 (width ('"' :: cs.take n)) errors ∧
      ∀ e ∈ errors, e.value.IsOpen → cs.drop n = [] := by
  have hstop {e : SyntaxError} (he : e ∈ errors) : e.span.stop ≤ width ('"' :: cs.take n) :=
    (marked_of_textLiteral h he).stop_le
  obtain ⟨hordered, hbody⟩ := textBody_ordered 1 cs
  obtain ⟨rfl, rfl | ⟨hclosed, rfl⟩⟩ := errors_of_textLiteral h
  · have hnone : ∀ e ∈ (textBody 1 cs).errors, ¬ e.value.IsOpen := fun e he => (hbody e he).2
    exact ⟨reported_of_closed (fun e he => ⟨Nat.zero_le _, hstop he⟩) hordered hnone,
      fun e he hopen => absurd hopen (hnone e he)⟩
  · have hsize := size_textBody hclosed
    have hwidth : width ('"' :: cs.take (textBody 1 cs).size) = width cs + 1 := by
      rw [hsize, List.take_length, Nat.add_comm]
      rfl
    have hdrop : cs.drop (textBody 1 cs).size = [] := by rw [hsize, List.drop_length]
    rw [hwidth] at hstop ⊢
    refine ⟨?_, fun _ _ _ => hdrop⟩
    constructor
    case within => exact fun e he => ⟨Nat.zero_le _, hstop he⟩
    case ordered =>
      refine List.pairwise_append.2 ⟨hordered, List.pairwise_singleton _ _, fun e he e' he' => ?_⟩
      rw [List.mem_singleton.1 he']
      exact hstop (List.mem_append_left _ he)
    case closed =>
      rw [List.dropLast_concat]
      exact fun e he => (hbody e he).2
    case open_stop =>
      intro e he hopen
      rcases List.mem_append.1 he with he | he
      · exact absurd hopen (hbody e he).2
      · rw [List.mem_singleton.1 he]

theorem reported_of_slash (h : slash cs = (n, .faults errors)) :
    Reported 0 (width ('/' :: cs.take n)) errors ∧
      ∀ e ∈ errors, e.value.IsOpen → cs.drop n = [] := by
  unfold slash at h
  split at h
  · cases h
  · split at h
    · cases h
    · rename_i rest _ _
      cases h
      have hwidth : width ('/' :: '*' :: rest) = width rest + 2 := by
        rw [width_cons, width_cons, ← Nat.add_assoc, Nat.add_comm]
        rfl
      rw [List.take_succ_cons, List.take_length, hwidth, List.drop_succ_cons, List.drop_length]
      refine ⟨⟨?_, List.pairwise_singleton _ _, List.forall_mem_nil _, ?_⟩, fun _ _ _ => rfl⟩
      · exact List.forall_mem_singleton.2 ⟨Nat.zero_le _, Nat.le_refl _⟩
      · exact List.forall_mem_singleton.2 fun _ => rfl
  · cases h

theorem characterEnd_even {size : Nat} {value : Char} {errors' : List SyntaxError}
    (h : characterEnd size stop value errors cs = (n, .faults errors'))
    (herrors : ∀ e ∈ errors, e.span.stop = stop ∧ ¬ e.value.IsOpen) :
    ∀ e ∈ errors', e.span.stop = stop ∧ ¬ e.value.IsOpen := by
  unfold characterEnd at h
  split at h
  · obtain ⟨-, h⟩ := Prod.mk.inj h
    split at h <;> cases h
    exact herrors
  · cases h
    exact List.forall_mem_append.2 ⟨herrors,
      List.forall_mem_singleton.2 ⟨rfl, by simp [Problem.IsOpen]⟩⟩

/-- The mistakes in a character literal end at the same place. -/
theorem even_of_characterLiteral (h : characterLiteral cs = (n, .faults errors)) :
    ∃ stop, ∀ e ∈ errors, e.span.stop = stop ∧ ¬ e.value.IsOpen := by
  unfold characterLiteral at h
  split at h
  · cases h
    exact ⟨1, List.forall_mem_singleton.2 ⟨rfl, by simp [Problem.IsOpen]⟩⟩
  · cases h
    exact ⟨2, List.forall_mem_singleton.2 ⟨rfl, by simp [Problem.IsOpen]⟩⟩
  · cases h
    exact ⟨2, List.forall_mem_singleton.2 ⟨rfl, by simp [Problem.IsOpen]⟩⟩
  · dsimp only at h
    split at h
    · exact ⟨_, characterEnd_even h (List.forall_mem_nil _)⟩
    · exact ⟨_, characterEnd_even h
        (List.forall_mem_singleton.2 ⟨rfl, by simp [Problem.IsOpen]⟩)⟩
  · exact ⟨_, characterEnd_even h (List.forall_mem_nil _)⟩

theorem reported_of_characterLiteral (h : characterLiteral cs = (n, .faults errors)) :
    Reported 0 (width ('\'' :: cs.take n)) errors ∧
      ∀ e ∈ errors, e.value.IsOpen → cs.drop n = [] := by
  obtain ⟨stop, heven⟩ := even_of_characterLiteral h
  refine ⟨reported_of_closed ?_ ?_ fun e he => (heven e he).2,
    fun e he hopen => absurd hopen (heven e he).2⟩
  · exact fun e he => ⟨Nat.zero_le _, (marked_of_characterLiteral h he).stop_le⟩
  · exact List.pairwise_of_forall_mem_list fun e he e' he' =>
      Nat.le_of_eq ((heven e he).1.trans (heven e' he').1.symm)

/-- **The mistakes in a lexeme are told in the order in which they end**, and nothing stands behind
one that is left open. -/
theorem reported_of_first (h : first c cs = (n, .faults errors)) :
    Reported 0 (width (c :: cs.take n)) errors ∧
      ∀ e ∈ errors, e.value.IsOpen → cs.drop n = [] := by
  unfold first at h
  split_ifs at h with _ hslash hquote hcharacter
  · cases h
  · exact hslash ▸ reported_of_slash h
  · exact hquote ▸ reported_of_textLiteral h
  · exact hcharacter ▸ reported_of_characterLiteral h
  · cases h
  · cases h
  · split at h
    · cases h
    · cases h
      have hclosed : ¬ (Problem.unexpectedCharacter c).IsOpen := by simp [Problem.IsOpen]
      refine ⟨reported_of_closed ?_ (List.pairwise_singleton _ _)
        (List.forall_mem_singleton.2 hclosed),
        List.forall_mem_singleton.2 fun hopen => absurd hopen hclosed⟩
      exact List.forall_mem_singleton.2 ⟨Nat.zero_le _, by simp⟩

/-! ### Mistakes in a text -/

theorem reported_errorsFrom (offset : Nat) (cs : List Char) :
    Reported offset (offset + width cs) (errorsFrom offset (cut cs)) := by
  fun_induction cut cs generalizing offset with
  | case1 => exact reported_nil _ _
  | case2 c cs n content hfirst ih =>
    have hwidth : offset + width (c :: cs) =
        offset + width (c :: cs.take n) + width (cs.drop n) := by
      rw [Nat.add_assoc, ← width_append, List.cons_append, List.take_append_drop]
    have hrest := ih (offset + width (c :: cs.take n))
    rw [hwidth]
    have hle := Nat.le_add_right offset (width (c :: cs.take n))
    have hle' := Nat.le_add_right (offset + width (c :: cs.take n)) (width (cs.drop n))
    rw [errorsFrom]
    cases content with
    | gap | token _ => exact (reported_nil _ _).append hrest hle hle' (List.forall_mem_nil _)
    | faults errors =>
      obtain ⟨hlexeme, hopen⟩ := reported_of_first hfirst
      refine Reported.append (hlexeme.shift offset) hrest hle hle' fun e he hisopen => ?_
      -- what is left open is the last lexeme of the text
      obtain ⟨e', he', rfl⟩ := List.mem_map.1 he
      rw [hopen e' he' hisopen]
      exact ⟨by rw [cut_nil, errorsFrom], rfl⟩

end Lexeme

open Lexeme

variable {source : String} {errors : List SyntaxError}

/-- The mistakes are well placed in a text that cannot be cut into tokens. -/
structure WellPlaced (source : String) (errors : List SyntaxError) : Prop where
  ne_nil : errors ≠ []
  /-- Each mistake is told of a stretch of the text that holds a character. -/
  marks : ∀ e ∈ errors, e.span.start < e.span.stop ∧ e.span.stop ≤ source.utf8ByteSize ∧
    e.span.Fits source
  /-- None ends in front of an earlier one. -/
  ordered : errors.Pairwise fun e e' => e.span.stop ≤ e'.span.stop
  /-- Only by the last of them is something left open. -/
  closed : ∀ e ∈ errors.dropLast, ¬ e.value.IsOpen
  /-- What is left open goes on to the end of the text. -/
  open_stop : ∀ e ∈ errors, e.value.IsOpen → e.span.stop = source.utf8ByteSize

/-- **The mistakes of a text that cannot be cut into tokens are well placed.** -/
theorem faults_wellPlaced (h : tokenize source = .error errors) : WellPlaced source errors := by
  obtain ⟨herrors, hne⟩ := tokenize_eq_error h
  have hreported : Reported 0 source.utf8ByteSize errors := by
    have hall := reported_errorsFrom 0 source.toList
    rwa [herrors, Nat.zero_add, width_toList] at hall
  refine ⟨hne, fun e he => ?_, hreported.ordered, hreported.closed, hreported.open_stop⟩
  have hmarked := marked_of_tokenize_error h he
  exact ⟨hmarked.lt, hmarked.marks.within, hmarked.marks.fits⟩

/-- A text with a character that starts no token, a character literal that is wrong twice, a text
literal with an unknown escape, and one that is left open with two of them in it. -/
def faulty : String := "é /* ü */ '\\ß x \"\\q\" := \"a\\€ \\w ü"

/-- The mistakes in the faulty text. -/
def faults : List SyntaxError :=
  [⟨.unexpectedCharacter 'é', ⟨0, 2⟩⟩, ⟨.unknownEscape 'ß', ⟨12, 16⟩⟩,
    ⟨.malformedCharacter, ⟨12, 16⟩⟩, ⟨.unknownEscape 'q', ⟨20, 22⟩⟩,
    ⟨.unknownEscape '€', ⟨29, 33⟩⟩, ⟨.unknownEscape 'w', ⟨34, 36⟩⟩, ⟨.openText, ⟨27, 39⟩⟩]

/-- The mistakes in the faulty text are well placed. -/
theorem faulty_wellPlaced : tokenize faulty = .error faults ∧ WellPlaced faulty faults := by
  have h : tokenize faulty = .error faults := by decide +kernel
  exact ⟨h, faults_wellPlaced h⟩

end ModuleResolution
