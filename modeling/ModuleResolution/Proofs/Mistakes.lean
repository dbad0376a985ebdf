import Mathlib.Data.List.Nodup
import ModuleResolution.Proofs.Placing
import ModuleResolution.Proofs.Remainders

/-!
# Mistakes one behind the other

Reading stops at a mistake in front of the token that the mistake is told of, and goes on behind it.
A bracket that is never closed is told of where it opens, which is further in front, but this is
noticed where the tokens end, and nothing is left then.  So the mistakes of a text are told of
different tokens, in order.

* `Reading.Halts` : a mistake is told of the token in front of what is left.
* `Program.halts_item` : so are the mistakes in items.
* `Program.mistakes_pairwise` : each mistake starts behind the ones before it.
* `Program.Lined` : mistakes are told of tokens, one behind the other.
* `Program.lined_mistakes` : so are those of the tokens of a text.
-/

namespace ModuleResolution

namespace Reading

variable {α β : Type}

/-! ### Where readings halt -/

/-- A mistake that the reading makes is told of the token in front of what is left, unless nothing
is left. -/
def Halts (reading : Reading α) : Prop :=
  ∀ ending tokens error left, reading ending tokens = .fail error left → left ≠ [] →
    error.span = place ending left

theorem Halts.bind {reading : Reading α} {next : α → Reading β} (h : Halts reading)
    (hn : ∀ value, Halts (next value)) : Halts (reading >>= next) := by
  intro ending tokens error left hfail hne
  rcases bind_eq_fail hfail with hfirst | ⟨value, rest, -, hrest⟩
  · exact h _ _ _ _ hfirst hne
  · exact hn value _ _ _ _ hrest hne

theorem halts_pure (value : α) : Halts (pure value) := by
  intro _ _ _ _ h _
  cases h

theorem halts_fail (problem : Problem) : Halts (fail problem : Reading α) := by
  intro _ _ _ _ h _
  cases h
  rfl

theorem halts_next : Halts next := by
  intro _ _ _ _ h _
  cases h

theorem halts_expect (wanted : Token.Kind) (spot : Problem.Place) : Halts (expect wanted spot) := by
  intro ending tokens error left h hne
  unfold expect at h
  split at h
  · cases h
  · exact halts_fail _ _ _ _ _ h hne

theorem halts_accept (wanted : Token.Kind) : Halts (accept wanted) := by
  intro _ _ _ _ h _
  unfold accept at h
  split at h <;> cases h

end Reading

namespace Program

open Reading

variable {ending : Span} {tokens rest left : List Token} {first : Token} {error : SyntaxError}

/-! ### Imports -/

theorem halts_acceptImport : Halts acceptImport := by
  intro _ _ _ _ h _
  unfold acceptImport at h
  split at h <;> cases h

theorem halts_importPath : Halts importPath := by
  intro ending tokens error left h hne
  unfold importPath at h
  split at h
  · cases h
  · exact halts_fail _ _ _ _ _ h hne

theorem halts_importRest (start : Span) (form : Import.Form) : Halts (importRest start form) := by
  have htarget : Halts importTarget :=
    (halts_expect _ _).bind fun _ => halts_importPath.bind fun _ => (halts_expect _ _).bind fun _ =>
      halts_pure _
  exact htarget.bind fun _ => (halts_expect _ _).bind fun _ => halts_pure _

theorem halts_requests : Halts requests := by
  intro ending tokens error left h hne
  fun_induction requests ending tokens with
  | case1 | case3 | case6 => cases h
  | case2 _ _ _ _ _ _ _ ih | case5 _ _ _ _ ih => exact ih (fail_of_map h)
  | case4 | case7 => exact halts_fail _ _ _ _ _ h hne

theorem halts_selection (start : Span) : Halts (selection start) := by
  refine halts_requests.bind fun _ => (halts_expect _ _).bind fun _ =>
    (halts_expect _ _).bind fun _ => halts_acceptImport.bind fun accepted => ?_
  split
  · exact halts_importRest _ _
  · exact halts_next.bind fun _ => halts_fail _

/-! ### Bindings -/

/-- Going over opaque tokens halts at what may not stand there; what is missing is missed where they
end. -/
theorem place_of_scanFrom {wanted : Token.Kind} {openers : List Span} {stop : Nat}
    (h : scanFrom ending wanted openers stop tokens = .fail error left) (hne : left ≠ []) :
    error.span = place ending left := by
  fun_induction scanFrom ending wanted openers stop tokens with
  | case1 | case2 =>
    cases h
    exact absurd rfl hne
  | case3 => cases h
  | case5 =>
    cases h
    rfl
  | case4 _ _ _ _ _ _ ih | case6 _ _ _ _ _ _ _ ih | case10 _ _ _ _ _ _ _ _ _ ih => exact ih h
  | case7 _ _ _ _ _ _ hi =>
    rw [if_pos hi] at h
    cases h
    rfl
  | case8 _ _ _ _ _ hnone _ hi ih =>
    rw [if_neg hi, hnone] at h
    exact ih h
  | case9 _ _ _ _ _ _ hlast _ hi ih =>
    rw [if_neg hi, hlast] at h
    exact ih (fail_of_map h)

theorem halts_scan (wanted : Token.Kind) : Halts (scan wanted) :=
  fun _ _ _ _ h hne => place_of_scanFrom (fail_of_map h) hne

theorem halts_bindingType (name : Located String) : Halts (bindingType name) := by
  refine (halts_accept _).bind fun taken => ?_
  split
  · exact (halts_scan _).bind fun _ => (halts_expect _ _).bind fun _ => halts_pure _
  · exact (halts_expect _ _).bind fun _ => halts_pure _

theorem halts_value (name : Located String) (references : List (Located Reference)) :
    Halts (value name references) := by
  intro ending tokens error left h hne
  rw [value_eq] at h
  have hdeclared (kind : Declaration.Kind) (body : Span × List (Located Reference)) :
      Halts (declared name references kind body) := by
    unfold declared
    split
    · exact halts_fail _
    · exact (halts_expect _ _).bind fun _ => halts_pure _
  exact (halts_scan _).bind (hdeclared _) _ _ _ _ h hne

theorem halts_binding (name : Located String) : Halts (binding name) := by
  refine (halts_bindingType name).bind fun _ => halts_acceptImport.bind fun taken => ?_
  split
  · exact halts_importRest _ _
  · exact halts_value _ _

/-! ### Items -/

/-- **A mistake in an item is told of the token in front of what is left.** -/
theorem halts_item (h : item first ending rest = .fail error left) (hne : left ≠ []) :
    error.span = place ending left := by
  unfold item at h
  split at h
  · split at h
    · exact halts_importRest _ _ _ _ _ _ h hne
    · exact halts_binding _ _ _ _ _ h hne
  · exact halts_selection _ _ _ _ _ h hne
  · cases h
    rfl

/-- The tokens start one behind the other, and in front of their end. -/
def Advancing (ending : Span) (tokens : List Token) : Prop :=
  tokens.Pairwise (fun t t' => t.span.start < t'.span.start) ∧
    ∀ t ∈ tokens, t.span.start < ending.start

theorem Advancing.of_suffix (h : Advancing ending tokens) (hs : left <:+ tokens) :
    Advancing ending left :=
  ⟨h.1.sublist hs.sublist, fun t ht => h.2 t (hs.subset ht)⟩

/-- What is told of tokens that recovery leaves starts behind the token in front. -/
theorem Advancing.lt_of_mem (h : Advancing ending (first :: rest)) {e : SyntaxError}
    (he : e ∈ (items ending (recover 0 (first :: rest))).1) : first.span.start < e.span.start := by
  have hrest : ∀ t ∈ recover 0 (first :: rest), first.span.start < t.span.start := fun t ht =>
    (List.pairwise_cons.1 h.1).1 t ((recover_suffix 0 (first :: rest)).subset ht)
  have hplaced := placed_items (P := fun s => first.span.start < s.start)
    (h.2 first List.mem_cons_self) hrest
  exact hplaced.1 e he

/-- **Each mistake starts behind the ones before it**: reading goes on behind the token that a
mistake is told of. -/
theorem mistakes_pairwise (h : Advancing ending tokens) :
    (items ending tokens).1.Pairwise fun e e' => e.span.start < e'.span.start := by
  fun_induction items ending tokens with
  | case1 => exact List.Pairwise.nil
  | case2 first rest _ ih => exact ih (h.of_suffix (List.suffix_cons first rest))
  | case3 first rest _ found left hi =>
    rename_i ih
    exact ih (h.of_suffix ((suffix_of_item hi).trans (List.suffix_cons first rest)))
  | case4 first rest _ error left hi =>
    rename_i ih
    have hleft := h.of_suffix (suffix_of_mistake hi)
    have hrecover := (recover_suffix 0 left).trans (List.tail_suffix left)
    refine List.pairwise_cons.2 ⟨?_, ih (hleft.of_suffix hrecover)⟩
    cases left with
    | nil =>
      -- reading ends with this mistake
      have hnone : (items ending (recover 0 [])).1 = [] := by rw [recover, items]
      exact hnone ▸ List.forall_mem_nil _
    | cons token left =>
      rw [halts_item hi (List.cons_ne_nil _ _)]
      exact fun e he => hleft.lt_of_mem he

/-! ### Texts -/

/-- The mistakes are told of tokens, one behind the other. -/
structure Lined (tokens : List Token) (errors : List SyntaxError) : Prop where
  ne_nil : errors ≠ []
  /-- A mistake is told of one token. -/
  told : ∀ e ∈ errors, ∃! t, t ∈ tokens ∧ t.span = e.span
  ordered : errors.Pairwise fun e e' => e.span.start < e'.span.start
  /-- No two of them are told of one place. -/
  nodup : (errors.map Located.span).Nodup
  /-- The last of them alone may be told of the end of the file. -/
  last : ∀ e ∈ errors.dropLast, ∀ t ∈ tokens, t.span = e.span → t.kind ≠ .endOfFile

theorem advancing_of_tokenize {source : String} {body : List Token} {span : Span}
    (h : tokenize source = .ok (body ++ [⟨.endOfFile, span⟩]))
    (hk : ∀ t ∈ body, t.kind ≠ .endOfFile) : Advancing span body := by
  have hsolid := solid_of_tokenize h hk
  obtain ⟨-, -, hbefore⟩ := List.pairwise_append.1 (tokenize_ordered h).apart
  refine ⟨hsolid.apart.imp_of_mem fun ht _ hle => ?_, fun t ht => ?_⟩
  · exact Nat.lt_of_lt_of_le (hsolid.wide _ ht) hle
  · exact Nat.lt_of_lt_of_le (hsolid.wide t ht) (hbefore t ht _ List.mem_cons_self)

theorem nodup_of_starts {α : Type} {l : List α} {span : α → Span}
    (h : l.Pairwise fun a b => (span a).start < (span b).start) : (l.map span).Nodup := by
  refine List.pairwise_map.2 (h.imp fun hlt he => ?_)
  rw [he] at hlt
  exact Nat.lt_irrefl _ hlt

/-- The mistakes in tokens that the end of the file closes are lined, if there are any. -/
theorem Advancing.lined {body : List Token} {span : Span} (h : Advancing span body)
    (hk : ∀ t ∈ body, t.kind ≠ .endOfFile) (hne : (items span body).1 ≠ []) :
    Lined (body ++ [⟨.endOfFile, span⟩]) (items span body).1 := by
  have hstarts : (body ++ [Token.mk .endOfFile span]).Pairwise
      fun t t' => t.span.start < t'.span.start :=
    List.pairwise_append.2 ⟨h.1, List.pairwise_singleton _ _, fun t ht _ ht' =>
      List.mem_singleton.1 ht' ▸ h.2 t ht⟩
  have hordered := mistakes_pairwise h
  have htold : ∀ e ∈ (items span body).1, ∃ t ∈ body ++ [⟨.endOfFile, span⟩], t.span = e.span :=
    (placed_items (P := fun s => ∃ t ∈ body ++ [⟨.endOfFile, span⟩], t.span = s)
      ⟨_, List.mem_append_right _ List.mem_cons_self, rfl⟩
      fun t ht => ⟨t, List.mem_append_left _ ht, rfl⟩).1
  refine ⟨hne, fun e he => ?_, hordered, nodup_of_starts hordered, fun e he t ht hspan hend => ?_⟩
  · obtain ⟨t, ht, hspan⟩ := htold e he
    refine ⟨t, ⟨ht, hspan⟩, fun t' ⟨ht', hspan'⟩ => ?_⟩
    exact List.inj_on_of_nodup_map (nodup_of_starts hstarts) ht' ht (hspan'.trans hspan.symm)
  · -- the last mistake would start behind the end of the file
    have hlt : e.span.start < ((items span body).1.getLast hne).span.start := by
      rw [← List.dropLast_append_getLast hne] at hordered
      exact (List.pairwise_append.1 hordered).2.2 e he _ List.mem_cons_self
    obtain ⟨last, hlast, hspan'⟩ := htold _ (List.getLast_mem hne)
    rw [← hspan, ← hspan'] at hlt
    obtain rfl : t = ⟨.endOfFile, span⟩ := by
      rcases List.mem_append.1 ht with ht | ht
      · exact absurd hend (hk t ht)
      · exact List.mem_singleton.1 ht
    rcases List.mem_append.1 hlast with hlast | hlast
    · exact Nat.lt_asymm hlt (h.2 last hlast)
    · rw [List.mem_singleton.1 hlast] at hlt
      exact Nat.lt_irrefl _ hlt

theorem judge_eq_error {result : List SyntaxError × List (Located Item)} {errors : List SyntaxError}
    (h : judge result = .error errors) : result.1 = errors ∧ errors ≠ [] := by
  obtain ⟨errors', found⟩ := result
  cases errors' with
  | nil => cases h
  | cons error errors' =>
    cases h
    exact ⟨rfl, List.cons_ne_nil _ _⟩

/-- **The mistakes of a text that is cut into tokens are told of tokens, one behind the other.** -/
theorem lined_mistakes {source : String} {errors : List SyntaxError}
    (ht : tokenize source = .ok tokens) (h : ofTokens tokens = .error errors) :
    Lined tokens errors := by
  obtain ⟨body, span, rfl, hk⟩ := tokenize_closed ht
  rw [ofTokens_closed hk] at h
  obtain ⟨rfl, hne⟩ := judge_eq_error h
  exact (advancing_of_tokenize ht hk).lined hk hne

/-- A text with mistakes in front of a name, at a bracket, inside brackets, in a pattern and at its
end, with a character of two bytes in it. -/
def stumbling : String :=
  "x y;\nz := ];\nq := (import(\"é\"));\n\x7ba b\x7d := 1; w := 3"

/-- The mistakes in the stumbling text. -/
def stumbles : List SyntaxError :=
  [⟨.expected .define (.afterName "x") (.word "y"), ⟨2, 3⟩⟩, ⟨.unmatched .square, ⟨10, 11⟩⟩,
    ⟨.innerImport, ⟨19, 25⟩⟩, ⟨.expected (.closing .curly) .closingPattern (.word "b"), ⟨37, 38⟩⟩,
    ⟨.endedBefore .semicolon, ⟨52, 52⟩⟩]

/-- The mistakes in the stumbling text are told one behind the other. -/
theorem stumbles_lined :
    let tokens := (tokenize stumbling).toOption.getD []
    tokenize stumbling = .ok tokens ∧ ofTokens tokens = .error stumbles ∧
      Lined tokens stumbles := by
  intro tokens
  have ht : tokenize stumbling = .ok tokens := by decide +kernel
  have h : ofTokens tokens = .error stumbles := by decide +kernel
  exact ⟨ht, h, lined_mistakes ht h⟩

end Program

end ModuleResolution
