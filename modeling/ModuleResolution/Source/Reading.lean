import ModuleResolution.Source.Problem

/-!
# Reading tokens

A `Reading α` takes a value of type `α` off the front of a list of tokens, or fails with a syntax
error.  Either way it says which tokens are left, so that reading can go on behind a mistake.  The
tokens end where the list ends; the span of the end is handed to every reading for the messages
that point there.

* `Reading.kind`, `place` : the token in front, and where it stands.
* `Reading.expect`, `accept` : take one token.
* `Reading.Keeps` : a reading leaves a tail of what it was given.
-/

namespace ModuleResolution

/-- The result of a reading. -/
inductive Reading.Step (α : Type) where
  /-- The value, and the tokens behind it. -/
  | done (value : α) (rest : List Token)
  /-- The mistake, and the tokens from where it was noticed. -/
  | fail (error : SyntaxError) (rest : List Token)

/-- Takes a value off the front of a list of tokens that ends at the given span. -/
def Reading (α : Type) : Type := (ending : Span) → List Token → Reading.Step α

namespace Reading

variable {α β : Type}

namespace Step

/-- The tokens left. -/
def rest : Step α → List Token
  | done _ rest => rest
  | fail _ rest => rest

/-- The result with its value changed by `f`. -/
def map (f : α → β) : Step α → Step β
  | done value rest => done (f value) rest
  | fail error rest => fail error rest

@[simp] theorem rest_map (f : α → β) (s : Step α) : (s.map f).rest = s.rest := by
  cases s <;> rfl

end Step

instance : Monad Reading where
  pure value := fun _ tokens => .done value tokens
  bind reading next := fun ending tokens =>
    match reading ending tokens with
    | .done value rest => next value ending rest
    | .fail error rest => .fail error rest

/-! ### The token in front -/

/-- The kind of the token in front. -/
def kind : List Token → Token.Kind
  | [] => .endOfFile
  | token :: _ => token.kind

/-- Where the token in front stands. -/
def place (ending : Span) : List Token → Span
  | [] => ending
  | token :: _ => token.span

/-- The kind of the token in front. -/
def next : Reading Token.Kind := fun _ tokens => .done (kind tokens) tokens

/-- Fails at the token in front. -/
def fail (problem : Problem) : Reading α := fun ending tokens =>
  .fail ⟨problem, place ending tokens⟩ tokens

/-! ### One token -/

/-- Takes a token of kind `wanted`, and says where it stood. -/
def expect (wanted : Token.Kind) (spot : Problem.Place) : Reading Span := fun ending tokens =>
  if kind tokens = wanted then .done (place ending tokens) tokens.tail
  else fail (.expected wanted spot (kind tokens)) ending tokens

/-- Takes a token of kind `wanted` if there is one, and says whether there was. -/
def accept (wanted : Token.Kind) : Reading Bool := fun _ tokens =>
  if kind tokens = wanted then .done true tokens.tail else .done false tokens

/-! ### What is left -/

/-- The reading leaves a tail of the tokens it was given. -/
def Keeps (reading : Reading α) : Prop :=
  ∀ ending tokens, (reading ending tokens).rest <:+ tokens

theorem keeps_pure (value : α) : Keeps (pure value) := fun _ tokens => List.suffix_refl tokens

theorem Keeps.bind {reading : Reading α} {next : α → Reading β} (h : Keeps reading)
    (hn : ∀ value, Keeps (next value)) : Keeps (reading >>= next) := by
  intro ending tokens
  have first := h ending tokens
  simp only [Bind.bind]
  cases hs : reading ending tokens with
  | done value rest => rw [hs] at first; exact (hn value ending rest).trans first
  | fail error rest => rw [hs] at first; exact first

theorem keeps_next : Keeps next := fun _ tokens => List.suffix_refl tokens

theorem keeps_fail (problem : Problem) : Keeps (fail problem : Reading α) :=
  fun _ tokens => List.suffix_refl tokens

theorem keeps_expect (wanted : Token.Kind) (spot : Problem.Place) : Keeps (expect wanted spot) := by
  intro ending tokens
  unfold expect
  split
  · exact List.tail_suffix tokens
  · exact List.suffix_refl tokens

theorem keeps_accept (wanted : Token.Kind) : Keeps (accept wanted) := by
  intro ending tokens
  unfold accept
  split
  · exact List.tail_suffix tokens
  · exact List.suffix_refl tokens

end Reading

end ModuleResolution
