import ModuleResolution.Proofs.Tiling

/-!
# Kinds of token written out

The kinds of token that a text can be cut into can be written out again, with anything between them
that starts with a blank and goes on as a gap; what is written is cut into these kinds.

* `Lexeme.spell` : a kind of token written out.
* `Lexeme.Spellable` : the kinds that can be; `spellable_iff` : they are those of the tokens of some
  text.
* `Lexeme.Prints` : kinds written out one behind the other, in any layout.
* `tokenize_of_prints` : what is written out is cut into the kinds it was written from.
-/

namespace ModuleResolution

namespace Lexeme

variable {cs text gap : List Char} {kind : Token.Kind} {kinds : List Token.Kind}
  {tokens : List Token}

/-! ### Spelling a kind -/

/-- A character as it is written between quotes. -/
def quoted : Char → List Char
  | '\n' => ['\\', 'n']
  | '\t' => ['\\', 't']
  | '\r' => ['\\', 'r']
  | '\x00' => ['\\', '0']
  | '\\' => ['\\', '\\']
  | '"' => ['\\', '"']
  | '\'' => ['\\', '\'']
  | c => [c]

/-- A kind of token written out: words and numbers as they are, texts and characters between quotes,
and the others by their sign. -/
def spell : Token.Kind → List Char
  | .word name => name.toList
  | .number spelling => spelling.toList
  | .text value => '"' :: (value.toList.flatMap quoted ++ ['"'])
  | .character value => '\'' :: (quoted value ++ ['\''])
  | kind => (sign? kind).getD []

/-- The kind can be written out: words and numbers are made of the right characters, the operator
is one of those there are, and the kind is not the end of the file. -/
def Spellable : Token.Kind → Prop
  | .word name => ∃ c cs, name.toList = c :: cs ∧ startsWord c = true ∧
      ∀ d ∈ cs, continuesWord d = true
  | .number spelling => ∃ c cs, spelling.toList = c :: cs ∧ c.isDigit = true ∧ Counts cs
  | .operator symbol => symbol = '=' ∨ symbol ∈ operators
  | .endOfFile => False
  | _ => True

theorem Quotes.quoted_append {quote c : Char} {value : List Char} (hq : quote = '"' ∨ quote = '\'')
    (h : Quotes quote cs value) : Quotes quote (quoted c ++ cs) (c :: value) := by
  unfold quoted
  split
  iterate 7 exact .escape _ rfl h
  refine .plain c ?_ (by assumption) h
  rcases hq with rfl | rfl <;> assumption

theorem quotes_flatMap {quote : Char} (hq : quote = '"' ∨ quote = '\'') (value : List Char) :
    Quotes quote (value.flatMap quoted) value := by
  induction value with
  | nil => exact .nil
  | cons c value ih => exact ih.quoted_append hq

theorem writes_spell (h : Spellable kind) : Writes (spell kind) kind := by
  cases kind with
  | word name =>
    obtain ⟨c, cs, hname, hc, hcs⟩ := h
    have hw := Writes.word hc hcs
    rwa [← hname, String.ofList_toList] at hw
  | number spelling =>
    obtain ⟨c, cs, hspelling, hc, hcs⟩ := h
    have hw := Writes.number hc hcs
    rwa [← hspelling, String.ofList_toList] at hw
  | text value =>
    have hw := Writes.text (quotes_flatMap (.inl rfl) value.toList)
    rwa [String.ofList_toList] at hw
  | character value =>
    have hw := quotes_flatMap (.inr rfl) [value]
    rw [List.flatMap_singleton] at hw
    exact .character hw
  | operator symbol =>
    by_cases hequal : symbol = '='
    · exact .sign (by simp [sign?, spell, hequal])
    · exact .sign (by simp [sign?, spell, hequal, h.resolve_left hequal])
  | opening bracket => cases bracket <;> exact .sign rfl
  | closing bracket => cases bracket <;> exact .sign rfl
  | endOfFile => exact h.elim
  | _ => exact .sign rfl

theorem spellable_of_writes (h : Writes text kind) : Spellable kind := by
  cases h with
  | word hc hcs => exact ⟨_, _, String.toList_ofList, hc, hcs⟩
  | number hc hcs => exact ⟨_, _, String.toList_ofList, hc, hcs⟩
  | text => trivial
  | character => trivial
  | sign h =>
    cases kind with
    | word | number | endOfFile => cases h
    | operator symbol =>
      simp only [sign?] at h
      split_ifs at h with hequal hmem
      · exact .inl hequal
      · exact .inr hmem
    | _ => trivial

/-! ### Kinds one behind the other -/

/-- The kinds are written out one behind the other, and between neighbours stands a blank and then
any gap. -/
inductive Prints : List Token.Kind → List Char → Prop
  | nil : Prints [] []
  | single (kind : Token.Kind) : Prints [kind] (spell kind)
  | cons {next kinds text c gap} (kind : Token.Kind) (hc : Text.isBlank c = true) (hg : Gap gap)
    (h : Prints (next :: kinds) text) :
    Prints (kind :: next :: kinds) (spell kind ++ (c :: gap ++ text))

/-- Kinds that are written out behind a gap tile the text. -/
theorem Prints.tiles (h : Prints kinds text) (hk : ∀ kind ∈ kinds, Spellable kind) (hg : Gap gap)
    (offset : Nat) : ∃ tokens, Tiles offset (gap ++ text) tokens ∧
      tokens.map Token.kind = kinds ++ [.endOfFile] := by
  induction h generalizing gap offset with
  | nil => exact ⟨_, .done (.inl (by rwa [List.append_nil])), rfl⟩
  | single kind =>
    have hw := writes_spell (hk kind List.mem_cons_self)
    have htiles : Tiles offset (gap ++ (spell kind ++ [])) _ :=
      .token hg (.token hw (.of_nil kind)) (.done (.inl .nil))
    rw [List.append_nil] at htiles
    exact ⟨_, htiles, rfl⟩
  | @cons next kinds text c gap' kind hc hg' _ ih =>
    obtain ⟨hkind, hkinds⟩ := List.forall_mem_cons.1 hk
    obtain ⟨tokens, htiles, htokens⟩ := ih hkinds (.blank hc hg') _
    have hr := Reads.token (writes_spell hkind) (.of_isBlank kind hc (gap' ++ text))
    exact ⟨_, .token hg hr htiles, congrArg (List.cons kind) htokens⟩

end Lexeme

open Lexeme

variable {kind : Token.Kind} {kinds : List Token.Kind} {text : List Char}

/-- The kinds that can be written out are those that the tokens of a text can have, but for the end
of the file. -/
theorem spellable_iff : Spellable kind ↔ kind ≠ .endOfFile ∧
    ∃ source tokens, tokenize source = .ok tokens ∧ kind ∈ tokens.map Token.kind := by
  constructor
  · intro h
    have hw := writes_spell h
    exact ⟨hw.ne_endOfFile, _, _, tokenize_of_writes hw, by simp⟩
  · rintro ⟨hk, source, tokens, h, hmem⟩
    obtain ⟨t, ht, rfl⟩ := List.mem_map.1 hmem
    obtain ⟨front, behind, hsplit⟩ := List.append_of_mem ht
    obtain ⟨_, _, _, _, -, -, -, hread⟩ := (tokenize_eq_ok_iff_tiles.1 h).exists_eq hsplit
    obtain ⟨-, hw⟩ | ⟨hend, -⟩ := hread
    · exact spellable_of_writes hw
    · exact absurd hend hk

/-- **Kinds that are written out are read back**, whatever blanks and comments stand between them
behind a blank. -/
theorem tokenize_of_prints (hk : ∀ kind ∈ kinds, Spellable kind) (h : Prints kinds text) :
    ∃ tokens, tokenize (String.ofList text) = .ok tokens ∧
      tokens.map Token.kind = kinds ++ [.endOfFile] := by
  obtain ⟨tokens, htiles, htokens⟩ := h.tiles hk .nil 0
  exact ⟨tokens, tokenize_eq_ok_iff_tiles.2 (by rwa [String.toList_ofList]), htokens⟩

/-- Kinds whose signs would run together without a layout, and a text that needs escapes. -/
def assorted : List Token.Kind :=
  [.operator '-', .thinArrow, .number "1", .dot, .word "x", .text "\"\\\n€"]

/-- The kinds in a layout with comments. -/
def assortedText : String := "- /*/**/*///\n-> 1\t. x \"\\\"\\\\\\n€\""

theorem prints_assorted : Prints assorted assortedText.toList := by
  have hgap : Gap ['/', '*', '/', '*', '*', '/', '*', '/', '/', '/', '\n'] :=
    .block (.comment .nil .nil) (@Gap.line [] [] List.not_mem_nil .nil)
  have htext : assortedText.toList = spell (.operator '-') ++ (' ' ::
      ['/', '*', '/', '*', '*', '/', '*', '/', '/', '/', '\n'] ++ (spell .thinArrow ++ (' ' :: [] ++
      (spell (.number "1") ++ ('\t' :: [] ++ (spell .dot ++ (' ' :: [] ++ (spell (.word "x") ++
      (' ' :: [] ++ spell (.text "\"\\\n€")))))))))) := by decide +kernel
  rw [htext]
  exact .cons _ rfl hgap (.cons _ rfl .nil (.cons _ rfl .nil (.cons _ rfl .nil (.cons _ rfl .nil
    (.single _)))))

/-- The assorted kinds are read back. -/
theorem tokenize_of_prints_assorted :
    (∀ kind ∈ assorted, Spellable kind) ∧ Prints assorted assortedText.toList ∧
      ∃ tokens, tokenize (String.ofList assortedText.toList) = .ok tokens ∧
        tokens.map Token.kind = assorted ++ [.endOfFile] := by
  have hk : ∀ kind ∈ assorted, Spellable kind := by
    simp only [assorted, List.forall_mem_cons]
    exact ⟨.inr (by decide), trivial, ⟨'1', [], by decide +kernel, rfl, .nil⟩, trivial,
      ⟨'x', [], by decide +kernel, rfl, fun d hd => by cases hd⟩, trivial,
      fun kind hk => by cases hk⟩
  exact ⟨hk, prints_assorted, tokenize_of_prints hk prints_assorted⟩

end ModuleResolution
