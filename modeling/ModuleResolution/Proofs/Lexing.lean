import Mathlib.Data.List.TakeWhile
import ModuleResolution.Proofs.Tokens

/-!
# How a text is cut into lexemes

A text starts with a token where its first characters are a spelling of the token and what stands
behind them does not go on with it, and it starts with a gap where they are a blank or a comment.

* `Lexeme.Writes` : characters spell a kind of token.
* `Lexeme.Stops` : what stands behind the token does not go on with it.
* `Lexeme.Inside` : the inside of a block comment.
* `Lexeme.Gap` : blanks and comments, one behind the other.
* `Lexeme.Reads` : what a text starts with, in front of the rest of it.
* `Lexeme.Lexes` : a text is made of lexemes, none of which is wrong.
* `tokenize_eq_ok_iff` : the tokens of a text are those of the lexemes it is made of.
-/

namespace ModuleResolution

namespace Lexeme

/-! ### Spellings -/

/-- Between two quotes, the characters stand for the value: each character of it is written as it
is, unless it is the quote or a backslash, or as an escape. -/
inductive Quotes (quote : Char) : List Char → List Char → Prop
  | nil : Quotes quote [] []
  | plain {cs value} (c : Char) (hq : c ≠ quote) (hb : c ≠ '\\') (h : Quotes quote cs value) :
    Quotes quote (c :: cs) (c :: value)
  | escape {cs value c} (e : Char) (he : unescape e = some c) (h : Quotes quote cs value) :
    Quotes quote ('\\' :: e :: cs) (c :: value)

/-- The characters go on with a number: letters, digits, `_`, and dots in front of a digit. -/
inductive Counts : List Char → Prop
  | nil : Counts []
  | char {cs} (c : Char) (hc : continuesWord c = true) (h : Counts cs) : Counts (c :: cs)
  | dot {cs} (d : Char) (hd : d.isDigit = true) (h : Counts (d :: cs)) : Counts ('.' :: d :: cs)

/-- The operators that are their symbol, but for `=`. -/
def operators : List Char :=
  ['/', '-', '+', '*', '%', '<', '>', '!', '&', '|', '^', '~', '?', '#', '@']

/-- How a kind is written that has no value of its own, or an operator. -/
def sign? : Token.Kind → Option (List Char)
  | .define => some [':', '=']
  | .member => some [':', ':']
  | .colon => some [':']
  | .equals => some ['=']
  | .thickArrow => some ['=', '>']
  | .thinArrow => some ['-', '>']
  | .semicolon => some [';']
  | .comma => some [',']
  | .dot => some ['.']
  | .opening .round => some ['(']
  | .opening .square => some ['[']
  | .opening .curly => some ['\x7b']
  | .closing .round => some [')']
  | .closing .square => some [']']
  | .closing .curly => some ['\x7d']
  | .operator c => if c = '=' then some ['=', '='] else if c ∈ operators then some [c] else none
  | _ => none

/-- The characters are a spelling of the kind. -/
inductive Writes : List Char → Token.Kind → Prop
  | word {c cs} (hc : startsWord c = true) (hcs : ∀ d ∈ cs, continuesWord d = true) :
    Writes (c :: cs) (.word (String.ofList (c :: cs)))
  | number {c cs} (hc : c.isDigit = true) (hcs : Counts cs) :
    Writes (c :: cs) (.number (String.ofList (c :: cs)))
  | text {cs value} (h : Quotes '"' cs value) :
    Writes ('"' :: (cs ++ ['"'])) (.text (String.ofList value))
  | character {cs value} (h : Quotes '\'' cs [value]) :
    Writes ('\'' :: (cs ++ ['\''])) (.character value)
  | sign {cs kind} (h : sign? kind = some cs) : Writes cs kind

/-- What stands behind a token of the kind does not go on with it. -/
def Stops : Token.Kind → List Char → Prop
  | .word _, rest => ∀ c ∈ rest.head?, continuesWord c = false
  | .number _, rest => ∀ c ∈ rest.head?, continuesWord c = false ∧
      (c = '.' → ∀ d ∈ rest.tail.head?, d.isDigit = false)
  | .colon, rest => ∀ c ∈ rest.head?, c ≠ '=' ∧ c ≠ ':'
  | .equals, rest => ∀ c ∈ rest.head?, c ≠ '=' ∧ c ≠ '>'
  | .operator '-', rest => ∀ c ∈ rest.head?, c ≠ '>'
  | .operator '/', rest => ∀ c ∈ rest.head?, c ≠ '/' ∧ c ≠ '*'
  | _, _ => True

/-! ### Comments -/

/-- The two characters open a block comment, or close one. -/
def Delimits (c d : Char) : Prop := c = '/' ∧ d = '*' ∨ c = '*' ∧ d = '/'

/-- The inside of a block comment: block comments, and characters that neither open one nor close
one with the character behind them, which is the `*` of the end behind the last of them. -/
inductive Inside : List Char → Prop
  | nil : Inside []
  | char {cs} (c : Char) (hc : ¬ Delimits c (cs.headD '*')) (h : Inside cs) : Inside (c :: cs)
  | comment {inner cs} (hi : Inside inner) (h : Inside cs) :
    Inside ('/' :: '*' :: (inner ++ '*' :: '/' :: cs))

/-- What may stand between two tokens: blanks, comments up to the end of their line, and block
comments. -/
inductive Gap : List Char → Prop
  | nil : Gap []
  | blank {c cs} (hc : Text.isBlank c = true) (h : Gap cs) : Gap (c :: cs)
  | line {body cs} (hb : '\n' ∉ body) (h : Gap cs) : Gap ('/' :: '/' :: (body ++ '\n' :: cs))
  | block {body cs} (hb : Inside body) (h : Gap cs) :
    Gap ('/' :: '*' :: (body ++ '*' :: '/' :: cs))

/-- The stretch is a gap or a token. -/
def Content.Sound : Content → Prop
  | .faults _ => False
  | _ => True

/-- What a text starts with: the characters of its first lexeme, what they are, and the rest of the
text behind them. -/
inductive Reads : List Char → Content → List Char → Prop
  | token {text kind rest} (hw : Writes text kind) (hs : Stops kind rest) :
    Reads text (.token kind) rest
  | blank {c rest} (hc : Text.isBlank c = true) : Reads [c] .gap rest
  | line {body rest} (hb : '\n' ∉ body) (hr : ∀ c ∈ rest.head?, c = '\n') :
    Reads ('/' :: '/' :: body) .gap rest
  | block {body rest} (hb : Inside body) : Reads ('/' :: '*' :: (body ++ ['*', '/'])) .gap rest

variable {c : Char} {cs text rest : List Char} {n : Nat} {kind : Token.Kind} {content : Content}

/-! ### Characters -/

theorem toNat_of_isDigit (h : c.isDigit = true) : 48 ≤ c.toNat ∧ c.toNat ≤ 57 := by
  simp only [Char.isDigit, Bool.and_eq_true, decide_eq_true_eq] at h
  exact h

theorem toNat_of_startsWord (h : startsWord c = true) :
    65 ≤ c.toNat ∧ c.toNat ≤ 90 ∨ c.toNat = 95 ∨ 97 ≤ c.toNat ∧ c.toNat ≤ 122 := by
  have hranges : (decide (c.val ≥ 65 ∧ c.val ≤ 90) ||
      (decide (c.val ≥ 97) && decide (c.val ≤ 122)) || c == '_') = true := h
  simp only [Bool.or_eq_true, Bool.and_eq_true, decide_eq_true_eq, beq_iff_eq] at hranges
  rcases hranges with (h | h) | rfl
  · exact .inl h
  · exact .inr (.inr h)
  · exact .inr (.inl rfl)

theorem continuesWord_iff :
    continuesWord c = true ↔ startsWord c = true ∨ c.isDigit = true := by
  simp only [continuesWord, startsWord, Char.isAlphanum, Bool.or_eq_true]
  exact or_right_comm

theorem toNat_of_isBlank (h : Text.isBlank c = true) : c.toNat ≤ 32 ∨ 133 ≤ c.toNat := by
  simp only [Text.isBlank, Bool.or_eq_true, Bool.and_eq_true, decide_eq_true_eq, beq_iff_eq] at h
  omega

theorem continuesWord_of_isBlank (h : Text.isBlank c = true) : continuesWord c = false := by
  have hb := toNat_of_isBlank h
  rw [Bool.eq_false_iff]
  intro hc
  rcases continuesWord_iff.1 hc with hw | hd
  · have := toNat_of_startsWord hw
    omega
  · have := toNat_of_isDigit hd
    omega

theorem isDigit_of_startsWord (h : startsWord c = true) : c.isDigit = false := by
  have hw := toNat_of_startsWord h
  rw [Bool.eq_false_iff]
  intro hd
  have := toNat_of_isDigit hd
  omega

/-! ### Words and numbers -/

theorem not_of_mem_dropWhile {p : Char → Bool} (h : c ∈ (cs.dropWhile p).head?) :
    p c = false := by
  have hne : cs.dropWhile p ≠ [] := by
    rintro hnil
    simp [hnil] at h
  have hhead := List.head_dropWhile_not p hne
  rwa [(List.head_eq_iff_head?_eq_some hne).2 h] at hhead

theorem wordRest_spec (cs : List Char) : ∃ text rest, cs = text ++ rest ∧
    wordRest cs = text.length ∧ (∀ d ∈ text, continuesWord d = true) ∧
    ∀ d ∈ rest.head?, continuesWord d = false := by
  exact ⟨cs.takeWhile continuesWord, cs.dropWhile continuesWord,
    List.takeWhile_append_dropWhile.symm, rfl, fun d hd => List.mem_takeWhile_imp hd,
    fun d hd => not_of_mem_dropWhile hd⟩

theorem wordRest_append (ht : ∀ d ∈ text, continuesWord d = true)
    (hr : ∀ d ∈ rest.head?, continuesWord d = false) : wordRest (text ++ rest) = text.length := by
  rw [wordRest, List.takeWhile_append_of_pos ht]
  cases rest with
  | nil => simp
  | cons d rest => simp [hr d rfl]

theorem numberRest_eq_zero_iff : numberRest rest = 0 ↔ Stops (.number "") rest := by
  cases rest with
  | nil => simp [numberRest, Stops]
  | cons c rest =>
    rw [numberRest]
    cases rest with
    | nil => simp [Stops]
    | cons d rest => by_cases hc : c = '.' <;> simp [Stops, hc]

theorem numberRest_spec (cs : List Char) : ∃ text rest, cs = text ++ rest ∧
    numberRest cs = text.length ∧ Counts text ∧ numberRest rest = 0 := by
  induction cs with
  | nil => exact ⟨[], [], rfl, rfl, .nil, rfl⟩
  | cons c cs ih =>
    by_cases hc : (continuesWord c || (c == '.' && cs.head?.any Char.isDigit)) = true
    · obtain ⟨text, rest, rfl, hn, ht, hr⟩ := ih
      refine ⟨c :: text, rest, rfl, by rw [numberRest, if_pos hc, hn]; rfl, ?_, hr⟩
      by_cases hw : continuesWord c = true
      · exact .char c hw ht
      · simp only [hw, Bool.false_or, Bool.and_eq_true, beq_iff_eq] at hc
        obtain ⟨rfl, hd⟩ := hc
        -- the digit behind the dot goes on with the number too
        cases text with
        | nil =>
          exfalso
          cases rest with
          | nil => simp at hd
          | cons d rest =>
            have hd : d.isDigit = true := by simpa using hd
            simp [numberRest, continuesWord_iff.2 (.inr hd)] at hr
        | cons d text => exact .dot d (by simpa using hd) ht
    · exact ⟨[], c :: cs, rfl, by rw [numberRest, if_neg hc]; rfl, .nil,
        by rw [numberRest, if_neg hc]⟩

theorem numberRest_append (ht : Counts text) (hr : numberRest rest = 0) :
    numberRest (text ++ rest) = text.length := by
  induction ht with
  | nil => exact hr
  | char c hc _ ih => simp [numberRest, hc, ih]
  | dot d hd _ ih =>
    rw [List.cons_append, numberRest, ih]
    simp [hd]

/-! ### Literals -/

theorem quotes_of_textBody {offset : Nat} (hc : (textBody offset cs).closed = true)
    (he : (textBody offset cs).errors = []) : ∃ text rest, cs = text ++ '"' :: rest ∧
      Quotes '"' text (textBody offset cs).value ∧ (textBody offset cs).size = text.length + 1 := by
  fun_induction textBody offset cs with
  | case1 => cases hc
  | case2 _ rest => exact ⟨[], rest, rfl, .nil, rfl⟩
  | case3 => cases hc
  | case4 offset e cs stop body value hvalue ih =>
    obtain ⟨text, rest, rfl, hq, hsize⟩ := ih hc he
    exact ⟨'\\' :: e :: text, rest, rfl, .escape e hvalue hq, by simp [hsize, body]⟩
  | case5 => cases he
  | case6 offset c cs hne hne₁ hne₂ body ih =>
    obtain ⟨text, rest, rfl, hq, hsize⟩ := ih hc he
    refine ⟨c :: text, rest, rfl, .plain c ?_ ?_ hq, by simp [hsize, body]⟩
    · rintro rfl
      exact hne rfl
    · rintro rfl
      cases text with
      | nil => exact hne₂ _ _ rfl rfl
      | cons d text => exact hne₂ _ _ rfl rfl

theorem textBody_append {value : List Char} (h : Quotes '"' text value) (offset : Nat)
    (rest : List Char) :
    textBody offset (text ++ '"' :: rest) = ⟨text.length + 1, value, [], true⟩ := by
  induction h generalizing offset with
  | nil => simp [textBody]
  | plain c hq hb _ ih => simp [textBody, hb, ih]
  | escape e he _ ih => simp [textBody, he, ih]

theorem reads_of_textLiteral (h : textLiteral cs = (n, content)) (hs : content.Sound) :
    ∃ text rest, cs = text ++ rest ∧ n = text.length ∧ Reads ('"' :: text) content rest := by
  obtain ⟨hn, hcontent⟩ := Prod.mk.inj h
  by_cases hclosed : (textBody 1 cs).closed = true
  · rw [if_pos hclosed] at hcontent
    split at hcontent
    · rename_i herrors
      obtain ⟨text, rest, rfl, hq, hsize⟩ :=
        quotes_of_textBody hclosed (List.isEmpty_iff.1 herrors)
      rw [← hcontent, ← hn, hsize]
      exact ⟨text ++ ['"'], rest, by simp, by simp, .token (.text hq) trivial⟩
    · rw [← hcontent] at hs
      exact hs.elim
  · rw [← hcontent] at hs
    simp [hclosed, Content.Sound] at hs

theorem textLiteral_append {value : List Char} (h : Quotes '"' text value) (rest : List Char) :
    textLiteral (text ++ '"' :: rest) =
      (text.length + 1, .token (.text (String.ofList value))) := by
  simp [textLiteral, textBody_append h]

theorem characterEnd_eq {size stop : Nat} {value : Char} {errors : List SyntaxError}
    (h : characterEnd size stop value errors cs = (n, content)) (hs : content.Sound) :
    ∃ rest, cs = '\'' :: rest ∧ n = size + 1 ∧ errors = [] ∧
      content = .token (.character value) := by
  unfold characterEnd at h
  split at h
  · rename_i rest
    obtain ⟨hn, hcontent⟩ := Prod.mk.inj h
    split at hcontent
    · rename_i herrors
      exact ⟨rest, rfl, hn.symm, List.isEmpty_iff.1 herrors, hcontent.symm⟩
    · rw [← hcontent] at hs
      exact hs.elim
  · cases h
    exact hs.elim

theorem reads_of_characterLiteral (h : characterLiteral cs = (n, content)) (hs : content.Sound) :
    ∃ text rest, cs = text ++ rest ∧ n = text.length ∧ Reads ('\'' :: text) content rest := by
  unfold characterLiteral at h
  split at h
  · cases h
    exact hs.elim
  · cases h
    exact hs.elim
  · cases h
    exact hs.elim
  · rename_i e rest
    dsimp only at h
    split at h
    · rename_i value hvalue
      obtain ⟨rest', rfl, rfl, -, rfl⟩ := characterEnd_eq h hs
      exact ⟨['\\', e, '\''], rest', rfl, rfl,
        .token (.character (.escape e hvalue .nil)) trivial⟩
    · obtain ⟨_, _, _, herrors, _⟩ := characterEnd_eq h hs
      cases herrors
  · rename_i c rest hquote hlone hescape
    obtain ⟨rest', rfl, rfl, -, rfl⟩ := characterEnd_eq h hs
    refine ⟨[c, '\''], rest', rfl, rfl, .token (.character (.plain c ?_ ?_ .nil)) trivial⟩
    · rintro rfl
      exact hquote rfl
    · rintro rfl
      exact hescape _ _ rfl rfl

theorem characterLiteral_append {value : Char} (h : Quotes '\'' text [value]) (rest : List Char) :
    characterLiteral (text ++ '\'' :: rest) = (text.length + 1, .token (.character value)) := by
  cases h with
  | plain c hq hb h =>
    cases h
    simp [characterLiteral, characterEnd, hb]
  | escape e he h =>
    cases h
    simp [characterLiteral, characterEnd, he]

/-! ### Symbols -/

/-- The characters that a symbol starts with, but for the slash. -/
def symbols : List Char :=
  [':', '=', '-', ';', ',', '.', '(', ')', '[', ']', '\x7b', '\x7d', '+', '*', '%', '<', '>', '!',
    '&', '|', '^', '~', '?', '#', '@']

theorem mem_symbols {x : Nat × Token.Kind} (h : symbol c cs = some x) : c ∈ symbols := by
  unfold symbol at h
  split at h <;> simp_all [symbols]

theorem first_of_symbol (h : symbol c cs = some (n, kind)) : first c cs = (n, .token kind) := by
  have hsymbols : symbols.all fun c => !Text.isBlank c && c != '/' && c != '"' && c != '\'' &&
      !c.isDigit && !startsWord c := by decide
  have hc := List.all_eq_true.1 hsymbols c (mem_symbols h)
  simp only [Bool.and_eq_true, bne_iff_ne, Bool.not_eq_true'] at hc
  obtain ⟨⟨⟨⟨⟨h₁, h₂⟩, h₃⟩, h₄⟩, h₅⟩, h₆⟩ := hc
  simp [first, h₁, h₂, h₃, h₄, h₅, h₆, h]

theorem ne_of_mem_head? {d : Char} (h : ∀ more, cs = d :: more → False) (hc : c ∈ cs.head?) :
    c ≠ d := by
  rintro rfl
  obtain ⟨more, hmore⟩ := List.head?_eq_some_iff.1 hc
  exact h more hmore

theorem sign_of_symbol (h : symbol c cs = some (n, kind)) : ∃ text rest, cs = text ++ rest ∧
    n = text.length ∧ sign? kind = some (c :: text) ∧ Stops kind rest := by
  unfold symbol at h
  split at h
  all_goals try
    cases h
    exact ⟨[], cs, rfl, rfl, rfl, trivial⟩
  · cases h
    exact ⟨['='], _, rfl, rfl, rfl, trivial⟩
  · cases h
    exact ⟨[':'], _, rfl, rfl, rfl, trivial⟩
  · rename_i hdefine hmember
    cases h
    exact ⟨[], cs, rfl, rfl, rfl, fun d hd =>
      ⟨ne_of_mem_head? hdefine hd, ne_of_mem_head? hmember hd⟩⟩
  · cases h
    exact ⟨['>'], _, rfl, rfl, rfl, trivial⟩
  · cases h
    exact ⟨['='], _, rfl, rfl, rfl, trivial⟩
  · rename_i hthick hequal
    cases h
    exact ⟨[], cs, rfl, rfl, rfl, fun d hd =>
      ⟨ne_of_mem_head? hequal hd, ne_of_mem_head? hthick hd⟩⟩
  · cases h
    exact ⟨['>'], _, rfl, rfl, rfl, trivial⟩
  · rename_i hthin
    cases h
    exact ⟨[], cs, rfl, rfl, rfl, fun d hd => ne_of_mem_head? hthin hd⟩
  · split at h
    · rename_i hmem
      cases h
      have hsigns : ∀ c ∈ ['+', '*', '%', '<', '>', '!', '&', '|', '^', '~', '?', '#', '@'],
          sign? (.operator c) = some [c] ∧ ∀ rest, Stops (.operator c) rest := by
        simp [sign?, operators, Stops]
      obtain ⟨hsign, hstops⟩ := hsigns c (List.contains_iff_mem.1 hmem)
      exact ⟨[], cs, rfl, rfl, hsign, hstops cs⟩
    · cases h

theorem symbol_of_sign (h : sign? kind = some (c :: text)) (hs : Stops kind rest) (hc : c ≠ '/') :
    symbol c (text ++ rest) = some (text.length, kind) := by
  unfold sign? at h
  split at h
  all_goals try
    cases h
    rfl
  · cases h
    cases rest with
    | nil => rfl
    | cons d rest => simp [symbol, hs d rfl]
  · cases h
    cases rest with
    | nil => rfl
    | cons d rest => simp [symbol, hs d rfl]
  · split_ifs at h with hequal hmem
    · cases h
      rw [hequal]
      rfl
    · cases h
      by_cases hminus : c = '-'
      · subst hminus
        cases rest with
        | nil => rfl
        | cons d rest => simp [symbol, hs d rfl]
      · have hsymbols : ∀ c ∈ operators, c ≠ '/' → c ≠ '-' →
            ∀ cs, symbol c cs = some (0, .operator c) := by
          simp [operators, symbol]
        exact hsymbols c hmem hc hminus rest
  · cases h

/-! ### Comments -/

/-- The inside of a comment is gone over, whatever comments there are around it. -/
theorem commentRest_append {body : List Char} (h : Inside body) (depth : Nat) (rest : List Char) :
    commentRest depth (body ++ '*' :: '/' :: rest) =
      (commentRest depth ('*' :: '/' :: rest)).map (· + body.length) := by
  induction h generalizing depth rest with
  | nil => simp
  | @char cs c hc _ ih =>
    have hcons : commentRest depth (c :: (cs ++ '*' :: '/' :: rest)) =
        (commentRest depth (cs ++ '*' :: '/' :: rest)).map (· + 1) := by
      rw [commentRest]
      · rintro more rfl hmore
        cases cs <;> simp_all [Delimits]
      · rintro more rfl hmore
        cases cs <;> simp_all [Delimits]
    rw [List.cons_append, hcons, ih, Option.map_map]
    rfl
  | @comment inner cs _ _ ihi ih =>
    have hinner := ihi (depth + 1) (cs ++ '*' :: '/' :: rest)
    simp only [List.cons_append, List.append_assoc]
    rw [commentRest, hinner, commentRest, ih, Option.map_map, Option.map_map, Option.map_map]
    congr 1
    funext n
    simp only [Function.comp_apply, List.length_append, List.length_cons]
    omega

theorem exists_inside {depth : Nat} (h : (commentRest depth cs).isSome = true) :
    ∃ body rest, Inside body ∧ cs = body ++ '*' :: '/' :: rest := by
  induction hn : cs.length using Nat.strong_induction_on generalizing cs depth with
  | _ n ih =>
    subst hn
    unfold commentRest at h
    split at h
    · rename_i rest
      exact ⟨[], rest, .nil, rfl⟩
    · rename_i rest
      -- a comment inside, and what stands behind it
      rw [Option.isSome_map] at h
      obtain ⟨inner, cs, hinner, rfl⟩ := ih _ (by simp only [List.length_cons]; omega) h rfl
      rw [commentRest_append hinner, Option.isSome_map, commentRest, Option.isSome_map] at h
      obtain ⟨body, rest, hbody, rfl⟩ :=
        ih _ (by simp only [List.length_append, List.length_cons]; omega) h rfl
      exact ⟨_, rest, .comment hinner hbody, by simp⟩
    · rename_i c cs hclose hopen
      rw [Option.isSome_map] at h
      obtain ⟨body, rest, hbody, rfl⟩ := ih _ (by simp) h rfl
      refine ⟨c :: body, rest, .char c ?_ hbody, rfl⟩
      rintro (⟨rfl, hd⟩ | ⟨rfl, hd⟩)
      · cases body <;> simp_all
      · cases body <;> simp_all
    · cases h

/-! ### The first lexeme -/

theorem reads_of_slash (h : slash cs = (n, content)) (hs : content.Sound) :
    ∃ text rest, cs = text ++ rest ∧ n = text.length ∧ Reads ('/' :: text) content rest := by
  unfold slash at h
  split at h
  · rename_i rest
    cases h
    refine ⟨'/' :: rest.takeWhile (· != '\n'), rest.dropWhile (· != '\n'), by simp, by simp,
      .line ?_ ?_⟩
    · intro hmem
      simpa using List.mem_takeWhile_imp hmem
    · intro d hd
      simpa using not_of_mem_dropWhile hd
  · rename_i cs
    split at h
    · rename_i m hm
      obtain ⟨body, rest, hbody, rfl⟩ := exists_inside (by rw [hm]; rfl)
      rw [commentRest_append hbody, commentRest] at hm
      cases h
      cases hm
      exact ⟨'*' :: (body ++ ['*', '/']), rest, by simp, by simp; omega, .block hbody⟩
    · cases h
      exact hs.elim
  · rename_i hline hblock
    cases h
    exact ⟨[], cs, rfl, rfl, .token (.sign rfl) fun d hd =>
      ⟨ne_of_mem_head? hline hd, ne_of_mem_head? hblock hd⟩⟩

theorem reads_of_first (h : first c cs = (n, content)) (hs : content.Sound) :
    ∃ text rest, cs = text ++ rest ∧ n = text.length ∧ Reads (c :: text) content rest := by
  unfold first at h
  split_ifs at h with hblank hslash htext hcharacter hdigit hword
  · cases h
    exact ⟨[], cs, rfl, rfl, .blank hblank⟩
  · exact hslash ▸ reads_of_slash h hs
  · exact htext ▸ reads_of_textLiteral h hs
  · exact hcharacter ▸ reads_of_characterLiteral h hs
  · obtain ⟨text, rest, rfl, hn, ht, hr⟩ := numberRest_spec cs
    cases h
    rw [hn, List.take_left]
    exact ⟨text, rest, rfl, rfl, .token (.number hdigit ht) (numberRest_eq_zero_iff.1 hr)⟩
  · obtain ⟨text, rest, rfl, hn, ht, hr⟩ := wordRest_spec cs
    cases h
    rw [hn, List.take_left]
    exact ⟨text, rest, rfl, rfl, .token (.word hword ht) hr⟩
  · split at h
    · rename_i hsymbol
      cases h
      obtain ⟨text, rest, hcs, hn, hsign, hs⟩ := sign_of_symbol hsymbol
      exact ⟨text, rest, hcs, hn, .token (.sign hsign) hs⟩
    · cases h
      exact hs.elim

theorem slash_append (hs : Stops (.operator '/') rest) :
    slash rest = (0, .token (.operator '/')) := by
  cases rest with
  | nil => rfl
  | cons d rest => simp [slash, hs d rfl]

theorem eq_operator_of_sign (h : sign? kind = some ('/' :: text)) :
    kind = .operator '/' ∧ text = [] := by
  unfold sign? at h
  split at h
  all_goals try cases h
  split_ifs at h with hequal
  · cases h
  · cases h
    exact ⟨rfl, rfl⟩

theorem first_of_startsWord (h : startsWord c = true) (cs : List Char) : first c cs =
    (wordRest cs, .token (.word (String.ofList (c :: cs.take (wordRest cs))))) := by
  have hblank : ¬ Text.isBlank c = true := fun hb => by
    simpa [continuesWord_of_isBlank hb] using continuesWord_iff.2 (.inl h)
  have hother : c ≠ '/' ∧ c ≠ '"' ∧ c ≠ '\'' := by
    refine ⟨?_, ?_, ?_⟩ <;> rintro rfl <;> exact absurd h (by decide)
  simp [first, hblank, hother, isDigit_of_startsWord h, h]

theorem first_of_isDigit (h : c.isDigit = true) (cs : List Char) : first c cs =
    (numberRest cs, .token (.number (String.ofList (c :: cs.take (numberRest cs))))) := by
  have hblank : ¬ Text.isBlank c = true := fun hb => by
    simpa [continuesWord_of_isBlank hb] using continuesWord_iff.2 (.inr h)
  have hother : c ≠ '/' ∧ c ≠ '"' ∧ c ≠ '\'' := by
    refine ⟨?_, ?_, ?_⟩ <;> rintro rfl <;> exact absurd h (by decide)
  simp [first, hblank, hother, h]

theorem first_of_reads (h : Reads (c :: text) content rest) :
    first c (text ++ rest) = (text.length, content) := by
  cases h with
  | blank hc => simp [first, hc]
  | @line body _ hb hr =>
    have htake : (body ++ rest).takeWhile (· != '\n') = body := by
      rw [List.takeWhile_append_of_pos (by intro d hd; simpa using ne_of_mem_of_not_mem hd hb)]
      cases rest with
      | nil => simp
      | cons d rest => simp [hr d rfl]
    simp [first, Text.isBlank, slash, htake]
  | @block body _ hb =>
    have hrest : commentRest 0 (body ++ '*' :: '/' :: rest) = some (body.length + 2) := by
      rw [commentRest_append hb, commentRest, Option.map_some, Nat.add_comm]
    simp [first, Text.isBlank, slash, hrest]
  | token hw hs =>
    cases hw with
    | word hc hcs => simp [first_of_startsWord hc, wordRest_append hcs hs]
    | number hc hcs =>
      simp [first_of_isDigit hc, numberRest_append hcs (numberRest_eq_zero_iff.2 hs)]
    | @text cs value hq => simp [first, Text.isBlank, textLiteral_append hq]
    | @character cs value hq =>
      simp [first, Text.isBlank, characterLiteral_append hq]
    | sign hsign =>
      by_cases hc : c = '/'
      · subst hc
        obtain ⟨rfl, rfl⟩ := eq_operator_of_sign hsign
        simp [first, Text.isBlank, slash_append hs]
      · exact first_of_symbol (symbol_of_sign hsign hs hc)

/-! ### What stands behind a token -/

theorem Stops.of_nil (kind : Token.Kind) : Stops kind [] := by
  unfold Stops
  split <;> simp

theorem Stops.of_isBlank (kind : Token.Kind) (hc : Text.isBlank c = true) (cs : List Char) :
    Stops kind (c :: cs) := by
  have hne : ∀ d, Text.isBlank d = false → c ≠ d := by
    rintro d hd rfl
    rw [hc] at hd
    cases hd
  unfold Stops
  split
  · simpa using continuesWord_of_isBlank hc
  · simpa [continuesWord_of_isBlank hc] using fun h => absurd h (hne '.' rfl)
  · simpa using ⟨hne '=' rfl, hne ':' rfl⟩
  · simpa using ⟨hne '=' rfl, hne '>' rfl⟩
  · simpa using hne '>' rfl
  · simpa using ⟨hne '/' rfl, hne '*' rfl⟩
  · trivial

/-! ### Texts that are made of lexemes -/

/-- The text is made of the lexemes, and each of them is a gap or a token. -/
inductive Lexes : List Char → List Lexeme → Prop
  | nil : Lexes [] []
  | cons {text content rest lexemes} (hr : Reads text content rest) (h : Lexes rest lexemes) :
    Lexes (text ++ rest) (⟨text, content⟩ :: lexemes)

variable {lexemes : List Lexeme}

theorem Reads.sound (h : Reads text content rest) : content.Sound := by
  cases h <;> trivial

theorem Writes.ne_nil (h : Writes text kind) : text ≠ [] := by
  cases h with
  | sign h =>
    rintro rfl
    unfold sign? at h
    split at h
    all_goals try cases h
    split_ifs at h <;> cases h
  | _ => exact List.cons_ne_nil _ _

theorem Reads.ne_nil (h : Reads text content rest) : text ≠ [] := by
  cases h with
  | token hw => exact hw.ne_nil
  | _ => exact List.cons_ne_nil _ _

theorem cut_of_reads (h : Reads text content rest) :
    cut (text ++ rest) = ⟨text, content⟩ :: cut rest := by
  obtain ⟨c, text, rfl⟩ := List.exists_cons_of_ne_nil h.ne_nil
  rw [List.cons_append, cut_cons, first_of_reads h, List.take_left, List.drop_left]

theorem Lexes.cut_eq (h : Lexes cs lexemes) : cut cs = lexemes := by
  induction h with
  | nil => exact cut_nil
  | cons hr _ ih => rw [cut_of_reads hr, ih]

theorem Lexes.sound (h : Lexes cs lexemes) : ∀ lexeme ∈ lexemes, lexeme.content.Sound := by
  induction h with
  | nil => exact fun lexeme hmem => by cases hmem
  | cons hr _ ih => exact List.forall_mem_cons.2 ⟨hr.sound, ih⟩

theorem lexes_cut (h : ∀ lexeme ∈ cut cs, lexeme.content.Sound) : Lexes cs (cut cs) := by
  fun_induction cut cs with
  | case1 => exact .nil
  | case2 c cs n content hfirst ih =>
    obtain ⟨hsound, hrest⟩ := List.forall_mem_cons.1 h
    obtain ⟨text, rest, rfl, rfl, hr⟩ := reads_of_first hfirst hsound
    rw [List.take_left, List.drop_left] at *
    exact .cons hr (ih hrest)

/-! ### What is wrong with a text -/

theorem slash_ne_faults (cs : List Char) : (slash cs).2 ≠ .faults [] := by
  unfold slash
  split
  · simp
  · split <;> simp
  · simp

theorem token_or_faults_ne (kind : Token.Kind) (errors : List SyntaxError) :
    (if errors.isEmpty then .token kind else .faults errors : Content) ≠ .faults [] := by
  cases errors <;> simp

theorem textLiteral_ne_faults (cs : List Char) : (textLiteral cs).2 ≠ .faults [] :=
  token_or_faults_ne _ _

theorem characterEnd_ne_faults (size stop : Nat) (value : Char) (errors : List SyntaxError)
    (cs : List Char) : (characterEnd size stop value errors cs).2 ≠ .faults [] := by
  unfold characterEnd
  split
  · exact token_or_faults_ne _ _
  · simp

theorem characterLiteral_ne_faults (cs : List Char) :
    (characterLiteral cs).2 ≠ .faults [] := by
  unfold characterLiteral
  split
  · simp
  · simp
  · simp
  · dsimp only
    split <;> exact characterEnd_ne_faults _ _ _ _ _
  · exact characterEnd_ne_faults _ _ _ _ _

theorem first_ne_faults (c : Char) (cs : List Char) : (first c cs).2 ≠ .faults [] := by
  unfold first
  split_ifs
  · simp
  · exact slash_ne_faults cs
  · exact textLiteral_ne_faults cs
  · exact characterLiteral_ne_faults cs
  · simp
  · simp
  · split <;> simp

theorem sound_of_errorsFrom {offset : Nat} (h : errorsFrom offset (cut cs) = []) :
    ∀ lexeme ∈ cut cs, lexeme.content.Sound := by
  fun_induction cut cs generalizing offset with
  | case1 => exact fun lexeme hmem => by cases hmem
  | case2 c cs n content hfirst ih =>
    rw [errorsFrom] at h
    split at h
    · rename_i errors hcontent
      obtain ⟨hnil, -⟩ := List.append_eq_nil_iff.1 h
      have hne := first_ne_faults c cs
      dsimp only at hcontent
      rw [hfirst, hcontent, List.map_eq_nil_iff.1 hnil] at hne
      exact absurd rfl hne
    · rename_i hsound
      refine List.forall_mem_cons.2 ⟨?_, ih h⟩
      cases content with
      | faults errors => exact absurd rfl (hsound errors)
      | _ => trivial

theorem errorsFrom_of_sound (offset : Nat) (h : ∀ lexeme ∈ lexemes, lexeme.content.Sound) :
    errorsFrom offset lexemes = [] := by
  induction lexemes generalizing offset with
  | nil => rfl
  | cons lexeme lexemes ih =>
    obtain ⟨hsound, hrest⟩ := List.forall_mem_cons.1 h
    rw [errorsFrom]
    split
    · rename_i hcontent
      rw [hcontent] at hsound
      exact hsound.elim
    · exact ih _ hrest

end Lexeme

/-- **The tokens of a text are those of the lexemes that it is made of.** -/
theorem tokenize_eq_ok_iff {source : String} {tokens : List Token} :
    tokenize source = .ok tokens ↔ ∃ lexemes, Lexeme.Lexes source.toList lexemes ∧
      tokens = Lexeme.tokensFrom 0 lexemes := by
  constructor
  · intro h
    have herrors : Lexeme.errorsFrom 0 (Lexeme.cut source.toList) = [] := by
      unfold tokenize at h
      dsimp only at h
      split at h
      · assumption
      · cases h
    exact ⟨_, Lexeme.lexes_cut (Lexeme.sound_of_errorsFrom herrors), tokenize_eq_ok h⟩
  · rintro ⟨lexemes, h, rfl⟩
    have herrors := Lexeme.errorsFrom_of_sound 0 h.sound
    simp only [tokenize, h.cut_eq, herrors]

end ModuleResolution
