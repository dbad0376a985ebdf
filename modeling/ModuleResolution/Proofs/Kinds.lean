import ModuleResolution.Proofs.Anatomy
import ModuleResolution.Proofs.Locality

/-!
# What a declaration defines

What a declaration defines is told by the tokens of its value and by nothing else.  A function is
told by the arrow behind its parameters, which may be as many tokens as there are; but its brackets
pair up, so that the last of the parameters stands in the value.

* `Grammar.StartsType`, `Grammar.StartsFunction` : how types and functions start.
* `Grammar.Defines` : what tokens define.
* `Program.valueKind_eq_function_iff` : a function is told by the token behind its first group.
* `Program.valueKind_eq_iff` : what is told of tokens is what they define.
* `Program.valueKind_body` : behind the semicolon of a value nothing matters.
* `Program.kinds_judged` : a declaration says what the tokens of its value define.
-/

namespace ModuleResolution

namespace Grammar

/-- The kinds start a type: a word for types with its fields or cases in brackets, or the word
`type` and a name. -/
inductive StartsType : List Token.Kind → Prop
  | bracketed {word : String} {bracket : Bracket} (hw : word ∈ ["struct", "enum", "trait"])
    (hb : bracket = .round ∨ bracket = .curly) (rest : List Token.Kind) :
    StartsType (.word word :: .opening bracket :: rest)
  | named (name : String) (rest : List Token.Kind) :
    StartsType (.word "type" :: .word name :: rest)

/-- The kinds start a function: behind the bracket that closes the parenthesis at the start, of
whatever shape, stands an arrow. -/
inductive StartsFunction : List Token.Kind → Prop
  | intro {inner : List Token.Kind} {arrow : Token.Kind} (hi : level 0 inner = some 0)
    (last : Bracket) (ha : arrow = .thickArrow ∨ arrow = .thinArrow) (rest : List Token.Kind) :
    StartsFunction (.opening .round :: (inner ++ .closing last :: arrow :: rest))

/-- What a value of the given kinds defines. -/
inductive Defines (kinds : List Token.Kind) : Declaration.Kind → Prop
  | type (h : StartsType kinds) : Defines kinds .type
  | function (h : StartsFunction kinds) : Defines kinds .function
  | value (ht : ¬ StartsType kinds) (hf : ¬ StartsFunction kinds) : Defines kinds .value

variable {kinds : List Token.Kind} {k k' : Declaration.Kind}

theorem StartsType.not_startsFunction (h : StartsType kinds) : ¬ StartsFunction kinds := by
  cases h <;> exact fun hf => by cases hf

theorem Defines.unique (h : Defines kinds k) (h' : Defines kinds k') : k = k' := by
  cases h with
  | type h =>
    cases h' with
    | type => rfl
    | function hf => exact absurd hf h.not_startsFunction
    | value ht => exact absurd h ht
  | function h =>
    cases h' with
    | type ht => exact absurd h ht.not_startsFunction
    | function => rfl
    | value _ hf => exact absurd h hf
  | value ht hf =>
    cases h' with
    | type h => exact absurd h ht
    | function h => exact absurd h hf
    | value => rfl

end Grammar

namespace Program

open Reading Grammar

variable {ending : Span} {tokens before body rest left : List Token} {first : Token}
  {found : Located Item} {name : Located String} {depth : Nat} {k : Declaration.Kind}
  {references : List (Located Reference)} {d : Declaration}

/-! ### Groups of brackets -/

/-- A group that was closed, with `depth` brackets open in it, is closed by the first bracket that
closes more of them. -/
theorem exists_level_of_afterGroup (h : afterGroup (depth + 1) tokens = some left) :
    ∃ inner last span, tokens = inner ++ ⟨.closing last, span⟩ :: left ∧
      level depth (inner.map Token.kind) = some 0 := by
  induction tokens generalizing depth with
  | nil => cases h
  | cons token rest ih =>
    obtain ⟨kind, span⟩ := token
    cases kind with
    | closing last =>
      cases depth with
      | zero =>
        obtain rfl := Option.some.inj h
        exact ⟨[], last, span, rfl, rfl⟩
      | succ depth =>
        obtain ⟨inner, last', span', rfl, hlevel⟩ := ih h
        exact ⟨⟨.closing last, span⟩ :: inner, last', span', rfl, hlevel⟩
    | _ =>
      obtain ⟨inner, last, span', rfl, hlevel⟩ := ih h
      exact ⟨_ :: inner, last, span', rfl, hlevel⟩

theorem afterGroup_append (h : level depth (tokens.map Token.kind) = some 0) (last : Bracket)
    (span : Span) (left : List Token) :
    afterGroup (depth + 1) (tokens ++ ⟨.closing last, span⟩ :: left) = some left := by
  induction tokens generalizing depth with
  | nil =>
    obtain rfl : depth = 0 := Option.some.inj h
    rfl
  | cons token rest ih =>
    obtain ⟨kind, span'⟩ := token
    cases kind with
    | closing last' =>
      cases depth with
      | zero => cases h
      | succ depth => exact ih h
    | _ => exact ih h

/-! ### What is told of tokens -/

theorem valueKind_eq_type_iff :
    valueKind tokens = .type ↔ StartsType (tokens.map Token.kind) := by
  constructor
  · intro h
    unfold valueKind at h
    split at h
    · rename_i word span rest
      rcases rest with _ | ⟨⟨kind, span'⟩, rest⟩
      · cases h
      · cases kind with
        | word name =>
          have hword : word = "type" := by simpa [kind] using h
          exact hword ▸ .named name _
        | opening bracket =>
          cases bracket with
          | square => cases h
          | _ =>
            have hword : word ∈ ["struct", "enum", "trait"] := by
              simpa [kind, or_iff_not_imp_left] using h
            exact .bracketed hword (by simp) _
        | _ => cases h
    · split at h <;> cases h
    · cases h
  · intro h
    generalize hkinds : tokens.map Token.kind = kinds at h
    cases h with
    | bracketed hw hb rest =>
      obtain ⟨⟨_, span⟩, tokens', rfl, rfl, hrest⟩ := List.map_eq_cons_iff.1 hkinds
      obtain ⟨⟨_, span'⟩, behind, rfl, rfl, -⟩ := List.map_eq_cons_iff.1 hrest
      rcases hb with rfl | rfl <;> exact if_pos (List.contains_iff_mem.2 hw)
    | named name rest =>
      obtain ⟨⟨_, span⟩, tokens', rfl, rfl, hrest⟩ := List.map_eq_cons_iff.1 hkinds
      obtain ⟨⟨_, span'⟩, behind, rfl, rfl, -⟩ := List.map_eq_cons_iff.1 hrest
      rfl

theorem valueKind_round_iff {span : Span} :
    valueKind (⟨.opening .round, span⟩ :: rest) = .function ↔
      ∃ left, afterGroup 1 rest = some left ∧
        (kind left = .thickArrow ∨ kind left = .thinArrow) := by
  rw [valueKind]
  cases afterGroup 1 rest with
  | none => simp
  | some left =>
    simp only [Option.map_some, Option.some_inj, exists_eq_left']
    cases kind left <;> simp

/-- A function is told by the token behind the group of brackets at its start. -/
theorem valueKind_eq_function_iff :
    valueKind tokens = .function ↔ StartsFunction (tokens.map Token.kind) := by
  constructor
  · intro h
    obtain ⟨span, rest, rfl⟩ : ∃ span rest, tokens = ⟨.opening .round, span⟩ :: rest := by
      unfold valueKind at h
      split at h
      · split at h
        · split at h <;> cases h
        · split at h <;> cases h
        · split at h <;> cases h
        · cases h
      · exact ⟨_, _, rfl⟩
      · cases h
    obtain ⟨left, hgroup, harrow⟩ := valueKind_round_iff.1 h
    obtain ⟨inner, last, span', rfl, hlevel⟩ := exists_level_of_afterGroup hgroup
    rcases left with _ | ⟨⟨arrow, span''⟩, left⟩
    · simp [kind] at harrow
    · rw [List.map_cons, List.map_append]
      exact .intro hlevel last harrow (left.map Token.kind)
  · intro h
    generalize hkinds : tokens.map Token.kind = kinds at h
    cases h with
    | intro hi last ha rest =>
      obtain ⟨⟨_, span⟩, tokens', rfl, rfl, hrest⟩ := List.map_eq_cons_iff.1 hkinds
      obtain ⟨inner, closed, rfl, rfl, hclosed⟩ := List.map_eq_append_iff.1 hrest
      obtain ⟨⟨_, span'⟩, left, rfl, rfl, hleft⟩ := List.map_eq_cons_iff.1 hclosed
      obtain ⟨⟨arrow, span''⟩, left, rfl, rfl, -⟩ := List.map_eq_cons_iff.1 hleft
      exact valueKind_round_iff.2 ⟨_, afterGroup_append hi last span' _, ha⟩

/-- **What is told of tokens is what they define.** -/
theorem valueKind_eq_iff : valueKind tokens = k ↔ Defines (tokens.map Token.kind) k := by
  have htype : valueKind tokens = .type ↔ _ := valueKind_eq_type_iff
  have hfunction : valueKind tokens = .function ↔ _ := valueKind_eq_function_iff
  have hdefines : Defines (tokens.map Token.kind) (valueKind tokens) := by
    cases h : valueKind tokens with
    | type => exact .type (htype.1 h)
    | function => exact .function (hfunction.1 h)
    | value =>
      rw [h] at htype hfunction
      exact .value (fun ht => nomatch htype.2 ht) (fun hf => nomatch hfunction.2 hf)
  exact ⟨fun h => h ▸ hdefines, hdefines.unique⟩

/-! ### Values -/

/-- What is told of the tokens of a value is told by them alone: behind its semicolon nothing
matters. -/
theorem valueKind_body (h : level 0 (body.map Token.kind) = some 0) (stop : Span)
    (left : List Token) : valueKind (body ++ ⟨.semicolon, stop⟩ :: left) = valueKind body := by
  rcases body with _ | ⟨⟨kind, span⟩, rest⟩
  · rfl
  · cases kind with
    | word name => cases rest <;> rfl
    | opening bracket =>
      cases bracket with
      | round =>
        have hrest : level (0 + 1) (rest.map Token.kind) = some 0 := h
        obtain ⟨behind, hgroup⟩ := exists_afterGroup hrest
        have hnone : afterGroup 1 rest = some behind := by simpa using hgroup []
        rw [List.cons_append, valueKind, valueKind, hgroup, hnone]
        cases behind <;> rfl
      | _ => rfl
    | _ => rfl

/-- What the declaration `d` defines is judged by `body`, the tokens of its value. -/
structure Judged (d : Declaration) (body : List Token) : Prop where
  /-- It is what they define. -/
  kind_iff : ∀ k, d.kind = k ↔ Defines (body.map Token.kind) k
  /-- Nothing behind the semicolon matters. -/
  ahead : ∀ stop left, valueKind (body ++ ⟨.semicolon, stop⟩ :: left) = d.kind
  /-- The group of a parenthesis in front ends among them. -/
  group : ∀ span rest, body = ⟨.opening .round, span⟩ :: rest → ∃ inner last span' behind,
    rest = inner ++ ⟨.closing last, span'⟩ :: behind ∧ level 0 (inner.map Token.kind) = some 0 ∧
      ∀ left, afterGroup 1 (rest ++ left) = some (behind ++ left)

theorem judged_of_valueKind (he : Enclosed .semicolon 0 (body.map Token.kind)) {stop : Span}
    (hk : d.kind = valueKind (body ++ ⟨.semicolon, stop⟩ :: left)) : Judged d body where
  kind_iff k := by rw [hk, valueKind_body he.level_eq, valueKind_eq_iff]
  ahead stop' left' := by rw [hk, valueKind_body he.level_eq, valueKind_body he.level_eq]
  group span rest hbody := by
    subst hbody
    have hrest : level (0 + 1) (rest.map Token.kind) = some 0 := he.level_eq
    obtain ⟨behind, hgroup⟩ := exists_afterGroup hrest
    obtain ⟨inner, last, span', rfl, hlevel⟩ :=
      exists_level_of_afterGroup (by simpa using hgroup [])
    exact ⟨inner, last, span', behind, rfl, hlevel, hgroup⟩

/-! ### Declarations -/

theorem judged_of_binding (h : binding name ending rest = .done found left)
    (ho : Token.Ordered rest) (hd : found.value = .declaration d) (before : List Token) :
    ∃ head type sign body stop,
      name.word :: rest = head ++ (type ++ sign :: (body ++ ⟨.semicolon, stop⟩ :: left)) ∧
      Declares before left d head type sign body stop ∧ Judged d body := by
  obtain ⟨references, rest₁, htype, hbound⟩ := bind_eq_done h
  obtain ⟨head, type, sign, mentions, hrest, hheads, hsurveys, hreferences⟩ :=
    heads_of_bindingType htype ho before
  obtain ⟨accepted, rest₂, haccept, hnext⟩ := bind_eq_done hbound
  have haccepted := acceptImport_eq_done haccept
  cases accepted with
  | true =>
    obtain ⟨_, _, _, _, -, rfl⟩ := importRest_eq_done hnext
    cases hd
  | false =>
    rw [if_neg Bool.false_ne_true] at haccepted hnext
    subst haccepted
    have ho₁ := ho.sublist (suffix_of_done (keeps_bindingType _) htype).sublist
    obtain ⟨d', body, stop, rfl, hvalue, hdeclares⟩ :=
      declares_of_value hnext ho₁ hheads hsurveys hreferences
    obtain ⟨s, semicolon, -, -, rfl⟩ := value_eq_done hnext
    obtain rfl := Item.declaration.inj (hvalue.symm.trans hd)
    obtain rfl := Item.declaration.inj hvalue
    exact ⟨head, type, sign, body, stop, hrest, hdeclares,
      judged_of_valueKind hdeclares.enclosed rfl⟩

theorem importing_of_selection {start : Span}
    (h : selection start ending rest = .done found left) : ∃ i, found.value = .importing i := by
  obtain ⟨names, rest₁, -, hnext₁⟩ := bind_eq_done h
  obtain ⟨close, rest₂, -, hnext₂⟩ := bind_eq_done hnext₁
  obtain ⟨define, rest₃, -, hnext₃⟩ := bind_eq_done hnext₂
  obtain ⟨accepted, rest₄, -, hnext₄⟩ := bind_eq_done hnext₃
  cases accepted with
  | true =>
    obtain ⟨_, path, _, _, -, rfl⟩ := importRest_eq_done hnext₄
    exact ⟨_, rfl⟩
  | false =>
    obtain ⟨_, _, -, hfail⟩ := bind_eq_done hnext₄
    cases hfail

theorem judged_of_item (h : item first ending rest = .done found left)
    (ho : Token.Ordered rest) (hd : found.value = .declaration d) (before : List Token) :
    ∃ head type sign body stop,
      first :: rest = head ++ (type ++ sign :: (body ++ ⟨.semicolon, stop⟩ :: left)) ∧
      Declares before left d head type sign body stop ∧ Judged d body := by
  unfold item at h
  split at h
  · split at h
    · obtain ⟨_, _, _, _, -, rfl⟩ := importRest_eq_done h
      cases hd
    · exact judged_of_binding h ho hd before
  · obtain ⟨i, hi⟩ := importing_of_selection h
    rw [hi] at hd
    cases hd
  · cases h

theorem exists_item_of_mem {x : Located Item} (hx : x ∈ (items ending tokens).2) :
    ∃ first rest left, first :: rest <:+ tokens ∧ item first ending rest = .done x left := by
  fun_induction items ending tokens with
  | case1 => cases hx
  | case2 first rest hk ih =>
    obtain ⟨first', rest', left', hs, hitem⟩ := ih hx
    exact ⟨first', rest', left', hs.trans (List.suffix_cons ..), hitem⟩
  | case3 first rest hk x' left hi =>
    rename_i ih
    rcases List.mem_cons.1 hx with rfl | hx
    · exact ⟨first, rest, left, List.suffix_refl _, hi⟩
    · obtain ⟨first', rest', left', hs, hitem⟩ := ih hx
      have hleft := (suffix_of_item hi).trans (List.suffix_cons first rest)
      exact ⟨first', rest', left', hs.trans hleft, hitem⟩
  | case4 first rest hk error left hi =>
    rename_i ih
    obtain ⟨first', rest', left', hs, hitem⟩ := ih hx
    have hleft := (recover_suffix 0 left).trans (List.tail_suffix left)
    exact ⟨first', rest', left', hs.trans (hleft.trans (suffix_of_mistake hi)), hitem⟩

/-- **A declaration defines what the tokens of its value define**: a type, if they start one, a
function, if an arrow stands behind the group of brackets at their start, and otherwise a value.
Nothing behind them matters. -/
theorem kinds_judged {source : String} {found : List (Located Item)} {x : Located Item}
    (h : ofText source = .ok found) (hx : x ∈ found) (hd : x.value = .declaration d) :
    ∃ tokens before head type sign body stop left, tokenize source = .ok tokens ∧
      beforeEnd tokens =
        before ++ (head ++ (type ++ sign :: (body ++ ⟨.semicolon, stop⟩ :: left))) ∧
      Declares before left d head type sign body stop ∧ Judged d body := by
  cases ht : tokenize source with
  | error errors =>
    simp only [ofText, ht] at h
    cases h
  | ok tokens =>
    simp only [ofText, ht] at h
    have ho : Token.Ordered (beforeEnd tokens) := (solid_beforeEnd ht).toOrdered
    have hx : x ∈ (items (ending tokens) (beforeEnd tokens)).2 := by
      rw [ofTokens_eq_ok_iff.1 h]
      exact hx
    obtain ⟨first, rest, left, ⟨before, hbefore⟩, hitem⟩ := exists_item_of_mem hx
    have hrest : rest <:+ beforeEnd tokens := ⟨before ++ [first], by simpa using hbefore⟩
    obtain ⟨head, type, sign, body, stop, htokens, hdeclares, hjudged⟩ :=
      judged_of_item hitem (ho.sublist hrest.sublist) hd before
    exact ⟨tokens, before, head, type, sign, body, stop, left, rfl,
      by rw [← hbefore, htokens], hdeclares, hjudged⟩

/-- A text with a type in front of a word for types that stands alone, with a value in front of
parameters, and with parameters in which brackets close others of another shape. -/
def masked : String := "a: (b) => c = struct; m := () (n) => o;\ng := ([x), \x7b;]) -> h := i;"

/-- The function in the masked text. -/
def maskedFunction : Declaration where
  name := ⟨"g", ⟨40, 41⟩⟩
  kind := .function
  visibility := .exported
  body := ⟨45, 65⟩
  references := []

/-- The items of the masked text. -/
def maskedItems : List (Located Item) :=
  [⟨.declaration ⟨⟨"a", ⟨0, 1⟩⟩, .value, .exported, ⟨14, 20⟩, []⟩, ⟨0, 21⟩⟩,
    ⟨.declaration ⟨⟨"m", ⟨22, 23⟩⟩, .value, .exported, ⟨27, 38⟩, []⟩, ⟨22, 39⟩⟩,
    ⟨.declaration maskedFunction, ⟨40, 66⟩⟩]

/-- The function in the masked text is told by the tokens of its value. -/
theorem masked_judged : ofText masked = .ok maskedItems ∧
    ⟨.declaration maskedFunction, ⟨40, 66⟩⟩ ∈ maskedItems ∧
    ∃ tokens before head type sign body stop left, tokenize masked = .ok tokens ∧
      beforeEnd tokens =
        before ++ (head ++ (type ++ sign :: (body ++ ⟨.semicolon, stop⟩ :: left))) ∧
      Declares before left maskedFunction head type sign body stop ∧
      Judged maskedFunction body := by
  have h : ofText masked = .ok maskedItems := by decide +kernel
  have hmem : (⟨.declaration maskedFunction, ⟨40, 66⟩⟩ : Located Item) ∈ maskedItems := by
    simp [maskedItems]
  exact ⟨h, hmem, kinds_judged h hmem rfl⟩

end Program

end ModuleResolution
