import ModuleResolution.Proofs.Parsing
import ModuleResolution.Proofs.Runs

/-!
# What items are read off

The tokens of a program fall into stretches, each of which is a semicolon of its own or is what one
item is read off.  The tokens of an item are laid out as its form says, and the item says where they
stand.

* `Program.Heads` : what stands in front of what is bound to a name.
* `Program.Declares` : the tokens of a declaration, and what it records of them.
* `Program.Anatomy` : the tokens of an item.
* `Program.Parted` : the tokens of a program, item by item.
* `Program.parted_of_items` : what is read without a mistake is parted so.
* `Program.references_exact` : a declaration records the qualified names in its type and then those
  in its value.
-/

namespace ModuleResolution

/-! ### Names in items -/

/-- The token of a name. -/
def Located.word (name : Located String) : Token := ⟨.word name.value, name.span⟩

/-- The names that are written in a request. -/
def Import.Request.written (q : Request) : List (Located String) :=
  q.exported :: q.renamed.toList

/-- The names that are written where an import says what it introduces. -/
def Import.Form.written : Form → List (Located String)
  | whole alias? => alias?.toList
  | selected requests => requests.flatMap Request.written

/-- The names that an item introduces or asks for, as far as they are written. -/
def Item.written : Item → List (Located String)
  | declaration d => [d.name]
  | importing i => i.form.written

namespace Program

open Reading Grammar

variable {ending : Span} {tokens before taken rest left : List Token} {first : Token}
  {found x : Located Item} {name : Located String} {wanted : Token.Kind}
  {references : List (Located Reference)}

/-! ### The tokens of an item -/

/-- The tokens of an import of the module with the given path, and of the semicolon behind it. -/
inductive Imports (path : Located String) : List Token → Prop
  | intro (word round closing stop : Span) :
    Imports path [⟨.word "import", word⟩, ⟨.opening .round, round⟩, ⟨.text path.value, path.span⟩,
      ⟨.closing .round, closing⟩, ⟨.semicolon, stop⟩]

/-- In front of what is bound to a name stand `head`, which is the name, with a colon if there is a
type, then the tokens of the type, and a sign. -/
inductive Heads (name : Located String) : (head type : List Token) → (sign : Token) → Prop
  /-- There is no type. -/
  | plain (define : Span) : Heads name [name.word] [] ⟨.define, define⟩
  | typed {type : List Token} (colon equals : Span) (h : Enclosed .equals 0 (type.map Token.kind)) :
    Heads name [name.word, ⟨.colon, colon⟩] type ⟨.equals, equals⟩

/-- The tokens of the declaration `d`, with `before` in front of them and `left` behind: those in
front of its value, those of the value, which are `body`, and a semicolon. -/
structure Declares (before left : List Token) (d : Declaration) (head type : List Token)
    (sign : Token) (body : List Token) (stop : Span) : Prop where
  heads : Heads d.name head type sign
  /-- The value ends in front of the first semicolon outside brackets. -/
  enclosed : Enclosed .semicolon 0 (body.map Token.kind)
  body_ne : body ≠ []
  /-- The declaration says where the value stands. -/
  body_eq : d.body = extent body
  /-- It records the qualified names in the type and then those in the value. -/
  recorded : ∃ inType inBody,
    Surveys (before ++ head) type (sign :: (body ++ ⟨.semicolon, stop⟩ :: left)) inType ∧
    Surveys (before ++ (head ++ (type ++ [sign]))) body (⟨.semicolon, stop⟩ :: left) inBody ∧
    d.references = (inType ++ inBody).map Mention.reference

/-- The tokens of an item, with `before` in front of them and `left` behind. -/
inductive Anatomy (before left : List Token) : List Token → Item → Prop
  /-- An import under the name of the file. -/
  | bare {path taken} (h : Imports path taken) :
    Anatomy before left taken (.importing ⟨path, .whole none⟩)
  /-- An import of selected names. -/
  | selection {path requests names taken} (start close define : Span)
    (hl : Lists (requests.map Import.Request.sketch) (names.map Token.kind))
    (hn : ∀ q ∈ requests, ∀ n ∈ q.written, n.word ∈ names) (h : Imports path taken) :
    Anatomy before left
      (⟨.opening .curly, start⟩ ::
        (names ++ ⟨.closing .curly, close⟩ :: ⟨.define, define⟩ :: taken))
      (.importing ⟨path, .selected requests⟩)
  /-- An import under an alias. -/
  | bound {name head type sign path taken} (hh : Heads name head type sign)
    (h : Imports path taken) :
    Anatomy before left (head ++ (type ++ sign :: taken)) (.importing ⟨path, .whole (some name)⟩)
  /-- A declaration. -/
  | declaration {d head type sign body stop}
    (h : Declares before left d head type sign body stop) :
    Anatomy before left (head ++ (type ++ sign :: (body ++ [⟨.semicolon, stop⟩])))
      (.declaration d)

theorem Anatomy.exists_declares {it : Item} {d : Declaration}
    (h : Anatomy before left taken it) (hd : it = .declaration d) : ∃ head type sign body stop,
      taken = head ++ (type ++ sign :: (body ++ [⟨.semicolon, stop⟩])) ∧
      Declares before left d head type sign body stop := by
  subst hd
  cases h with
  | declaration h => exact ⟨_, _, _, _, _, rfl, h⟩

/-- The tokens of a program behind `before`, item by item, and the items that are read off them. -/
inductive Parted : (before tokens : List Token) → List (Located Item) → Prop
  | nil {before : List Token} : Parted before [] []
  /-- A semicolon of its own. -/
  | semicolon {before rest : List Token} {found} (span : Span)
    (h : Parted (before ++ [⟨.semicolon, span⟩]) rest found) :
    Parted before (⟨.semicolon, span⟩ :: rest) found
  /-- An item, which stands from the start of its first token to the end of its semicolon. -/
  | item {before taken rest : List Token} {x : Located Item} {found}
    (ha : Anatomy before rest taken x.value) (hx : x.span = extent taken)
    (h : Parted (before ++ taken) rest found) : Parted before (taken ++ rest) (x :: found)

/-! ### Imports -/

theorem imports_of_importRest {start : Span} {form : Import.Form}
    (h : importRest start form ending tokens = .done found left) (word : Span) :
    ∃ path taken, ⟨.word "import", word⟩ :: tokens = taken ++ left ∧ Imports path taken ∧
      found.value = .importing ⟨path, form⟩ := by
  obtain ⟨round, path, closing, stop, rfl, rfl⟩ := importRest_eq_done h
  exact ⟨path, _, rfl, .intro word round closing stop, rfl⟩

theorem words_of_requests {asked : List Import.Request}
    (h : requests ending tokens = .done asked left) :
    ∃ taken, tokens = taken ++ left ∧ ∀ q ∈ asked, ∀ n ∈ q.written, n.word ∈ taken := by
  fun_induction requests ending tokens generalizing asked with
  | case1 =>
    cases h
    exact ⟨[], rfl, List.forall_mem_nil _⟩
  | case2 exported span₁ colon renamed span₂ comma rest ih =>
    obtain ⟨more, hmore, rfl⟩ := map_eq_done h
    obtain ⟨taken, rfl, hwords⟩ := ih hmore
    refine ⟨⟨.word exported, span₁⟩ :: ⟨.colon, colon⟩ :: ⟨.word renamed, span₂⟩ ::
      ⟨.comma, comma⟩ :: taken, rfl, List.forall_mem_cons.2 ⟨?_, fun q hq n hn => ?_⟩⟩
    · simp [Import.Request.written, Located.word]
    · simp [hwords q hq n hn]
  | case3 exported span₁ colon renamed span₂ rest =>
    cases h
    exact ⟨[⟨.word exported, span₁⟩, ⟨.colon, colon⟩, ⟨.word renamed, span₂⟩], rfl,
      by simp [Import.Request.written, Located.word]⟩
  | case5 exported span₁ comma rest ih =>
    obtain ⟨more, hmore, rfl⟩ := map_eq_done h
    obtain ⟨taken, rfl, hwords⟩ := ih hmore
    refine ⟨⟨.word exported, span₁⟩ :: ⟨.comma, comma⟩ :: taken, rfl,
      List.forall_mem_cons.2 ⟨?_, fun q hq n hn => ?_⟩⟩
    · simp [Import.Request.written, Located.word]
    · simp [hwords q hq n hn]
  | case6 exported span₁ rest =>
    cases h
    exact ⟨[⟨.word exported, span₁⟩], rfl, by simp [Import.Request.written, Located.word]⟩
  | case4 | case7 => cases h

theorem anatomy_of_selection {start : Span}
    (h : selection start ending rest = .done found left) :
    ∃ taken, ⟨.opening .curly, start⟩ :: rest = taken ++ left ∧
      Anatomy before left taken found.value := by
  obtain ⟨asked, rest₁, h₁, hnext₁⟩ := bind_eq_done h
  obtain ⟨close, rest₂, h₂, hnext₂⟩ := bind_eq_done hnext₁
  obtain ⟨define, rest₃, h₃, hnext₃⟩ := bind_eq_done hnext₂
  obtain ⟨accepted, rest₄, h₄, hnext₄⟩ := bind_eq_done hnext₃
  rw [expect_eq_done (by decide) h₂, expect_eq_done (by decide) h₃] at h₁
  obtain ⟨names, rfl, hlists⟩ := lists_of_requests h₁
  obtain ⟨names', hnames, hwords⟩ := words_of_requests h₁
  obtain rfl := List.append_cancel_right hnames
  have haccepted := acceptImport_eq_done h₄
  cases accepted with
  | true =>
    obtain ⟨⟨word, rfl⟩, -⟩ := haccepted
    obtain ⟨path, taken, htaken, himports, hvalue⟩ := imports_of_importRest hnext₄ word
    rw [hvalue]
    exact ⟨_, by rw [htaken]; simp, .selection start close define hlists hwords himports⟩
  | false =>
    obtain ⟨_, _, -, hfail⟩ := bind_eq_done hnext₄
    cases hfail

/-! ### Bindings -/

/-- Opaque tokens that are gone over are enclosed, and what is recorded are the qualified names
among them. -/
theorem surveys_enclosed (hw : wanted = .equals ∨ wanted = .semicolon) {stop : Nat} {s : Stretch}
    {span : Span} (h : scanFrom ending wanted [] stop tokens = .done s (⟨wanted, span⟩ :: left))
    (hs : Severed before tokens) (ho : Token.Ordered tokens) :
    ∃ taken mentions, tokens = taken ++ ⟨wanted, span⟩ :: left ∧
      Enclosed wanted 0 (taken.map Token.kind) ∧ s.stop = lastStop stop taken ∧
      Surveys before taken (⟨wanted, span⟩ :: left) mentions ∧
      s.references = mentions.map Mention.reference := by
  obtain ⟨taken, rfl, he, hstop⟩ := enclosed_of_scanFrom hw h
  obtain ⟨taken', mentions, htaken, hsurveys, hreferences⟩ := surveys_of_scanFrom h hs ho
  obtain rfl := List.append_cancel_right htaken
  exact ⟨taken, mentions, rfl, he, hstop, hsurveys, hreferences⟩

theorem Heads.severed {head type : List Token} {sign : Token} (h : Heads name head type sign)
    (before tokens : List Token) : Severed (before ++ [sign]) tokens := by
  cases h with
  | plain => exact .of_kind (by simp) (by simp) before tokens
  | typed => exact .of_kind (by simp) (by simp) before tokens

theorem heads_of_bindingType (h : bindingType name ending rest = .done references left)
    (ho : Token.Ordered rest) (before : List Token) :
    ∃ head type sign mentions, name.word :: rest = head ++ (type ++ sign :: left) ∧
      Heads name head type sign ∧ Surveys (before ++ head) type (sign :: left) mentions ∧
      references = mentions.map Mention.reference := by
  rcases bindingType_eq_done h with
    ⟨define, rfl⟩ | ⟨colon, rest', start, s, equals, rfl, hscan, rfl⟩
  · have hdone : bindingType name ending (⟨.define, define⟩ :: left) = .done [] left := rfl
    rw [hdone] at h
    cases h
    exact ⟨_, [], _, [], rfl, .plain define, .nil _ _, rfl⟩
  · have hsevered : Severed (before ++ [name.word] ++ [⟨.colon, colon⟩]) rest' :=
      .of_kind (by simp) (by simp) _ _
    obtain ⟨type, mentions, rfl, he, -, hsurveys, hreferences⟩ :=
      surveys_enclosed (.inl rfl) hscan hsevered (ho.sublist (List.sublist_cons_self _ _))
    rw [List.append_assoc] at hsurveys
    exact ⟨_, type, _, mentions, rfl, .typed colon equals he, hsurveys, hreferences⟩

theorem declares_of_value {head type : List Token} {sign : Token} {mentions : List Mention}
    (h : value name references ending rest = .done found left) (ho : Token.Ordered rest)
    (hh : Heads name head type sign) (hs : Surveys (before ++ head) type (sign :: rest) mentions)
    (hr : references = mentions.map Mention.reference) :
    ∃ d body stop, rest = body ++ ⟨.semicolon, stop⟩ :: left ∧ found.value = .declaration d ∧
      Declares before left d head type sign body stop := by
  obtain ⟨s, stop, hscan, hlt, rfl⟩ := value_eq_done h
  have hsevered : Severed (before ++ (head ++ (type ++ [sign]))) rest := by
    rw [← List.append_assoc, ← List.append_assoc]
    exact hh.severed _ _
  obtain ⟨body, mentions', rfl, he, hstop, hsurveys, hreferences⟩ :=
    surveys_enclosed (.inr rfl) hscan hsevered ho
  cases body with
  | nil =>
    rw [hstop] at hlt
    exact absurd hlt (Nat.lt_irrefl _)
  | cons first body =>
    refine ⟨_, first :: body, stop, rfl, rfl, hh, he, List.cons_ne_nil _ _, ?_, mentions,
      mentions', hs, hsurveys, ?_⟩
    · rw [hstop]
      rfl
    · rw [hr, hreferences, List.map_append]

theorem anatomy_of_binding (h : binding name ending rest = .done found left)
    (ho : Token.Ordered rest) :
    ∃ taken, name.word :: rest = taken ++ left ∧ Anatomy before left taken found.value := by
  obtain ⟨references, rest₁, htype, hbound⟩ := bind_eq_done h
  obtain ⟨head, type, sign, mentions, hrest, hheads, hsurveys, hreferences⟩ :=
    heads_of_bindingType htype ho before
  obtain ⟨accepted, rest₂, haccept, hnext⟩ := bind_eq_done hbound
  have haccepted := acceptImport_eq_done haccept
  cases accepted with
  | true =>
    obtain ⟨⟨word, rfl⟩, -⟩ := haccepted
    obtain ⟨path, taken, htaken, himports, hvalue⟩ := imports_of_importRest hnext word
    rw [hvalue, hrest, htaken]
    exact ⟨_, by simp, .bound hheads himports⟩
  | false =>
    rw [if_neg Bool.false_ne_true] at haccepted hnext
    subst haccepted
    have hsuffix := suffix_of_done (keeps_bindingType _) htype
    have ho₁ : Token.Ordered rest₂ := ho.sublist hsuffix.sublist
    obtain ⟨d, body, stop, rfl, hvalue, hdeclares⟩ :=
      declares_of_value hnext ho₁ hheads hsurveys hreferences
    rw [hvalue, hrest]
    exact ⟨_, by simp, .declaration hdeclares⟩

/-! ### Items -/

theorem anatomy_of_item (h : item first ending rest = .done found left)
    (ho : Token.Ordered (first :: rest)) :
    ∃ taken, first :: rest = taken ++ left ∧ Anatomy before left taken found.value := by
  have ho' : Token.Ordered rest := ho.sublist (List.sublist_cons_self _ _)
  unfold item at h
  split at h
  · rename_i name span
    split at h
    · rename_i hi
      obtain ⟨_, _, he, -⟩ := atImport_iff.1 hi
      cases he
      obtain ⟨path, taken, htaken, himports, hvalue⟩ := imports_of_importRest h span
      rw [hvalue]
      exact ⟨taken, htaken, .bare himports⟩
    · exact anatomy_of_binding h ho'
  · exact anatomy_of_selection h
  · cases h

theorem extent_cons_concat {last : Token} :
    extent (first :: (rest ++ [last])) = ⟨first.span.start, last.span.stop⟩ := by
  rw [extent, lastStop_append]
  rfl

theorem extent_concat {last : Token} (h : Token.Ordered (first :: (rest ++ [last]))) :
    extent (first :: (rest ++ [last])) = first.span.join last.span := by
  have hmem : last ∈ rest ++ [last] := List.mem_append_right _ List.mem_cons_self
  have hapart := (List.pairwise_cons.1 h.apart).1 last hmem
  have hfirst := h.forward first List.mem_cons_self
  have hlast := h.forward last (List.mem_cons_of_mem _ hmem)
  simp only [extent_cons_concat, Span.join, Span.mk.injEq]
  omega

/-- **What is read without a mistake is parted into items.** -/
theorem parted_of_items {found : List (Located Item)} (h : items ending tokens = ([], found))
    (ho : Token.Ordered tokens) : Parted before tokens found := by
  fun_induction items ending tokens generalizing before found with
  | case1 =>
    cases h
    exact .nil
  | case2 first rest hk ih =>
    obtain ⟨kind, span⟩ := first
    subst hk
    exact .semicolon span (ih h (ho.sublist (List.sublist_cons_self _ _)))
  | case3 first rest _ x left hi =>
    rename_i ih
    obtain ⟨herrors, rfl⟩ := Prod.mk.inj h
    obtain ⟨taken, htokens, ha⟩ := anatomy_of_item hi ho
    obtain ⟨taken', part, htokens', hm⟩ := matches_of_item hi
    obtain rfl := List.append_cancel_right (htokens.symm.trans htokens')
    rw [htokens] at ho ⊢
    obtain ⟨start, body, semicolon, rfl, hspan⟩ := hm.extent
    refine .item ha ?_ (ih (Prod.ext herrors rfl) (ho.sublist (List.sublist_append_right _ _)))
    rw [hspan, extent_concat (ho.sublist (List.sublist_append_left _ _))]
  | case4 => cases h

theorem Parted.exists_of_mem {found : List (Located Item)} (h : Parted before tokens found)
    (hx : x ∈ found) : ∃ front taken left, before ++ tokens = front ++ (taken ++ left) ∧
      Anatomy front left taken x.value ∧ x.span = extent taken := by
  induction h with
  | nil => cases hx
  | semicolon span _ ih =>
    obtain ⟨front, taken, left, htokens, hitem⟩ := ih hx
    exact ⟨front, taken, left, by rw [← htokens, List.append_cons], hitem⟩
  | @item before taken rest x' found ha hspan _ ih =>
    rcases List.mem_cons.1 hx with rfl | hx
    · exact ⟨before, taken, rest, rfl, ha, hspan⟩
    · obtain ⟨front, taken', left, htokens, hitem⟩ := ih hx
      exact ⟨front, taken', left, by rw [← htokens, List.append_assoc], hitem⟩

/-! ### Texts -/

theorem parted_of_ofText {source : String} {found : List (Located Item)}
    (h : ofText source = .ok found) : ∃ tokens, tokenize source = .ok tokens ∧
      Token.Solid (beforeEnd tokens) ∧ Parted [] (beforeEnd tokens) found := by
  cases ht : tokenize source with
  | error errors =>
    simp only [ofText, ht] at h
    cases h
  | ok tokens =>
    simp only [ofText, ht] at h
    have hs := solid_beforeEnd ht
    exact ⟨tokens, rfl, hs, parted_of_items (ofTokens_eq_ok_iff.1 h) hs.toOrdered⟩

/-- **A declaration records the qualified names in its type and then those in its value**: each run
of names with `::` in between that is as long as can be, in order, and nothing else. -/
theorem references_exact {source : String} {found : List (Located Item)} {d : Declaration}
    (h : ofText source = .ok found) (hx : x ∈ found) (hd : x.value = .declaration d) :
    ∃ tokens before head type sign body stop left, tokenize source = .ok tokens ∧
      beforeEnd tokens =
        before ++ (head ++ (type ++ sign :: (body ++ ⟨.semicolon, stop⟩ :: left))) ∧
      Declares before left d head type sign body stop := by
  obtain ⟨tokens, ht, -, hparted⟩ := parted_of_ofText h
  obtain ⟨before, taken, left, htokens, ha, -⟩ := hparted.exists_of_mem hx
  obtain ⟨head, type, sign, body, stop, rfl, hdeclares⟩ := ha.exists_declares hd
  refine ⟨tokens, before, head, type, sign, body, stop, left, ht, ?_, hdeclares⟩
  simpa using htokens

/-- A text with qualified names in a type, behind a bracket and `::`, with `import` in them, around
a comment, in front of an opening brace and at the end of a value, and with `::` that join no
names. -/
def tangled : String :=
  ";q: m::T[n] = (f()::a::b, c::, ::d::import(1)) e:: // \n f::g \x7b h :: i \x7d j::k;"

/-- The declaration in the tangled text. -/
def tangledDeclaration : Declaration where
  name := ⟨"q", ⟨1, 2⟩⟩
  kind := .value
  visibility := .exported
  body := ⟨14, 76⟩
  references := [⟨⟨["m", "T"], false⟩, ⟨4, 8⟩⟩, ⟨⟨["a", "b"], false⟩, ⟨20, 24⟩⟩,
    ⟨⟨["d", "import"], false⟩, ⟨33, 42⟩⟩, ⟨⟨["e", "f", "g"], true⟩, ⟨47, 60⟩⟩,
    ⟨⟨["h", "i"], false⟩, ⟨63, 69⟩⟩, ⟨⟨["j", "k"], false⟩, ⟨72, 76⟩⟩]

/-- The tangled text records its qualified names, and nothing else. -/
theorem tangled_references :
    ofText tangled = .ok [⟨.declaration tangledDeclaration, ⟨1, 77⟩⟩] ∧
    ∃ tokens before head type sign body stop left, tokenize tangled = .ok tokens ∧
      beforeEnd tokens =
        before ++ (head ++ (type ++ sign :: (body ++ ⟨.semicolon, stop⟩ :: left))) ∧
      Declares before left tangledDeclaration head type sign body stop := by
  have h : ofText tangled = .ok [⟨.declaration tangledDeclaration, ⟨1, 77⟩⟩] := by
    decide +kernel
  exact ⟨h, references_exact h (List.mem_singleton_self _) rfl⟩

end Program

end ModuleResolution
