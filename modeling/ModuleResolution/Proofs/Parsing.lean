import Mathlib.Data.List.Basic
import ModuleResolution.Proofs.Enclosing

/-!
# Reading programs by the grammar

The tokens of a module are read without a mistake where their kinds have a derivation, and only
there.  The items that are read are those of the derivation.

* `Program.Matches` : an item is read off some tokens as a part of a derivation says.
* `Program.Divides` : the tokens of a program, part by part.
* `Program.divides_of_items` : what is read without a mistake is divided so.
* `Program.items_of_derives` : what has a derivation is read without a mistake.
* `Program.parses_grammar` : both, for the tokens of a text.
-/

namespace ModuleResolution

namespace Program

open Reading Grammar

variable {ending : Span} {tokens taken rest left : List Token} {first : Token}
  {found : Located Item} {kinds : List Token.Kind} {part : Part} {name : Located String}

/-- The item `found` is read off the tokens `taken` as the part says: it starts where the first of
them does, and ends where the semicolon does that is the last of them. -/
structure Matches (part : Part) (taken : List Token) (found : Located Item) : Prop where
  wellformed : part.Wellformed
  kinds_eq : taken.map Token.kind = part.kinds
  sketch_eq : part.sketch? = some found.value.sketch
  extent : ∃ first body semicolon, taken = first :: (body ++ [⟨.semicolon, semicolon⟩]) ∧
    found.span = first.span.join semicolon

/-- The tokens of the parts one behind the other, and the items that are read off them. -/
inductive Divides : List Token → List Part → List (Located Item) → Prop
  | nil : Divides [] [] []
  | semicolon {rest parts found} (span : Span) (h : Divides rest parts found) :
    Divides (⟨.semicolon, span⟩ :: rest) (.semicolon :: parts) found
  | item {part taken x rest parts found} (hm : Matches part taken x)
    (h : Divides rest parts found) : Divides (taken ++ rest) (part :: parts) (x :: found)

/-! ### Kinds of tokens -/

theorem map_kind_eq_cons {kind : Token.Kind} : tokens.map Token.kind = kind :: kinds ↔
    ∃ span rest, tokens = ⟨kind, span⟩ :: rest ∧ rest.map Token.kind = kinds := by
  constructor
  · intro h
    obtain ⟨⟨_, span⟩, rest, rfl, rfl, hrest⟩ := List.map_eq_cons_iff.1 h
    exact ⟨span, rest, rfl, hrest⟩
  · rintro ⟨span, rest, rfl, rfl⟩
    rfl

theorem map_kind_eq_concat {kind : Token.Kind} (h : tokens.map Token.kind = kinds ++ [kind]) :
    ∃ body span, tokens = body ++ [⟨kind, span⟩] ∧ body.map Token.kind = kinds := by
  obtain ⟨body, last, rfl, hbody, hlast⟩ := List.map_eq_append_iff.1 h
  obtain ⟨span, rest, rfl, hrest⟩ := map_kind_eq_cons.1 hlast
  rw [List.map_eq_nil_iff] at hrest
  exact ⟨body, span, by rw [hrest], hbody⟩

theorem map_kind_eq_import {path : String}
    (h : tokens.map Token.kind = importKinds path ++ [.semicolon]) :
    ∃ word round text closing semicolon, tokens =
      [⟨.word "import", word⟩, ⟨.opening .round, round⟩, ⟨.text path, text⟩,
        ⟨.closing .round, closing⟩, ⟨.semicolon, semicolon⟩] := by
  obtain ⟨word, rest₁, rfl, h₁⟩ := map_kind_eq_cons.1 h
  obtain ⟨round, rest₂, rfl, h₂⟩ := map_kind_eq_cons.1 h₁
  obtain ⟨text, rest₃, rfl, h₃⟩ := map_kind_eq_cons.1 h₂
  obtain ⟨closing, rest₄, rfl, h₄⟩ := map_kind_eq_cons.1 h₃
  obtain ⟨semicolon, rest₅, rfl, h₅⟩ := map_kind_eq_cons.1 h₄
  rw [List.map_eq_nil_iff] at h₅
  exact ⟨word, round, text, closing, semicolon, by rw [h₅]⟩

/-! ### Requests -/

/-- The kinds are those of the requests, with or without a comma behind the last. -/
def Lists (asked : List Grammar.Request) (kinds : List Token.Kind) : Prop :=
  ∃ trailing, (trailing = true → asked ≠ []) ∧ kinds = listed asked trailing

theorem lists_nil_iff : Lists [] kinds ↔ kinds = [] := by
  constructor
  · rintro ⟨trailing, ht, rfl⟩
    cases trailing with
    | false => rfl
    | true => exact absurd rfl (ht rfl)
  · rintro rfl
    exact ⟨false, fun h => absurd h Bool.false_ne_true, rfl⟩

theorem lists_cons_iff {q : Grammar.Request} {more : List Grammar.Request} :
    Lists (q :: more) kinds ↔ (more = [] ∧ kinds = q.kinds) ∨
      ∃ kinds', Lists more kinds' ∧ kinds = q.kinds ++ .comma :: kinds' := by
  constructor
  · rintro ⟨trailing, -, rfl⟩
    rw [listed_cons]
    cases more with
    | nil =>
      cases trailing with
      | false => exact .inl ⟨rfl, List.append_nil _⟩
      | true => exact .inr ⟨[], lists_nil_iff.2 rfl, rfl⟩
    | cons q' more => exact .inr ⟨_, ⟨trailing, fun _ => List.cons_ne_nil _ _, rfl⟩, rfl⟩
  · rintro (⟨rfl, rfl⟩ | ⟨kinds', ⟨trailing, ht, rfl⟩, rfl⟩)
    · exact ⟨false, fun _ => List.cons_ne_nil _ _, (List.append_nil _).symm⟩
    · cases more with
      | nil =>
        have hnil := lists_nil_iff.1 ⟨trailing, ht, rfl⟩
        exact ⟨true, fun _ => List.cons_ne_nil _ _, by rw [hnil]; rfl⟩
      | cons q' more =>
        exact ⟨trailing, fun _ => List.cons_ne_nil _ _,
          by rw [listed_cons q, if_neg (List.cons_ne_nil _ _)]⟩

theorem lists_of_requests {asked : List Import.Request} {span : Span}
    (h : requests ending tokens = .done asked (⟨.closing .curly, span⟩ :: left)) :
    ∃ taken, tokens = taken ++ ⟨.closing .curly, span⟩ :: left ∧
      Lists (asked.map Import.Request.sketch) (taken.map Token.kind) := by
  fun_induction requests ending tokens generalizing asked with
  | case1 =>
    cases h
    exact ⟨[], rfl, lists_nil_iff.2 rfl⟩
  | case2 exported span₁ colon renamed span₂ comma rest ih =>
    obtain ⟨more, hmore, rfl⟩ := map_eq_done h
    obtain ⟨taken, rfl, hlists⟩ := ih hmore
    exact ⟨⟨.word exported, span₁⟩ :: ⟨.colon, colon⟩ :: ⟨.word renamed, span₂⟩ ::
      ⟨.comma, comma⟩ :: taken, rfl, lists_cons_iff.2 (.inr ⟨_, hlists, rfl⟩)⟩
  | case3 exported span₁ colon renamed span₂ rest =>
    cases h
    exact ⟨[⟨.word exported, span₁⟩, ⟨.colon, colon⟩, ⟨.word renamed, span₂⟩], rfl,
      lists_cons_iff.2 (.inl ⟨rfl, rfl⟩)⟩
  | case5 exported span₁ comma rest ih =>
    obtain ⟨more, hmore, rfl⟩ := map_eq_done h
    obtain ⟨taken, rfl, hlists⟩ := ih hmore
    exact ⟨⟨.word exported, span₁⟩ :: ⟨.comma, comma⟩ :: taken, rfl,
      lists_cons_iff.2 (.inr ⟨_, hlists, rfl⟩)⟩
  | case6 exported span₁ rest =>
    cases h
    exact ⟨[⟨.word exported, span₁⟩], rfl, lists_cons_iff.2 (.inl ⟨rfl, rfl⟩)⟩
  | case4 | case7 => cases h

theorem map_kind_eq_request {q : Grammar.Request} (h : tokens.map Token.kind = q.kinds ++ kinds) :
    (∃ span rest, q.renamed = none ∧ tokens = ⟨.word q.exported, span⟩ :: rest ∧
      rest.map Token.kind = kinds) ∨
    ∃ renamed span colon span' rest, q.renamed = some renamed ∧
      tokens = ⟨.word q.exported, span⟩ :: ⟨.colon, colon⟩ :: ⟨.word renamed, span'⟩ :: rest ∧
      rest.map Token.kind = kinds := by
  obtain ⟨exported, _ | renamed⟩ := q
  · obtain ⟨span, rest, rfl, hrest⟩ := map_kind_eq_cons.1 h
    exact .inl ⟨span, rest, rfl, rfl, hrest⟩
  · obtain ⟨span, rest₁, rfl, h₁⟩ := map_kind_eq_cons.1 h
    obtain ⟨colon, rest₂, rfl, h₂⟩ := map_kind_eq_cons.1 h₁
    obtain ⟨span', rest, rfl, hrest⟩ := map_kind_eq_cons.1 h₂
    exact .inr ⟨renamed, span, colon, span', rest, rfl, rfl, hrest⟩

theorem requests_of_lists {asked : List Grammar.Request} (h : Lists asked (taken.map Token.kind))
    (ending span : Span) (left : List Token) :
    ∃ found, requests ending (taken ++ ⟨.closing .curly, span⟩ :: left) =
      .done found (⟨.closing .curly, span⟩ :: left) := by
  induction asked generalizing taken with
  | nil =>
    have hnil : taken = [] := List.map_eq_nil_iff.1 (lists_nil_iff.1 h)
    subst hnil
    exact ⟨[], by simp [requests]⟩
  | cons q more ih =>
    rcases lists_cons_iff.1 h with ⟨rfl, hq⟩ | ⟨kinds', hmore, hq⟩
    · rw [← List.append_nil q.kinds] at hq
      rcases map_kind_eq_request hq with
        ⟨span₁, rest, -, rfl, hrest⟩ | ⟨renamed, span₁, colon, span₂, rest, -, rfl, hrest⟩
      · obtain rfl := List.map_eq_nil_iff.1 hrest
        exact ⟨_, by simp [requests]; rfl⟩
      · obtain rfl := List.map_eq_nil_iff.1 hrest
        exact ⟨_, by simp [requests]; rfl⟩
    · rcases map_kind_eq_request hq with
        ⟨span₁, rest, -, rfl, hrest⟩ | ⟨renamed, span₁, colon, span₂, rest, -, rfl, hrest⟩
      · obtain ⟨comma, rest', rfl, rfl⟩ := map_kind_eq_cons.1 hrest
        obtain ⟨found, hfound⟩ := ih hmore
        exact ⟨_, by simp [requests, hfound, Step.map]; rfl⟩
      · obtain ⟨comma, rest', rfl, rfl⟩ := map_kind_eq_cons.1 hrest
        obtain ⟨found, hfound⟩ := ih hmore
        exact ⟨_, by simp [requests, hfound, Step.map]; rfl⟩

/-! ### Items of the grammar are read -/

theorem bind_of_done {α β : Type} {reading : Reading α} {next : α → Reading β} {value : α}
    (h : reading ending tokens = .done value rest) :
    (reading >>= next) ending tokens = next value ending rest := by
  simp only [Bind.bind, h]

theorem expect_cons (wanted : Token.Kind) (spot : Problem.Place) (span : Span) :
    expect wanted spot ending (⟨wanted, span⟩ :: rest) = .done span rest :=
  if_pos rfl

theorem acceptImport_of_not (h : ¬ atImport tokens = true) :
    acceptImport ending tokens = .done false tokens :=
  if_neg h

/-- What stands on the right of a binding: an import, or a value. -/
def bound (name : Located String) (references : List (Located Reference)) :
    Reading (Located Item) := do
  if ← acceptImport then importRest name.span (.whole (some name))
  else value name references

theorem binding_eq (name : Located String) : binding name = bindingType name >>= bound name :=
  rfl

theorem scan_of_scanFrom {wanted : Token.Kind} {s : Stretch}
    (h : scanFrom ending wanted [] (place ending tokens).start tokens = .done s left) :
    scan wanted ending tokens =
      .done (⟨(place ending tokens).start, s.stop⟩, s.references) left := by
  simp only [scan, h, Step.map]

theorem value_done (name : Located String) (references : List (Located Reference)) {s : Stretch}
    {semicolon : Span} (h : scanFrom ending .semicolon [] (place ending tokens).start tokens =
      .done s (⟨.semicolon, semicolon⟩ :: left)) (hlt : (place ending tokens).start < s.stop) :
    value name references ending tokens = .done ⟨.declaration ⟨name, valueKind tokens, .exported,
      ⟨(place ending tokens).start, s.stop⟩, references ++ s.references⟩,
      name.span.join semicolon⟩ left := by
  have hwide : ¬ (Span.mk (place ending tokens).start s.stop).isEmpty = true := by
    rw [Span.isEmpty_iff, Nat.not_le]
    exact hlt
  have hkind : (fun _ tokens => .done (valueKind tokens) tokens : Reading Declaration.Kind)
      ending tokens = .done (valueKind tokens) tokens := rfl
  refine (bind_of_done hkind).trans ((bind_of_done (scan_of_scanFrom h)).trans ?_)
  dsimp only
  rw [if_neg hwide]
  exact bind_of_done (expect_cons _ _ _)

theorem bound_of_kinds {v : Value} (hv : v.Wellformed)
    (hk : taken.map Token.kind = v.kinds ++ [.semicolon]) (hs : Token.Solid taken)
    (name : Located String) (references : List (Located Reference)) (ending : Span)
    (left : List Token) :
    ∃ found, bound name references ending (taken ++ left) = .done found left := by
  cases v with
  | imported path =>
    obtain ⟨word, round, text, closing, semicolon, rfl⟩ := map_kind_eq_import hk
    exact ⟨_, rfl⟩
  | other kinds =>
    obtain ⟨hne, he⟩ := hv
    obtain ⟨body, semicolon, rfl, rfl⟩ := map_kind_eq_concat hk
    rw [List.append_assoc, List.singleton_append]
    cases body with
    | nil => exact absurd rfl hne
    | cons first body =>
      obtain ⟨s, hscan, hstop⟩ :=
        scanFrom_of_enclosed (.inr rfl) he ending first.span.start semicolon left
      have hlt : first.span.start < s.stop :=
        hstop ▸ lt_lastStop (hs.sublist (List.sublist_append_left _ _))
      have hi : ¬ atImport ((first :: body) ++ ⟨.semicolon, semicolon⟩ :: left) = true :=
        fun hi => not_encloses_of_atImport hi (by simp) (by simp)
          (encloses_of_enclosed he semicolon left)
      exact ⟨_, (bind_of_done (acceptImport_of_not hi)).trans
        (value_done name references hscan hlt)⟩

/-- What stands between the name of a binding and `=`, the type and the signs, is read. -/
theorem bindingType_of_enclosed (h : Enclosed .equals 0 (taken.map Token.kind))
    (name : Located String) (ending colon equals : Span) (rest : List Token) :
    ∃ references, bindingType name ending
      (⟨.colon, colon⟩ :: (taken ++ ⟨.equals, equals⟩ :: rest)) = .done references rest := by
  obtain ⟨s, hscan, -⟩ := scanFrom_of_enclosed (.inl rfl) h ending _ equals rest
  have hcolon : accept .colon ending (⟨.colon, colon⟩ :: (taken ++ ⟨.equals, equals⟩ :: rest)) =
      .done true (taken ++ ⟨.equals, equals⟩ :: rest) := rfl
  refine ⟨s.references, (bind_of_done hcolon).trans ?_⟩
  exact (bind_of_done (scan_of_scanFrom hscan)).trans (bind_of_done (expect_cons _ _ _))

theorem item_word {name : String} {span : Span} (h : kind rest ≠ .opening .round) :
    item ⟨.word name, span⟩ ending rest = binding ⟨name, span⟩ ending rest := by
  refine if_neg fun hi => ?_
  obtain ⟨_, rest', he, hround⟩ := atImport_iff.1 hi
  obtain ⟨-, rfl⟩ := List.cons.inj he
  exact h hround

/-- **An item of the grammar is read**, whatever stands behind it. -/
theorem item_of_kinds (hw : part.Wellformed) (hk : taken.map Token.kind = part.kinds)
    (hp : part ≠ .semicolon) (hs : Token.Solid taken) (ending : Span) (left : List Token) :
    ∃ first rest found, taken = first :: rest ∧ first.kind ≠ .semicolon ∧
      item first ending (rest ++ left) = .done found left := by
  cases part with
  | semicolon => exact absurd rfl hp
  | bare path =>
    obtain ⟨word, round, text, closing, semicolon, rfl⟩ := map_kind_eq_import hk
    exact ⟨_, _, _, rfl, by simp, rfl⟩
  | selection asked trailing path =>
    obtain ⟨span, rest, rfl, hrest⟩ := map_kind_eq_cons.1 hk
    obtain ⟨names, rest₁, rfl, hnames, h₁⟩ := List.map_eq_append_iff.1 hrest
    obtain ⟨closing, rest₂, rfl, h₂⟩ := map_kind_eq_cons.1 h₁
    obtain ⟨define, rest₃, rfl, h₃⟩ := map_kind_eq_cons.1 h₂
    obtain ⟨word, round, text, closing', semicolon, rfl⟩ := map_kind_eq_import h₃
    obtain ⟨found, hfound⟩ := requests_of_lists ⟨trailing, hw, hnames⟩ ending closing
      (⟨.define, define⟩ :: ⟨.word "import", word⟩ :: ⟨.opening .round, round⟩ ::
        ⟨.text path, text⟩ :: ⟨.closing .round, closing'⟩ :: ⟨.semicolon, semicolon⟩ :: left)
    refine ⟨_, _, ⟨.importing ⟨⟨path, text⟩, .selected found⟩, span.join semicolon⟩, rfl,
      by simp, ?_⟩
    rw [List.append_assoc]
    exact (bind_of_done hfound).trans rfl
  | plain name v =>
    obtain ⟨span, rest, rfl, hrest⟩ := map_kind_eq_cons.1 hk
    obtain ⟨define, rest₁, rfl, h₁⟩ := map_kind_eq_cons.1 hrest
    have hsuffix : rest₁ <:+ ⟨.word name, span⟩ :: ⟨.define, define⟩ :: rest₁ := ⟨[_, _], rfl⟩
    obtain ⟨found, hfound⟩ :=
      bound_of_kinds hw h₁ (hs.sublist hsuffix.sublist) ⟨name, span⟩ [] ending left
    have hdefine : bindingType ⟨name, span⟩ ending (⟨.define, define⟩ :: (rest₁ ++ left)) =
        .done [] (rest₁ ++ left) := rfl
    refine ⟨_, _, found, rfl, by simp, ?_⟩
    rw [List.cons_append, item_word (by rintro ⟨⟩), binding_eq]
    exact (bind_of_done hdefine).trans hfound
  | typed name type v =>
    obtain ⟨span, rest, rfl, hrest⟩ := map_kind_eq_cons.1 hk
    obtain ⟨colon, rest₁, rfl, h₁⟩ := map_kind_eq_cons.1 hrest
    obtain ⟨type', rest₂, rfl, rfl, h₂⟩ := List.map_eq_append_iff.1 h₁
    obtain ⟨equals, rest₃, rfl, h₃⟩ := map_kind_eq_cons.1 h₂
    have hsuffix : rest₃ <:+ ⟨.word name, span⟩ :: ⟨.colon, colon⟩ ::
        (type' ++ ⟨.equals, equals⟩ :: rest₃) :=
      ⟨⟨.word name, span⟩ :: ⟨.colon, colon⟩ :: (type' ++ [⟨.equals, equals⟩]), by simp⟩
    obtain ⟨references, htype⟩ :=
      bindingType_of_enclosed hw.1 ⟨name, span⟩ ending colon equals (rest₃ ++ left)
    obtain ⟨found, hfound⟩ :=
      bound_of_kinds hw.2 h₃ (hs.sublist hsuffix.sublist) ⟨name, span⟩ references ending left
    refine ⟨_, _, found, rfl, by simp, ?_⟩
    rw [List.cons_append, List.append_assoc, List.cons_append, item_word (by rintro ⟨⟩),
      binding_eq]
    exact (bind_of_done htype).trans hfound

/-! ### What is read is an item of the grammar -/

/-- What stands on the right of a binding is an import or a value, and a semicolon. -/
theorem kinds_of_bound {references : List (Located Reference)}
    (h : bound name references ending tokens = .done found left) :
    ∃ (taken : List Token) (v : Value), tokens = taken ++ left ∧ v.Wellformed ∧
      taken.map Token.kind = v.kinds ++ [.semicolon] ∧
      found.value.sketch = v.sketch name.value := by
  obtain ⟨accepted, rest, haccept, hnext⟩ := bind_eq_done h
  have haccepted := acceptImport_eq_done haccept
  cases accepted with
  | true =>
    obtain ⟨⟨word, rfl⟩, -⟩ := haccepted
    obtain ⟨round, path, closing, semicolon, rfl, rfl⟩ := importRest_eq_done hnext
    exact ⟨[⟨.word "import", word⟩, ⟨.opening .round, round⟩, ⟨.text path.value, path.span⟩,
      ⟨.closing .round, closing⟩, ⟨.semicolon, semicolon⟩], .imported path.value, rfl, trivial,
      rfl, rfl⟩
  | false =>
    rw [if_neg Bool.false_ne_true] at haccepted hnext
    subst haccepted
    obtain ⟨s, semicolon, hscan, hlt, rfl⟩ := value_eq_done hnext
    obtain ⟨taken, rfl, he, hstop⟩ := enclosed_of_scanFrom (.inr rfl) hscan
    refine ⟨taken ++ [⟨.semicolon, semicolon⟩], .other (taken.map Token.kind), ?_, ⟨?_, he⟩, ?_,
      rfl⟩
    · rw [List.append_assoc, List.singleton_append]
    · rintro hnil
      obtain rfl := List.map_eq_nil_iff.1 hnil
      rw [hstop] at hlt
      exact Nat.lt_irrefl _ hlt
    · rw [List.map_append]
      rfl

theorem kinds_of_binding (h : binding name ending rest = .done found left) :
    ∃ (taken : List Token) (part : Part), rest = taken ++ left ∧ part.Wellformed ∧
      .word name.value :: taken.map Token.kind = part.kinds ∧
      part.sketch? = some found.value.sketch := by
  obtain ⟨references, rest₁, htype, hbound⟩ := bind_eq_done h
  obtain ⟨taken, v, rfl, hv, hkinds, hsketch⟩ := kinds_of_bound hbound
  rcases bindingType_eq_done htype with ⟨define, rfl⟩ | ⟨colon, rest₂, start, s, equals, rfl, hs, -⟩
  · refine ⟨⟨.define, define⟩ :: taken, .plain name.value v, rfl, hv, ?_,
      congrArg some hsketch.symm⟩
    rw [List.map_cons, hkinds]
    rfl
  · obtain ⟨type, rfl, he, -⟩ := enclosed_of_scanFrom (.inl rfl) hs
    refine ⟨⟨.colon, colon⟩ :: (type ++ ⟨.equals, equals⟩ :: taken),
      .typed name.value (type.map Token.kind) v, ?_, ⟨he, hv⟩, ?_, congrArg some hsketch.symm⟩
    · simp
    · rw [List.map_cons, List.map_append, List.map_cons, hkinds]
      rfl

theorem kinds_of_selection {start : Span} (h : selection start ending rest = .done found left) :
    ∃ (taken : List Token) (part : Part), rest = taken ++ left ∧ part.Wellformed ∧
      .opening .curly :: taken.map Token.kind = part.kinds ∧
      part.sketch? = some found.value.sketch := by
  obtain ⟨asked, rest₁, h₁, hnext₁⟩ := bind_eq_done h
  obtain ⟨closing, rest₂, h₂, hnext₂⟩ := bind_eq_done hnext₁
  obtain ⟨define, rest₃, h₃, hnext₃⟩ := bind_eq_done hnext₂
  obtain ⟨accepted, rest₄, h₄, hnext₄⟩ := bind_eq_done hnext₃
  rw [expect_eq_done (by decide) h₂, expect_eq_done (by decide) h₃] at h₁
  obtain ⟨names, rfl, trailing, htrailing, hnames⟩ := lists_of_requests h₁
  have haccepted := acceptImport_eq_done h₄
  cases accepted with
  | true =>
    obtain ⟨⟨word, rfl⟩, -⟩ := haccepted
    obtain ⟨round, path, closing', semicolon, rfl, rfl⟩ := importRest_eq_done hnext₄
    refine ⟨names ++ [⟨.closing .curly, closing⟩, ⟨.define, define⟩, ⟨.word "import", word⟩,
      ⟨.opening .round, round⟩, ⟨.text path.value, path.span⟩, ⟨.closing .round, closing'⟩,
      ⟨.semicolon, semicolon⟩], .selection (asked.map Import.Request.sketch) trailing path.value,
      ?_, htrailing, ?_, rfl⟩
    · simp
    · rw [List.map_append, hnames]
      rfl
  | false =>
    obtain ⟨_, _, -, hfail⟩ := bind_eq_done hnext₄
    cases hfail

/-- **What is read as an item is an item of the grammar.** -/
theorem matches_of_item (h : item first ending rest = .done found left) :
    ∃ (taken : List Token) (part : Part), first :: rest = taken ++ left ∧
      Matches part taken found := by
  obtain ⟨taken, part, hrest, hw, hkinds, hsketch⟩ : ∃ (taken : List Token) (part : Part),
      rest = taken ++ left ∧ part.Wellformed ∧
      first.kind :: taken.map Token.kind = part.kinds ∧
      part.sketch? = some found.value.sketch := by
    obtain ⟨kind, span⟩ := first
    unfold item at h
    split at h
    · rename_i name span' he
      cases he
      split at h
      · rename_i hi
        obtain ⟨_, _, he, -⟩ := atImport_iff.1 hi
        obtain ⟨round, path, closing, semicolon, rfl, rfl⟩ := importRest_eq_done h
        cases he
        exact ⟨[⟨.opening .round, round⟩, ⟨.text path.value, path.span⟩,
          ⟨.closing .round, closing⟩, ⟨.semicolon, semicolon⟩], .bare path.value, rfl, trivial,
          rfl, rfl⟩
      · exact kinds_of_binding h
    · rename_i he
      cases he
      exact kinds_of_selection h
    · cases h
  obtain ⟨start, body, semicolon, hextent, hspan⟩ := (Covers.of_item h).extent
  have htaken : first :: taken ++ left = start :: (body ++ [⟨.semicolon, semicolon⟩]) ++ left := by
    rw [List.cons_append, ← hrest, hextent]
    simp
  exact ⟨first :: taken, part, congrArg (first :: ·) hrest, hw, hkinds, hsketch, start, body,
    semicolon, List.append_cancel_right htaken, hspan⟩

/-! ### Programs -/

theorem Divides.kinds_eq {parts : List Part} {found : List (Located Item)}
    (h : Divides tokens parts found) : tokens.map Token.kind = parts.flatMap Part.kinds := by
  induction h with
  | nil => rfl
  | semicolon span _ ih => exact congrArg (.semicolon :: ·) ih
  | item hm _ ih => rw [List.map_append, hm.kinds_eq, ih, List.flatMap_cons]

/-- What the tokens are divided into is a derivation of their kinds. -/
theorem Divides.derives {parts : List Part} {found : List (Located Item)}
    (h : Divides tokens parts found) : Derives parts (tokens.map Token.kind) := by
  refine ⟨?_, h.kinds_eq.symm⟩
  induction h with
  | nil => exact fun part hp => by cases hp
  | semicolon span _ ih => exact List.forall_mem_cons.2 ⟨trivial, ih⟩
  | item hm _ ih => exact List.forall_mem_cons.2 ⟨hm.wellformed, ih⟩

theorem Divides.sketches_eq {parts : List Part} {found : List (Located Item)}
    (h : Divides tokens parts found) :
    found.map (·.value.sketch) = parts.filterMap Part.sketch? := by
  induction h with
  | nil => rfl
  | semicolon span _ ih => exact ih
  | item hm _ ih => rw [List.map_cons, List.filterMap_cons_some hm.sketch_eq, ih]

/-- **What is read without a mistake is divided into parts of the grammar.** -/
theorem divides_of_items {found : List (Located Item)} (h : items ending tokens = ([], found)) :
    ∃ parts, Divides tokens parts found := by
  fun_induction items ending tokens generalizing found with
  | case1 =>
    cases h
    exact ⟨[], .nil⟩
  | case2 first rest hk ih =>
    obtain ⟨parts, hparts⟩ := ih h
    obtain ⟨kind, span⟩ := first
    subst hk
    exact ⟨_, .semicolon span hparts⟩
  | case3 first rest _ x left hi =>
    rename_i ih
    obtain ⟨herrors, rfl⟩ := Prod.mk.inj h
    obtain ⟨taken, part, htokens, hm⟩ := matches_of_item hi
    obtain ⟨parts, hparts⟩ := ih (Prod.ext herrors rfl)
    rw [htokens]
    exact ⟨part :: parts, .item hm hparts⟩
  | case4 => cases h

theorem items_cons_of_done {rest : List Token} (hk : first.kind ≠ .semicolon)
    (h : item first ending rest = .done found left) :
    items ending (first :: rest) = ((items ending left).1, found :: (items ending left).2) := by
  rw [items, if_neg hk]
  split
  · rename_i hdone
    rw [h] at hdone
    cases hdone
    rfl
  · rename_i hfail
    rw [h] at hfail
    cases hfail

/-- **What has a derivation is read without a mistake.** -/
theorem items_of_derives {parts : List Part} (ending : Span)
    (h : Derives parts (tokens.map Token.kind)) (hs : Token.Solid tokens) :
    ∃ found, items ending tokens = ([], found) := by
  obtain ⟨hw, hspelled⟩ := h
  induction parts generalizing tokens with
  | nil =>
    obtain rfl := List.map_eq_nil_iff.1 hspelled.symm
    exact ⟨[], by rw [items]⟩
  | cons part parts ih =>
    obtain ⟨hpart, hparts⟩ := List.forall_mem_cons.1 hw
    obtain ⟨taken, rest, rfl, hk, hrest⟩ := List.map_eq_append_iff.1 hspelled.symm
    obtain ⟨found, hfound⟩ := ih (hs.sublist (List.sublist_append_right _ _)) hparts hrest.symm
    by_cases hp : part = .semicolon
    · subst hp
      obtain ⟨span, more, rfl, hmore⟩ := map_kind_eq_cons.1 hk
      obtain rfl := List.map_eq_nil_iff.1 hmore
      refine ⟨found, ?_⟩
      rw [List.singleton_append, items, if_pos rfl]
      exact hfound
    · obtain ⟨first, more, x, rfl, hfirst, hitem⟩ :=
        item_of_kinds hpart hk hp (hs.sublist (List.sublist_append_left _ _)) ending rest
      refine ⟨x :: found, ?_⟩
      rw [List.cons_append, items_cons_of_done hfirst hitem, hfound]

/-- The kinds of the tokens in front of the end of the file. -/
def kindsOf (tokens : List Token) : List Token.Kind := (beforeEnd tokens).map Token.kind

theorem solid_beforeEnd {source : String} (ht : tokenize source = .ok tokens) :
    Token.Solid (beforeEnd tokens) := by
  obtain ⟨body, span, rfl, hkinds⟩ := tokenize_closed ht
  rw [beforeEnd_closed hkinds]
  exact solid_of_tokenize ht hkinds

/-- **The programs are those of the grammar**: the tokens of a text are read without a mistake
exactly where their kinds have a derivation, and then the items are those of the derivation, of
which there is only one. -/
theorem parses_grammar {source : String} (ht : tokenize source = .ok tokens) :
    ((∃ found, ofTokens tokens = .ok found) ↔ ∃ parts, Derives parts (kindsOf tokens)) ∧
    ∀ found, ofTokens tokens = .ok found → ∃ parts, Derives parts (kindsOf tokens) ∧
      (∀ parts', Derives parts' (kindsOf tokens) → parts' = parts) ∧
      found.map (·.value.sketch) = parts.filterMap Part.sketch? := by
  refine ⟨⟨?_, ?_⟩, ?_⟩
  · rintro ⟨found, hfound⟩
    obtain ⟨parts, hparts⟩ := divides_of_items (ofTokens_eq_ok_iff.1 hfound)
    exact ⟨parts, hparts.derives⟩
  · rintro ⟨parts, hparts⟩
    obtain ⟨found, hfound⟩ := items_of_derives (Program.ending tokens) hparts (solid_beforeEnd ht)
    exact ⟨found, ofTokens_eq_ok_iff.2 hfound⟩
  · intro found hfound
    obtain ⟨parts, hparts⟩ := divides_of_items (ofTokens_eq_ok_iff.1 hfound)
    exact ⟨parts, hparts.derives, fun _ h => h.unique hparts.derives, hparts.sketches_eq⟩

/-- A text with items of every form. -/
def medley : String :=
  ";import(\"a\"); \x7bP: Q, o,\x7d := import(\"b\"); x: [=] = a::import(1); y := import(\"c\");"

/-- The parts of the medley. -/
def medleyParts : List Part :=
  [.semicolon, .bare "a", .selection [⟨"P", some "Q"⟩, ⟨"o", none⟩] true "b",
    .typed "x" [.opening .square, .equals, .closing .square]
      (.other [.word "a", .member, .word "import", .opening .round, .number "1", .closing .round]),
    .plain "y" (.imported "c")]

/-- The items of the medley are those of its parts. -/
theorem medley_parses :
    let tokens := (tokenize medley).toOption.getD []
    let found := (ofTokens tokens).toOption.getD []
    tokenize medley = .ok tokens ∧ ofTokens tokens = .ok found ∧
      Derives medleyParts (kindsOf tokens) ∧
      found.map (·.value.sketch) = [.whole "a" none, .selected "b" [⟨"P", some "Q"⟩, ⟨"o", none⟩],
        .declaration "x", .whole "c" (some "y")] := by
  intro tokens found
  have ht : tokenize medley = .ok tokens := by decide +kernel
  have hf : ofTokens tokens = .ok found := by decide +kernel
  have hd : Derives medleyParts (kindsOf tokens) := by decide +kernel
  obtain ⟨parts, -, hunique, hsketches⟩ := (parses_grammar ht).2 found hf
  rw [← hunique medleyParts hd] at hsketches
  exact ⟨ht, hf, hd, hsketches⟩

end Program

end ModuleResolution
