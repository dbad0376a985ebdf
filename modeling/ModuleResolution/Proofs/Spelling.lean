import Mathlib.Data.List.Basic
import ModuleResolution.Proofs.Tokens
import ModuleResolution.Source.Program

/-!
# Qualified names as they are spelled

A qualified name stands in a source text as a run of tokens: a name, and further names behind `::`.
Where a text has items, each such run that is as long as can be is recorded in the declaration that
it stands in, unless it stands where a name is bound to an import.

* `Program.Qualified` : a run of tokens spells a qualified name, and is as long as can be.
* `Program.mem_references_of_scanFrom` : going over opaque tokens records each such run among them.
* `Program.Covers` : an item stretches from the first of some tokens to a semicolon, and records the
  qualified names in between if it is a declaration.
* `Program.recorded_or_within` : each such run in a text is recorded, or stands in an item that
  binds a name to an import.
-/

namespace ModuleResolution

/-- The import binds the module to a name of its own. -/
def Import.Form.isBound : Import.Form → Bool
  | whole (some _) => true
  | _ => false

/-- The item binds a name to an import. -/
def Item.bindsImport : Item → Bool
  | declaration _ => false
  | importing i => i.form.isBound

namespace Program

open Reading

/-! ### Runs of tokens -/

/-- The tokens spell further names, each behind `::`. -/
inductive SpellsMore : List Token → List String → Prop
  | nil : SpellsMore [] []
  | cons {tokens names} (sign span : Span) (name : String) (h : SpellsMore tokens names) :
    SpellsMore (⟨.member, sign⟩ :: ⟨.word name, span⟩ :: tokens) (name :: names)

/-- The tokens spell the names, joined by `::`. -/
inductive Spells : List Token → List String → Prop
  | word {tokens names} (span : Span) (name : String) (h : SpellsMore tokens names) :
    Spells (⟨.word name, span⟩ :: tokens) (name :: names)

/-- The tokens do not end in a name and `::`. -/
def Detached (tokens : List Token) : Prop :=
  ∀ front name span sign, tokens ≠ front ++ [⟨.word name, span⟩, ⟨.member, sign⟩]

/-- The tokens `run` spell the qualified name `names`, and with `before` in front of them and
`behind` behind them they are as many as can be. -/
structure Qualified (before run behind : List Token) (names : List String) : Prop where
  spells : Spells run names
  two_le : 2 ≤ names.length
  /-- No further name stands in front. -/
  detached : Detached before
  /-- No further name stands behind. -/
  complete : ∀ sign name span rest, behind ≠ ⟨.member, sign⟩ :: ⟨.word name, span⟩ :: rest

variable {before run behind tokens rest left : List Token} {names : List String} {token : Token}

theorem Detached.of_append {front : List Token} (h : Detached (front ++ tokens)) :
    Detached tokens := by
  rintro front' name span sign rfl
  exact h (front ++ front') name span sign (List.append_assoc _ _ _).symm

theorem SpellsMore.kind_of_mem (h : SpellsMore run names) (ht : token ∈ run) :
    token.kind = .member ∨ ∃ name, token.kind = .word name := by
  induction h with
  | nil => cases ht
  | cons sign span name _ ih =>
    rcases List.mem_cons.1 ht with rfl | ht
    · exact .inl rfl
    · rcases List.mem_cons.1 ht with rfl | ht
      · exact .inr ⟨name, rfl⟩
      · exact ih ht

theorem Spells.exists_member (h : Spells run names) (hn : 2 ≤ names.length) :
    ∃ t ∈ run, t.kind = .member := by
  cases h with
  | word span name h =>
    cases h with
    | nil => simp at hn
    | cons sign => exact ⟨⟨.member, sign⟩, by simp, rfl⟩

theorem Spells.length_pos (h : Spells run names) : 0 < run.length := by
  cases h with
  | word => exact Nat.succ_pos _

namespace Qualified

theorem of_kinds (hs : Spells run names) (hn : 2 ≤ names.length)
    (hb : ∀ t ∈ before.getLast?, t.kind ≠ .member) (hk : kind behind ≠ .member) :
    Qualified before run behind names := by
  refine ⟨hs, hn, ?_, ?_⟩
  · rintro front name span sign rfl
    exact hb ⟨.member, sign⟩ (by simp) rfl
  · rintro sign name span rest rfl
    exact hk rfl

theorem uncons (hq : Qualified before run behind names)
    (ht : token :: rest = before ++ (run ++ behind)) :
    (∃ before', rest = before' ++ (run ++ behind) ∧ before = token :: before') ∨
      ∃ name span more moreNames, before = [] ∧ token = ⟨.word name, span⟩ ∧
        names = name :: moreNames ∧ SpellsMore more moreNames ∧ moreNames ≠ [] ∧
        rest = more ++ behind := by
  cases before with
  | cons token' before' =>
    obtain ⟨rfl, hrest⟩ := List.cons.inj ht
    exact .inl ⟨before', hrest, rfl⟩
  | nil =>
    have htwo := hq.two_le
    cases hq.spells with
    | @word more moreNames span name h =>
      obtain ⟨rfl, hrest⟩ := List.cons.inj ht
      refine .inr ⟨name, span, more, moreNames, rfl, rfl, rfl, h, ?_, hrest⟩
      rintro rfl
      simp at htwo

theorem of_append {front : List Token} (hq : Qualified (front ++ before) run behind names) :
    Qualified before run behind names :=
  { hq with detached := hq.detached.of_append }

theorem of_cons (hq : Qualified (token :: before) run behind names) :
    Qualified before run behind names := by
  rw [← List.singleton_append] at hq
  exact hq.of_append

theorem uncons_of_kind (hq : Qualified before run behind names)
    (ht : token :: rest = before ++ (run ++ behind)) (hk : ∀ name, token.kind ≠ .word name) :
    ∃ before', rest = before' ++ (run ++ behind) ∧ Qualified before' run behind names := by
  rcases hq.uncons ht with ⟨before', hrest, rfl⟩ | ⟨name, span, _, _, _, rfl, _⟩
  · exact ⟨before', hrest, hq.of_cons⟩
  · exact absurd rfl (hk name)

/-- A token that stands in no qualified name divides what is in front of it from what is behind. -/
theorem split (hq : Qualified before run behind names) {front : List Token}
    (ht : front ++ token :: rest = before ++ (run ++ behind)) (hm : token.kind ≠ .member)
    (hk : ∀ name, token.kind ≠ .word name) :
    rest.length < behind.length ∨
      ∃ before', rest = before' ++ (run ++ behind) ∧ Qualified before' run behind names := by
  induction front generalizing before with
  | nil => exact .inr (hq.uncons_of_kind ht hk)
  | cons token' front ih =>
    rcases hq.uncons ht with ⟨before', hrest, rfl⟩ | ⟨name, span, more, _, rfl, rfl, -, h, -, hrest⟩
    · exact ih hq.of_cons hrest
    · -- the token is not among those of the run
      left
      rcases List.append_eq_append_iff.1 hrest with ⟨inner, rfl, hinner⟩ | ⟨inner, -, rfl⟩
      · cases inner with
        | nil =>
          rw [List.nil_append] at hinner
          rw [← hinner]
          exact Nat.lt_succ_self _
        | cons token' inner =>
          obtain ⟨rfl, -⟩ := List.cons.inj hinner
          have hmem : token ∈ front ++ token :: inner :=
            List.mem_append_right _ List.mem_cons_self
          rcases h.kind_of_mem hmem with hmember | ⟨name, hname⟩
          · exact absurd hmember hm
          · exact absurd hname (hk name)
      · simp only [List.length_append, List.length_cons]
        omega

end Qualified

/-! ### Going over opaque tokens -/

theorem map_eq_done {α β : Type} {f : α → β} {s : Step α} {value : β}
    (h : s.map f = .done value left) : ∃ value', s = .done value' left ∧ f value' = value := by
  cases s with
  | done value' rest =>
    cases h
    exact ⟨value', rfl, rfl⟩
  | fail => cases h

theorem members_of_complete
    (h : ∀ sign name span rest, tokens ≠ ⟨.member, sign⟩ :: ⟨.word name, span⟩ :: rest) :
    members tokens = ([], tokens) := by
  unfold members
  split
  · exact absurd rfl (h _ _ _ _)
  · rfl

/-- The further names of a run are taken, and nothing behind them. -/
theorem members_of_spellsMore (h : SpellsMore run names)
    (hc : ∀ sign name span rest, behind ≠ ⟨.member, sign⟩ :: ⟨.word name, span⟩ :: rest) :
    (members (run ++ behind)).1.map Located.value = names ∧
      (members (run ++ behind)).2 = behind := by
  induction h with
  | nil =>
    rw [List.nil_append, members_of_complete hc]
    exact ⟨rfl, rfl⟩
  | cons sign span name _ ih =>
    obtain ⟨hnames, hbehind⟩ := ih
    rw [List.cons_append, List.cons_append, members]
    exact ⟨congrArg (name :: ·) hnames, hbehind⟩

/-- Taking further names does not cut into a run behind them. -/
theorem members_of_detached {before : List Token} {name : String} {span : Span}
    (hs : Spells run names) (hd : Detached (⟨.word name, span⟩ :: before)) :
    ∃ taken before', before = taken ++ before' ∧
      (members (before ++ (run ++ behind))).2 = before' ++ (run ++ behind) := by
  match before with
  | [] =>
    refine ⟨[], [], rfl, ?_⟩
    cases hs with
    | word => rfl
  | [token] =>
    refine ⟨[], [token], rfl, ?_⟩
    have hm : token.kind ≠ .member := by
      rintro hk
      refine hd [] name span token.span ?_
      rw [List.nil_append, ← hk]
    rw [members_of_complete]
    rintro sign name' span' rest he
    obtain ⟨rfl, -⟩ := List.cons.inj he
    exact hm rfl
  | token :: token' :: before =>
    by_cases h : ∃ sign name' span', token = ⟨.member, sign⟩ ∧ token' = ⟨.word name', span'⟩
    · obtain ⟨sign, name', span', rfl, rfl⟩ := h
      have hd' : Detached (⟨.word name', span'⟩ :: before) := by
        rw [← List.singleton_append, List.append_cons] at hd
        exact hd.of_append
      obtain ⟨taken, before', rfl, hrest⟩ := members_of_detached hs hd'
      exact ⟨_ :: _ :: taken, before', rfl, hrest⟩
    · refine ⟨[], _, rfl, ?_⟩
      rw [members_of_complete]
      rintro sign name' span' rest he
      obtain ⟨hsign, hrest⟩ := List.cons.inj he
      obtain ⟨hname, -⟩ := List.cons.inj hrest
      exact h ⟨sign, name', span', hsign, hname⟩

/-- **Going over opaque tokens records each qualified name among them**, with what stands behind
it. -/
theorem mem_references_of_scanFrom {ending : Span} {wanted : Token.Kind} {openers : List Span}
    {stop : Nat} {s : Stretch} (hs : scanFrom ending wanted openers stop tokens = .done s left)
    (ht : tokens = before ++ (run ++ behind)) (hq : Qualified before run behind names)
    (hl : left.length ≤ behind.length) :
    ∃ span, ⟨⟨names, kind behind == .opening .curly⟩, span⟩ ∈ s.references := by
  fun_induction scanFrom ending wanted openers stop tokens generalizing before s with
  | case1 | case2 | case5 => cases hs
  | case3 openers stop kind span rest h =>
    -- what is left starts in front of the run
    cases hs
    have hpos := hq.spells.length_pos
    rw [ht, List.length_append, List.length_append] at hl
    omega
  | case4 openers stop span rest bracket h ih =>
    obtain ⟨before', hrest, hq'⟩ := hq.uncons_of_kind ht (fun _ hk => by cases hk)
    exact ih hs hrest hq'
  | case6 stop span rest bracket opener outer h ih =>
    obtain ⟨before', hrest, hq'⟩ := hq.uncons_of_kind ht (fun _ hk => by cases hk)
    exact ih hs hrest hq'
  | case7 openers stop span rest name h hi =>
    rw [if_pos hi] at hs
    cases hs
  | case8 openers stop span rest name hnone h hi ih =>
    rw [if_neg hi, hnone] at hs
    rcases hq.uncons ht with
      ⟨before', hrest, rfl⟩ | ⟨_, _, more, moreNames, _, _, _, hm, hne, hrest⟩
    · exact ih hs hrest hq.of_cons
    · -- a run that starts here goes on behind this name
      rw [hrest, List.getLast?_eq_none_iff] at hnone
      have hnames := (members_of_spellsMore hm hq.complete).1
      rw [hnone] at hnames
      exact absurd hnames.symm hne
  | case9 openers stop span rest name last hlast h hi ih =>
    rw [if_neg hi, hlast] at hs
    obtain ⟨s₁, hs₁, rfl⟩ := map_eq_done hs
    rcases hq.uncons ht with
      ⟨before', hrest, rfl⟩ | ⟨_, _, more, moreNames, _, he, rfl, hm, hne, hrest⟩
    · -- a run that starts further behind is not cut into
      obtain ⟨taken, before'', rfl, hmembers⟩ := members_of_detached hq.spells hq.detached
      rw [← hrest] at hmembers
      obtain ⟨span', hmem⟩ := ih hs₁ hmembers hq.of_cons.of_append
      exact ⟨span', List.mem_cons_of_mem _ hmem⟩
    · obtain ⟨hnames, hbehind⟩ := members_of_spellsMore hm hq.complete
      cases he
      rw [hrest, referenceOf, hnames, hbehind]
      exact ⟨_, List.mem_cons_self⟩
  | case10 openers stop kind span rest h h₁ h₂ h₃ ih =>
    obtain ⟨before', hrest, hq'⟩ := hq.uncons_of_kind ht (fun name hk => h₃ name hk)
    exact ih hs hrest hq'

/-! ### Readings that succeed -/

section Done

variable {α β : Type} {ending : Span}

theorem bind_eq_done {reading : Reading α} {next : α → Reading β} {value : β}
    (h : (reading >>= next) ending tokens = .done value left) :
    ∃ value' rest, reading ending tokens = .done value' rest ∧
      next value' ending rest = .done value left := by
  simp only [Bind.bind] at h
  cases hr : reading ending tokens with
  | done value' rest =>
    rw [hr] at h
    exact ⟨value', rest, rfl, h⟩
  | fail error rest =>
    rw [hr] at h
    cases h

theorem eq_cons_of_kind {wanted : Token.Kind} (hw : wanted ≠ .endOfFile)
    (hk : kind tokens = wanted) : tokens = ⟨wanted, place ending tokens⟩ :: tokens.tail := by
  cases tokens with
  | nil => exact absurd hk.symm hw
  | cons token rest =>
    rw [← hk]
    rfl

theorem expect_eq_done {wanted : Token.Kind} {spot : Problem.Place} {span : Span}
    (hw : wanted ≠ .endOfFile) (h : expect wanted spot ending tokens = .done span left) :
    tokens = ⟨wanted, span⟩ :: left := by
  rw [expect] at h
  split at h
  · cases h
    exact eq_cons_of_kind hw ‹_›
  · cases h

theorem accept_eq_done {wanted : Token.Kind} {taken : Bool} (hw : wanted ≠ .endOfFile)
    (h : accept wanted ending tokens = .done taken left) :
    if taken then ∃ span, tokens = ⟨wanted, span⟩ :: left else left = tokens := by
  rw [accept] at h
  split at h
  · cases h
    exact ⟨place ending tokens, eq_cons_of_kind hw ‹_›⟩
  · cases h
    rfl

theorem suffix_of_done {reading : Reading α} {value : α} (hk : Keeps reading)
    (h : reading ending tokens = .done value left) : left <:+ tokens := by
  have hsuffix := hk ending tokens
  rw [h] at hsuffix
  exact hsuffix

theorem atImport_iff : atImport tokens = true ↔
    ∃ span rest, tokens = ⟨.word "import", span⟩ :: rest ∧ kind rest = .opening .round := by
  constructor
  · intro h
    unfold atImport at h
    split at h
    · rename_i name span rest
      rw [Bool.and_eq_true, beq_iff_eq, beq_iff_eq] at h
      exact ⟨span, rest, by rw [h.1], h.2⟩
    · cases h
  · rintro ⟨span, rest, rfl, h⟩
    simp [atImport, h]

theorem acceptImport_eq_done {taken : Bool} (h : acceptImport ending tokens = .done taken left) :
    if taken then (∃ span, tokens = ⟨.word "import", span⟩ :: left) ∧ kind left = .opening .round
    else left = tokens := by
  unfold acceptImport at h
  split at h
  · rename_i hi
    obtain ⟨span, rest, rfl, hround⟩ := atImport_iff.1 hi
    cases h
    exact ⟨⟨span, rfl⟩, hround⟩
  · cases h
    rfl

theorem scan_eq_done {wanted : Token.Kind} {body : Span} {references : List (Located Reference)}
    (h : scan wanted ending tokens = .done (body, references) left) :
    ∃ s, scanFrom ending wanted [] (place ending tokens).start tokens = .done s left ∧
      body = ⟨(place ending tokens).start, s.stop⟩ ∧ references = s.references := by
  obtain ⟨s, hs, he⟩ := map_eq_done h
  obtain ⟨hbody, hreferences⟩ := Prod.mk.inj he
  exact ⟨s, hs, hbody.symm, hreferences.symm⟩

theorem importRest_eq_done {start : Span} {form : Import.Form} {found : Located Item}
    (h : importRest start form ending tokens = .done found left) :
    ∃ round path closing semicolon,
      tokens = ⟨.opening .round, round⟩ :: ⟨.text path.value, path.span⟩ ::
        ⟨.closing .round, closing⟩ :: ⟨.semicolon, semicolon⟩ :: left ∧
      found = ⟨.importing ⟨path, form⟩, start.join semicolon⟩ := by
  obtain ⟨path, rest, htarget, h⟩ := bind_eq_done h
  obtain ⟨semicolon, rest', hsemicolon, h⟩ := bind_eq_done h
  cases h
  obtain ⟨round, rest₁, hround, htarget⟩ := bind_eq_done htarget
  obtain ⟨path', rest₂, hpath, htarget⟩ := bind_eq_done htarget
  obtain ⟨closing, rest₃, hclosing, htarget⟩ := bind_eq_done htarget
  cases htarget
  unfold importPath at hpath
  split at hpath
  · cases hpath
    rw [expect_eq_done (by decide) hround, expect_eq_done (by decide) hclosing,
      expect_eq_done (by decide) hsemicolon]
    exact ⟨_, _, _, _, rfl, rfl⟩
  · cases hpath

theorem bindingType_eq_done {name : Located String} {references : List (Located Reference)}
    (h : bindingType name ending tokens = .done references left) :
    (∃ span, tokens = ⟨.define, span⟩ :: left) ∨
      ∃ colon rest start s equals, tokens = ⟨.colon, colon⟩ :: rest ∧
        scanFrom ending .equals [] start rest = .done s (⟨.equals, equals⟩ :: left) ∧
        references = s.references := by
  obtain ⟨taken, rest, haccept, hnext⟩ := bind_eq_done h
  have htaken := accept_eq_done (by decide) haccept
  cases taken with
  | true =>
    obtain ⟨colon, hcolon⟩ := htaken
    obtain ⟨⟨type, more⟩, rest', hscan, hstop⟩ := bind_eq_done hnext
    obtain ⟨equals, rest'', hexpect, hdone⟩ := bind_eq_done hstop
    cases hdone
    obtain ⟨s, hs, -, rfl⟩ := scan_eq_done hscan
    rw [expect_eq_done (by decide) hexpect] at hs
    exact .inr ⟨colon, rest, _, s, equals, hcolon, hs, rfl⟩
  | false =>
    rw [if_neg Bool.false_ne_true] at htaken
    obtain ⟨span, rest', hexpect, hdone⟩ := bind_eq_done hnext
    cases hdone
    rw [htaken] at hexpect
    exact .inl ⟨span, expect_eq_done (by decide) hexpect⟩

theorem value_eq_done {name : Located String} {references : List (Located Reference)}
    {found : Located Item} (h : value name references ending tokens = .done found left) :
    ∃ s semicolon,
      scanFrom ending .semicolon [] (place ending tokens).start tokens =
        .done s (⟨.semicolon, semicolon⟩ :: left) ∧
      (place ending tokens).start < s.stop ∧
      found = ⟨.declaration ⟨name, valueKind tokens, .exported,
        ⟨(place ending tokens).start, s.stop⟩, references ++ s.references⟩,
        name.span.join semicolon⟩ := by
  obtain ⟨kind, rest, hkind, hnext⟩ := bind_eq_done h
  cases hkind
  obtain ⟨⟨body, more⟩, rest, hscan, hvalue⟩ := bind_eq_done hnext
  obtain ⟨s, hs, rfl, rfl⟩ := scan_eq_done hscan
  dsimp only at hvalue
  split at hvalue
  · cases hvalue
  · rename_i hempty
    rw [Span.isEmpty_iff, Nat.not_le] at hempty
    obtain ⟨semicolon, rest', hexpect, hdone⟩ := bind_eq_done hvalue
    cases hdone
    rw [expect_eq_done (by decide) hexpect] at hs
    exact ⟨s, semicolon, hs, hempty, rfl⟩

end Done

/-! ### Readings that take no qualified name -/

/-- The reading takes no `::`. -/
def Plain {α : Type} (reading : Reading α) : Prop :=
  ∀ ending tokens value left, reading ending tokens = .done value left →
    ∃ taken, tokens = taken ++ left ∧ ∀ t ∈ taken, t.kind ≠ .member

section Plain

variable {α β : Type}

theorem plain_of_eq {reading : Reading α}
    (h : ∀ ending tokens value left, reading ending tokens = .done value left → left = tokens) :
    Plain reading := by
  intro ending tokens value left hdone
  rw [h ending tokens value left hdone]
  exact ⟨[], rfl, fun t ht => by cases ht⟩

theorem Plain.bind {reading : Reading α} {next : α → Reading β} (h : Plain reading)
    (hn : ∀ value, Plain (next value)) : Plain (reading >>= next) := by
  intro ending tokens value left hdone
  obtain ⟨value', rest, hfirst, hnext⟩ := bind_eq_done hdone
  obtain ⟨taken, rfl, htaken⟩ := h _ _ _ _ hfirst
  obtain ⟨taken', rfl, htaken'⟩ := hn value' _ _ _ _ hnext
  refine ⟨taken ++ taken', (List.append_assoc _ _ _).symm, ?_⟩
  intro t ht
  rcases List.mem_append.1 ht with ht | ht
  · exact htaken t ht
  · exact htaken' t ht

theorem plain_pure (value : α) : Plain (pure value) := by
  refine plain_of_eq ?_
  intro ending tokens value' left h
  cases h
  rfl

theorem plain_fail (problem : Problem) : Plain (fail problem : Reading α) :=
  plain_of_eq fun _ _ _ _ h => by cases h

theorem plain_next : Plain next := by
  refine plain_of_eq ?_
  intro ending tokens value left h
  cases h
  rfl

theorem plain_expect (wanted : Token.Kind) (spot : Problem.Place) (hw : wanted ≠ .endOfFile)
    (hm : wanted ≠ .member) : Plain (expect wanted spot) := by
  intro ending tokens span left h
  refine ⟨[⟨wanted, span⟩], expect_eq_done hw h, ?_⟩
  intro t ht
  rw [List.mem_singleton.1 ht]
  exact hm

theorem plain_acceptImport : Plain acceptImport := by
  intro ending tokens taken left h
  have htaken := acceptImport_eq_done h
  cases taken with
  | true =>
    obtain ⟨⟨span, hword⟩, -⟩ := htaken
    exact ⟨[⟨.word "import", span⟩], hword, by simp⟩
  | false => exact ⟨[], htaken.symm, by simp⟩

theorem plain_importPath : Plain importPath := by
  intro ending tokens path left h
  unfold importPath at h
  split at h
  · cases h
    exact ⟨[_], rfl, by simp⟩
  · cases h

theorem plain_importTarget : Plain importTarget :=
  (plain_expect (.opening .round) _ (by decide) (by decide)).bind fun _ =>
    plain_importPath.bind fun _ =>
      (plain_expect (.closing .round) _ (by decide) (by decide)).bind fun _ => plain_pure _

theorem plain_importRest (start : Span) (form : Import.Form) : Plain (importRest start form) :=
  plain_importTarget.bind fun _ =>
    (plain_expect .semicolon _ (by decide) (by decide)).bind fun _ => plain_pure _

theorem plain_requests : Plain requests := by
  intro ending tokens value left h
  fun_induction requests ending tokens generalizing value with
  | case1 =>
    cases h
    exact ⟨[], rfl, by simp⟩
  | case2 _ _ _ _ _ _ rest ih =>
    obtain ⟨value', hrest, -⟩ := map_eq_done h
    obtain ⟨taken, rfl, htaken⟩ := ih _ hrest
    exact ⟨_ :: _ :: _ :: _ :: taken, rfl, by simpa using htaken⟩
  | case3 =>
    cases h
    exact ⟨[_, _, _], rfl, by simp⟩
  | case4 => cases h
  | case5 _ _ _ rest ih =>
    obtain ⟨value', hrest, -⟩ := map_eq_done h
    obtain ⟨taken, rfl, htaken⟩ := ih _ hrest
    exact ⟨_ :: _ :: taken, rfl, by simpa using htaken⟩
  | case6 =>
    cases h
    exact ⟨[_], rfl, by simp⟩
  | case7 => cases h

theorem plain_selection (start : Span) : Plain (selection start) := by
  refine plain_requests.bind fun _ =>
    (plain_expect (.closing .curly) _ (by decide) (by decide)).bind fun _ =>
      (plain_expect .define _ (by decide) (by decide)).bind fun _ =>
        plain_acceptImport.bind fun taken => ?_
  split
  · exact plain_importRest _ _
  · exact plain_next.bind fun _ => plain_fail _

end Plain

/-! ### Items -/

/-- A qualified name behind the name of a binding is recorded if it stands in the type, or stands
behind what comes before the value. -/
theorem Qualified.of_bindingType {ending : Span} {name : Located String}
    {references : List (Located Reference)} (hq : Qualified before run behind names)
    (h : bindingType name ending rest = .done references left)
    (ht : ⟨.word name.value, name.span⟩ :: rest = before ++ (run ++ behind)) :
    (∃ span, ⟨⟨names, kind behind == .opening .curly⟩, span⟩ ∈ references) ∨
      ∃ before', left = before' ++ (run ++ behind) ∧ Qualified before' run behind names := by
  rcases hq.uncons ht with ⟨before', hrest, rfl⟩ | ⟨_, _, more, _, _, _, _, hm, hne, hrest⟩
  · rcases bindingType_eq_done h with
      ⟨span, rfl⟩ | ⟨colon, rest', start, s, equals, rfl, hs, rfl⟩
    · exact .inr (hq.of_cons.uncons_of_kind hrest (fun _ hk => by cases hk))
    · obtain ⟨before'', hrest', hq'⟩ :=
        hq.of_cons.uncons_of_kind hrest (fun _ hk => by cases hk)
      have hsuffix := scanFrom_suffix ending .equals [] start rest'
      rw [hs] at hsuffix
      obtain ⟨type, htype⟩ := hsuffix
      change type ++ ⟨.equals, equals⟩ :: left = rest' at htype
      -- the sign behind the type is in no qualified name
      rcases hq'.split (htype.trans hrest') (fun hk => by cases hk) (fun _ hk => by cases hk) with
        hlt | hbehind
      · exact .inl (mem_references_of_scanFrom hs hrest' hq' hlt)
      · exact .inr hbehind
  · -- the name of the binding is not qualified
    exfalso
    cases hm with
    | nil => exact hne rfl
    | cons sign span name _ =>
      rcases bindingType_eq_done h with ⟨span, rfl⟩ | ⟨colon, rest', _, _, _, rfl, -, -⟩
      · cases hrest
      · cases hrest

/-- The item `found` is read off the tokens `tokens`, so that `left` are left: it starts where the
first token does, and ends where a semicolon does.  If it is a declaration, it records the qualified
names in between. -/
structure Covers (tokens : List Token) (found : Located Item) (left : List Token) : Prop where
  extent : ∃ first body semicolon, tokens = first :: (body ++ ⟨.semicolon, semicolon⟩ :: left) ∧
    found.span = first.span.join semicolon
  recorded : ∀ {d before run behind names}, found.value = .declaration d →
    Qualified before run behind names → tokens = before ++ (run ++ behind) →
    left.length < behind.length →
    ∃ span, ⟨⟨names, kind behind == .opening .curly⟩, span⟩ ∈ d.references
  /-- An import that is not bound to a name takes no `::`. -/
  plain : ∀ {i}, found.value = .importing i → i.form.isBound = false →
    ∃ taken, tokens = taken ++ left ∧ ∀ t ∈ taken, t.kind ≠ .member

namespace Covers

variable {ending start : Span} {found : Located Item} {form : Import.Form} {name : Located String}
  {references : List (Located Reference)}

theorem of_importRest {taken : List Token} {kind : Token.Kind} (hs : taken <:+ rest)
    (h : importRest start form ending taken = .done found left)
    (hp : form.isBound = false → kind ≠ .member ∧
      ∃ taken, rest = taken ++ left ∧ ∀ t ∈ taken, t.kind ≠ .member) :
    Covers (⟨kind, start⟩ :: rest) found left := by
  obtain ⟨round, path, closing, semicolon, htaken, rfl⟩ := importRest_eq_done h
  refine ⟨?_, ?_, ?_⟩
  · obtain ⟨front, rfl⟩ := hs
    refine ⟨⟨kind, start⟩, front ++ [⟨.opening .round, round⟩, ⟨.text path.value, path.span⟩,
      ⟨.closing .round, closing⟩], semicolon, ?_, rfl⟩
    rw [htaken, List.append_assoc]
    rfl
  · rintro d _ _ _ _ he
    cases he
  · rintro i he hform
    cases he
    obtain ⟨hkind, front, rfl, hfront⟩ := hp hform
    exact ⟨⟨kind, start⟩ :: front, rfl, List.forall_mem_cons.2 ⟨hkind, hfront⟩⟩

theorem of_selection {kind : Token.Kind} (hk : kind ≠ .member)
    (h : selection start ending rest = .done found left) :
    Covers (⟨kind, start⟩ :: rest) found left := by
  have hplain := plain_selection start _ _ _ _ h
  obtain ⟨requests, rest₁, h₁, h⟩ := bind_eq_done h
  obtain ⟨_, rest₂, h₂, h⟩ := bind_eq_done h
  obtain ⟨_, rest₃, h₃, h⟩ := bind_eq_done h
  obtain ⟨taken, rest₄, h₄, h⟩ := bind_eq_done h
  have hsuffix : rest₄ <:+ rest :=
    (((suffix_of_done keeps_acceptImport h₄).trans (suffix_of_done (keeps_expect _ _) h₃)).trans
      (suffix_of_done (keeps_expect _ _) h₂)).trans (suffix_of_done keeps_requests h₁)
  cases taken with
  | true => exact of_importRest hsuffix h fun _ => ⟨hk, hplain⟩
  | false =>
    obtain ⟨_, _, -, h⟩ := bind_eq_done h
    cases h

theorem of_binding (h : binding name ending rest = .done found left) :
    Covers (⟨.word name.value, name.span⟩ :: rest) found left := by
  obtain ⟨references, rest₁, htype, hnext⟩ := bind_eq_done h
  obtain ⟨taken, rest₂, haccept, hvalue⟩ := bind_eq_done hnext
  have hsuffix₁ := suffix_of_done (keeps_bindingType name) htype
  cases taken with
  | true =>
    have hsuffix₂ := suffix_of_done keeps_acceptImport haccept
    exact of_importRest (hsuffix₂.trans hsuffix₁) hvalue fun hform => by cases hform
  | false =>
    have hrest : rest₂ = rest₁ := acceptImport_eq_done haccept
    rw [if_neg Bool.false_ne_true, hrest] at hvalue
    obtain ⟨s, semicolon, hs, -, rfl⟩ := value_eq_done hvalue
    have hsuffix₂ := scanFrom_suffix ending .semicolon [] (place ending rest₁).start rest₁
    rw [hs] at hsuffix₂
    obtain ⟨front, rfl⟩ := hsuffix₂.trans hsuffix₁
    refine ⟨⟨_, front, semicolon, rfl, rfl⟩, ?_, fun hi => by cases hi⟩
    intro d before run behind names hd hq ht hlt
    cases hd
    rcases hq.of_bindingType htype ht with ⟨span, hmem⟩ | ⟨before', hrest, hq'⟩
    · exact ⟨span, List.mem_append_left _ hmem⟩
    · obtain ⟨span, hmem⟩ := mem_references_of_scanFrom hs hrest hq' hlt
      exact ⟨span, List.mem_append_right _ hmem⟩

theorem of_item (h : item token ending rest = .done found left) :
    Covers (token :: rest) found left := by
  unfold item at h
  split at h
  · split at h
    · exact of_importRest List.suffix_rfl h fun _ =>
        ⟨(fun hk => by cases hk), plain_importRest _ _ _ _ _ _ h⟩
    · exact of_binding h
  · exact of_selection (fun hk => by cases hk) h
  · cases h

/-- **An item records the qualified names in it**, unless it binds a name to an import. -/
theorem recorded_or_bound (hc : Covers (before ++ (run ++ behind)) found left)
    (hq : Qualified before run behind names) (hl : left.length < behind.length) :
    (∃ d, found.value = .declaration d ∧
      ∃ span, ⟨⟨names, kind behind == .opening .curly⟩, span⟩ ∈ d.references) ∨
    found.value.bindsImport = true := by
  cases hvalue : found.value with
  | declaration d => exact .inl ⟨d, rfl, hc.recorded hvalue hq rfl hl⟩
  | importing i =>
    cases hform : i.form.isBound with
    | true => exact .inr hform
    | false =>
      -- the run holds a `::`, and the tokens of the item do not
      exfalso
      obtain ⟨taken, htaken, hplain⟩ := hc.plain hvalue hform
      obtain ⟨t, ht, hmember⟩ := hq.spells.exists_member hq.two_le
      rw [← List.append_assoc] at htaken
      have hle : (before ++ run).length ≤ taken.length := by
        have hlen := congrArg List.length htaken
        simp only [List.length_append] at hlen ⊢
        omega
      have hrun : before ++ run <+: taken ++ left := ⟨behind, htaken⟩
      have hfront := List.prefix_of_prefix_length_le hrun (List.prefix_append _ _) hle
      exact hplain t (hfront.subset (List.mem_append_right _ ht)) hmember

theorem within (hc : Covers (before ++ (run ++ behind)) found left)
    (ho : Token.Ordered (before ++ (run ++ behind))) (hl : left.length < behind.length)
    (ht : token ∈ run) : token.span.Within found.span := by
  obtain ⟨first, body, semicolon, hextent, hspan⟩ := hc.extent
  have hmem : token ∈ before ++ (run ++ behind) :=
    List.mem_append_right _ (List.mem_append_left _ ht)
  -- the semicolon stands behind the run
  have hsemicolon : ⟨.semicolon, semicolon⟩ ∈ behind := by
    have hsuffix : ⟨.semicolon, semicolon⟩ :: left <:+ before ++ (run ++ behind) := by
      rw [hextent]
      exact ⟨first :: body, rfl⟩
    have hbehind : behind <:+ before ++ (run ++ behind) :=
      (List.suffix_append _ _).trans (List.suffix_append _ _)
    exact (List.suffix_of_suffix_length_le hsuffix hbehind hl).subset List.mem_cons_self
  have hstop : token.span.stop ≤ semicolon.start := by
    have hapart := (List.pairwise_append.1 (List.pairwise_append.1 ho.apart).2.1).2.2
    exact hapart token ht _ hsemicolon
  have hforward : semicolon.start ≤ semicolon.stop :=
    ho.forward _ (List.mem_append_right _ (List.mem_append_right _ hsemicolon))
  have hstart : first.span.start ≤ token.span.start := by
    rw [hextent] at hmem ho
    rcases List.mem_cons.1 hmem with rfl | hmem
    · exact Nat.le_refl _
    · have hfirst := ho.forward first List.mem_cons_self
      exact Nat.le_trans hfirst ((List.pairwise_cons.1 ho.apart).1 token hmem)
  rw [hspan]
  refine ⟨Nat.le_trans (Nat.min_le_left _ _) hstart, ?_⟩
  exact Nat.le_trans (Nat.le_trans hstop hforward) (Nat.le_max_right _ _)

end Covers

/-! ### Texts -/

/-- Each qualified name among the tokens of items stands in one of the items. -/
theorem covers_of_items {ending : Span} {found : List (Located Item)}
    (h : items ending tokens = ([], found)) (hq : Qualified before run behind names)
    (ht : tokens = before ++ (run ++ behind)) :
    ∃ x ∈ found, ∃ before' left, before' ++ (run ++ behind) <:+ tokens ∧
      Qualified before' run behind names ∧ Covers (before' ++ (run ++ behind)) x left ∧
      left.length < behind.length := by
  fun_induction items ending tokens generalizing before found with
  | case1 =>
    have hpos := hq.spells.length_pos
    have hlen := congrArg List.length ht
    simp only [List.length_nil, List.length_append] at hlen
    omega
  | case2 first rest hk ih =>
    obtain ⟨before', hrest, hq'⟩ :=
      hq.uncons_of_kind ht (fun name hn => by rw [hk] at hn; cases hn)
    obtain ⟨x, hx, before'', left, hsuffix, hcovers⟩ := ih h hq' hrest
    exact ⟨x, hx, before'', left, hsuffix.trans (List.suffix_cons _ _), hcovers⟩
  | case3 first rest _ x left hi =>
    rename_i ih
    obtain ⟨herrors, rfl⟩ := Prod.mk.inj h
    have hcovers := Covers.of_item hi
    obtain ⟨start, body, semicolon, hextent, -⟩ := hcovers.extent
    have hsplit : (start :: body) ++ ⟨.semicolon, semicolon⟩ :: left =
        before ++ (run ++ behind) := by
      rw [← ht, hextent, List.cons_append]
    -- the semicolon is in no qualified name
    rcases hq.split hsplit (fun hk => by cases hk) (fun _ hk => by cases hk) with
      hbehind | ⟨before', hleft, hq'⟩
    · rw [ht] at hcovers ⊢
      exact ⟨x, List.mem_cons_self, before, left, List.suffix_rfl, hq, hcovers, hbehind⟩
    · obtain ⟨y, hy, before'', left', hsuffix, hcovers'⟩ := ih (Prod.ext herrors rfl) hq' hleft
      refine ⟨y, List.mem_cons_of_mem x hy, before'', left', hsuffix.trans ?_, hcovers'⟩
      rw [hextent]
      exact ⟨start :: body ++ [⟨.semicolon, semicolon⟩], by simp⟩
  | case4 => cases h

theorem kind_append_endOfFile (span : Span) :
    kind (tokens ++ [⟨.endOfFile, span⟩]) = kind tokens := by
  cases tokens <;> rfl

theorem Qualified.of_closed {span : Span}
    (hq : Qualified before run (behind ++ [⟨.endOfFile, span⟩]) names) :
    Qualified before run behind names := by
  refine { hq with complete := ?_ }
  rintro sign name span' rest rfl
  exact hq.complete sign name span' (rest ++ [⟨.endOfFile, span⟩]) rfl

/-- The tokens in front of the end of the file. -/
def beforeEnd (tokens : List Token) : List Token := tokens.takeWhile (·.kind != .endOfFile)

theorem beforeEnd_closed {body : List Token} {span : Span} (hk : ∀ t ∈ body, t.kind ≠ .endOfFile) :
    beforeEnd (body ++ [⟨.endOfFile, span⟩]) = body := by
  have hall : ∀ t ∈ body, (t.kind != .endOfFile) = true := fun t h => by simpa using hk t h
  rw [beforeEnd, List.takeWhile_append_of_pos hall]
  simp

theorem ofTokens_eq_ok_iff {found : List (Located Item)} :
    ofTokens tokens = .ok found ↔ items (ending tokens) (beforeEnd tokens) = ([], found) := by
  unfold ofTokens
  split
  · rename_i hitems
    rw [beforeEnd, hitems, Except.ok.injEq, Prod.mk.injEq, eq_self_iff_true, true_and]
  · rename_i hne hitems
    refine iff_of_false (fun h => by cases h) fun h => ?_
    exact hne (congrArg Prod.fst (hitems.symm.trans h))

/-- The items of a text are those of its tokens, up to the end of the file. -/
theorem items_of_ofText {source : String} {found : List (Located Item)} {body : List Token}
    {span : Span} (ht : tokenize source = .ok (body ++ [⟨.endOfFile, span⟩]))
    (hk : ∀ t ∈ body, t.kind ≠ .endOfFile) (hf : ofText source = .ok found) :
    ∃ ending, items ending body = ([], found) := by
  simp only [ofText, ht] at hf
  have hitems := ofTokens_eq_ok_iff.1 hf
  rw [beforeEnd_closed hk] at hitems
  exact ⟨_, hitems⟩

/-- **Each qualified name in a text is recorded**, unless it stands where a name is bound to an
import. -/
theorem recorded_or_within {source : String} {found : List (Located Item)}
    (ht : tokenize source = .ok tokens) (hf : ofText source = .ok found)
    (hs : tokens = before ++ (run ++ behind)) (hq : Qualified before run behind names) :
    (∃ x ∈ found, ∃ d, x.value = .declaration d ∧
      ∃ span, ⟨⟨names, kind behind == .opening .curly⟩, span⟩ ∈ d.references) ∨
    ∃ x ∈ found, x.value.bindsImport = true ∧ ∀ t ∈ run, t.span.Within x.span := by
  obtain ⟨body, span, rfl, hkinds⟩ := tokenize_closed ht
  obtain ⟨ending, hitems⟩ := items_of_ofText ht hkinds hf
  -- the end of the file stands behind the run
  obtain ⟨behind', rfl⟩ : ∃ behind', behind = behind' ++ [⟨.endOfFile, span⟩] := by
    rcases hq.split hs (fun hk => by cases hk) (fun _ hk => by cases hk) with hlt | ⟨_, hnil, -⟩
    · have hend : [⟨.endOfFile, span⟩] <:+ body ++ [⟨.endOfFile, span⟩] := List.suffix_append _ _
      have hbehind : behind <:+ body ++ [⟨.endOfFile, span⟩] := by
        rw [hs]
        exact (List.suffix_append _ _).trans (List.suffix_append _ _)
      obtain ⟨behind', hbehind'⟩ := List.suffix_of_suffix_length_le hend hbehind hlt
      exact ⟨behind', hbehind'.symm⟩
    · have hpos := hq.spells.length_pos
      have hlen := congrArg List.length hnil
      simp only [List.length_nil, List.length_append] at hlen
      omega
  rw [← List.append_assoc, ← List.append_assoc] at hs
  have hbody : body = before ++ (run ++ behind') := by
    rw [← List.append_assoc]
    exact List.append_cancel_right hs
  obtain ⟨x, hx, before', left, hsuffix, hq', hcovers, hlt⟩ :=
    covers_of_items hitems hq.of_closed hbody
  rw [kind_append_endOfFile]
  rcases hcovers.recorded_or_bound hq' hlt with ⟨d, hd, hmem⟩ | hbound
  · exact .inl ⟨x, hx, d, hd, hmem⟩
  · refine .inr ⟨x, hx, hbound, fun t hmem => hcovers.within ?_ hlt hmem⟩
    have hordered := tokenize_ordered ht
    have hsublist := hsuffix.sublist.trans (List.sublist_append_left body [⟨.endOfFile, span⟩])
    exact hordered.sublist hsublist

end Program

end ModuleResolution
