import ModuleResolution.Proofs.Anatomy
import ModuleResolution.Proofs.Segments

/-!
# Brackets of items

In the tokens of an item the brackets pair up: each one that closes closes the innermost one that
is open in front of it, and none stays open.  But what is gone over unread, the type of a binding
and its value, is only counted: there a bracket closes another one whatever the shapes of the two.
So the brackets of an item fit exactly where those of its types and values do.

* `Grammar.Pairs` : how the brackets among some kinds pair up.
* `Grammar.Fitting` : they pair up, and those of a pair have one shape.
* `Grammar.Part.stretches` : what is gone over unread in a part.
* `Program.fitting_items_iff` : the brackets of an item pair up, and fit exactly where those that
  are gone over unread do.
* `Program.brackets_mixed` : an item whose brackets do not fit.
-/

namespace ModuleResolution

namespace Grammar

variable {kind : Token.Kind} {kinds front inner rest : List Token.Kind} {openers : List Bracket}
  {pairs pairs' : List (Bracket × Bracket)} {part : Part}

/-! ### Pairs of brackets -/

/-- The brackets among the kinds pair up: each one that closes closes the innermost one that is
open in front of it, and none stays open.  `pairs` are the two of each pair, in the order in which
they close. -/
inductive Pairs : List Token.Kind → List (Bracket × Bracket) → Prop
  | nil : Pairs [] []
  | inert {kind : Token.Kind} {rest : List Token.Kind} {pairs : List (Bracket × Bracket)}
    (hk : Inert kind) (h : Pairs rest pairs) : Pairs (kind :: rest) pairs
  | group {inner rest : List Token.Kind} {pairs pairs' : List (Bracket × Bracket)}
    (first last : Bracket) (hi : Pairs inner pairs) (h : Pairs rest pairs') :
    Pairs (.opening first :: (inner ++ .closing last :: rest)) (pairs ++ (first, last) :: pairs')

/-- The brackets among the kinds pair up, `(` with `)`, `[` with `]` and `{` with `}`. -/
def Fitting (kinds : List Token.Kind) : Prop :=
  ∃ pairs, Pairs kinds pairs ∧ ∀ pair ∈ pairs, pair.1 = pair.2

/-- The pairs that close among the kinds if `openers` are open in front of them, innermost first;
there is no answer if one is closed that was not opened, or one stays open. -/
def pairs? (openers : List Bracket) : List Token.Kind → Option (List (Bracket × Bracket))
  | [] => if openers = [] then some [] else none
  | kind :: rest =>
    match kind with
    | .opening bracket => pairs? (bracket :: openers) rest
    | .closing bracket =>
      match openers with
      | [] => none
      | opener :: outer => (pairs? outer rest).map ((opener, bracket) :: ·)
    | _ => pairs? openers rest

theorem pairs?_cons_of_inert (h : Inert kind) :
    pairs? openers (kind :: rest) = pairs? openers rest := by
  cases kind with
  | opening bracket => exact absurd rfl (h.1 bracket)
  | closing bracket => exact absurd rfl (h.2 bracket)
  | _ => rfl

theorem Pairs.pairs?_append (h : Pairs front pairs) (openers : List Bracket)
    (rest : List Token.Kind) :
    pairs? openers (front ++ rest) = (pairs? openers rest).map (pairs ++ ·) := by
  induction h generalizing openers rest with
  | nil => simp
  | inert hk _ ih => rw [List.cons_append, pairs?_cons_of_inert hk, ih]
  | @group inner behind pairs pairs' first last _ _ ih ih' =>
    rw [List.cons_append, List.append_assoc, List.cons_append]
    simp only [pairs?, ih, ih', Option.map_map]
    congr 1
    funext more
    simp

/-- What `pairs?` tells of kinds with brackets open in front of them: if none is, theirs pair up;
if one is, it is closed behind some that do, and the others are behind it. -/
def Closes (kinds : List Token.Kind) (pairs : List (Bracket × Bracket)) : List Bracket → Prop
  | [] => Pairs kinds pairs
  | opener :: outer => ∃ inner last rest front behind,
    kinds = inner ++ .closing last :: rest ∧ pairs = front ++ (opener, last) :: behind ∧
      Pairs inner front ∧ pairs? outer rest = some behind

theorem Closes.inert (hk : Inert kind) (h : Closes rest pairs openers) :
    Closes (kind :: rest) pairs openers := by
  cases openers with
  | nil => exact Pairs.inert hk h
  | cons opener outer =>
    obtain ⟨inner, last, rest', front, behind, rfl, rfl, hinner, hrest⟩ := h
    exact ⟨kind :: inner, last, rest', front, behind, rfl, rfl, .inert hk hinner, hrest⟩

theorem Closes.group {first last : Bracket} (hi : Pairs inner pairs)
    (h : Closes rest pairs' openers) :
    Closes (.opening first :: (inner ++ .closing last :: rest)) (pairs ++ (first, last) :: pairs')
      openers := by
  cases openers with
  | nil => exact Pairs.group first last hi h
  | cons opener outer =>
    obtain ⟨inner', last', rest', front, behind, rfl, rfl, hinner, hrest⟩ := h
    exact ⟨.opening first :: (inner ++ .closing last :: inner'), last', rest',
      pairs ++ (first, last) :: front, behind, by simp, by simp, .group first last hi hinner, hrest⟩

theorem closes_of_pairs? (h : pairs? openers kinds = some pairs) : Closes kinds pairs openers := by
  -- behind a group the kinds are fewer, but no tail that the definition goes on with
  induction hn : kinds.length using Nat.strong_induction_on generalizing kinds openers pairs with
  | _ n ih =>
    subst hn
    cases kinds with
    | nil =>
      obtain ⟨rfl, rfl⟩ : openers = [] ∧ [] = pairs := by simpa [pairs?] using h
      exact Pairs.nil
    | cons kind rest =>
      cases kind with
      | opening first =>
        have h : pairs? (first :: openers) rest = some pairs := h
        obtain ⟨inner, last, rest', front, behind, rfl, rfl, hinner, hrest⟩ :=
          ih _ (Nat.lt_succ_self _) h rfl
        exact .group hinner (ih _ (by simp; omega) hrest rfl)
      | closing last =>
        cases openers with
        | nil => cases h
        | cons opener outer =>
          obtain ⟨behind, hrest, rfl⟩ := Option.map_eq_some_iff.1 h
          exact ⟨[], last, rest, [], behind, rfl, rfl, .nil, hrest⟩
      | _ =>
        have h : pairs? openers rest = some pairs := h
        exact .inert (by simp [Inert]) (ih _ (Nat.lt_succ_self _) h rfl)

/-- The pairs are those that are found with a stack. -/
theorem pairs_iff : Pairs kinds pairs ↔ pairs? [] kinds = some pairs := by
  constructor
  · intro h
    simpa [pairs?] using h.pairs?_append [] []
  · exact closes_of_pairs?

theorem isSome_pairs?_iff :
    (pairs? openers kinds).isSome ↔ level openers.length kinds = some 0 := by
  fun_induction pairs? openers kinds with
  | case1 => simp [level]
  | case2 openers hne => simpa [level] using hne
  | case3 openers rest bracket ih => exact ih
  | case4 rest bracket => simp [level]
  | case5 rest bracket opener outer ih => simpa [level] using ih
  | case6 openers kind rest ho hc ih =>
    rwa [level_cons_of_inert ⟨ho, hc⟩]

/-- The brackets pair up exactly where, counted without their shapes, none is closed that is not
open and none stays open. -/
theorem exists_pairs_iff : (∃ pairs, Pairs kinds pairs) ↔ level 0 kinds = some 0 := by
  simp only [pairs_iff, ← Option.isSome_iff_exists]
  exact isSome_pairs?_iff

/-! ### Brackets that fit -/

theorem fitting_iff :
    (pairs? [] kinds).any (·.all fun pair => pair.1 = pair.2) = true ↔ Fitting kinds := by
  simp [Fitting, pairs_iff, Option.any_eq_true]

instance (kinds : List Token.Kind) : Decidable (Fitting kinds) := decidable_of_iff _ fitting_iff

/-- Behind brackets that pair up, the others are on their own. -/
theorem fitting_append_iff (h : Pairs front pairs) :
    Fitting (front ++ rest) ↔ Fitting front ∧ Fitting rest := by
  have hfront : ∀ pairs', Pairs front pairs' ↔ pairs = pairs' := fun pairs' => by
    rw [pairs_iff, pairs_iff.1 h, Option.some_inj]
  simp only [Fitting, hfront, pairs_iff, h.pairs?_append, Option.map_eq_some_iff]
  constructor
  · rintro ⟨_, ⟨behind, hrest, rfl⟩, hall⟩
    rw [List.forall_mem_append] at hall
    exact ⟨⟨pairs, rfl, hall.1⟩, behind, hrest, hall.2⟩
  · rintro ⟨⟨_, rfl, hall⟩, behind, hrest, hall'⟩
    exact ⟨_, ⟨behind, hrest, rfl⟩, List.forall_mem_append.2 ⟨hall, hall'⟩⟩

theorem pairs_of_inert (h : ∀ kind ∈ kinds, Inert kind) : Pairs kinds [] := by
  induction kinds with
  | nil => exact .nil
  | cons kind kinds ih =>
    obtain ⟨hkind, hkinds⟩ := List.forall_mem_cons.1 h
    exact .inert hkind (ih hkinds)

theorem fitting_of_inert (h : ∀ kind ∈ kinds, Inert kind) : Fitting kinds :=
  ⟨[], pairs_of_inert h, List.forall_mem_nil _⟩

theorem fitting_inert_append_iff (h : ∀ kind ∈ front, Inert kind) :
    Fitting (front ++ rest) ↔ Fitting rest :=
  (fitting_append_iff (pairs_of_inert h)).trans (and_iff_right (fitting_of_inert h))

/-! ### What is gone over unread -/

/-- What is gone over unread in a value. -/
def Value.stretches : Value → List (List Token.Kind)
  | imported _ => []
  | other kinds => [kinds]

/-- What is gone over unread in a part: the type of a binding, and its value. -/
def Part.stretches : Part → List (List Token.Kind)
  | semicolon | bare _ | selection _ _ _ => []
  | plain _ value => value.stretches
  | typed _ type value => type :: value.stretches

theorem fitting_importKinds (path : String) : Fitting (importKinds path ++ [.semicolon]) := by
  have hpath : Inert (.text path) := by simp [Inert]
  refine ⟨[(.round, .round)], ?_, by simp⟩
  exact .inert (by simp [Inert]) (.group .round .round (.inert hpath .nil)
    (.inert (by simp [Inert]) .nil))

theorem inert_of_mem_listed {requests : List Request} {trailing : Bool}
    (h : kind ∈ listed requests trailing) : Inert kind := by
  rcases mem_listed h with ⟨name, rfl⟩ | rfl | rfl <;> simp [Inert]

theorem Value.fitting_iff {v : Value} (hv : v.Wellformed) :
    Fitting (v.kinds ++ [.semicolon]) ↔ ∀ kinds ∈ v.stretches, Fitting kinds := by
  cases v with
  | imported path => exact iff_of_true (fitting_importKinds path) (List.forall_mem_nil _)
  | other kinds =>
    obtain ⟨pairs, hpairs⟩ := exists_pairs_iff.2 hv.2.level_eq
    rw [Value.kinds, Value.stretches, List.forall_mem_singleton, fitting_append_iff hpairs]
    exact and_iff_left (by decide)

/-- **The brackets of a part fit where those that are gone over unread do.** -/
theorem Part.fitting_iff (hw : part.Wellformed) :
    Fitting part.kinds ↔ ∀ kinds ∈ part.stretches, Fitting kinds := by
  cases part with
  | semicolon => exact iff_of_true (by decide) (List.forall_mem_nil _)
  | bare path => exact iff_of_true (fitting_importKinds path) (List.forall_mem_nil _)
  | selection requests trailing path =>
    refine iff_of_true ?_ (List.forall_mem_nil _)
    obtain ⟨pairs, hpairs, hall⟩ := fitting_importKinds path
    refine ⟨[] ++ (.curly, .curly) :: pairs, ?_, by simpa using hall⟩
    exact .group .curly .curly (pairs_of_inert fun _ => inert_of_mem_listed)
      (.inert (by simp [Inert]) hpairs)
  | plain name value =>
    change Fitting ([.word name, .define] ++ (value.kinds ++ [.semicolon])) ↔ _
    rw [fitting_inert_append_iff (by simp [Inert]), Value.fitting_iff hw, stretches]
  | typed name type value =>
    obtain ⟨pairs, hpairs⟩ := exists_pairs_iff.2 hw.1.level_eq
    have hsign : Fitting ([.equals] ++ (value.kinds ++ [.semicolon])) ↔
        ∀ kinds ∈ value.stretches, Fitting kinds := by
      rw [fitting_inert_append_iff (by simp [Inert]), Value.fitting_iff hw.2]
    change Fitting ([.word name, .colon] ++
      (type ++ ([.equals] ++ (value.kinds ++ [.semicolon])))) ↔ _
    rw [fitting_inert_append_iff (by simp [Inert]), fitting_append_iff hpairs, hsign, stretches,
      List.forall_mem_cons]

theorem Part.exists_pairs (hw : part.Wellformed) : ∃ pairs, Pairs part.kinds pairs := by
  rw [exists_pairs_iff]
  by_cases hp : part = .semicolon
  · subst hp
    rfl
  · obtain ⟨body, hkinds, hbody, -⟩ := Part.kinds_eq_append hw hp
    rw [hkinds, level_append, hbody]
    rfl

end Grammar

namespace Program

open Grammar

variable {tokens before taken left : List Token} {source : String} {x : Located Item}
  {found : List (Located Item)}

/-! ### Items -/

theorem Imports.kinds_eq {path : Located String} (h : Imports path taken) :
    taken.map Token.kind = importKinds path.value ++ [.semicolon] := by
  cases h with
  | intro => rfl

theorem Heads.exists_part {name : Located String} {head type : List Token} {sign : Token}
    (h : Heads name head type sign) (value : Value) (hv : value.Wellformed)
    (hk : taken.map Token.kind = value.kinds ++ [.semicolon]) : ∃ part : Part, part.Wellformed ∧
      (head ++ (type ++ sign :: taken)).map Token.kind = part.kinds ∧
      part.sketch? = some (value.sketch name.value) := by
  cases h with
  | plain define =>
    exact ⟨.plain name.value value, hv, by simp [Located.word, Part.kinds, hk], rfl⟩
  | typed colon equals he =>
    exact ⟨.typed name.value (type.map Token.kind) value, ⟨he, hv⟩,
      by simp [Located.word, Part.kinds, hk], rfl⟩

/-- The tokens of an item are those of a part that says what the item is. -/
theorem Anatomy.exists_part {it : Item} (h : Anatomy before left taken it) :
    ∃ part : Part, part.Wellformed ∧ taken.map Token.kind = part.kinds ∧
      part.sketch? = some it.sketch := by
  cases h with
  | @bare path _ h => exact ⟨.bare path.value, trivial, h.kinds_eq, rfl⟩
  | @selection path requests names _ start close define hl hn h =>
    obtain ⟨trailing, ht, hnames⟩ := hl
    exact ⟨.selection (requests.map Import.Request.sketch) trailing path.value, ht,
      by simp [Part.kinds, hnames, h.kinds_eq], rfl⟩
  | @bound name head type sign path _ hh h =>
    exact hh.exists_part (.imported path.value) trivial h.kinds_eq
  | @declaration d head type sign body stop h =>
    refine h.heads.exists_part (.other (body.map Token.kind)) ⟨?_, h.enclosed⟩ ?_
    · simpa using h.body_ne
    · simp [Value.kinds]

/-- **The brackets of an item pair up**, each one that closes with the innermost one open in front
of it, **and they fit exactly where those do that are gone over unread**, in its type and in its
value. -/
theorem fitting_items_iff (h : ofText source = .ok found) (hx : x ∈ found) :
    ∃ tokens before taken left, ∃ part : Part, tokenize source = .ok tokens ∧
      beforeEnd tokens = before ++ (taken ++ left) ∧ x.span = extent taken ∧
      part.Wellformed ∧ taken.map Token.kind = part.kinds ∧ part.sketch? = some x.value.sketch ∧
      (∃ pairs, Pairs (taken.map Token.kind) pairs) ∧
      (Fitting (taken.map Token.kind) ↔ ∀ kinds ∈ part.stretches, Fitting kinds) := by
  obtain ⟨tokens, ht, -, hparted⟩ := parted_of_ofText h
  obtain ⟨before, taken, left, htokens, ha, hspan⟩ := hparted.exists_of_mem hx
  obtain ⟨part, hw, hkinds, hsketch⟩ := ha.exists_part
  refine ⟨tokens, before, taken, left, part, ht, htokens, hspan, hw, hkinds, hsketch, ?_⟩
  rw [hkinds]
  exact ⟨Part.exists_pairs hw, Part.fitting_iff hw⟩

/-- A text with brackets in brackets, in a pattern, in types and in values; those of the last value
do not fit. -/
def bracketed : String :=
  "\x7ba, b: c\x7d := import(\"m\"); f: [(t)] = \x7bg[(1)]; (h)\x7d; k: (n) = [(i)\x7d;"

/-- The text is read as an import and two declarations. -/
theorem bracketed_fitting :
    let found := (ofText bracketed).toOption.getD []
    let last := found.getLastD ⟨.importing ⟨⟨"", .point 0⟩, .whole none⟩, .point 0⟩
    ofText bracketed = .ok found ∧ found.map (·.value.sketch) =
        [.selected "m" [⟨"a", none⟩, ⟨"b", some "c"⟩], .declaration "f", .declaration "k"] ∧
      last ∈ found ∧
      ∃ tokens before taken left, ∃ part : Part, tokenize bracketed = .ok tokens ∧
        beforeEnd tokens = before ++ (taken ++ left) ∧ last.span = extent taken ∧
        part.Wellformed ∧ taken.map Token.kind = part.kinds ∧
        part.sketch? = some last.value.sketch ∧
        (∃ pairs, Pairs (taken.map Token.kind) pairs) ∧
        (Fitting (taken.map Token.kind) ↔ ∀ kinds ∈ part.stretches, Fitting kinds) := by
  intro found last
  have h : ofText bracketed = .ok found := by decide +kernel
  have hlast : last ∈ found := by decide +kernel
  exact ⟨h, by decide +kernel, hlast, fitting_items_iff h hlast⟩

/-- A text in which a round bracket is closed by a square one. -/
def mixed : String := "x := (];"

/-- The text is read without a mistake, as one item over all its tokens, though its brackets do not
fit. -/
theorem brackets_mixed :
    let tokens := (tokenize mixed).toOption.getD []
    let found := (ofText mixed).toOption.getD []
    tokenize mixed = .ok tokens ∧ ofText mixed = .ok found ∧
      found.map (·.span) = [extent (beforeEnd tokens)] ∧
      pairs? [] (kindsOf tokens) = some [(.round, .square)] ∧ ¬ Fitting (kindsOf tokens) := by
  decide +kernel

end Program

end ModuleResolution
