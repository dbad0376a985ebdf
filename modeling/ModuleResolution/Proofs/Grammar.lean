import Mathlib.Data.List.Basic
import ModuleResolution.Source.Item
import ModuleResolution.Source.Token

/-!
# The grammar of programs

The kinds of token that make up a module, as derivations of a grammar.  A derivation is a list of
parts, each of which says what it was made of, and spells the kinds of its tokens:

    program := (`;` | item)*
    item    := `import` `(` TEXT `)` `;`
             | `{` (request (`,` request)* `,`?)? `}` `:=` `import` `(` TEXT `)` `;`
             | WORD `:=` value `;`
             | WORD `:` type `=` value `;`
    request := WORD | WORD `:` WORD
    value   := `import` `(` TEXT `)` | kinds that are enclosed in front of `;`, at least one
    type    := kinds that are enclosed in front of `=`

* `Grammar.Enclosed` : kinds with balanced brackets, without a stop outside them.
* `Grammar.Derives` : the parts of a derivation spell some kinds.
* `Grammar.Derives.unique` : no two derivations spell the same.
* `Grammar.Sketch` : what an item is, but for where it stands and for what is enclosed in it.
-/

namespace ModuleResolution

namespace Grammar

/-! ### Enclosed kinds -/

/-- How many brackets are open behind the kinds if `depth` are in front of them, whatever shapes
they have; there is no answer if one is closed that was not opened. -/
def level (depth : Nat) : List Token.Kind → Option Nat
  | [] => some depth
  | kind :: rest =>
    match kind with
    | .opening _ => level (depth + 1) rest
    | .closing _ => if depth = 0 then none else level (depth - 1) rest
    | _ => level depth rest

/-- With `depth` brackets open in front, `stop` is not among the kinds but in brackets. -/
def Avoids (stop : Token.Kind) (depth : Nat) (kinds : List Token.Kind) : Prop :=
  ∀ front behind, kinds = front ++ stop :: behind → level depth front ≠ some 0

/-- The kinds end in a name and `::`, and so qualify what stands behind them. -/
def Qualifies (kinds : List Token.Kind) : Prop :=
  ∃ front name, kinds = front ++ [.word name, .member]

/-- No import is among the kinds: the word `import` in front of a parenthesis is qualified. -/
def Unimporting (kinds : List Token.Kind) : Prop :=
  ∀ front behind, kinds = front ++ .word "import" :: behind →
    behind.head? = some (.opening .round) → Qualifies front

/-- With `depth` brackets open in front, the kinds close them and all that they open themselves.
Neither is `stop` among them outside brackets, nor is an import. -/
structure Enclosed (stop : Token.Kind) (depth : Nat) (kinds : List Token.Kind) : Prop where
  level_eq : level depth kinds = some 0
  avoids : Avoids stop depth kinds
  unimporting : Unimporting kinds

/-! ### Derivations -/

/-- A name that is asked of an imported module, and the name given to it, if another one. -/
structure Request where
  exported : String
  renamed : Option String
deriving DecidableEq

/-- The kinds of a request. -/
def Request.kinds : Request → List Token.Kind
  | ⟨exported, none⟩ => [.word exported]
  | ⟨exported, some renamed⟩ => [.word exported, .colon, .word renamed]

/-- The kinds of requests with commas between them. -/
def separated : List Request → List Token.Kind
  | [] => []
  | [q] => q.kinds
  | q :: more => q.kinds ++ .comma :: separated more

/-- The kinds of requests, with a comma behind them if there is a trailing one. -/
def listed (requests : List Request) (trailing : Bool) : List Token.Kind :=
  separated requests ++ if trailing then [.comma] else []

/-- The kinds of an import. -/
def importKinds (path : String) : List Token.Kind :=
  [.word "import", .opening .round, .text path, .closing .round]

/-- What stands on the right of a binding. -/
inductive Value where
  /-- An import. -/
  | imported (path : String)
  /-- Anything else. -/
  | other (kinds : List Token.Kind)
deriving DecidableEq

/-- The kinds of a value. -/
def Value.kinds : Value → List Token.Kind
  | imported path => importKinds path
  | other kinds => kinds

/-- The value is one of the grammar. -/
def Value.Wellformed : Value → Prop
  | imported _ => True
  | other kinds => kinds ≠ [] ∧ Enclosed .semicolon 0 kinds

/-- A part of a program: an item, or a semicolon of its own. -/
inductive Part where
  /-- A semicolon of its own. -/
  | semicolon
  /-- An import under the name of the file. -/
  | bare (path : String)
  /-- An import of selected names; `trailing` says that a comma stands behind them. -/
  | selection (requests : List Request) (trailing : Bool) (path : String)
  /-- A binding without a type. -/
  | plain (name : String) (value : Value)
  /-- A binding with a type. -/
  | typed (name : String) (type : List Token.Kind) (value : Value)
deriving DecidableEq

/-- The kinds of a part. -/
def Part.kinds : Part → List Token.Kind
  | semicolon => [.semicolon]
  | bare path => importKinds path ++ [.semicolon]
  | selection requests trailing path =>
    .opening .curly :: (listed requests trailing ++
      .closing .curly :: .define :: (importKinds path ++ [.semicolon]))
  | plain name value => .word name :: .define :: (value.kinds ++ [.semicolon])
  | typed name type value =>
    .word name :: .colon :: (type ++ .equals :: (value.kinds ++ [.semicolon]))

/-- The part is one of the grammar. -/
def Part.Wellformed : Part → Prop
  | semicolon | bare _ => True
  | selection requests trailing _ => trailing = true → requests ≠ []
  | plain _ value => value.Wellformed
  | typed _ type value => Enclosed .equals 0 type ∧ value.Wellformed

/-- The parts are a derivation of the kinds. -/
structure Derives (parts : List Part) (kinds : List Token.Kind) : Prop where
  wellformed : ∀ part ∈ parts, part.Wellformed
  spelled : parts.flatMap Part.kinds = kinds

/-! ### Sketches -/

/-- What an item is, but for where it stands and for what is enclosed in it. -/
inductive Sketch where
  | declaration (name : String)
  /-- An import of a module, under its alias or under the name of the file. -/
  | whole (path : String) (alias? : Option String)
  | selected (path : String) (requests : List Request)
deriving DecidableEq

/-- What is bound where the value stands on the right of the name. -/
def Value.sketch (name : String) : Value → Sketch
  | imported path => .whole path (some name)
  | other _ => .declaration name

/-- What a part says about its item; a semicolon of its own is none. -/
def Part.sketch? : Part → Option Sketch
  | semicolon => none
  | bare path => some (.whole path none)
  | selection requests _ path => some (.selected path requests)
  | plain name value | typed name _ value => some (value.sketch name)

end Grammar

/-- What is asked of an imported module, but for where it stands. -/
def Import.Request.sketch (q : Import.Request) : Grammar.Request :=
  ⟨q.exported.value, q.renamed.map Located.value⟩

/-- What the item is, but for where it stands and for what is enclosed in it. -/
def Item.sketch : Item → Grammar.Sketch
  | declaration d => .declaration d.name.value
  | importing ⟨path, .whole alias?⟩ => .whole path.value (alias?.map Located.value)
  | importing ⟨path, .selected requests⟩ =>
    .selected path.value (requests.map Import.Request.sketch)

namespace Grammar

variable {stop : Token.Kind} {depth depth' : Nat} {kinds kinds' front rest rest' : List Token.Kind}
  {kind : Token.Kind}

/-! ### Depth of brackets -/

theorem level_append (depth : Nat) (front rest : List Token.Kind) :
    level depth (front ++ rest) = (level depth front).bind fun depth => level depth rest := by
  induction front generalizing depth with
  | nil => rfl
  | cons kind front ih =>
    cases kind with
    | opening bracket => exact ih (depth + 1)
    | closing bracket =>
      simp only [List.cons_append, level]
      split_ifs
      · rfl
      · exact ih (depth - 1)
    | _ => exact ih depth

/-- The kind is no bracket. -/
def Inert (kind : Token.Kind) : Prop :=
  (∀ bracket, kind ≠ .opening bracket) ∧ ∀ bracket, kind ≠ .closing bracket

theorem level_cons_of_inert (h : Inert kind) : level depth (kind :: rest) = level depth rest := by
  cases kind with
  | opening bracket => exact absurd rfl (h.1 bracket)
  | closing bracket => exact absurd rfl (h.2 bracket)
  | _ => rfl

theorem level_of_inert (h : ∀ kind ∈ kinds, Inert kind) : level depth kinds = some depth := by
  induction kinds with
  | nil => rfl
  | cons kind kinds ih =>
    obtain ⟨hkind, hkinds⟩ := List.forall_mem_cons.1 h
    rw [level_cons_of_inert hkind, ih hkinds]

theorem Avoids.append (hf : Avoids stop depth front) (hl : level depth front = some depth')
    (hr : Avoids stop depth' rest) : Avoids stop depth (front ++ rest) := by
  intro before behind h
  rcases List.append_eq_append_iff.1 h with ⟨inner, rfl, hrest⟩ | ⟨inner, hfront, hbehind⟩
  · -- the stop would stand behind the front
    rw [level_append, hl]
    exact hr inner behind hrest
  · cases inner with
    | nil =>
      rw [List.append_nil] at hfront
      rw [← hfront, hl]
      exact hr [] behind hbehind.symm
    | cons kind inner =>
      obtain ⟨rfl, -⟩ := List.cons.inj hbehind
      exact hf before inner hfront

theorem Avoids.of_append (h : Avoids stop depth (front ++ rest))
    (hl : level depth front = some depth') : Avoids stop depth' rest := by
  rintro before behind rfl
  have hne := h (front ++ before) behind (List.append_assoc _ _ _).symm
  rwa [level_append, hl] at hne

theorem Avoids.of_append_left (h : Avoids stop depth (front ++ rest)) :
    Avoids stop depth front := by
  rintro before behind rfl
  exact h before (behind ++ rest) (by simp)

theorem avoids_append_iff (hl : level depth front = some depth') :
    Avoids stop depth (front ++ rest) ↔ Avoids stop depth front ∧ Avoids stop depth' rest :=
  ⟨fun h => ⟨h.of_append_left, h.of_append hl⟩, fun h => h.1.append hl h.2⟩

theorem avoids_of_notMem (h : stop ∉ kinds) : Avoids stop depth kinds := by
  rintro front behind rfl
  exact absurd (List.mem_append_right front List.mem_cons_self) h

/-- What stands in front of the first stop outside brackets is told by the whole. -/
theorem eq_of_stop (hl : level 0 kinds = some 0) (hl' : level 0 kinds' = some 0)
    (ha : Avoids stop 0 kinds) (ha' : Avoids stop 0 kinds')
    (h : kinds ++ stop :: rest = kinds' ++ stop :: rest') : kinds = kinds' ∧ rest = rest' := by
  rcases List.append_eq_append_iff.1 h with ⟨inner, rfl, hrest⟩ | ⟨inner, rfl, hrest⟩
  · cases inner with
    | nil =>
      rw [List.append_nil]
      exact ⟨rfl, (List.cons.inj hrest).2⟩
    | cons kind inner =>
      obtain ⟨rfl, -⟩ := List.cons.inj hrest
      exact absurd hl (ha' kinds inner rfl)
  · cases inner with
    | nil =>
      rw [List.append_nil]
      exact ⟨rfl, (List.cons.inj hrest).2.symm⟩
    | cons kind inner =>
      obtain ⟨rfl, -⟩ := List.cons.inj hrest
      exact absurd hl' (ha kinds' inner rfl)

/-! ### Checking a derivation -/

theorem forall_append_cons {α : Type} {a : α} {l : List α} {P : List α → List α → Prop} :
    (∀ front behind, l = front ++ a :: behind → P front behind) ↔
      ∀ i < l.length, l[i]? = some a → P (l.take i) (l.drop (i + 1)) := by
  constructor
  · intro h i hi ha
    refine h _ _ ?_
    rw [List.getElem?_eq_getElem hi, Option.some_inj] at ha
    rw [← ha, List.getElem_cons_drop, List.take_append_drop]
  · rintro h front behind rfl
    have hfront := h front.length (by simp) (by simp)
    simpa using hfront

instance (stop : Token.Kind) (depth : Nat) (kinds : List Token.Kind) :
    Decidable (Avoids stop depth kinds) :=
  decidable_of_iff' _ (forall_append_cons (P := fun front _ => level depth front ≠ some 0))

theorem qualifies_iff :
    (match kinds.reverse with | .member :: .word _ :: _ => true | _ => false) = true ↔
      Qualifies kinds := by
  split
  · rename_i name front h
    have hkinds := congrArg List.reverse h
    rw [List.reverse_reverse] at hkinds
    exact ⟨fun _ => ⟨front.reverse, name, by simpa using hkinds⟩, fun _ => rfl⟩
  · rename_i hne
    refine ⟨fun h => absurd h Bool.false_ne_true, ?_⟩
    rintro ⟨front, name, rfl⟩
    exact absurd (by simp) (hne name front.reverse)

instance (kinds : List Token.Kind) : Decidable (Qualifies kinds) :=
  decidable_of_iff _ qualifies_iff

instance (kinds : List Token.Kind) : Decidable (Unimporting kinds) :=
  decidable_of_iff' _ (forall_append_cons (a := Token.Kind.word "import")
    (P := fun front behind => behind.head? = some (.opening .round) → Qualifies front))

instance (stop : Token.Kind) (depth : Nat) (kinds : List Token.Kind) :
    Decidable (Enclosed stop depth kinds) :=
  decidable_of_iff (level depth kinds = some 0 ∧ Avoids stop depth kinds ∧ Unimporting kinds)
    ⟨fun ⟨h, h', h''⟩ => ⟨h, h', h''⟩, fun ⟨h, h', h''⟩ => ⟨h, h', h''⟩⟩

instance : (v : Value) → Decidable v.Wellformed
  | .imported _ => inferInstanceAs (Decidable True)
  | .other kinds => inferInstanceAs (Decidable (kinds ≠ [] ∧ Enclosed .semicolon 0 kinds))

instance : (part : Part) → Decidable part.Wellformed
  | .semicolon | .bare _ => inferInstanceAs (Decidable True)
  | .selection requests trailing _ =>
    inferInstanceAs (Decidable (trailing = true → requests ≠ []))
  | .plain _ v => inferInstanceAs (Decidable v.Wellformed)
  | .typed _ type v => inferInstanceAs (Decidable (Enclosed .equals 0 type ∧ v.Wellformed))

instance (parts : List Part) (kinds : List Token.Kind) : Decidable (Derives parts kinds) :=
  decidable_of_iff ((∀ part ∈ parts, part.Wellformed) ∧ parts.flatMap Part.kinds = kinds)
    ⟨fun ⟨h, h'⟩ => ⟨h, h'⟩, fun ⟨h, h'⟩ => ⟨h, h'⟩⟩

/-! ### No derivation spells what another does -/

theorem not_qualifies_nil : ¬ Qualifies [] := by
  rintro ⟨front, name, h⟩
  simp at h

theorem Enclosed.ne_import {path : String} (h : Enclosed stop depth kinds) (hne : kinds ≠ [])
    (hs : stop ≠ .opening .round) : kinds ++ stop :: rest ≠ importKinds path ++ rest' := by
  rintro he
  cases kinds with
  | nil => exact hne rfl
  | cons kind kinds =>
    obtain ⟨rfl, htail⟩ := List.cons.inj he
    cases kinds with
    | nil => exact hs (List.cons.inj htail).1
    | cons kind kinds =>
      obtain ⟨rfl, -⟩ := List.cons.inj htail
      exact not_qualifies_nil (h.unimporting [] _ rfl rfl)

theorem Value.kinds_inj {v v' : Value} (hv : v.Wellformed) (hv' : v'.Wellformed)
    (h : v.kinds ++ .semicolon :: rest = v'.kinds ++ .semicolon :: rest') :
    v = v' ∧ rest = rest' := by
  cases v with
  | imported path =>
    cases v' with
    | imported path' => simpa [Value.kinds, importKinds] using h
    | other kinds' => exact absurd h.symm (hv'.2.ne_import hv'.1 (by decide))
  | other kinds =>
    cases v' with
    | imported path' => exact absurd h (hv.2.ne_import hv.1 (by decide))
    | other kinds' =>
      obtain ⟨rfl, rfl⟩ :=
        eq_of_stop hv.2.level_eq hv'.2.level_eq hv.2.avoids hv'.2.avoids h
      exact ⟨rfl, rfl⟩

theorem Request.kinds_inj {q q' : Request} (hk : rest.head? ≠ some .colon)
    (hk' : rest'.head? ≠ some .colon) (h : q.kinds ++ rest = q'.kinds ++ rest') :
    q = q' ∧ rest = rest' := by
  obtain ⟨exported, _ | renamed⟩ := q <;> obtain ⟨exported', _ | renamed'⟩ := q' <;>
    simp only [kinds, List.cons_append, List.nil_append, List.cons.injEq, Token.Kind.word.injEq,
      true_and] at h
  · simpa using h
  · exact absurd (by simp [h.2]) hk
  · exact absurd (by simp [← h.2]) hk'
  · simpa [and_assoc] using h

theorem listed_cons (q : Request) (more : List Request) (trailing : Bool) :
    listed (q :: more) trailing = q.kinds ++ if more = [] then (if trailing then [.comma] else [])
      else .comma :: listed more trailing := by
  cases more with
  | nil => rfl
  | cons => simp [listed, separated]

theorem Request.kinds_eq_cons (q : Request) : ∃ more, q.kinds = .word q.exported :: more := by
  obtain ⟨exported, _ | renamed⟩ := q <;> exact ⟨_, rfl⟩

theorem listed_ne_closing (q : Request) (more : List Request) (trailing : Bool) :
    listed (q :: more) trailing ++ rest ≠ .closing .curly :: rest' := by
  obtain ⟨more', hq⟩ := q.kinds_eq_cons
  rw [listed_cons, hq]
  exact fun h => by cases h

/-- The requests and the comma behind them are told by the whole. -/
theorem listed_inj {requests requests' : List Request} {trailing trailing' : Bool}
    (ht : trailing = true → requests ≠ []) (ht' : trailing' = true → requests' ≠ [])
    (h : listed requests trailing ++ .closing .curly :: rest =
      listed requests' trailing' ++ .closing .curly :: rest') :
    requests = requests' ∧ trailing = trailing' ∧ rest = rest' := by
  induction requests generalizing requests' with
  | nil =>
    have hf : trailing = false := by simpa using ht
    subst hf
    cases requests' with
    | nil =>
      have hf' : trailing' = false := by simpa using ht'
      subst hf'
      exact ⟨rfl, rfl, (List.cons.inj h).2⟩
    | cons q' more' => exact absurd h.symm (listed_ne_closing q' more' trailing')
  | cons q more ih =>
    cases requests' with
    | nil =>
      have hf' : trailing' = false := by simpa using ht'
      subst hf'
      exact absurd h (listed_ne_closing q more trailing)
    | cons q' more' =>
      rw [listed_cons, listed_cons, List.append_assoc, List.append_assoc] at h
      -- behind a request stands a comma, or the end of the pattern
      have hcolon : ∀ {more : List Request} {trailing : Bool} {rest : List Token.Kind},
          ((if more = [] then (if trailing then [.comma] else [])
            else .comma :: listed more trailing) ++ .closing .curly :: rest).head? ≠
              some .colon := by
        intro more trailing rest
        cases more <;> cases trailing <;> simp
      obtain ⟨rfl, hrest⟩ := Request.kinds_inj hcolon hcolon h
      cases more with
      | nil =>
        cases more' with
        | nil =>
          cases trailing <;> cases trailing' <;> simp at hrest
          · exact ⟨rfl, rfl, hrest⟩
          · exact ⟨rfl, rfl, hrest⟩
        | cons q₂ more₂ =>
          cases trailing with
          | false => simp at hrest
          | true => exact absurd (List.cons.inj hrest).2.symm (listed_ne_closing q₂ more₂ trailing')
      | cons q₁ more₁ =>
        cases more' with
        | nil =>
          cases trailing' with
          | false => simp at hrest
          | true => exact absurd (List.cons.inj hrest).2 (listed_ne_closing q₁ more₁ trailing)
        | cons q₂ more₂ =>
          obtain ⟨hmore, htrailing, hrest⟩ := ih (fun _ => List.cons_ne_nil _ _)
            (fun _ => List.cons_ne_nil _ _) (List.cons.inj hrest).2
          exact ⟨congrArg (q :: ·) hmore, htrailing, hrest⟩

/-- The first part of a derivation is told by the whole. -/
theorem Part.kinds_inj {part part' : Part} (hp : part.Wellformed) (hp' : part'.Wellformed)
    (h : part.kinds ++ rest = part'.kinds ++ rest') : part = part' ∧ rest = rest' := by
  cases part with
  | semicolon =>
    cases part' with
    | semicolon => exact ⟨rfl, (List.cons.inj h).2⟩
    | _ => cases h
  | bare path =>
    cases part' with
    | bare path' =>
      simp only [kinds, importKinds, List.cons_append, List.nil_append, List.cons.injEq,
        Token.Kind.text.injEq, true_and] at h
      exact ⟨congrArg bare h.1, h.2⟩
    | _ => cases h
  | selection requests trailing path =>
    cases part' with
    | selection requests' trailing' path' =>
      simp only [kinds, List.cons_append, List.append_assoc, List.cons.injEq, true_and] at h
      obtain ⟨rfl, rfl, hrest⟩ := listed_inj hp hp' h
      simp only [importKinds, List.cons_append, List.nil_append, List.cons.injEq,
        Token.Kind.text.injEq, true_and] at hrest
      exact ⟨congrArg (selection requests trailing) hrest.1, hrest.2⟩
    | _ => cases h
  | plain name value =>
    cases part' with
    | plain name' value' =>
      simp only [kinds, List.cons_append, List.append_assoc, List.nil_append, List.cons.injEq,
        Token.Kind.word.injEq, true_and] at h
      obtain ⟨rfl, h⟩ := h
      obtain ⟨rfl, rfl⟩ := Value.kinds_inj hp hp' h
      exact ⟨rfl, rfl⟩
    | _ => cases h
  | typed name type value =>
    cases part' with
    | typed name' type' value' =>
      simp only [kinds, List.cons_append, List.append_assoc, List.nil_append, List.cons.injEq,
        Token.Kind.word.injEq, true_and] at h
      obtain ⟨rfl, htype⟩ := h
      obtain ⟨rfl, hvalue⟩ :=
        eq_of_stop hp.1.level_eq hp'.1.level_eq hp.1.avoids hp'.1.avoids htype
      obtain ⟨rfl, rfl⟩ := Value.kinds_inj hp.2 hp'.2 hvalue
      exact ⟨rfl, rfl⟩
    | _ => cases h

theorem Part.kinds_ne_nil (part : Part) : part.kinds ≠ [] := by
  cases part <;> exact List.cons_ne_nil _ _

/-- **No kinds have two derivations.** -/
theorem Derives.unique {parts parts' : List Part} (h : Derives parts kinds)
    (h' : Derives parts' kinds) : parts = parts' := by
  obtain ⟨hw, rfl⟩ := h
  obtain ⟨hw', hs⟩ := h'
  induction parts generalizing parts' with
  | nil =>
    cases parts' with
    | nil => rfl
    | cons part' more' => exact absurd (List.append_eq_nil_iff.1 hs).1 part'.kinds_ne_nil
  | cons part more ih =>
    cases parts' with
    | nil => exact absurd (List.append_eq_nil_iff.1 hs.symm).1 part.kinds_ne_nil
    | cons part' more' =>
      obtain ⟨hpart, hmore⟩ := List.forall_mem_cons.1 hw
      obtain ⟨hpart', hmore'⟩ := List.forall_mem_cons.1 hw'
      rw [List.flatMap_cons, List.flatMap_cons] at hs
      obtain ⟨rfl, hrest⟩ := Part.kinds_inj hpart' hpart hs
      exact congrArg (part' :: ·) (ih hmore hmore' hrest)

/-- `x: [=] = p::import(1);` has a derivation, and `x: [=] = import(1);` has not the like. -/
example :
    Derives [.typed "x" [.opening .square, .equals, .closing .square]
        (.other [.word "p", .member, .word "import", .opening .round, .number "1",
          .closing .round])]
      [.word "x", .colon, .opening .square, .equals, .closing .square, .equals, .word "p", .member,
        .word "import", .opening .round, .number "1", .closing .round, .semicolon] ∧
    ¬ (Value.other [.word "import", .opening .round, .number "1", .closing .round]).Wellformed := by
  decide +kernel

end Grammar

end ModuleResolution
