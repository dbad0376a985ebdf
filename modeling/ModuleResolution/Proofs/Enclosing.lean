import Mathlib.Data.List.Basic
import ModuleResolution.Proofs.Grammar
import ModuleResolution.Proofs.Spelling

/-!
# Going over enclosed tokens

Going over opaque tokens takes those tokens in front of a stop whose kinds are enclosed, and no
others.  A qualified name is gone over in one stride: the names in it are qualified but for the
first, and what stands behind it is not qualified by it.

* `Grammar.enclosed_append_iff` : what kinds in front do to enclosed ones.
* `Program.enclosed_of_scanFrom` : what is taken is enclosed.
* `Program.scanFrom_of_enclosed` : what is enclosed is taken.
-/

namespace ModuleResolution

namespace Grammar

variable {stop : Token.Kind} {depth depth' : Nat} {kinds front : List Token.Kind}
  {kind : Token.Kind}

/-! ### Names that are qualified -/

theorem Qualifies.cons (h : Qualifies kinds) (kind : Token.Kind) : Qualifies (kind :: kinds) := by
  obtain ⟨front, name, rfl⟩ := h
  exact ⟨kind :: front, name, rfl⟩

theorem not_qualifies_of_word {name : String} : ¬ Qualifies (front ++ [.word name]) := by
  rintro ⟨before, name', h⟩
  have hlast := congrArg List.getLast? h
  simp at hlast

/-- A name behind some kinds is qualified by the last of them, or by what stands in front of
them. -/
theorem Qualifies.of_append (h : Qualifies (front ++ kinds)) :
    Qualifies kinds ∨ (∃ before name, front = before ++ [.word name] ∧ kinds = [.member]) ∨
      kinds = [] ∧ Qualifies front := by
  obtain ⟨before, name, h⟩ := h
  rcases List.append_eq_append_iff.1 h with ⟨inner, rfl, hk⟩ | ⟨inner, rfl, hk⟩
  · exact .inl ⟨inner, name, hk⟩
  · match inner, hk with
    | [], hk => exact .inl ⟨[], name, hk.symm⟩
    | [_], hk =>
      obtain ⟨rfl, hmember⟩ := List.cons.inj hk
      exact .inr (.inl ⟨before, name, rfl, hmember.symm⟩)
    | _ :: _ :: inner, hk =>
      obtain ⟨hword, htail⟩ := List.cons.inj hk
      obtain ⟨hmember, hnil⟩ := List.cons.inj htail
      obtain ⟨hinner, hkinds⟩ := List.append_eq_nil_iff.1 hnil.symm
      exact .inr (.inr ⟨hkinds, before, name, by rw [hinner, ← hword, ← hmember]⟩)

/-! ### Imports behind other kinds -/

theorem Unimporting.cons (h : Unimporting kinds)
    (hk : kind = .word "import" → kinds.head? ≠ some (.opening .round)) :
    Unimporting (kind :: kinds) := by
  rintro front behind he hround
  cases front with
  | nil =>
    obtain ⟨rfl, rfl⟩ := List.cons.inj he
    exact absurd hround (hk rfl)
  | cons kind' front =>
    obtain ⟨rfl, htail⟩ := List.cons.inj he
    exact (h front behind htail hround).cons kind

theorem Unimporting.of_append (h : Unimporting (front ++ kinds)) (hf : ¬ Qualifies front)
    (hw : ∀ before name name' behind, front = before ++ [.word name] →
      kinds ≠ .member :: .word name' :: behind) : Unimporting kinds := by
  rintro before behind rfl hround
  rcases (h (front ++ before) behind (List.append_assoc _ _ _).symm hround).of_append with
    hq | ⟨_, name, hfront, rfl⟩ | ⟨rfl, hq⟩
  · exact hq
  · exact absurd rfl (hw _ name "import" behind hfront)
  · exact absurd hq hf

theorem unimporting_cons_iff (hk : ∀ name, kind ≠ .word name) :
    Unimporting (kind :: kinds) ↔ Unimporting kinds := by
  refine ⟨fun h => ?_, fun h => h.cons fun he => absurd he (hk _)⟩
  rw [← List.singleton_append] at h
  refine h.of_append ?_ ?_
  · rintro ⟨before, name, he⟩
    have hlen := congrArg List.length he
    simp only [List.length_append, List.length_cons, List.length_nil] at hlen
    omega
  · intro before name name' behind he
    have hmem : .word name ∈ [kind] := he ▸ List.mem_append_right before List.mem_cons_self
    exact absurd (List.mem_singleton.1 hmem).symm (hk name)

/-! ### Enclosed kinds behind other kinds -/

theorem enclosed_append_iff (hl : level depth front = some depth')
    (ha : Avoids stop depth front) (hu : Unimporting (front ++ kinds) ↔ Unimporting kinds) :
    Enclosed stop depth (front ++ kinds) ↔ Enclosed stop depth' kinds := by
  have hlevel : level depth (front ++ kinds) = level depth' kinds := by
    rw [level_append, hl]
    rfl
  constructor
  · rintro ⟨h₁, h₂, h₃⟩
    exact ⟨hlevel ▸ h₁, h₂.of_append hl, hu.1 h₃⟩
  · rintro ⟨h₁, h₂, h₃⟩
    exact ⟨hlevel ▸ h₁, ha.append hl h₂, hu.2 h₃⟩

theorem avoids_single (hs : depth = 0 → kind ≠ stop) : Avoids stop depth [kind] := by
  rintro front behind he
  cases front with
  | nil =>
    obtain ⟨rfl, -⟩ := List.cons.inj he
    exact fun hdepth => hs (Option.some.inj hdepth) rfl
  | cons kind' front => simp at he

theorem enclosed_cons_iff (hl : level depth [kind] = some depth') (hs : depth = 0 → kind ≠ stop)
    (hk : ∀ name, kind ≠ .word name) :
    Enclosed stop depth (kind :: kinds) ↔ Enclosed stop depth' kinds := by
  rw [← List.singleton_append]
  exact enclosed_append_iff hl (avoids_single hs) (unimporting_cons_iff hk)

end Grammar

namespace Program

open Reading Grammar

variable {ending : Span} {wanted : Token.Kind} {openers : List Span} {stop : Nat}
  {taken run tokens rest left : List Token} {names : List String} {name : String}
  {kinds : List Token.Kind}

/-! ### Going over a qualified name -/

/-- Where the last of the tokens stops, if there is one. -/
def lastStop (stop : Nat) (tokens : List Token) : Nat := tokens.foldl (fun _ t => t.span.stop) stop

theorem lastStop_append (stop : Nat) (tokens rest : List Token) :
    lastStop stop (tokens ++ rest) = lastStop (lastStop stop tokens) rest :=
  List.foldl_append

theorem SpellsMore.level_append (h : SpellsMore run names) (depth : Nat) :
    level depth (run.map Token.kind ++ kinds) = level depth kinds := by
  induction h with
  | nil => rfl
  | cons => assumption

theorem SpellsMore.eq_append (h : SpellsMore run names) (name : String) :
    ∃ front last, .word name :: run.map Token.kind = front ++ [.word last] := by
  induction h generalizing name with
  | nil => exact ⟨[], name, rfl⟩
  | cons sign span name' _ ih =>
    obtain ⟨front, last, h⟩ := ih name'
    exact ⟨.word name :: .member :: front, last, congrArg (.word name :: .member :: ·) h⟩

theorem SpellsMore.qualifies (h : SpellsMore run names) (hk : Unimporting kinds)
    {front behind : List Token.Kind} (hround : behind.head? = some (.opening .round))
    (he : run.map Token.kind ++ kinds = front ++ .word "import" :: behind) (name : String) :
    Qualifies (.word name :: front) := by
  induction h generalizing front name with
  | nil => exact (hk front behind he hround).cons _
  | cons sign span name' _ ih =>
    match front, he with
    | [_], he =>
      obtain ⟨rfl, -⟩ := List.cons.inj he
      exact ⟨[], name, rfl⟩
    | _ :: _ :: front, he =>
      obtain ⟨rfl, htail⟩ := List.cons.inj he
      obtain ⟨rfl, hrest⟩ := List.cons.inj htail
      exact ((ih hrest name').cons _).cons _

theorem SpellsMore.unimporting_iff (h : SpellsMore run names)
    (hi : name = "import" → (run.map Token.kind ++ kinds).head? ≠ some (.opening .round))
    (hc : ∀ name' behind, kinds ≠ .member :: .word name' :: behind) :
    Unimporting (.word name :: (run.map Token.kind ++ kinds)) ↔ Unimporting kinds := by
  constructor
  · intro hk
    obtain ⟨front, last, hrun⟩ := h.eq_append name
    rw [← List.cons_append, hrun] at hk
    exact hk.of_append not_qualifies_of_word fun _ _ name' behind _ => hc name' behind
  · rintro hk front behind he hround
    cases front with
    | nil =>
      obtain ⟨hname, rfl⟩ := List.cons.inj he
      exact absurd hround (hi (Token.Kind.word.inj hname))
    | cons kind front =>
      obtain ⟨rfl, htail⟩ := List.cons.inj he
      exact h.qualifies hk hround htail name

theorem SpellsMore.level_eq (h : SpellsMore run names) (name : String) (depth : Nat) :
    level depth (.word name :: run.map Token.kind) = some depth := by
  have hlevel : level depth (run.map Token.kind ++ []) = some depth := h.level_append depth
  rwa [List.append_nil] at hlevel

theorem SpellsMore.avoids (h : SpellsMore run names) (hw : ∀ name, wanted ≠ .word name)
    (hm : wanted ≠ .member) (depth : Nat) :
    Avoids wanted depth (.word name :: run.map Token.kind) := by
  refine avoids_of_notMem fun hmem => ?_
  rcases List.mem_cons.1 hmem with hword | hmem
  · exact hw name hword
  · obtain ⟨t, ht, rfl⟩ := List.mem_map.1 hmem
    rcases h.kind_of_mem ht with hmember | ⟨name', hname⟩
    · exact hm hmember
    · exact hw name' hname

theorem SpellsMore.enclosed_iff (h : SpellsMore run names)
    (hi : name = "import" → (run.map Token.kind ++ kinds).head? ≠ some (.opening .round))
    (hc : ∀ name' behind, kinds ≠ .member :: .word name' :: behind)
    (hw : ∀ name, wanted ≠ .word name) (hm : wanted ≠ .member) {depth : Nat} :
    Enclosed wanted depth (.word name :: (run.map Token.kind ++ kinds)) ↔
      Enclosed wanted depth kinds := by
  rw [← List.cons_append]
  exact enclosed_append_iff (h.level_eq name depth) (h.avoids hw hm depth) (h.unimporting_iff hi hc)

/-- What is taken of the tokens spells further names, and no further name stands behind. -/
theorem members_spec (tokens : List Token) : ∃ run names, SpellsMore run names ∧
    tokens = run ++ (members tokens).2 ∧
    (∀ stop, lastStop stop run = ((members tokens).1.getLast?.map (·.span.stop)).getD stop) ∧
    ∀ sign name span rest, (members tokens).2 ≠ ⟨.member, sign⟩ :: ⟨.word name, span⟩ :: rest := by
  fun_induction members tokens with
  | case1 sign name span rest ih =>
    obtain ⟨run, names, hspells, hrest, hstop, hcomplete⟩ := ih
    refine ⟨_, _, .cons sign span name hspells, ?_, fun stop => ?_, hcomplete⟩
    · exact congrArg (⟨.member, sign⟩ :: ⟨.word name, span⟩ :: ·) hrest
    · rw [List.getLast?_cons]
      exact (hstop span.stop).trans (by cases (members rest).1.getLast? <;> rfl)
  | case2 tokens hne => exact ⟨[], [], .nil, rfl, fun _ => rfl, hne⟩

/-! ### Going over opaque tokens -/

/-- The tokens in front of `left` are enclosed behind `depth` brackets, and `left` starts with what
is wanted. -/
def Encloses (wanted : Token.Kind) (depth : Nat) (tokens left : List Token) : Prop :=
  ∃ taken span more, left = ⟨wanted, span⟩ :: more ∧ tokens = taken ++ left ∧
    Enclosed wanted depth (taken.map Token.kind)

section Encloses

variable {depth depth' : Nat} {token : Token}

theorem enclosed_nil : Enclosed wanted 0 [] :=
  ⟨rfl, avoids_of_notMem List.not_mem_nil, fun _ _ h => by simp at h⟩

theorem encloses_of_kind (hk : token.kind = wanted) :
    Encloses wanted 0 (token :: rest) left ↔ left = token :: rest := by
  constructor
  · rintro ⟨taken, span, more, rfl, ht, he⟩
    cases taken with
    | nil => exact ht.symm
    | cons token' taken =>
      obtain ⟨rfl, -⟩ := List.cons.inj ht
      exact absurd rfl (he.avoids [] (taken.map Token.kind) (by rw [← hk]; rfl))
  · rintro rfl
    exact ⟨[], token.span, rest, by rw [← hk], rfl, enclosed_nil⟩

theorem Encloses.uncons (h : Encloses wanted depth (token :: rest) left)
    (hk : depth = 0 → token.kind ≠ wanted) :
    ∃ taken span more, left = ⟨wanted, span⟩ :: more ∧ rest = taken ++ left ∧
      Enclosed wanted depth (token.kind :: taken.map Token.kind) := by
  obtain ⟨taken, span, more, rfl, ht, he⟩ := h
  cases taken with
  | nil =>
    obtain ⟨rfl, -⟩ := List.cons.inj ht
    exact absurd rfl (hk (Option.some.inj he.level_eq))
  | cons token' taken =>
    obtain ⟨rfl, hrest⟩ := List.cons.inj ht
    exact ⟨taken, span, more, rfl, hrest, he⟩

theorem encloses_cons_iff (hl : level depth [token.kind] = some depth')
    (hk : depth = 0 → token.kind ≠ wanted) (hn : ∀ name, token.kind ≠ .word name) :
    Encloses wanted depth (token :: rest) left ↔ Encloses wanted depth' rest left := by
  constructor
  · intro h
    obtain ⟨taken, span, more, hleft, hrest, he⟩ := h.uncons hk
    exact ⟨taken, span, more, hleft, hrest, (enclosed_cons_iff hl hk hn).1 he⟩
  · rintro ⟨taken, span, more, hleft, rfl, he⟩
    exact ⟨token :: taken, span, more, hleft, rfl, (enclosed_cons_iff hl hk hn).2 he⟩

theorem kind_append_of_head? {k : Token.Kind} (h : (taken.map Token.kind).head? = some k) :
    kind (taken ++ rest) = k := by
  cases taken with
  | nil => simp at h
  | cons token taken => exact Option.some.inj h

theorem head?_of_kind_append {k : Token.Kind} (h : kind (taken ++ ⟨wanted, span⟩ :: rest) = k)
    (hk : wanted ≠ k) : (taken.map Token.kind).head? = some k := by
  cases taken with
  | nil => exact absurd h hk
  | cons token taken => exact congrArg some h

theorem not_encloses_of_atImport (h : atImport tokens = true) (hw : ∀ name, wanted ≠ .word name)
    (hr : wanted ≠ .opening .round) : ¬ Encloses wanted depth tokens left := by
  intro henc
  obtain ⟨span, rest, rfl, hround⟩ := atImport_iff.1 h
  obtain ⟨taken, span', more, rfl, rfl, he⟩ := henc.uncons fun _ hk => hw _ hk.symm
  exact not_qualifies_nil (he.unimporting [] _ rfl (head?_of_kind_append hround hr))

theorem head?_ne_of_not_atImport {span : Span} {inner more : List Token}
    (hi : ¬ atImport (⟨.word name, span⟩ :: (run ++ (inner ++ more))) = true) :
    name = "import" →
      (run.map Token.kind ++ inner.map Token.kind).head? ≠ some (.opening .round) := by
  rintro hname hround
  rw [← List.map_append] at hround
  have hkind : kind (run ++ inner ++ more) = .opening .round := kind_append_of_head? hround
  rw [List.append_assoc] at hkind
  exact hi (atImport_iff.2 ⟨span, _, by rw [hname], hkind⟩)

theorem kinds_ne_of_complete {inner more : List Token}
    (h : ∀ sign name span rest, inner ++ more ≠ ⟨.member, sign⟩ :: ⟨.word name, span⟩ :: rest)
    (name : String) (behind : List Token.Kind) :
    inner.map Token.kind ≠ .member :: .word name :: behind := by
  intro hinner
  match inner, hinner with
  | ⟨kind, sign⟩ :: ⟨kind', span⟩ :: inner, hinner =>
    obtain ⟨rfl, htail⟩ := List.cons.inj hinner
    obtain ⟨rfl, -⟩ := List.cons.inj htail
    exact h sign name span _ rfl

/-- A qualified name, or a name alone, is enclosed with what stands behind it. -/
theorem encloses_word_iff {span : Span} (hi : ¬ atImport (⟨.word name, span⟩ :: rest) = true)
    (hw : ∀ name, wanted ≠ .word name) (hm : wanted ≠ .member) :
    Encloses wanted depth (⟨.word name, span⟩ :: rest) left ↔
      Encloses wanted depth (members rest).2 left := by
  obtain ⟨run, names, hspells, hrest, -, hcomplete⟩ := members_spec rest
  have hiff : ∀ {inner more}, (members rest).2 = inner ++ more →
      (Enclosed wanted depth (.word name :: (run.map Token.kind ++ inner.map Token.kind)) ↔
        Enclosed wanted depth (inner.map Token.kind)) := by
    intro inner more hmore
    rw [hmore] at hrest hcomplete
    rw [hrest] at hi
    exact hspells.enclosed_iff (head?_ne_of_not_atImport hi) (kinds_ne_of_complete hcomplete) hw hm
  constructor
  · intro henc
    obtain ⟨taken, span', more, rfl, ht, he⟩ := henc.uncons fun _ hk => hw _ hk.symm
    -- the run is among the tokens that are taken, since what is wanted is not in it
    obtain ⟨inner, rfl, hinner⟩ : ∃ inner, taken = run ++ inner ∧
        (members rest).2 = inner ++ ⟨wanted, span'⟩ :: more := by
      rcases List.append_eq_append_iff.1 (hrest.symm.trans ht) with
        ⟨inner, htaken, hinner⟩ | ⟨inner, hrun, hinner⟩
      · exact ⟨inner, htaken, hinner⟩
      · cases inner with
        | nil => exact ⟨[], by rw [hrun, List.append_nil, List.append_nil], hinner.symm⟩
        | cons token inner =>
          obtain ⟨rfl, -⟩ := List.cons.inj hinner
          have hmem : ⟨wanted, span'⟩ ∈ run :=
            hrun ▸ List.mem_append_right taken List.mem_cons_self
          rcases hspells.kind_of_mem hmem with hmember | ⟨name', hname⟩
          · exact absurd hmember hm
          · exact absurd hname (hw name')
    rw [List.map_append] at he
    exact ⟨inner, span', more, rfl, hinner, (hiff hinner).1 he⟩
  · rintro ⟨taken, span', more, rfl, ht, he⟩
    refine ⟨⟨.word name, span⟩ :: (run ++ taken), span', more, rfl, ?_, ?_⟩
    · rw [hrest, ht, List.cons_append, List.append_assoc]
    · rw [List.map_cons, List.map_append]
      exact (hiff ht).2 he

end Encloses

theorem members_of_getLast?_eq_none (h : (members tokens).1.getLast? = none) :
    (members tokens).2 = tokens := by
  fun_cases members tokens with
  | case1 => simp [members] at h
  | case2 => rfl

theorem not_exists_fail {α : Type} {error : SyntaxError} :
    ¬ ∃ value : α, Step.fail error rest = .done value left := by
  rintro ⟨value, h⟩
  cases h

theorem exists_map_eq_done {α β : Type} {f : α → β} {s : Step α} :
    (∃ value, s.map f = .done value left) ↔ ∃ value, s = .done value left := by
  cases s with
  | done value rest =>
    constructor
    · rintro ⟨_, h⟩
      cases h
      exact ⟨value, rfl⟩
    · rintro ⟨_, h⟩
      cases h
      exact ⟨f value, rfl⟩
  | fail error rest => exact iff_of_false not_exists_fail not_exists_fail

theorem ne_of_wanted (hw : wanted = .equals ∨ wanted = .semicolon) :
    (∀ name, wanted ≠ .word name) ∧ wanted ≠ .member ∧
      (∀ bracket, wanted ≠ .opening bracket) ∧ ∀ bracket, wanted ≠ .closing bracket := by
  rcases hw with rfl | rfl <;> simp

/-- **What is taken of opaque tokens is what is enclosed**, and nothing else is. -/
theorem scanFrom_done_iff (hw : wanted = .equals ∨ wanted = .semicolon) :
    (∃ s, scanFrom ending wanted openers stop tokens = .done s left) ↔
      Encloses wanted openers.length tokens left := by
  obtain ⟨hword, hmember, hopening, hclosing⟩ := ne_of_wanted hw
  fun_induction scanFrom ending wanted openers stop tokens with
  | case1 | case2 =>
    refine iff_of_false not_exists_fail ?_
    rintro ⟨taken, span, more, rfl, h, -⟩
    exact absurd h (by simp)
  | case3 openers stop kind span rest h =>
    obtain ⟨rfl, rfl⟩ := h
    have henc : Encloses kind 0 (⟨kind, span⟩ :: rest) left ↔ left = ⟨kind, span⟩ :: rest :=
      encloses_of_kind rfl
    rw [List.length_nil, henc]
    constructor
    · rintro ⟨s, h⟩
      cases h
      rfl
    · rintro rfl
      exact ⟨_, rfl⟩
  | case4 openers stop span rest bracket h ih =>
    exact ih.trans (encloses_cons_iff rfl (fun _ hk => hopening _ hk.symm) (by simp)).symm
  | case5 stop span rest bracket h =>
    refine iff_of_false not_exists_fail fun henc => ?_
    obtain ⟨taken, _, _, -, -, he⟩ := henc.uncons fun _ hk => hclosing _ hk.symm
    exact absurd he.level_eq (by simp [level])
  | case6 stop span rest bracket opener outer h ih =>
    exact ih.trans (encloses_cons_iff rfl (fun _ hk => hclosing _ hk.symm) (by simp)).symm
  | case7 openers stop span rest name h hi =>
    rw [if_pos hi]
    exact iff_of_false not_exists_fail (not_encloses_of_atImport hi hword (hopening _))
  | case8 openers stop span rest name hnone h hi ih =>
    rw [if_neg hi, hnone, encloses_word_iff hi hword hmember, members_of_getLast?_eq_none hnone]
    exact ih
  | case9 openers stop span rest name last hlast h hi ih =>
    rw [if_neg hi, hlast, encloses_word_iff hi hword hmember]
    exact exists_map_eq_done.trans ih
  | case10 openers stop kind span rest h h₁ h₂ h₃ ih =>
    refine ih.trans (encloses_cons_iff (level_cons_of_inert ⟨h₁, h₂⟩) ?_ h₃).symm
    intro hdepth hk
    exact h ⟨List.eq_nil_of_length_eq_zero hdepth, hk⟩

theorem stop_of_scanFrom {s : Stretch}
    (hs : scanFrom ending wanted openers stop tokens = .done s left) :
    ∃ taken, tokens = taken ++ left ∧ s.stop = lastStop stop taken := by
  fun_induction scanFrom ending wanted openers stop tokens generalizing s with
  | case1 | case2 | case5 => cases hs
  | case3 =>
    cases hs
    exact ⟨[], rfl, rfl⟩
  | case4 _ _ span rest bracket _ ih =>
    obtain ⟨taken, rfl, hstop⟩ := ih hs
    exact ⟨⟨.opening bracket, span⟩ :: taken, rfl, hstop⟩
  | case6 _ span rest bracket _ _ _ ih =>
    obtain ⟨taken, rfl, hstop⟩ := ih hs
    exact ⟨⟨.closing bracket, span⟩ :: taken, rfl, hstop⟩
  | case7 _ _ _ _ _ _ hi =>
    rw [if_pos hi] at hs
    cases hs
  | case8 _ _ span rest name hnone _ hi ih =>
    rw [if_neg hi, hnone] at hs
    obtain ⟨taken, rfl, hstop⟩ := ih hs
    exact ⟨⟨.word name, span⟩ :: taken, rfl, hstop⟩
  | case9 _ _ span rest name last hlast _ hi ih =>
    rw [if_neg hi, hlast] at hs
    obtain ⟨s', hs', rfl⟩ := map_eq_done hs
    obtain ⟨run, names, -, hrest, hrun, -⟩ := members_spec rest
    obtain ⟨taken, htaken, hstop⟩ := ih hs'
    refine ⟨⟨.word name, span⟩ :: (run ++ taken), ?_, ?_⟩
    · rw [List.cons_append, List.append_assoc, ← htaken, ← hrest]
    · have hstride : lastStop span.stop run = last.span.stop := by
        rw [hrun, hlast]
        rfl
      change s'.stop = lastStop span.stop (run ++ taken)
      rw [lastStop_append, hstride, hstop]
  | case10 _ _ kind span rest _ _ _ _ ih =>
    obtain ⟨taken, rfl, hstop⟩ := ih hs
    exact ⟨⟨kind, span⟩ :: taken, rfl, hstop⟩

theorem lt_lastStop {token : Token} (hs : Token.Solid (token :: rest)) :
    token.span.start < lastStop stop (token :: rest) := by
  have hw := hs.wide token List.mem_cons_self
  rcases List.eq_nil_or_concat' rest with rfl | ⟨front, last, rfl⟩
  · exact hw
  · have hlast : last ∈ front ++ [last] := List.mem_append_right front List.mem_cons_self
    have hapart := (List.pairwise_cons.1 hs.apart).1 last hlast
    have hforward := hs.forward last (List.mem_cons_of_mem token hlast)
    rw [← List.cons_append, lastStop_append]
    exact Nat.lt_of_lt_of_le hw (Nat.le_trans hapart hforward)

theorem enclosed_of_scanFrom (hw : wanted = .equals ∨ wanted = .semicolon) {s : Stretch}
    {span : Span}
    (h : scanFrom ending wanted [] stop tokens = .done s (⟨wanted, span⟩ :: left)) :
    ∃ taken, tokens = taken ++ ⟨wanted, span⟩ :: left ∧
      Enclosed wanted 0 (taken.map Token.kind) ∧ s.stop = lastStop stop taken := by
  obtain ⟨taken, span', more, hleft, rfl, he⟩ := (scanFrom_done_iff hw).1 ⟨s, h⟩
  obtain ⟨taken', htaken, hstop⟩ := stop_of_scanFrom h
  exact ⟨taken, rfl, he, by rw [hstop, List.append_cancel_right htaken]⟩

theorem encloses_of_enclosed {wanted : Token.Kind} (h : Enclosed wanted 0 (taken.map Token.kind))
    (span : Span) (left : List Token) :
    Encloses wanted 0 (taken ++ ⟨wanted, span⟩ :: left) (⟨wanted, span⟩ :: left) :=
  ⟨taken, span, left, rfl, rfl, h⟩

theorem scanFrom_of_enclosed {wanted : Token.Kind} (hw : wanted = .equals ∨ wanted = .semicolon)
    (h : Enclosed wanted 0 (taken.map Token.kind)) (ending : Span) (stop : Nat) (span : Span)
    (left : List Token) :
    ∃ s, scanFrom ending wanted [] stop (taken ++ ⟨wanted, span⟩ :: left) =
        .done s (⟨wanted, span⟩ :: left) ∧ s.stop = lastStop stop taken := by
  have henc : Encloses wanted ([] : List Span).length _ _ := encloses_of_enclosed h span left
  obtain ⟨s, hs⟩ := (scanFrom_done_iff hw).2 henc
  obtain ⟨taken', htaken, hstop⟩ := stop_of_scanFrom hs
  exact ⟨s, hs, by rw [hstop, List.append_cancel_right htaken]⟩

end Program

end ModuleResolution
