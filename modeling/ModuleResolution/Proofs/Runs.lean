import ModuleResolution.Proofs.Placing

/-!
# Qualified names, one by one

Going over opaque tokens records the qualified names among them one by one: each run of names with
`::` in between that is as long as can be, in order, and nothing else.  A run is gone over in one
stride, so that none is cut; and none starts in the middle of another, since a name in front of what
is still to be gone over is never one that goes on there.

* `Program.Mention` : a run of tokens that spells names, and what stands around it.
* `Program.Surveys` : the qualified names in a stretch of tokens, each once and in order.
* `Program.surveys_of_scanFrom` : what is recorded are the qualified names in the stretch.
-/

namespace ModuleResolution

namespace Program

open Reading

/-! ### Mentions -/

/-- Where the tokens stand, from the start of the first to the end of the last. -/
def extent : List Token → Span
  | [] => .point 0
  | first :: rest => ⟨first.span.start, lastStop first.span.stop rest⟩

/-- A run of tokens in a list, and what stands around it. -/
structure Mention where
  before : List Token
  run : List Token
  behind : List Token
  /-- The names that the run spells. -/
  names : List String

namespace Mention

/-- What is recorded of a qualified name. -/
def reference (m : Mention) : Located Reference :=
  ⟨⟨m.names, kind m.behind == .opening .curly⟩, extent m.run⟩

/-- The run spells a qualified name and is as long as can be, and it stands in the stretch `tokens`,
with `front` in front of that and `left` behind it. -/
structure In (front tokens left : List Token) (m : Mention) : Prop where
  qualified : Qualified m.before m.run m.behind m.names
  within : ∃ before behind, m.before = front ++ before ∧ m.behind = behind ++ left ∧
    tokens = before ++ (m.run ++ behind)

end Mention

/-- The qualified names in the stretch `tokens`, with `front` in front of it and `left` behind: all
of them, one behind the other. -/
structure Surveys (front tokens left : List Token) (mentions : List Mention) : Prop where
  mem_iff : ∀ m, m ∈ mentions ↔ m.In front tokens left
  ordered : mentions.Pairwise fun m m' => m.before.length + m.run.length ≤ m'.before.length

variable {front tokens rest run left behind : List Token} {names : List String}
  {mentions : List Mention} {token : Token}

/-! ### Names that go on -/

/-- No name that `front` ends in goes on in `tokens`. -/
structure Severed (front tokens : List Token) : Prop where
  detached : ∀ name span rest, tokens = ⟨.word name, span⟩ :: rest → Detached front
  stopped : ∀ sign name span rest, tokens = ⟨.member, sign⟩ :: ⟨.word name, span⟩ :: rest →
    ∀ before name' span', front ≠ before ++ [⟨.word name', span'⟩]

theorem eq_of_concat {before : List Token} {last : Token}
    (h : front ++ [token] = before ++ [last]) : front = before ∧ token = last := by
  obtain ⟨hfront, hlast⟩ := List.append_inj' h rfl
  exact ⟨hfront, List.singleton_inj.1 hlast⟩

theorem detached_concat (h : token.kind ≠ .member) : Detached (front ++ [token]) := by
  intro before name span sign he
  rw [List.append_cons before] at he
  exact h (congrArg Token.kind (eq_of_concat he).2)

theorem Severed.of_kind (hm : token.kind ≠ .member) (hw : ∀ name, token.kind ≠ .word name)
    (front tokens : List Token) : Severed (front ++ [token]) tokens := by
  refine ⟨fun _ _ _ _ => detached_concat hm, ?_⟩
  intro _ _ _ _ _ before name span he
  exact hw name (congrArg Token.kind (eq_of_concat he).2)

theorem Severed.skip (h : Severed front (token :: rest)) (hw : ∀ name, token.kind ≠ .word name) :
    Severed (front ++ [token]) rest := by
  refine ⟨?_, ?_⟩
  · rintro name span more rfl before name' span' sign he
    -- the name in front of `::` would go on
    rw [List.append_cons before] at he
    obtain ⟨hfront, rfl⟩ := eq_of_concat he
    exact h.stopped sign name span more rfl before name' span' hfront
  · intro _ _ _ _ _ before name span he
    exact hw name (congrArg Token.kind (eq_of_concat he).2)

theorem Spells.exists_cons (h : Spells run names) :
    ∃ name span more, run = ⟨.word name, span⟩ :: more := by
  cases h with
  | word span name => exact ⟨name, span, _, rfl⟩

theorem Spells.eq_concat (h : Spells run names) :
    ∃ before name span, run = before ++ [⟨.word name, span⟩] := by
  cases h with
  | word span name h =>
    induction h generalizing span name with
    | nil => exact ⟨[], name, span, rfl⟩
    | @cons tokens _ sign span' name' _ ih =>
      obtain ⟨before, last, spot, hlast⟩ := ih span' name'
      exact ⟨⟨.word name, span⟩ :: ⟨.member, sign⟩ :: before, last, spot, by rw [hlast]; rfl⟩

/-- A run is gone over with all names that go on behind it. -/
theorem Severed.stride (hs : Spells run names)
    (hc : ∀ sign name span more, rest ≠ ⟨.member, sign⟩ :: ⟨.word name, span⟩ :: more) :
    Severed (front ++ run) rest := by
  obtain ⟨before, last, spot, rfl⟩ := hs.eq_concat
  refine ⟨fun _ _ _ _ => ?_, fun sign name span more he => absurd he (hc sign name span more)⟩
  rw [← List.append_assoc]
  exact detached_concat fun hk => by cases hk

/-! ### Runs that start together -/

theorem Spells.unique {run' behind' : List Token} {names' : List String} (h : Spells run names)
    (h' : Spells run' names') (ht : run ++ behind = run' ++ behind')
    (hc : ∀ sign name span rest, behind ≠ ⟨.member, sign⟩ :: ⟨.word name, span⟩ :: rest)
    (hc' : ∀ sign name span rest, behind' ≠ ⟨.member, sign⟩ :: ⟨.word name, span⟩ :: rest) :
    run = run' ∧ names = names' ∧ behind = behind' := by
  cases h with
  | word span name h =>
    cases h' with
    | word span' name' h' =>
      obtain ⟨he, hrest⟩ := List.cons.inj ht
      cases he
      obtain ⟨hnames, hbehind⟩ := members_of_spellsMore h hc
      obtain ⟨hnames', hbehind'⟩ := members_of_spellsMore h' hc'
      change _ ++ behind = _ ++ behind' at hrest
      rw [hrest] at hnames hbehind
      obtain rfl := hbehind.symm.trans hbehind'
      exact ⟨congrArg _ (List.append_cancel_right hrest), by rw [← hnames, hnames'], rfl⟩

theorem Mention.In.of_append {m : Mention} (h : m.In (front ++ run) rest left) :
    m.In front (run ++ rest) left := by
  obtain ⟨hq, before, behind, hbefore, hbehind, rfl⟩ := h
  exact ⟨hq, run ++ before, behind, by rw [hbefore, List.append_assoc], hbehind, by simp⟩

theorem Mention.In.of_stride {m : Mention} (h : m.In front (run ++ rest) left)
    (hs : Spells run names)
    (hc : ∀ sign name span more, rest ++ left ≠ ⟨.member, sign⟩ :: ⟨.word name, span⟩ :: more) :
    m = ⟨front, run, rest ++ left, names⟩ ∨ m.In (front ++ run) rest left := by
  obtain ⟨before, behind, hbefore, hbehind, htokens⟩ := h.within
  obtain ⟨mbefore, mrun, mbehind, mnames⟩ := m
  obtain rfl : mbefore = front ++ before := hbefore
  obtain rfl : mbehind = behind ++ left := hbehind
  have hq : Qualified (front ++ before) mrun (behind ++ left) mnames := h.qualified
  change run ++ rest = before ++ (mrun ++ behind) at htokens
  have hall : run ++ (rest ++ left) = before ++ (mrun ++ (behind ++ left)) := by
    simpa using congrArg (· ++ left) htokens
  cases before with
  | nil =>
    obtain ⟨rfl, rfl, hleft⟩ := hs.unique hq.spells hall hc hq.complete
    rw [List.append_nil, hleft]
    exact .inl rfl
  | cons token before =>
    right
    cases hs with
    | @word more moreNames span name hmore =>
      obtain ⟨rfl, htail⟩ := List.cons.inj hall
      change more ++ (rest ++ left) = before ++ (mrun ++ (behind ++ left)) at htail
      -- taking the names of the run does not cut into the other one
      obtain ⟨taken, before', rfl, hmembers⟩ :=
        members_of_detached hq.spells hq.detached.of_append
      rw [← htail, (members_of_spellsMore hmore hc).2] at hmembers
      have happended : rest ++ left = before' ++ (mrun ++ behind) ++ left := by
        simpa using hmembers
      have hrest : rest = before' ++ (mrun ++ behind) := List.append_cancel_right happended
      rw [List.append_assoc, ← hmembers] at htail
      obtain rfl : more = taken := List.append_cancel_right htail
      have heq : front ++ ⟨.word name, span⟩ :: (more ++ before') =
          front ++ ⟨.word name, span⟩ :: more ++ before' := by simp
      exact ⟨hq, before', behind, heq, rfl, hrest⟩

/-! ### Stretches that are surveyed -/

namespace Surveys

theorem nil (front left : List Token) : Surveys front [] left [] := by
  refine ⟨fun m => iff_of_false List.not_mem_nil ?_, List.Pairwise.nil⟩
  rintro ⟨hq, before, behind, -, -, he⟩
  have hpos := hq.spells.length_pos
  have hlen := congrArg List.length he
  simp only [List.length_nil, List.length_append] at hlen
  omega

theorem le_of_mem (h : Surveys front tokens left mentions) {m : Mention} (hm : m ∈ mentions) :
    front.length ≤ m.before.length := by
  obtain ⟨before, -, hbefore, -⟩ := ((h.mem_iff m).1 hm).within
  rw [hbefore, List.length_append]
  exact Nat.le_add_right _ _

theorem skip (h : Surveys (front ++ [token]) rest left mentions)
    (hw : ∀ name, token.kind ≠ .word name) : Surveys front (token :: rest) left mentions := by
  refine ⟨fun m => (h.mem_iff m).trans ⟨?_, ?_⟩, h.ordered⟩
  · rintro ⟨hq, before, behind, hbefore, hbehind, rfl⟩
    exact ⟨hq, token :: before, behind, by rw [hbefore]; simp, hbehind, rfl⟩
  · rintro ⟨hq, before, behind, hbefore, hbehind, he⟩
    cases before with
    | nil =>
      obtain ⟨name, span, more, hrun⟩ := hq.spells.exists_cons
      rw [hrun] at he
      exact absurd (congrArg Token.kind (List.cons.inj he).1) (hw name)
    | cons token' before =>
      obtain ⟨rfl, hrest⟩ := List.cons.inj he
      exact ⟨hq, before, behind, by rw [hbefore]; simp, hbehind, hrest⟩

/-- A run that is gone over and spells a qualified name is the first. -/
theorem stride (h : Surveys (front ++ run) rest left mentions) (hs : Spells run names)
    (hn : 2 ≤ names.length) (hd : Detached front)
    (hc : ∀ sign name span more, rest ++ left ≠ ⟨.member, sign⟩ :: ⟨.word name, span⟩ :: more) :
    Surveys front (run ++ rest) left (⟨front, run, rest ++ left, names⟩ :: mentions) := by
  refine ⟨fun m => ?_, List.pairwise_cons.2 ⟨fun m hm => ?_, h.ordered⟩⟩
  · rw [List.mem_cons, h.mem_iff]
    refine ⟨?_, fun hm => hm.of_stride hs hc⟩
    rintro (rfl | hm)
    · exact ⟨⟨hs, hn, hd, hc⟩, [], rest, (List.append_nil _).symm, rfl, rfl⟩
    · exact hm.of_append
  · have hle := h.le_of_mem hm
    rwa [List.length_append] at hle

theorem pass (h : Surveys (front ++ run) rest left mentions) (hs : Spells run names)
    (hn : names.length < 2)
    (hc : ∀ sign name span more, rest ++ left ≠ ⟨.member, sign⟩ :: ⟨.word name, span⟩ :: more) :
    Surveys front (run ++ rest) left mentions := by
  refine ⟨fun m => (h.mem_iff m).trans ⟨Mention.In.of_append, fun hm => ?_⟩, h.ordered⟩
  rcases hm.of_stride hs hc with rfl | hm'
  · exact absurd hm.qualified.two_le (Nat.not_le.2 hn)
  · exact hm'

end Surveys

/-! ### Going over opaque tokens -/

theorem extent_eq_join {name : String} {span : Span} {last : Located String}
    (hs : Token.Ordered (⟨.word name, span⟩ :: rest))
    (hrun : lastStop span.stop run = last.span.stop) (hlast : last ∈ (members rest).1) :
    extent (⟨.word name, span⟩ :: run) = span.join last.span := by
  have hplaced : span.stop ≤ last.span.start ∧ last.span.start ≤ last.span.stop := by
    refine placed_members (P := fun s => span.stop ≤ s.start ∧ s.start ≤ s.stop) ?_ last hlast
    intro t ht
    exact ⟨(List.pairwise_cons.1 hs.apart).1 t ht, hs.forward t (List.mem_cons_of_mem _ ht)⟩
  have hfirst : span.start ≤ span.stop := hs.forward _ List.mem_cons_self
  simp only [extent, hrun, Span.join, Span.mk.injEq]
  omega

/-- **What is recorded of opaque tokens are the qualified names among them.** -/
theorem surveys_of_scanFrom {ending : Span} {wanted : Token.Kind} {openers : List Span} {stop : Nat}
    {s : Stretch} (hs : scanFrom ending wanted openers stop tokens = .done s left)
    (hsevered : Severed front tokens) (hordered : Token.Ordered tokens) :
    ∃ taken mentions, tokens = taken ++ left ∧ Surveys front taken left mentions ∧
      s.references = mentions.map Mention.reference := by
  fun_induction scanFrom ending wanted openers stop tokens generalizing front s with
  | case1 | case2 | case5 => cases hs
  | case3 =>
    cases hs
    exact ⟨[], [], rfl, .nil _ _, rfl⟩
  | case4 _ _ span rest bracket _ ih =>
    obtain ⟨taken, mentions, rfl, hsurveys, hreferences⟩ :=
      ih hs (hsevered.skip (by simp)) (hordered.sublist (List.sublist_cons_self _ _))
    exact ⟨_ :: taken, mentions, rfl, hsurveys.skip (by simp), hreferences⟩
  | case6 _ span rest bracket _ _ _ ih =>
    obtain ⟨taken, mentions, rfl, hsurveys, hreferences⟩ :=
      ih hs (hsevered.skip (by simp)) (hordered.sublist (List.sublist_cons_self _ _))
    exact ⟨_ :: taken, mentions, rfl, hsurveys.skip (by simp), hreferences⟩
  | case7 _ _ _ _ _ _ hi =>
    rw [if_pos hi] at hs
    cases hs
  | case8 _ _ span rest name hnone _ hi ih =>
    -- no further name stands behind this one
    rw [if_neg hi, hnone] at hs
    obtain ⟨-, -, -, -, -, hcomplete⟩ := members_spec rest
    rw [members_of_getLast?_eq_none hnone] at hcomplete
    have hword : Spells [⟨.word name, span⟩] [name] := .word span name .nil
    obtain ⟨taken, mentions, rfl, hsurveys, hreferences⟩ :=
      ih hs (.stride hword hcomplete) (hordered.sublist (List.sublist_cons_self _ _))
    exact ⟨_ :: taken, mentions, rfl, hsurveys.pass hword (Nat.lt_succ_self 1) hcomplete,
      hreferences⟩
  | case9 _ _ span rest name last hlast _ hi ih =>
    rw [if_neg hi, hlast] at hs
    obtain ⟨s', hs', rfl⟩ := map_eq_done hs
    obtain ⟨run, names, hspells, hrest, hstop, hcomplete⟩ := members_spec rest
    have hnames : (members rest).1.map Located.value = names := by
      rw [hrest]
      exact (members_of_spellsMore hspells hcomplete).1
    have hlast' : last ∈ (members rest).1 := List.mem_of_getLast? hlast
    have hextent : extent (⟨.word name, span⟩ :: run) = span.join last.span :=
      extent_eq_join hordered (by rw [hstop, hlast]; rfl) hlast'
    have hword : Spells (⟨.word name, span⟩ :: run) (name :: names) := .word span name hspells
    have hle : 2 ≤ (name :: names).length := by
      rw [← hnames, List.length_cons, List.length_map]
      exact Nat.succ_le_succ (List.length_pos_of_mem hlast')
    have hsuffix : (members rest).2 <:+ ⟨.word name, span⟩ :: rest :=
      (members_suffix rest).trans (List.suffix_cons _ _)
    obtain ⟨taken, mentions, htaken, hsurveys, hreferences⟩ :=
      ih hs' (.stride hword hcomplete) (hordered.sublist hsuffix.sublist)
    rw [htaken] at hcomplete hrest
    refine ⟨⟨.word name, span⟩ :: run ++ taken, _, ?_,
      hsurveys.stride hword hle (hsevered.detached name span rest rfl) hcomplete, ?_⟩
    · rw [hrest]
      simp
    · rw [List.map_cons, ← hreferences, Stretch.cons, referenceOf, hnames, Mention.reference,
        hextent, htaken]
  | case10 _ _ kind span rest _ _ _ hw ih =>
    obtain ⟨taken, mentions, rfl, hsurveys, hreferences⟩ :=
      ih hs (hsevered.skip hw) (hordered.sublist (List.sublist_cons_self _ _))
    exact ⟨_ :: taken, mentions, rfl, hsurveys.skip hw, hreferences⟩

end Program

end ModuleResolution
