import ModuleResolution.Proofs.Locality
import ModuleResolution.Proofs.Segments

/-!
# What is left of a segment

A segment ends with its only semicolon outside brackets.  What is left of it somewhere inside ends
with the same semicolon, and closes the brackets that are open in front.  A mistake in it is noticed
in front of its end, except where the type of a binding goes on up to there.

* `Reading.Steady` : a reading that does not fail at the end of its tokens.
* `Program.Remainder` : what is left of a segment behind some of its tokens.
* `Program.Remainder.recover_spec` : recovery stops at a semicolon of what is left.
* `Program.Remainder.item_ne_fail` : a mistake is noticed in front of the end.
-/

namespace ModuleResolution

namespace Grammar

variable {stop : Token.Kind} {depth depth' : Nat} {kinds : List Token.Kind}

theorem level_add (h : level depth kinds = some depth') (n : Nat) :
    level (n + depth) kinds = some (n + depth') := by
  induction kinds generalizing depth with
  | nil => exact congrArg (some <| n + ·) (Option.some.inj h)
  | cons kind kinds ih =>
    cases kind with
    | opening bracket => exact ih h
    | closing bracket =>
      cases depth with
      | zero => cases h
      | succ depth => exact ih h
    | _ => exact ih h

/-- With `depth` brackets open in front, no bracket is closed among the kinds but those and the ones
that they open themselves.  Neither is `stop` among them outside brackets, nor is an import. -/
structure Passable (stop : Token.Kind) (depth : Nat) (kinds : List Token.Kind) : Prop where
  exists_level : ∃ depth', level depth kinds = some depth'
  avoids : Avoids stop depth kinds
  unimporting : Unimporting kinds

theorem passable_nil (stop : Token.Kind) (depth : Nat) : Passable stop depth [] where
  exists_level := ⟨depth, rfl⟩
  avoids := avoids_of_notMem List.not_mem_nil
  unimporting := fun _ _ he => absurd he (by simp)

theorem Passable.append {front : List Token.Kind} (h : Passable stop depth' kinds)
    (hl : level depth front = some depth') (ha : Avoids stop depth front)
    (hu : Unimporting kinds → Unimporting (front ++ kinds)) :
    Passable stop depth (front ++ kinds) := by
  obtain ⟨last, hlast⟩ := h.exists_level
  refine ⟨⟨last, ?_⟩, ha.append hl h.avoids, hu h.unimporting⟩
  rw [level_append, hl]
  exact hlast

theorem Passable.cons {kind : Token.Kind} (h : Passable stop depth' kinds)
    (hl : level depth [kind] = some depth') (hs : depth = 0 → kind ≠ stop)
    (hk : ∀ name, kind ≠ .word name) : Passable stop depth (kind :: kinds) :=
  h.append hl (avoids_single hs) (unimporting_cons_iff hk).2

theorem exists_level {front rest : List Token.Kind}
    (h : level depth (front ++ rest) = some depth') :
    ∃ inner, level depth front = some inner ∧ level inner rest = some depth' := by
  rw [level_append] at h
  exact Option.bind_eq_some_iff.1 h

/-- Behind what has a derivation as many brackets are open as in front. -/
theorem level_of_derives {parts : List Part} (h : Derives parts kinds) (depth : Nat) :
    level depth kinds = some depth := by
  obtain ⟨hw, rfl⟩ := h
  induction parts with
  | nil => rfl
  | cons part parts ih =>
    obtain ⟨hpart, hparts⟩ := List.forall_mem_cons.1 hw
    have hl : level depth part.kinds = some depth := by
      by_cases hp : part = .semicolon
      · rw [hp]
        rfl
      · obtain ⟨body, hbody, hl, -⟩ := part.kinds_eq_append hpart hp
        have hopen : level depth body = some depth := level_add hl depth
        rw [hbody, level_append, hopen]
        rfl
    rw [List.flatMap_cons, level_append, hl]
    exact ih hparts

end Grammar

namespace Reading

variable {α β : Type} {ending : Span} {tokens rest left : List Token}

/-! ### Readings that do not run into the end -/

/-- The reading does not fail where the tokens end, if they end with a semicolon. -/
def Steady (reading : Reading α) : Prop :=
  ∀ ending tokens error, Ends tokens → reading ending tokens ≠ .fail error []

theorem bind_eq_fail {reading : Reading α} {next : α → Reading β} {error : SyntaxError}
    (h : (reading >>= next) ending tokens = .fail error left) :
    reading ending tokens = .fail error left ∨
      ∃ value rest, reading ending tokens = .done value rest ∧
        next value ending rest = .fail error left := by
  cases hr : reading ending tokens with
  | done value rest =>
    rw [Program.bind_of_done hr] at h
    exact .inr ⟨value, rest, rfl, h⟩
  | fail error' rest =>
    rw [bind_of_fail hr] at h
    cases h
    exact .inl rfl

theorem Steady.bind {reading : Reading α} {next : α → Reading β} (hs : Steady reading)
    (hi : Inner reading) (hn : ∀ value, Steady (next value)) : Steady (reading >>= next) := by
  intro ending tokens error hends h
  rcases bind_eq_fail h with h | ⟨value, rest, hr, h⟩
  · exact hs ending tokens error hends h
  · exact hn value ending rest error (hi.ends hends hr) h

theorem Steady.bind_pure {reading : Reading α} (hs : Steady reading) (f : α → β) :
    Steady (reading >>= fun value => pure (f value)) := by
  intro ending tokens error hends h
  rcases bind_eq_fail h with h | ⟨value, rest, hr, h⟩
  · exact hs ending tokens error hends h
  · cases h

theorem steady_fail (problem : Problem) : Steady (fail problem : Reading α) := by
  intro ending tokens error hends h
  cases h
  exact hends.ne_nil rfl

theorem steady_expect (wanted : Token.Kind) (spot : Problem.Place) :
    Steady (expect wanted spot) := by
  intro ending tokens error hends h
  unfold expect at h
  split at h
  · cases h
  · exact steady_fail _ ending tokens error hends h

end Reading

namespace Program

open Reading Grammar

variable {ending : Span} {tokens rest left front : List Token} {token first : Token}
  {error : SyntaxError} {depth : Nat}

theorem steady_acceptImport : Steady acceptImport := by
  intro ending tokens error _ h
  unfold acceptImport at h
  split at h <;> cases h

theorem steady_importPath : Steady importPath := by
  intro ending tokens error hends h
  unfold importPath at h
  split at h
  · cases h
  · exact steady_fail _ _ _ error hends h

theorem steady_importTarget : Steady importTarget :=
  (steady_expect _ _).bind (inner_expect (by simp) (by simp) _) fun _ =>
    steady_importPath.bind inner_importPath fun _ => (steady_expect _ _).bind_pure _

theorem steady_importRest (start : Span) (form : Import.Form) : Steady (importRest start form) :=
  steady_importTarget.bind inner_importTarget fun _ => (steady_expect _ _).bind_pure _

theorem fail_of_map {α β : Type} {f : α → β} {s : Step α} (h : s.map f = .fail error left) :
    s = .fail error left := by
  cases s with
  | done => cases h
  | fail =>
    cases h
    rfl

theorem steady_requests : Steady requests := by
  intro ending tokens error hends h
  fun_induction requests ending tokens with
  | case1 | case3 | case6 => cases h
  | case2 _ _ _ _ _ _ rest ih => exact ih (by simpa using hends) (fail_of_map h)
  | case4 _ _ _ rest =>
    have hrest : Ends rest := by simpa using hends
    exact steady_fail _ _ _ error hrest h
  | case5 _ _ _ rest ih => exact ih (by simpa using hends) (fail_of_map h)
  | case7 => exact steady_fail _ _ _ error hends h

theorem steady_selection (start : Span) : Steady (selection start) := by
  refine steady_requests.bind inner_requests fun _ =>
    (steady_expect _ _).bind (inner_expect (by simp) (by simp) _) fun _ =>
      (steady_expect _ _).bind (inner_expect (by simp) (by simp) _) fun _ =>
        steady_acceptImport.bind inner_acceptImport fun accepted => ?_
  split
  · exact steady_importRest _ _
  · intro ending tokens error hends h
    exact steady_fail _ _ _ error hends h

/-! ### What is left of a segment -/

/-- With `depth` brackets open in front, the tokens close them all, and end with the only semicolon
that stands outside them. -/
def Remainder (depth : Nat) (tokens : List Token) : Prop :=
  ∃ body span, tokens = body ++ [⟨.semicolon, span⟩] ∧
    level depth (body.map Token.kind) = some 0 ∧
    Avoids .semicolon depth (body.map Token.kind)

instance (depth : Nat) (tokens : List Token) : Decidable (Remainder depth tokens) :=
  decidable_of_iff (tokens.getLast?.map Token.kind = some .semicolon ∧
    level depth (tokens.dropLast.map Token.kind) = some 0 ∧
    Avoids .semicolon depth (tokens.dropLast.map Token.kind)) <| by
  constructor
  · rintro ⟨hlast, hl, ha⟩
    obtain ⟨⟨k, span⟩, hk, rfl⟩ := Option.map_eq_some_iff.1 hlast
    exact ⟨tokens.dropLast, span, (List.dropLast_append_getLast? _ hk).symm, hl, ha⟩
  · rintro ⟨body, span, rfl, hl, ha⟩
    simpa using ⟨hl, ha⟩

theorem Remainder.ends (h : Remainder depth tokens) : Ends tokens := by
  obtain ⟨body, span, rfl, -, -⟩ := h
  exact ⟨body, span, rfl⟩

theorem Remainder.of_append (h : Remainder depth (front ++ rest)) (hne : rest ≠ []) :
    ∃ depth', level depth (front.map Token.kind) = some depth' ∧ Remainder depth' rest := by
  obtain ⟨body', span', rfl⟩ := h.ends.of_suffix (List.suffix_append _ _) hne
  obtain ⟨body, span, hbody, hl, ha⟩ := h
  rw [← List.append_assoc] at hbody
  obtain ⟨rfl, -⟩ := List.append_inj' hbody rfl
  rw [List.map_append] at hl ha
  obtain ⟨depth', hfront, hrest⟩ := exists_level hl
  exact ⟨depth', hfront, body', span', rfl, hrest, ha.of_append hfront⟩

/-- The tokens are left of a segment inside brackets, unless there are none. -/
def Inside (tokens : List Token) : Prop :=
  tokens ≠ [] → ∃ depth, 0 < depth ∧ Remainder depth tokens

theorem Remainder.pos_of_semicolon {span : Span} {inner : Nat}
    (h : Remainder depth (front ++ ⟨.semicolon, span⟩ :: rest))
    (hl : level depth (front.map Token.kind) = some inner) (hne : rest ≠ []) : 0 < inner := by
  have hsuffix : rest <:+ front ++ ⟨.semicolon, span⟩ :: rest :=
    (List.suffix_cons _ _).trans (List.suffix_append _ _)
  obtain ⟨body', span', rfl⟩ := h.ends.of_suffix hsuffix hne
  obtain ⟨body, span, hbody, -, ha⟩ := h
  rw [← List.cons_append, ← List.append_assoc] at hbody
  obtain ⟨rfl, -⟩ := List.append_inj' hbody rfl
  refine Nat.pos_of_ne_zero ?_
  rintro rfl
  exact ha (front.map Token.kind) (body'.map Token.kind) (by simp) hl

/-- What stands behind a semicolon stands inside brackets. -/
theorem Remainder.inside {span : Span} (h : Remainder depth (front ++ ⟨.semicolon, span⟩ :: rest)) :
    Inside rest := by
  intro hne
  have hsplit := h
  rw [List.append_cons] at hsplit
  obtain ⟨depth', hl, hrest⟩ := hsplit.of_append hne
  rw [List.map_append] at hl
  obtain ⟨inner, hfront, hinner⟩ := exists_level hl
  obtain rfl : inner = depth' := Option.some.inj hinner
  exact ⟨inner, h.pos_of_semicolon hfront hne, hrest⟩

/-- Recovery stops at a semicolon of the tokens, whatever stands behind them: it counts no more
brackets than are open. -/
theorem Remainder.recover_spec (h : Remainder depth tokens) {n : Nat} (hn : n ≤ depth) :
    ∃ front span rest, tokens = front ++ ⟨.semicolon, span⟩ :: rest ∧ recover n tokens = rest ∧
      ∀ more, recover n (tokens ++ more) = rest ++ more := by
  induction tokens generalizing depth n with
  | nil => exact absurd rfl h.ends.ne_nil
  | cons token tokens ih =>
    obtain ⟨k, span⟩ := token
    by_cases hnil : tokens = []
    · -- the last semicolon, outside brackets
      subst hnil
      obtain ⟨body, span', hbody, hl, -⟩ := h
      obtain ⟨rfl, hlast⟩ := List.append_eq_singleton_iff.1 hbody.symm |>.resolve_right (by simp)
      obtain rfl : depth = 0 := Option.some.inj hl
      obtain rfl : n = 0 := Nat.le_zero.1 hn
      rw [← hlast]
      exact ⟨[], span', [], rfl, rfl, fun _ => rfl⟩
    · have hsplit : Remainder depth ([⟨k, span⟩] ++ tokens) := h
      obtain ⟨depth', hl, hrest⟩ := hsplit.of_append hnil
      have hgo {m : Nat} (hm : m ≤ depth')
          (hrec : ∀ more, recover n (⟨k, span⟩ :: (tokens ++ more)) = recover m (tokens ++ more)) :
          ∃ front span' rest, ⟨k, span⟩ :: tokens = front ++ ⟨.semicolon, span'⟩ :: rest ∧
            recover n (⟨k, span⟩ :: tokens) = rest ∧
            ∀ more, recover n (⟨k, span⟩ :: tokens ++ more) = rest ++ more := by
        obtain ⟨front, span', rest, rfl, hrecover, happend⟩ := ih hrest hm
        have hrec' := hrec []
        rw [List.append_nil] at hrec'
        exact ⟨⟨k, span⟩ :: front, span', rest, rfl, hrec'.trans hrecover,
          fun more => (hrec more).trans (happend more)⟩
      cases k with
      | semicolon =>
        by_cases hzero : n = 0
        · subst hzero
          exact ⟨[], span, tokens, rfl, rfl, fun _ => rfl⟩
        · obtain rfl : depth = depth' := Option.some.inj hl
          exact hgo hn fun more => by rw [recover, if_neg hzero]
      | opening bracket =>
        obtain rfl : depth + 1 = depth' := Option.some.inj hl
        exact hgo (Nat.succ_le_succ hn) fun more => rfl
      | closing bracket =>
        cases depth with
        | zero => cases hl
        | succ depth =>
          obtain rfl : depth = depth' := Option.some.inj hl
          exact hgo (Nat.sub_le_of_le_add hn) fun more => rfl
      | _ =>
        obtain rfl : depth = depth' := Option.some.inj hl
        exact hgo hn fun more => rfl

/-! ### Mistakes that are noticed at the end -/

theorem passable_of_scanFrom {wanted : Token.Kind} {openers : List Span} {stop : Nat}
    (hw : wanted = .equals ∨ wanted = .semicolon)
    (h : scanFrom ending wanted openers stop tokens = .fail error []) :
    Passable wanted openers.length (tokens.map Token.kind) := by
  obtain ⟨hword, hmember, hopening, hclosing⟩ := ne_of_wanted hw
  fun_induction scanFrom ending wanted openers stop tokens with
  | case1 | case2 => exact passable_nil _ _
  | case3 | case5 => cases h
  | case4 openers stop span rest bracket _ ih =>
    exact (ih h).cons rfl (fun _ hk => hopening bracket hk.symm) (by simp)
  | case6 stop span rest bracket opener outer _ ih =>
    exact (ih h).cons rfl (fun _ hk => hclosing bracket hk.symm) (by simp)
  | case7 openers stop span rest name _ hi =>
    rw [if_pos hi] at h
    cases h
  | case8 openers stop span rest name hnone _ hi ih =>
    rw [if_neg hi, hnone] at h
    have hhead := @head?_ne_of_not_atImport [] name span rest [] (by simpa using hi)
    refine (ih h).append (@SpellsMore.level_eq [] [] .nil name _)
      (@SpellsMore.avoids wanted [] [] name .nil hword hmember _) fun hu => hu.cons fun hname => ?_
    exact hhead (Token.Kind.word.inj hname)
  | case9 openers stop span rest name last hlast _ hi ih =>
    rw [if_neg hi, hlast] at h
    obtain ⟨run, names, hspells, hrest, -, hcomplete⟩ := members_spec rest
    have hpassable := ih (fail_of_map h)
    generalize (members rest).2 = inner at hrest hcomplete hpassable
    subst hrest
    rw [← List.append_nil inner] at hi hcomplete
    rw [List.map_cons, List.map_append]
    exact hpassable.append (hspells.level_eq name _) (hspells.avoids hword hmember _)
      (hspells.unimporting_iff (head?_ne_of_not_atImport hi) (kinds_ne_of_complete hcomplete)).2
  | case10 openers stop kind span rest hk h₁ h₂ h₃ ih =>
    refine (ih h).cons (level_cons_of_inert ⟨h₁, h₂⟩) (fun hdepth hkind => ?_) h₃
    exact hk ⟨List.eq_nil_of_length_eq_zero hdepth, hkind⟩

theorem Remainder.level_eq (h : Remainder depth tokens) :
    level depth (tokens.map Token.kind) = some 0 := by
  obtain ⟨body, span, rfl, hl, -⟩ := h
  rw [List.map_append, level_append, hl]
  rfl

/-- Where no bracket is closed but those that the tokens open themselves, none is open in front. -/
theorem Remainder.eq_zero {n : Nat} (h : Remainder depth tokens)
    (hl : level 0 (tokens.map Token.kind) = some n) : depth = 0 := by
  have hsum := (level_add hl depth).symm.trans h.level_eq
  exact (Nat.add_eq_zero_iff.1 (Option.some.inj hsum)).1

/-- A value in a segment is not gone over up to the end. -/
theorem Remainder.scan_ne_fail (h : Remainder depth tokens) (stop : Nat) :
    scanFrom ending .semicolon [] stop tokens ≠ .fail error [] := by
  intro hs
  obtain ⟨⟨n, hn⟩, ha, -⟩ := passable_of_scanFrom (.inr rfl) hs
  obtain rfl := h.eq_zero hn
  obtain ⟨body, span, rfl, hl, -⟩ := h
  rw [List.map_append] at ha
  exact ha (body.map Token.kind) [] rfl hl

/-- A type in a segment is gone over up to the end only where all that is left is enclosed, outside
brackets. -/
theorem Remainder.enclosed_of_scan (h : Remainder depth tokens) {stop : Nat}
    (hs : scanFrom ending .equals [] stop tokens = .fail error []) :
    depth = 0 ∧ Enclosed .equals 0 (tokens.map Token.kind) := by
  obtain ⟨⟨n, hn⟩, ha, hu⟩ := passable_of_scanFrom (.inl rfl) hs
  obtain rfl := h.eq_zero hn
  exact ⟨rfl, h.level_eq, ha, hu⟩

/-- What stands behind the name and the colon of a binding with a type. -/
def typeOnwards : List Token → Option (List Token)
  | ⟨.word _, _⟩ :: ⟨.colon, _⟩ :: rest => some rest
  | _ => none

/-- The type of the binding, if it has one, does not go on to the end of the tokens. -/
def Bounded (tokens : List Token) : Prop :=
  ∀ rest ∈ typeOnwards tokens, ¬ Enclosed .equals 0 (rest.map Token.kind)

instance (tokens : List Token) : Decidable (Bounded tokens) :=
  inferInstanceAs (Decidable (∀ rest ∈ typeOnwards tokens, _))

theorem bindingType_eq_fail {name : Located String} (hends : Ends tokens)
    (h : bindingType name ending tokens = .fail error []) : ∃ colon rest start,
      tokens = ⟨.colon, colon⟩ :: rest ∧
        scanFrom ending .equals [] start rest = .fail error [] := by
  rcases bind_eq_fail h with haccept | ⟨taken, rest, haccept, hnext⟩
  · unfold accept at haccept
    split at haccept <;> cases haccept
  have hrest := (inner_accept (by simp) (by simp)).ends hends haccept
  have htaken := accept_eq_done (by decide) haccept
  cases taken with
  | true =>
    obtain ⟨colon, rfl⟩ := htaken
    rcases bind_eq_fail hnext with hscan | ⟨_, left, hscan, hstop⟩
    · exact ⟨colon, rest, _, rfl, fail_of_map hscan⟩
    · have hleft := (inner_scan (.inl rfl)).ends hrest hscan
      exact absurd hstop ((steady_expect _ _).bind_pure _ _ _ _ hleft)
  | false => exact absurd hnext ((steady_expect _ _).bind_pure _ _ _ _ hrest)

theorem value_eq_fail {name : Located String} {references : List (Located Reference)}
    (hends : Ends tokens) (h : value name references ending tokens = .fail error []) :
    ∃ start, scanFrom ending .semicolon [] start tokens = .fail error [] := by
  rw [value_eq] at h
  rcases bind_eq_fail h with hscan | ⟨body, left, hscan, hnext⟩
  · exact ⟨_, fail_of_map hscan⟩
  · have hleft := (inner_scan (.inr rfl)).ends hends hscan
    unfold declared at hnext
    split at hnext
    · exact absurd hnext (steady_fail _ _ _ _ hleft)
    · exact absurd hnext ((steady_expect _ _).bind_pure _ _ _ _ hleft)

/-- **A mistake in a segment is noticed in front of its end.** -/
theorem Remainder.item_ne_fail (h : Remainder depth (first :: rest))
    (hb : depth = 0 → Bounded (first :: rest)) (hk : first.kind ≠ .semicolon) :
    item first ending rest ≠ .fail error [] := by
  intro hitem
  have hends := h.ends.of_cons hk
  have hsplit : Remainder depth ([first] ++ rest) := h
  obtain ⟨depth', hl, hrest⟩ := hsplit.of_append hends.ne_nil
  obtain ⟨k, span⟩ := first
  cases k with
  | word name =>
    obtain rfl : depth = depth' := Option.some.inj hl
    simp only [item] at hitem
    split at hitem
    · exact steady_importRest _ _ _ _ _ hends hitem
    rcases bind_eq_fail hitem with htype | ⟨references, left, htype, hvalue⟩
    · obtain ⟨colon, more, start, rfl, hscan⟩ := bindingType_eq_fail hends htype
      have hsplit : Remainder depth ([⟨.colon, colon⟩] ++ more) := hrest
      obtain ⟨depth', hl, hmore⟩ := hsplit.of_append (hends.of_cons (by simp)).ne_nil
      obtain rfl : depth = depth' := Option.some.inj hl
      obtain ⟨rfl, ha⟩ := hmore.enclosed_of_scan hscan
      exact hb rfl more rfl ha
    · have hleft := (inner_bindingType _).ends hends htype
      rcases bind_eq_fail hvalue with haccept | ⟨accepted, left', haccept, hvalue⟩
      · exact steady_acceptImport _ _ _ hleft haccept
      have hleft' := inner_acceptImport.ends hleft haccept
      cases accepted with
      | true => exact steady_importRest _ _ _ _ _ hleft' hvalue
      | false =>
        obtain ⟨start, hscan⟩ := value_eq_fail hleft' hvalue
        obtain ⟨taken, rfl⟩ := (suffix_of_done keeps_acceptImport haccept).trans
          (suffix_of_done (keeps_bindingType _) htype)
        obtain ⟨depth', -, hremainder⟩ := hrest.of_append hleft'.ne_nil
        exact hremainder.scan_ne_fail start hscan
  | opening bracket =>
    cases bracket with
    | curly => exact steady_selection _ _ _ _ hends hitem
    | _ => cases hitem
  | _ => cases hitem

end Program

end ModuleResolution
