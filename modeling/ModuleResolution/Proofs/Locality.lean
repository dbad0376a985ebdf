import Mathlib.Data.List.Basic
import ModuleResolution.Proofs.Parsing

/-!
# Readings and what stands behind

A reading looks no further than the semicolon that ends an item.  So what it makes of tokens that
end with a semicolon is the same with anything behind them, unless it fails where they end.

* `Reading.Local` : a reading does not depend on what stands behind the last semicolon.
* `Reading.Inner` : besides, it does not take this semicolon.
* `Program.local_item` : reading an item is local.
* `Program.items_append` : items that are read without a mistake go in front of any others.
-/

namespace ModuleResolution

namespace Reading

variable {α β : Type} {ending : Span} {tokens rest left : List Token} {token : Token}

/-- The result with more tokens behind those that are left. -/
def Step.append (more : List Token) : Step α → Step α
  | done value rest => done value (rest ++ more)
  | fail error rest => fail error (rest ++ more)

theorem Step.append_map (f : α → β) (s : Step α) (more : List Token) :
    (s.map f).append more = (s.append more).map f := by
  cases s <;> rfl

@[simp] theorem Step.append_nil (s : Step α) : s.append [] = s := by
  cases s <;> simp [append]

/-- The tokens end with a semicolon. -/
def Ends (tokens : List Token) : Prop := ∃ body span, tokens = body ++ [⟨.semicolon, span⟩]

/-- What the reading makes of tokens that end with a semicolon depends neither on what stands behind
them nor on where the file ends, unless the reading fails where they end. -/
def Local (reading : Reading α) : Prop :=
  ∀ ending tokens, Ends tokens → (∀ error, reading ending tokens ≠ .fail error []) →
    ∀ ending' more, reading ending' (tokens ++ more) = (reading ending tokens).append more

/-- Besides, the reading does not take the semicolon that the tokens end with. -/
structure Inner (reading : Reading α) : Prop where
  isLocal : Local reading
  ends : ∀ {ending tokens value left}, Ends tokens → reading ending tokens = .done value left →
    Ends left

/-! ### Tokens that end with a semicolon -/

theorem Ends.ne_nil (h : Ends tokens) : tokens ≠ [] := by
  obtain ⟨body, span, rfl⟩ := h
  simp

theorem Ends.of_suffix (h : Ends tokens) (hs : left <:+ tokens) (hne : left ≠ []) : Ends left := by
  obtain ⟨body, span, rfl⟩ := h
  rcases List.suffix_concat_iff.1 hs with rfl | ⟨front, rfl, -⟩
  · exact absurd rfl hne
  · exact ⟨front, span, rfl⟩

@[simp] theorem ends_cons_iff :
    Ends (token :: rest) ↔ token.kind = .semicolon ∧ rest = [] ∨ Ends rest := by
  constructor
  · rintro ⟨body, span, h⟩
    cases body with
    | nil =>
      obtain ⟨rfl, rfl⟩ := List.cons.inj h
      exact .inl ⟨rfl, rfl⟩
    | cons token' body =>
      obtain ⟨-, rfl⟩ := List.cons.inj h
      exact .inr ⟨body, span, rfl⟩
  · rintro (⟨hk, rfl⟩ | ⟨body, span, rfl⟩)
    · exact ⟨[], token.span, by rw [← hk]; rfl⟩
    · exact ⟨token :: body, span, rfl⟩

theorem Ends.of_cons (h : Ends (token :: rest)) (hk : token.kind ≠ .semicolon) : Ends rest := by
  simpa [hk] using h

theorem kind_append (h : tokens ≠ []) (more : List Token) :
    kind (tokens ++ more) = kind tokens := by
  cases tokens with
  | nil => exact absurd rfl h
  | cons => rfl

theorem place_append (h : tokens ≠ []) (ending ending' : Span) (more : List Token) :
    place ending' (tokens ++ more) = place ending tokens := by
  cases tokens with
  | nil => exact absurd rfl h
  | cons => rfl

/-! ### Readings in sequence -/

section Bind

variable {reading : Reading α} {next : α → Reading β}

theorem bind_of_fail {error : SyntaxError} (h : reading ending tokens = .fail error left) :
    (reading >>= next) ending tokens = .fail error left := by
  simp only [Bind.bind, h]

theorem Inner.bind_local (h : Inner reading) (hn : ∀ value, Local (next value)) :
    Local (reading >>= next) := by
  intro ending tokens hends hfail ending' more
  have hfirst := h.isLocal ending tokens hends
  cases hr : reading ending tokens with
  | done value rest =>
    rw [hr] at hfirst
    have hstep := hfirst (by simp) ending' more
    rw [Program.bind_of_done hr] at hfail ⊢
    rw [Program.bind_of_done hstep]
    exact hn value ending rest (h.ends hends hr) hfail ending' more
  | fail error rest =>
    rw [hr] at hfirst
    rw [bind_of_fail hr] at hfail ⊢
    rw [bind_of_fail (hfirst (by simpa using hfail) ending' more)]
    rfl

theorem Inner.bind (h : Inner reading) (hn : ∀ value, Inner (next value)) :
    Inner (reading >>= next) := by
  refine ⟨h.bind_local fun value => (hn value).isLocal, fun hends hdone => ?_⟩
  obtain ⟨value, rest, hr, hrest⟩ := Program.bind_eq_done hdone
  exact (hn value).ends (h.ends hends hr) hrest

theorem inner_pure (value : α) : Inner (pure value) := by
  refine ⟨fun _ _ _ _ _ _ => rfl, fun hends hdone => ?_⟩
  cases hdone
  exact hends

theorem Local.bind_pure (h : Local reading) (f : α → β) :
    Local (reading >>= fun value => pure (f value)) := by
  intro ending tokens hends hfail ending' more
  have hfirst := h ending tokens hends
  cases hr : reading ending tokens with
  | done value rest =>
    rw [hr] at hfirst
    rw [Program.bind_of_done hr, Program.bind_of_done (hfirst (by simp) ending' more)]
    rfl
  | fail error rest =>
    rw [hr] at hfirst
    rw [bind_of_fail hr] at hfail ⊢
    rw [bind_of_fail (hfirst (by simpa using hfail) ending' more)]
    rfl

end Bind

/-! ### One token -/

theorem local_fail (problem : Problem) : Local (fail problem : Reading α) := by
  intro ending tokens hends _ ending' more
  simp only [fail, Step.append, place_append hends.ne_nil ending]

theorem inner_next : Inner next := by
  refine ⟨fun _ _ hends _ _ _ => ?_, fun hends hdone => ?_⟩
  · simp only [next, Step.append, kind_append hends.ne_nil]
  · cases hdone
    exact hends

theorem local_expect (wanted : Token.Kind) (spot : Problem.Place) :
    Local (expect wanted spot) := by
  intro ending tokens hends _ ending' more
  have hne := hends.ne_nil
  simp only [expect, fail, kind_append hne, place_append hne ending]
  split
  · rw [List.tail_append_of_ne_nil hne]
    rfl
  · rfl

theorem inner_expect {wanted : Token.Kind} (hw : wanted ≠ .endOfFile) (hs : wanted ≠ .semicolon)
    (spot : Problem.Place) : Inner (expect wanted spot) := by
  refine ⟨local_expect wanted spot, fun hends hdone => ?_⟩
  rw [Program.expect_eq_done hw hdone] at hends
  exact hends.of_cons hs

theorem inner_accept {wanted : Token.Kind} (hw : wanted ≠ .endOfFile) (hs : wanted ≠ .semicolon) :
    Inner (accept wanted) := by
  refine ⟨fun ending tokens hends _ ending' more => ?_, @fun _ _ taken _ hends hdone => ?_⟩
  · have hne := hends.ne_nil
    simp only [accept, kind_append hne]
    split
    · rw [List.tail_append_of_ne_nil hne]
      rfl
    · rfl
  · have htaken := Program.accept_eq_done hw hdone
    cases taken with
    | true =>
      obtain ⟨span, rfl⟩ := htaken
      exact hends.of_cons hs
    | false =>
      rw [htaken]
      exact hends

end Reading

namespace Program

open Reading Grammar

variable {ending : Span} {tokens taken rest left : List Token} {token first : Token}

/-! ### Imports -/

theorem atImport_append (h : rest ≠ []) (more : List Token) :
    atImport (token :: (rest ++ more)) = atImport (token :: rest) := by
  obtain ⟨k, span⟩ := token
  cases k with
  | word name => simp only [atImport, kind_append h]
  | _ => rfl

theorem atImport_append_of_ends (h : Ends tokens) (more : List Token) :
    atImport (tokens ++ more) = atImport tokens := by
  obtain ⟨token, rest, rfl⟩ := List.exists_cons_of_ne_nil h.ne_nil
  rcases ends_cons_iff.1 h with ⟨hk, rfl⟩ | hrest
  · obtain ⟨k, span⟩ := token
    cases hk
    rfl
  · exact atImport_append hrest.ne_nil more

theorem inner_acceptImport : Inner acceptImport := by
  refine ⟨fun ending tokens hends _ ending' more => ?_, @fun _ _ accepted _ hends hdone => ?_⟩
  · simp only [acceptImport, atImport_append_of_ends hends]
    split
    · rw [List.tail_append_of_ne_nil hends.ne_nil]
      rfl
    · rfl
  · have haccepted := acceptImport_eq_done hdone
    cases accepted with
    | true =>
      obtain ⟨⟨span, rfl⟩, -⟩ := haccepted
      exact hends.of_cons (by simp)
    | false =>
      rw [haccepted]
      exact hends

theorem inner_importPath : Inner importPath := by
  refine ⟨fun ending tokens hends _ ending' more => ?_, fun hends hdone => ?_⟩
  · match tokens, hends with
    | [], h => exact absurd rfl h.ne_nil
    | ⟨k, span⟩ :: rest, h => cases k <;> rfl
  · unfold importPath at hdone
    split at hdone
    · cases hdone
      exact hends.of_cons (by simp)
    · cases hdone

theorem inner_importTarget : Inner importTarget :=
  (inner_expect (by simp) (by simp) _).bind fun _ => inner_importPath.bind fun _ =>
    (inner_expect (by simp) (by simp) _).bind fun _ => inner_pure _

theorem local_importRest (start : Span) (form : Import.Form) : Local (importRest start form) :=
  inner_importTarget.bind_local fun _ => (local_expect _ _).bind_pure _

/-! ### Destructuring patterns -/

theorem requests_append (h : Ends tokens) (ending' : Span) (more : List Token) :
    requests ending' (tokens ++ more) = (requests ending tokens).append more := by
  fun_induction requests ending tokens with
  | case1 => simp [requests, Step.append]
  | case2 exported span₁ colon renamed span₂ comma rest ih =>
    have hrest : Ends rest := by simpa using h
    simp only [List.cons_append, requests, ih hrest, Step.append_map]
  | case3 exported span₁ colon renamed span₂ rest hne =>
    have hrest : Ends rest := by simpa using h
    obtain ⟨t, rest, rfl⟩ := List.exists_cons_of_ne_nil hrest.ne_nil
    simp only [List.cons_append]
    rw [requests]
    · rfl
    · simp_all
  | case4 name span₁ colon rest hcomma hname =>
    have hrest : Ends rest := by simpa using h
    obtain ⟨t, rest, rfl⟩ := List.exists_cons_of_ne_nil hrest.ne_nil
    simp only [List.cons_append]
    rw [requests]
    · rfl
    all_goals simp_all
  | case5 exported span₁ comma rest ih =>
    have hrest : Ends rest := by simpa using h
    simp only [List.cons_append, requests, ih hrest, Step.append_map]
  | case6 exported span rest =>
    obtain ⟨t, rest, rfl⟩ := List.exists_cons_of_ne_nil (h.of_cons (by simp)).ne_nil
    simp only [List.cons_append]
    rw [requests]
    · rfl
    all_goals simp_all
  | case7 =>
    obtain ⟨t, rest, rfl⟩ := List.exists_cons_of_ne_nil h.ne_nil
    simp only [List.cons_append]
    rw [requests]
    · rfl
    all_goals simp_all

theorem ends_of_requests {asked : List Import.Request} (h : Ends tokens)
    (hdone : requests ending tokens = .done asked left) : Ends left := by
  fun_induction requests ending tokens generalizing asked with
  | case1 =>
    cases hdone
    exact h
  | case2 _ _ _ _ _ _ rest ih =>
    obtain ⟨_, hrest, -⟩ := map_eq_done hdone
    exact ih (by simpa using h) hrest
  | case3 =>
    cases hdone
    simpa using h
  | case4 => cases hdone
  | case5 _ _ _ rest ih =>
    obtain ⟨_, hrest, -⟩ := map_eq_done hdone
    exact ih (by simpa using h) hrest
  | case6 =>
    cases hdone
    exact h.of_cons (by simp)
  | case7 => cases hdone

theorem inner_requests : Inner requests :=
  ⟨fun _ _ hends _ ending' more => requests_append hends ending' more,
    fun hends hdone => ends_of_requests hends hdone⟩

theorem local_selection (start : Span) : Local (selection start) := by
  refine inner_requests.bind_local fun _ => (inner_expect (by simp) (by simp) _).bind_local fun _ =>
    (inner_expect (by simp) (by simp) _).bind_local fun _ => inner_acceptImport.bind_local ?_
  intro accepted
  split
  · exact local_importRest _ _
  · exact inner_next.bind_local fun _ => local_fail _

/-! ### Opaque tokens -/

/-- Taking further names is the same with more behind, unless all that is left is a sign that a name
stands behind. -/
theorem members_append (hne : (members tokens).2 ≠ [])
    (hsign : ∀ sign, (members tokens).2 ≠ [⟨.member, sign⟩]) (more : List Token) :
    members (tokens ++ more) = ((members tokens).1, (members tokens).2 ++ more) := by
  fun_induction members tokens with
  | case1 sign name span rest ih =>
    simp only [List.cons_append, members, ih hne hsign]
  | case2 tokens hnone =>
    cases tokens with
    | nil => exact absurd rfl hne
    | cons t rest =>
      cases rest with
      | nil =>
        obtain ⟨k, span⟩ := t
        cases k with
        | member => exact absurd rfl (hsign span)
        | _ => rfl
      | cons t' rest =>
        rw [List.cons_append, List.cons_append, members]
        simp_all

section ScanFrom

variable {wanted : Token.Kind} {openers : List Span} {stop : Nat} {kind : Token.Kind} {span : Span}

theorem scanFrom_stop (h : openers = [] ∧ kind = wanted) :
    scanFrom ending wanted openers stop (⟨kind, span⟩ :: rest) =
      .done ⟨stop, []⟩ (⟨kind, span⟩ :: rest) := by
  rw [scanFrom.eq_def]
  exact if_pos h

theorem scanFrom_inert (h : ¬ (openers = [] ∧ kind = wanted)) (hk : Inert kind)
    (hn : ∀ name, kind ≠ .word name) :
    scanFrom ending wanted openers stop (⟨kind, span⟩ :: rest) =
      scanFrom ending wanted openers span.stop rest := by
  rw [scanFrom.eq_def]
  refine (if_neg h).trans ?_
  split
  · exact absurd rfl (hk.1 _)
  · exact absurd rfl (hk.2 _)
  · exact absurd rfl (hn _)
  · rfl

theorem scanFrom_opening {bracket : Bracket} (h : ¬ (openers = [] ∧ .opening bracket = wanted)) :
    scanFrom ending wanted openers stop (⟨.opening bracket, span⟩ :: rest) =
      scanFrom ending wanted (span :: openers) span.stop rest := by
  rw [scanFrom, if_neg h]

theorem scanFrom_closing {bracket : Bracket} (opener : Span) :
    scanFrom ending wanted (opener :: openers) stop (⟨.closing bracket, span⟩ :: rest) =
      scanFrom ending wanted openers span.stop rest := by
  rw [scanFrom, if_neg (by simp)]

theorem scanFrom_unmatched {bracket : Bracket} (h : .closing bracket ≠ wanted) :
    scanFrom ending wanted [] stop (⟨.closing bracket, span⟩ :: rest) =
      .fail ⟨.unmatched bracket, span⟩ (⟨.closing bracket, span⟩ :: rest) := by
  rw [scanFrom, if_neg (by simpa using h)]

section Word

variable {name : String} (h : ¬ (openers = [] ∧ .word name = wanted))
include h

theorem scanFrom_import (hi : atImport (⟨.word name, span⟩ :: rest) = true) :
    scanFrom ending wanted openers stop (⟨.word name, span⟩ :: rest) =
      .fail ⟨.innerImport, span⟩ (⟨.word name, span⟩ :: rest) := by
  rw [scanFrom, if_neg h, if_pos hi]

theorem scanFrom_name (hi : ¬ atImport (⟨.word name, span⟩ :: rest) = true)
    (hnone : (members rest).1.getLast? = none) :
    scanFrom ending wanted openers stop (⟨.word name, span⟩ :: rest) =
      scanFrom ending wanted openers span.stop rest := by
  rw [scanFrom, if_neg h, if_neg hi, hnone]

theorem scanFrom_reference {last : Located String}
    (hi : ¬ atImport (⟨.word name, span⟩ :: rest) = true)
    (hlast : (members rest).1.getLast? = some last) :
    scanFrom ending wanted openers stop (⟨.word name, span⟩ :: rest) =
      (scanFrom ending wanted openers last.span.stop (members rest).2).map
        (Stretch.cons (referenceOf name span (members rest).1 last (members rest).2)) := by
  rw [scanFrom, if_neg h, if_neg hi, hlast]

end Word

theorem rest_scanFrom_nil : (scanFrom ending wanted openers stop []).rest = [] := by
  cases openers <;> rw [scanFrom] <;> rfl

theorem rest_scanFrom_member (h : wanted ≠ .member) :
    (scanFrom ending wanted openers stop [⟨.member, span⟩]).rest = [] := by
  rw [scanFrom_inert (fun hs => h hs.2.symm) (by simp [Inert]) (by simp), rest_scanFrom_nil]

theorem scanFrom_append (hm : wanted ≠ .member)
    (hleft : (scanFrom ending wanted openers stop tokens).rest ≠ []) (ending' : Span)
    (more : List Token) : scanFrom ending' wanted openers stop (tokens ++ more) =
      (scanFrom ending wanted openers stop tokens).append more := by
  fun_induction scanFrom ending wanted openers stop tokens with
  | case1 | case2 => exact absurd rfl hleft
  | case3 openers stop kind span rest h => exact scanFrom_stop h
  | case4 openers stop span rest bracket h ih => exact (scanFrom_opening h).trans (ih hleft)
  | case5 stop span rest bracket h => exact scanFrom_unmatched (by simpa using h)
  | case6 stop span rest bracket opener outer h ih =>
    exact (scanFrom_closing opener).trans (ih hleft)
  | case7 openers stop span rest name h hi =>
    obtain ⟨_, _, he, hround⟩ := atImport_iff.1 hi
    have hrest : rest ≠ [] := by
      rintro rfl
      rw [← (List.cons.inj he).2] at hround
      cases hround
    rw [if_pos hi, List.cons_append, scanFrom_import h (by rwa [atImport_append hrest])]
    rfl
  | case8 openers stop span rest name hnone h hi ih =>
    rw [if_neg hi, hnone] at hleft ⊢
    dsimp only at hleft ⊢
    have hne : rest ≠ [] := by
      rintro rfl
      exact hleft rest_scanFrom_nil
    have hsign : ∀ sign, rest ≠ [⟨.member, sign⟩] := by
      rintro sign rfl
      exact hleft (rest_scanFrom_member hm)
    have hrest := members_of_getLast?_eq_none hnone
    have hmembers := members_append (hrest.symm ▸ hne) (hrest.symm ▸ hsign) more
    rw [List.cons_append, scanFrom_name h (by rwa [atImport_append hne]) (by rwa [hmembers])]
    exact ih hleft
  | case9 openers stop span rest name last hlast h hi ih =>
    rw [if_neg hi, hlast] at hleft ⊢
    dsimp only at hleft ⊢
    rw [Step.rest_map] at hleft
    have hne : (members rest).2 ≠ [] := by
      intro hnil
      rw [hnil] at hleft
      exact hleft rest_scanFrom_nil
    have hsign : ∀ sign, (members rest).2 ≠ [⟨.member, sign⟩] := by
      intro sign he
      rw [he] at hleft
      exact hleft (rest_scanFrom_member hm)
    have hrest : rest ≠ [] := by
      rintro rfl
      exact hne rfl
    have hmembers := members_append hne hsign more
    rw [List.cons_append,
      scanFrom_reference h (by rwa [atImport_append hrest]) (by rwa [hmembers]), hmembers,
      Step.append_map, ← ih hleft]
    simp only [referenceOf, kind_append hne]
  | case10 openers stop kind span rest h h₁ h₂ h₃ ih =>
    exact (scanFrom_inert h ⟨h₁, h₂⟩ h₃).trans (ih hleft)

theorem rest_scanFrom_ne_nil (hw : wanted = .equals ∨ wanted = .semicolon)
    (h : ∀ error, scanFrom ending wanted openers stop tokens ≠ .fail error []) :
    (scanFrom ending wanted openers stop tokens).rest ≠ [] := by
  cases hs : scanFrom ending wanted openers stop tokens with
  | done s left =>
    obtain ⟨_, _, _, rfl, -, -⟩ := (scanFrom_done_iff hw).1 ⟨s, hs⟩
    exact List.cons_ne_nil _ _
  | fail error left =>
    rintro rfl
    exact h error hs

end ScanFrom

theorem inner_scan {wanted : Token.Kind} (hw : wanted = .equals ∨ wanted = .semicolon) :
    Inner (scan wanted) := by
  have hm := (ne_of_wanted hw).2.1
  refine ⟨fun ending tokens hends hfail ending' more => ?_, fun hends hdone => ?_⟩
  · have hplace := place_append hends.ne_nil ending ending' more
    have hleft : (scanFrom ending wanted [] (place ending tokens).start tokens).rest ≠ [] := by
      refine rest_scanFrom_ne_nil hw fun error he => hfail error ?_
      simp only [scan, he, Step.map]
    simp only [scan, hplace, scanFrom_append hm hleft, Step.append_map]
  · obtain ⟨s, hs, -⟩ := map_eq_done hdone
    obtain ⟨_, _, _, rfl, rfl, -⟩ := (scanFrom_done_iff hw).1 ⟨s, hs⟩
    exact hends.of_suffix (List.suffix_append _ _) (List.cons_ne_nil _ _)

/-! ### Types and values -/

theorem inner_bindingType (name : Located String) : Inner (bindingType name) := by
  refine (inner_accept (by simp) (by simp)).bind fun taken => ?_
  split
  · exact (inner_scan (.inl rfl)).bind fun _ => (inner_expect (by simp) (by simp) _).bind fun _ =>
      inner_pure _
  · exact (inner_expect (by simp) (by simp) _).bind fun _ => inner_pure _

/-- A group that is closed ends at the same place, whatever stands behind. -/
theorem exists_afterGroup {depth : Nat} (h : level (depth + 1) (tokens.map Token.kind) = some 0) :
    ∃ left, ∀ more, afterGroup (depth + 1) (tokens ++ more) = some (left ++ more) := by
  induction tokens generalizing depth with
  | nil => cases h
  | cons token rest ih =>
    obtain ⟨k, span⟩ := token
    cases k with
    | opening bracket => exact ih h
    | closing bracket =>
      cases depth with
      | zero => exact ⟨rest, fun _ => rfl⟩
      | succ depth => exact ih h
    | _ => exact ih h

theorem valueKind_append {stop : Nat} {s : Stretch}
    (hs : scanFrom ending .semicolon [] stop tokens = .done s left) (more : List Token) :
    valueKind (tokens ++ more) = valueKind tokens := by
  obtain ⟨taken, span, behind, rfl, rfl, he⟩ := (scanFrom_done_iff (.inr rfl)).1 ⟨s, hs⟩
  cases taken with
  | nil => rfl
  | cons first taken =>
    obtain ⟨k, span'⟩ := first
    have hne : taken ++ ⟨.semicolon, span⟩ :: behind ≠ [] := by simp
    cases k with
    | word name => simp only [List.cons_append, valueKind, kind_append hne]
    | opening bracket =>
      cases bracket with
      | round =>
        have hl : level (0 + 1) (taken.map Token.kind) = some 0 := he.level_eq
        obtain ⟨inner, hinner⟩ := exists_afterGroup hl
        have hne' : inner ++ ⟨.semicolon, span⟩ :: behind ≠ [] := by simp
        simp only [List.cons_append, List.append_assoc, valueKind, hinner, Option.map_some]
        rw [← List.cons_append, ← List.append_assoc, kind_append hne']
      | _ => rfl
    | _ => rfl

/-- What is made of a value that was gone over. -/
def declared (name : Located String) (references : List (Located Reference))
    (kind : Declaration.Kind) (body : Span × List (Located Reference)) : Reading (Located Item) :=
  if body.1.isEmpty then fail (.expectedValue name.value)
  else do
    let stop ← expect .semicolon (.afterDeclaration name.value)
    pure ⟨.declaration ⟨name, kind, .exported, body.1, references ++ body.2⟩, name.span.join stop⟩

theorem value_eq (name : Located String) (references : List (Located Reference)) (ending : Span)
    (tokens : List Token) : value name references ending tokens =
      (scan .semicolon >>= declared name references (valueKind tokens)) ending tokens :=
  rfl

theorem local_declared (name : Located String) (references : List (Located Reference))
    (kind : Declaration.Kind) (body : Span × List (Located Reference)) :
    Local (declared name references kind body) := by
  unfold declared
  split
  · exact local_fail _
  · exact (local_expect _ _).bind_pure _

theorem local_value (name : Located String) (references : List (Located Reference)) :
    Local (value name references) := by
  intro ending tokens hends hfail ending' more
  have hscan := inner_scan (.inr rfl : Token.Kind.semicolon = .equals ∨ _)
  have hlocal := hscan.bind_local (local_declared name references (valueKind tokens)) ending tokens
    hends hfail ending' more
  rw [value_eq, value_eq, ← hlocal]
  cases hs : scan .semicolon ending tokens with
  | done body left =>
    obtain ⟨s, hs, -⟩ := map_eq_done hs
    rw [valueKind_append hs]
  | fail error left =>
    -- the kind does not matter
    rw [value_eq, bind_of_fail hs] at hfail
    have hfail' := hscan.isLocal ending tokens hends (by simpa [hs] using hfail) ending' more
    rw [hs] at hfail'
    rw [bind_of_fail hfail', bind_of_fail hfail']

theorem local_binding (name : Located String) : Local (binding name) := by
  refine (inner_bindingType name).bind_local fun _ => inner_acceptImport.bind_local fun taken => ?_
  split
  · exact local_importRest _ _
  · exact local_value _ _

/-! ### Items -/

/-- **Reading an item does not depend on what stands behind its semicolon.** -/
theorem local_item (first : Token) : Local (item first) := by
  intro ending tokens hends hfail ending' more
  obtain ⟨k, span⟩ := first
  cases k with
  | word name =>
    simp only [item, atImport_append hends.ne_nil] at hfail ⊢
    split at hfail
    · rename_i hi
      rw [if_pos hi, if_pos hi]
      exact local_importRest _ _ _ _ hends hfail _ _
    · rename_i hi
      rw [if_neg hi, if_neg hi]
      exact local_binding _ _ _ hends hfail _ _
  | opening bracket =>
    cases bracket with
    | curly => exact local_selection _ _ _ hends hfail _ _
    | _ => rfl
  | _ => rfl

theorem item_append_of_done {found : Located Item} (h : item first ending rest = .done found left)
    (hends : Ends rest) (ending' : Span) (more : List Token) :
    item first ending' (rest ++ more) = .done found (left ++ more) := by
  rw [local_item first ending rest hends (by simp [h]), h]
  rfl

theorem suffix_of_item {found : Located Item} (h : item first ending rest = .done found left) :
    left <:+ rest := by
  have hleaves := item_leaves first ending rest
  rwa [h] at hleaves

theorem suffix_of_mistake {error : SyntaxError} (h : item first ending rest = .fail error left) :
    left <:+ first :: rest := by
  have hleaves := item_leaves first ending rest
  rwa [h] at hleaves

theorem items_cons_of_semicolon (hk : first.kind = .semicolon) :
    items ending (first :: rest) = items ending rest := by
  rw [items, if_pos hk]

theorem items_cons_of_fail {error : SyntaxError} (hk : first.kind ≠ .semicolon)
    (h : item first ending rest = .fail error left) : items ending (first :: rest) =
      (error :: (items ending (recover 0 left)).1, (items ending (recover 0 left)).2) := by
  rw [items, if_neg hk]
  split
  · rename_i hdone
    rw [h] at hdone
    cases hdone
  · rename_i hfail
    rw [h] at hfail
    cases hfail
    rfl

theorem Divides.ends {parts : List Part} {found : List (Located Item)}
    (h : Divides tokens parts found) (hne : tokens ≠ []) : Ends tokens := by
  induction h with
  | nil => exact absurd rfl hne
  | @semicolon rest parts found span h ih =>
    by_cases hrest : rest = []
    · exact ⟨[], span, by rw [hrest]; rfl⟩
    · exact ends_cons_iff.2 (.inr (ih hrest))
  | @item part taken x rest parts found hm h ih =>
    obtain ⟨first, body, semicolon, rfl, -⟩ := hm.extent
    by_cases hrest : rest = []
    · exact ⟨first :: body, semicolon, by simp [hrest]⟩
    · obtain ⟨body', span, rfl⟩ := ih hrest
      exact ⟨first :: (body ++ ⟨.semicolon, semicolon⟩ :: body'), span, by simp⟩

/-- **Items that are read without a mistake go in front of any others.** -/
theorem items_append {found : List (Located Item)} (h : items ending tokens = ([], found))
    (ending' : Span) (more : List Token) : items ending' (tokens ++ more) =
      ((items ending' more).1, found ++ (items ending' more).2) := by
  fun_induction items ending tokens generalizing found with
  | case1 =>
    cases h
    rfl
  | case2 first rest hk ih =>
    rw [List.cons_append, items_cons_of_semicolon hk]
    exact ih h
  | case3 first rest hk x left hi =>
    rename_i ih
    obtain ⟨herrors, rfl⟩ := Prod.mk.inj h
    have hitems : items ending (first :: rest) = ([], x :: (items ending left).2) := by
      rw [items_cons_of_done hk hi, herrors]
    obtain ⟨parts, hparts⟩ := divides_of_items hitems
    have hends := (hparts.ends (List.cons_ne_nil _ _)).of_cons hk
    rw [List.cons_append, items_cons_of_done hk (item_append_of_done hi hends ending' more),
      ih (Prod.ext herrors rfl)]
    rfl
  | case4 => cases h

end Program

end ModuleResolution
