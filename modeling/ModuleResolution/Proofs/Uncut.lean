import ModuleResolution.Proofs.Joining

/-!
# Tokens behind the end of a file

The items of a program are read off the tokens in front of the first end of file, so that no reading
has to look for it.  Here the tokens are read as they are given: whatever is gone over stops at an
end of file by itself, and the tokens behind it are there to be looked at.  But none of them is, not
even by what looks ahead.

* `Program.Uncut.ofTokens` : the items of a list of tokens that is not cut.
* `Program.Heeds` : a reading of uncut tokens heeds the first end of file.
* `Program.Uncut.items_append` : what is read off uncut tokens is what is read off those in front of
  the first end of file.
* `Program.StopsAtEnd` : nothing behind the first end of file matters, and a list without one ends
  as with one behind its last token.
* `Program.uncut_stopsAtEnd` : so it is for both ways to read.
-/

namespace ModuleResolution

namespace Program

open Reading

/-! ### Reading uncut tokens -/

namespace Uncut

/-- Goes over opaque tokens as `Program.scanFrom` does, but stops at an end of file. -/
def scanFrom (ending : Span) (wanted : Token.Kind) (openers : List Span) (stop : Nat) :
    List Token → Step Stretch
  | [] =>
    match openers with
    | opener :: _ => .fail ⟨.openBracket, opener⟩ []
    | [] => .fail ⟨.endedBefore wanted, ending⟩ []
  | ⟨kind, span⟩ :: rest =>
    if kind = .endOfFile then
      match openers with
      | opener :: _ => .fail ⟨.openBracket, opener⟩ (⟨kind, span⟩ :: rest)
      | [] => .fail ⟨.endedBefore wanted, span⟩ (⟨kind, span⟩ :: rest)
    else if openers = [] ∧ kind = wanted then .done ⟨stop, []⟩ (⟨kind, span⟩ :: rest)
    else
      match kind with
      | .opening _ => scanFrom ending wanted (span :: openers) span.stop rest
      | .closing bracket =>
        match openers with
        | [] => .fail ⟨.unmatched bracket, span⟩ (⟨kind, span⟩ :: rest)
        | _ :: outer => scanFrom ending wanted outer span.stop rest
      | .word name =>
        if atImport (⟨kind, span⟩ :: rest) then .fail ⟨.innerImport, span⟩ (⟨kind, span⟩ :: rest)
        else
          match (members rest).1.getLast? with
          | none => scanFrom ending wanted openers span.stop rest
          | some last =>
            (scanFrom ending wanted openers last.span.stop (members rest).2).map
              (Stretch.cons (referenceOf name span (members rest).1 last (members rest).2))
      | _ => scanFrom ending wanted openers span.stop rest
termination_by tokens => tokens.length
decreasing_by
  all_goals
    first
    | exact Nat.lt_succ_of_le (members_suffix rest).length_le
    | exact Nat.lt_succ_self _

/-- Goes over opaque tokens as `Program.scan` does, but stops at an end of file. -/
def scan (wanted : Token.Kind) : Reading (Span × List (Located Reference)) := fun ending tokens =>
  let start := (place ending tokens).start
  (scanFrom ending wanted [] start tokens).map fun s => (⟨start, s.stop⟩, s.references)

/-- The tokens behind the bracket that brings the depth to zero, if no end of file is in front of
it. -/
def afterGroup (depth : Nat) : List Token → Option (List Token)
  | [] => none
  | token :: rest =>
    match token.kind with
    | .endOfFile => none
    | .opening _ => afterGroup (depth + 1) rest
    | .closing _ => if depth ≤ 1 then some rest else afterGroup (depth - 1) rest
    | _ => afterGroup depth rest

/-- What a declaration defines whose value starts with the given tokens. -/
def valueKind : List Token → Declaration.Kind
  | ⟨.opening .round, _⟩ :: rest =>
    match (afterGroup 1 rest).map kind with
    | some .thickArrow | some .thinArrow => .function
    | _ => .value
  | tokens => Program.valueKind tokens

/-- The type of a binding, if there is one, and the sign behind it. -/
def bindingType (name : Located String) : Reading (List (Located Reference)) := do
  if ← accept .colon then
    let (_, references) ← scan .equals
    let _ ← expect .equals .afterType
    pure references
  else
    let _ ← expect .define (.afterName name.value)
    pure []

/-- The value of a binding. -/
def value (name : Located String) (references : List (Located Reference)) :
    Reading (Located Item) := do
  let kind : Declaration.Kind ← fun _ tokens => .done (valueKind tokens) tokens
  let body ← scan .semicolon
  declared name references kind body

/-- A binding of `name`, behind the name. -/
def binding (name : Located String) : Reading (Located Item) := do
  let references ← bindingType name
  if ← acceptImport then importRest name.span (.whole (some name))
  else value name references

/-- The item that starts with the given token. -/
def item (first : Token) : Reading (Located Item) := fun ending rest =>
  match first with
  | ⟨.word name, span⟩ =>
    if atImport (first :: rest) then importRest span (.whole none) ending rest
    else binding ⟨name, span⟩ ending rest
  | ⟨.opening .curly, span⟩ => selection span ending rest
  | ⟨kind, span⟩ => .fail ⟨.expectedItem kind, span⟩ (first :: rest)

/-- The tokens behind the next semicolon outside the brackets opened from here on, or those from
the end of the file on. -/
def recover (depth : Nat) : List Token → List Token
  | [] => []
  | token :: rest =>
    match token.kind with
    | .endOfFile => token :: rest
    | .semicolon => if depth = 0 then rest else recover depth rest
    | .opening _ => recover (depth + 1) rest
    | .closing _ => recover (depth - 1) rest
    | _ => recover depth rest

end Uncut

variable {α β : Type} {ending : Span} {front closing rest left : List Token} {depth : Nat}

/-! ### Looking at the first end of file -/

/-- Where a list of tokens ends that no end of file closes: behind its last token. -/
def lastEnd (tokens : List Token) : Span := .point ((tokens.getLast?.map (·.span.stop)).getD 0)

/-- There is no end of file among the tokens. -/
def Unended (tokens : List Token) : Prop := ∀ t ∈ tokens, t.kind ≠ .endOfFile

theorem eq_nil_or_cons_of_kind (hc : kind closing = .endOfFile) :
    closing = [] ∨ ∃ span behind, closing = ⟨.endOfFile, span⟩ :: behind := by
  rcases closing with _ | ⟨⟨k, span⟩, behind⟩
  · exact .inl rfl
  · cases hc
    exact .inr ⟨span, behind, rfl⟩

theorem Unended.of_cons {first : Token} (h : Unended (first :: rest)) :
    first.kind ≠ .endOfFile ∧ Unended rest :=
  List.forall_mem_cons.1 h

theorem Unended.of_suffix (h : Unended front) (hs : left <:+ front) : Unended left :=
  fun t ht => h t (hs.subset ht)

theorem place_append_place (ending : Span) (front closing : List Token) :
    place ending (front ++ closing) = place (place ending closing) front := by
  cases front <;> rfl

theorem tail_append_of_kind (hk : kind front ≠ .endOfFile) (closing : List Token) :
    (front ++ closing).tail = front.tail ++ closing := by
  refine List.tail_append_of_ne_nil ?_
  rintro rfl
  exact hk rfl

section Closing

-- `closing` starts with an end of file, unless there is none
variable (hc : kind closing = .endOfFile)
include hc

theorem kind_closed (front : List Token) : kind (front ++ closing) = kind front := by
  cases front with
  | nil => exact hc
  | cons => rfl

theorem eq_cons_of_closed {first : Token} (hk : first.kind ≠ .endOfFile)
    (h : front ++ closing = first :: rest) : ∃ rest', front = first :: rest' ∧
      rest' ++ closing = rest := by
  cases front with
  | nil =>
    rw [List.nil_append] at h
    rw [h] at hc
    exact absurd hc hk
  | cons token front =>
    obtain ⟨rfl, hrest⟩ := List.cons.inj h
    exact ⟨front, rfl, hrest⟩

theorem atImport_closed (front : List Token) : atImport (front ++ closing) = atImport front := by
  rcases front with _ | ⟨⟨k, span⟩, rest⟩
  · obtain rfl | ⟨span, behind, rfl⟩ := eq_nil_or_cons_of_kind hc <;> rfl
  · cases k with
    | word name => simp only [List.cons_append, atImport, kind_closed hc]
    | _ => rfl

theorem members_closed (front : List Token) :
    members (front ++ closing) = ((members front).1, (members front).2 ++ closing) := by
  fun_induction members front with
  | case1 sign name span rest ih => simp only [List.cons_append, members, ih]
  | case2 tokens hnone =>
    rw [members]
    intro sign name span rest h
    obtain ⟨rest₁, rfl, hrest⟩ := eq_cons_of_closed hc (by simp) h
    obtain ⟨rest₂, rfl, rfl⟩ := eq_cons_of_closed hc (by simp) hrest
    exact hnone _ _ _ _ rfl

end Closing

/-! ### Readings that heed the end of a file -/

/-- `raw` makes of uncut tokens what `reading` makes of those in front of the first end of file, and
leaves those behind as they are. -/
structure Heeds (raw reading : Reading α) : Prop where
  keeps : Keeps reading
  closed : ∀ {ending front closing}, kind closing = .endOfFile → Unended front →
    raw ending (front ++ closing) = (reading (place ending closing) front).append closing

section Readings

variable {raw reading : Reading α} {rawNext next : α → Reading β}

theorem heeds_pure (value : α) : Heeds (pure value) (pure value) :=
  ⟨keeps_pure value, fun _ _ => rfl⟩

theorem Heeds.bind (h : Heeds raw reading) (hn : ∀ value, Heeds (rawNext value) (next value)) :
    Heeds (raw >>= rawNext) (reading >>= next) where
  keeps := h.keeps.bind fun value => (hn value).keeps
  closed := by
    intro ending front closing hc hf
    have hfirst : raw ending (front ++ closing) = _ := h.closed hc hf
    cases hr : reading (place ending closing) front with
    | done value left =>
      rw [hr] at hfirst
      rw [bind_of_done hfirst, bind_of_done hr]
      exact (hn value).closed hc (hf.of_suffix (suffix_of_done h.keeps hr))
    | fail error left =>
      rw [hr] at hfirst
      rw [bind_of_fail hfirst, bind_of_fail hr]
      rfl

theorem heeds_next : Heeds Reading.next Reading.next :=
  ⟨keeps_next, fun {ending front closing} hc _ => by
    simp only [Reading.next, kind_closed hc, Step.append]⟩

theorem heeds_fail (problem : Problem) : Heeds (fail problem : Reading α) (fail problem) :=
  ⟨keeps_fail problem, fun {ending front closing} _ _ => by
    simp only [fail, place_append_place, Step.append]⟩

theorem heeds_expect {wanted : Token.Kind} (hw : wanted ≠ .endOfFile) (spot : Problem.Place) :
    Heeds (expect wanted spot) (expect wanted spot) := by
  refine ⟨keeps_expect wanted spot, fun {ending front closing} hc _ => ?_⟩
  simp only [expect, kind_closed hc, place_append_place, fail]
  split
  · rename_i hk
    rw [tail_append_of_kind (hk ▸ hw)]
    rfl
  · rfl

theorem heeds_accept {wanted : Token.Kind} (hw : wanted ≠ .endOfFile) :
    Heeds (accept wanted) (accept wanted) := by
  refine ⟨keeps_accept wanted, fun {ending front closing} hc _ => ?_⟩
  simp only [accept, kind_closed hc]
  split
  · rename_i hk
    rw [tail_append_of_kind (hk ▸ hw)]
    rfl
  · rfl

theorem heeds_acceptImport : Heeds acceptImport acceptImport := by
  refine ⟨keeps_acceptImport, fun {ending front closing} hc _ => ?_⟩
  simp only [acceptImport, atImport_closed hc]
  split
  · rename_i hi
    obtain ⟨span, rest, rfl, -⟩ := atImport_iff.1 hi
    rfl
  · rfl

theorem heeds_importPath : Heeds importPath importPath := by
  refine ⟨keeps_importPath, fun {ending front closing} hc _ => ?_⟩
  rcases front with _ | ⟨⟨k, span⟩, rest⟩
  · obtain rfl | ⟨span, behind, rfl⟩ := eq_nil_or_cons_of_kind hc <;> rfl
  · cases k <;> rfl

theorem heeds_importRest (start : Span) (form : Import.Form) :
    Heeds (importRest start form) (importRest start form) := by
  have htarget : Heeds importTarget importTarget :=
    (heeds_expect (by simp) _).bind fun _ => heeds_importPath.bind fun _ =>
      (heeds_expect (by simp) _).bind fun _ => heeds_pure _
  exact htarget.bind fun _ => (heeds_expect (by simp) _).bind fun _ => heeds_pure _

theorem requests_endOfFile (ending span : Span) (front behind : List Token) :
    requests ending (front ++ ⟨.endOfFile, span⟩ :: behind) =
      (requests span front).append (⟨.endOfFile, span⟩ :: behind) := by
  fun_induction requests span front with
  | case1 => simp [requests, Step.append]
  | case2 exported span₁ colon renamed span₂ comma rest ih =>
    simp only [List.cons_append, requests, ih, Step.append_map]
  | case3 exported span₁ colon renamed span₂ rest hcomma =>
    simp only [List.cons_append]
    rw [requests]
    · rfl
    · rcases rest with _ | ⟨t, rest⟩ <;> simp_all
  | case4 name span₁ colon rest hcomma hname =>
    simp only [List.cons_append]
    rw [requests]
    · rw [fail, fail, Step.append, place_append_place, kind_closed rfl]
      rfl
    all_goals rcases rest with _ | ⟨t, rest⟩ <;> simp_all
  | case5 exported span₁ comma rest ih =>
    simp only [List.cons_append, requests, ih, Step.append_map]
  | case6 exported span₁ rest =>
    simp only [List.cons_append]
    rw [requests]
    · rfl
    all_goals rcases rest with _ | ⟨t, rest⟩ <;> simp_all
  | case7 tokens =>
    rcases tokens with _ | ⟨t, tokens⟩
    · rfl
    · simp only [List.cons_append]
      rw [requests]
      · rfl
      all_goals simp_all

theorem heeds_requests : Heeds requests requests := by
  refine ⟨keeps_requests, fun {ending front closing} hc _ => ?_⟩
  obtain rfl | ⟨span, behind, rfl⟩ := eq_nil_or_cons_of_kind hc
  · simp [place]
  · exact requests_endOfFile ending span front behind

theorem heeds_selection (start : Span) : Heeds (selection start) (selection start) := by
  refine heeds_requests.bind fun _ => (heeds_expect (by simp) _).bind fun _ =>
    (heeds_expect (by simp) _).bind fun _ => heeds_acceptImport.bind fun taken => ?_
  split
  · exact heeds_importRest _ _
  · exact heeds_next.bind fun _ => heeds_fail _

end Readings

/-! ### Opaque tokens -/

namespace Uncut

variable {wanted : Token.Kind} {openers : List Span} {stop : Nat}

theorem scanFrom_append (hc : kind closing = .endOfFile) (hf : Unended front) :
    scanFrom ending wanted openers stop (front ++ closing) =
      (Program.scanFrom (place ending closing) wanted openers stop front).append closing := by
  fun_induction Program.scanFrom (place ending closing) wanted openers stop front with
  | case1 stop opener outer =>
    obtain rfl | ⟨span, behind, rfl⟩ := eq_nil_or_cons_of_kind hc <;> simp [scanFrom, Step.append]
  | case2 stop =>
    obtain rfl | ⟨span, behind, rfl⟩ := eq_nil_or_cons_of_kind hc <;>
      simp [scanFrom, Step.append, place]
  | case3 openers stop kind span rest h =>
    obtain ⟨hk, hrest⟩ := hf.of_cons
    rw [List.cons_append, scanFrom.eq_def]
    exact (if_neg hk).trans (if_pos h)
  | case4 openers stop span rest bracket h ih =>
    obtain ⟨hk, hrest⟩ := hf.of_cons
    rw [List.cons_append, scanFrom.eq_def]
    exact (if_neg hk).trans ((if_neg h).trans (ih hrest))
  | case5 stop span rest bracket h =>
    obtain ⟨hk, hrest⟩ := hf.of_cons
    rw [List.cons_append, scanFrom.eq_def]
    exact (if_neg hk).trans (if_neg h)
  | case6 stop span rest bracket opener outer h ih =>
    obtain ⟨hk, hrest⟩ := hf.of_cons
    rw [List.cons_append, scanFrom.eq_def]
    exact (if_neg hk).trans ((if_neg h).trans (ih hrest))
  | case7 openers stop span rest name h hi =>
    obtain ⟨hk, hrest⟩ := hf.of_cons
    have hi' := (atImport_closed hc (⟨.word name, span⟩ :: rest)).trans hi
    rw [List.cons_append] at hi' ⊢
    rw [scanFrom.eq_def, if_pos hi]
    exact (if_neg hk).trans ((if_neg h).trans (if_pos hi'))
  | case8 openers stop span rest name hnone h hi ih =>
    obtain ⟨hk, hrest⟩ := hf.of_cons
    have hi' := (atImport_closed hc (⟨.word name, span⟩ :: rest)).symm ▸ hi
    rw [List.cons_append] at hi' ⊢
    rw [scanFrom.eq_def, if_neg hi, hnone]
    refine (if_neg hk).trans ((if_neg h).trans ((if_neg hi').trans ?_))
    rw [members_closed hc, hnone]
    exact ih hrest
  | case9 openers stop span rest name last hlast h hi ih =>
    obtain ⟨hk, hrest⟩ := hf.of_cons
    have hi' := (atImport_closed hc (⟨.word name, span⟩ :: rest)).symm ▸ hi
    rw [List.cons_append] at hi' ⊢
    rw [scanFrom.eq_def, if_neg hi, hlast]
    refine (if_neg hk).trans ((if_neg h).trans ((if_neg hi').trans ?_))
    rw [members_closed hc, hlast]
    dsimp only
    rw [ih (hrest.of_suffix (members_suffix rest)), Step.append_map]
    simp only [referenceOf, kind_closed hc]
  | case10 openers stop kind span rest h h₁ h₂ h₃ ih =>
    obtain ⟨hk, hrest⟩ := hf.of_cons
    rw [List.cons_append, scanFrom.eq_def]
    refine (if_neg hk).trans ((if_neg h).trans ?_)
    rw [← ih hrest]
    split
    · exact absurd rfl (h₁ _)
    · exact absurd rfl (h₂ _)
    · exact absurd rfl (h₃ _)
    · rfl

theorem heeds_scan (wanted : Token.Kind) : Heeds (scan wanted) (Program.scan wanted) := by
  refine ⟨keeps_scan wanted, fun {ending front closing} hc hf => ?_⟩
  simp only [scan, Program.scan, place_append_place, scanFrom_append hc hf, Step.append_map]

/-! ### Types and values -/

theorem afterGroup_append (hc : kind closing = .endOfFile) (hf : Unended front) :
    afterGroup depth (front ++ closing) =
      (Program.afterGroup depth front).map (· ++ closing) := by
  induction front generalizing depth with
  | nil => obtain rfl | ⟨span, behind, rfl⟩ := eq_nil_or_cons_of_kind hc <;> rfl
  | cons token rest ih =>
    obtain ⟨hk, hrest⟩ := hf.of_cons
    obtain ⟨k, span⟩ := token
    cases k with
    | endOfFile => exact absurd rfl hk
    | closing bracket =>
      simp only [List.cons_append, afterGroup, Program.afterGroup]
      split
      · rfl
      · exact ih hrest
    | _ => exact ih hrest

theorem valueKind_append (hc : kind closing = .endOfFile) (hf : Unended front) :
    valueKind (front ++ closing) = Program.valueKind front := by
  rcases front with _ | ⟨⟨k, span⟩, rest⟩
  · obtain rfl | ⟨span, behind, rfl⟩ := eq_nil_or_cons_of_kind hc <;> rfl
  · cases k with
    | word name =>
      simp only [List.cons_append, valueKind, Program.valueKind, kind_closed hc]
    | opening bracket =>
      cases bracket with
      | round =>
        have hgroup : (afterGroup 1 (rest ++ closing)).map kind =
            (Program.afterGroup 1 rest).map kind := by
          rw [afterGroup_append hc hf.of_cons.2, Option.map_map]
          exact congrArg (Option.map · _) (funext fun left => kind_closed hc left)
        simp only [List.cons_append, valueKind, Program.valueKind]
        exact hgroup ▸ rfl
      | _ => rfl
    | _ => rfl

theorem heeds_bindingType (name : Located String) :
    Heeds (bindingType name) (Program.bindingType name) := by
  refine (heeds_accept (by simp)).bind fun taken => ?_
  split
  · exact (heeds_scan _).bind fun _ => (heeds_expect (by simp) _).bind fun _ => heeds_pure _
  · exact (heeds_expect (by simp) _).bind fun _ => heeds_pure _

theorem heeds_declared (name : Located String) (references : List (Located Reference))
    (kind : Declaration.Kind) (body : Span × List (Located Reference)) :
    Heeds (declared name references kind body) (declared name references kind body) := by
  unfold declared
  split
  · exact heeds_fail _
  · exact (heeds_expect (by simp) _).bind fun _ => heeds_pure _

theorem heeds_value (name : Located String) (references : List (Located Reference)) :
    Heeds (value name references) (Program.value name references) := by
  have hkind : Heeds (fun _ tokens => .done (valueKind tokens) tokens : Reading Declaration.Kind)
      fun _ tokens => .done (Program.valueKind tokens) tokens :=
    ⟨fun _ tokens => List.suffix_refl tokens, fun hc hf => by
      simp only [valueKind_append hc hf, Step.append]⟩
  exact hkind.bind fun kind => (heeds_scan _).bind fun body =>
    heeds_declared name references kind body

theorem heeds_binding (name : Located String) :
    Heeds (binding name) (Program.binding name) := by
  refine (heeds_bindingType name).bind fun _ => heeds_acceptImport.bind fun taken => ?_
  split
  · exact heeds_importRest _ _
  · exact heeds_value _ _

/-! ### Items -/

theorem item_append (hc : kind closing = .endOfFile) (hf : Unended front) (first : Token) :
    item first ending (front ++ closing) =
      (Program.item first (place ending closing) front).append closing := by
  obtain ⟨k, span⟩ := first
  cases k with
  | word name =>
    have hi := atImport_closed hc (⟨.word name, span⟩ :: front)
    rw [List.cons_append] at hi
    simp only [item, Program.item, hi]
    split
    · exact (heeds_importRest _ _).closed hc hf
    · exact (heeds_binding _).closed hc hf
  | opening bracket =>
    cases bracket with
    | curly => exact (heeds_selection span).closed hc hf
    | _ => rfl
  | _ => rfl

theorem recover_append (hc : kind closing = .endOfFile) (hf : Unended front) :
    recover depth (front ++ closing) = Program.recover depth front ++ closing := by
  induction front generalizing depth with
  | nil => obtain rfl | ⟨span, behind, rfl⟩ := eq_nil_or_cons_of_kind hc <;> rfl
  | cons token rest ih =>
    obtain ⟨hk, hrest⟩ := hf.of_cons
    obtain ⟨k, span⟩ := token
    cases k with
    | endOfFile => exact absurd rfl hk
    | semicolon =>
      simp only [List.cons_append, recover, Program.recover]
      split
      · rfl
      · exact ih hrest
    | _ => exact ih hrest

/-- Tokens fall into those in front of the first end of file and the others. -/
theorem exists_closed (tokens : List Token) : ∃ front closing, tokens = front ++ closing ∧
    kind closing = .endOfFile ∧ Unended front := by
  induction tokens with
  | nil => exact ⟨[], [], rfl, rfl, List.forall_mem_nil _⟩
  | cons token rest ih =>
    by_cases hk : token.kind = .endOfFile
    · exact ⟨[], token :: rest, rfl, hk, List.forall_mem_nil _⟩
    · obtain ⟨front, closing, rfl, hc, hf⟩ := ih
      exact ⟨token :: front, closing, rfl, hc, List.forall_mem_cons.2 ⟨hk, hf⟩⟩

theorem length_lt_of_done {first : Token} {found : Located Item}
    (h : item first ending rest = .done found left) : left.length < (first :: rest).length := by
  obtain ⟨front, closing, rfl, hc, hf⟩ := exists_closed rest
  rw [item_append hc hf] at h
  cases hi : Program.item first (place ending closing) front with
  | done found' left' =>
    rw [hi] at h
    cases h
    have hlt := Program.length_lt_of_done hi
    simp only [List.length_cons, List.length_append] at hlt ⊢
    omega
  | fail error left' =>
    rw [hi] at h
    cases h

theorem length_recover_lt {first : Token} {error : SyntaxError} (hk : first.kind ≠ .endOfFile)
    (h : item first ending rest = .fail error left) :
    (recover 0 left).length < (first :: rest).length := by
  obtain ⟨front, closing, rfl, hc, hf⟩ := exists_closed rest
  rw [item_append hc hf] at h
  cases hi : Program.item first (place ending closing) front with
  | done found' left' =>
    rw [hi] at h
    cases h
  | fail error left' =>
    rw [hi] at h
    cases h
    have hleft : Unended left' :=
      Unended.of_suffix (List.forall_mem_cons.2 ⟨hk, hf⟩) (suffix_of_mistake hi)
    have hlt := Program.length_recover_lt hi
    rw [recover_append hc hleft]
    simp only [List.length_cons, List.length_append] at hlt ⊢
    omega

/-- The mistakes and the items in a list of tokens, up to its first end of file. -/
def items (ending : Span) : List Token → List SyntaxError × List (Located Item)
  | [] => ([], [])
  | first :: rest =>
    if hk : first.kind = .endOfFile then ([], [])
    else if first.kind = .semicolon then items ending rest
    else
      match h : item first ending rest with
      | .done found left =>
        have := length_lt_of_done h
        let more := items ending left
        (more.1, found :: more.2)
      | .fail error left =>
        have := length_recover_lt hk h
        let more := items ending (recover 0 left)
        (error :: more.1, more.2)
termination_by tokens => tokens.length
decreasing_by
  · exact Nat.lt_succ_self _
  · assumption
  · assumption

theorem items_cons_of_done {first : Token} {found : Located Item} (hk : first.kind ≠ .endOfFile)
    (hs : first.kind ≠ .semicolon) (h : item first ending rest = .done found left) :
    items ending (first :: rest) =
      ((items ending left).1, found :: (items ending left).2) := by
  rw [items, dif_neg hk, if_neg hs]
  split
  · rename_i hdone
    rw [h] at hdone
    cases hdone
    rfl
  · rename_i hfail
    rw [h] at hfail
    cases hfail

theorem items_cons_of_fail {first : Token} {error : SyntaxError} (hk : first.kind ≠ .endOfFile)
    (hs : first.kind ≠ .semicolon) (h : item first ending rest = .fail error left) :
    items ending (first :: rest) =
      (error :: (items ending (recover 0 left)).1, (items ending (recover 0 left)).2) := by
  rw [items, dif_neg hk, if_neg hs]
  split
  · rename_i hdone
    rw [h] at hdone
    cases hdone
  · rename_i hfail
    rw [h] at hfail
    cases hfail
    rfl

/-- **What is read off uncut tokens is what is read off those in front of the first end of
file.** -/
theorem items_append (hc : kind closing = .endOfFile) (hf : Unended front) :
    items ending (front ++ closing) = Program.items (place ending closing) front := by
  fun_induction Program.items (place ending closing) front with
  | case1 => obtain rfl | ⟨span, behind, rfl⟩ := eq_nil_or_cons_of_kind hc <;> simp [items]
  | case2 first rest hk ih =>
    obtain ⟨hk', hrest⟩ := hf.of_cons
    rw [List.cons_append, items, dif_neg hk', if_pos hk, ih hrest]
  | case3 first rest hk found left hi =>
    rename_i ih
    obtain ⟨hk', hrest⟩ := hf.of_cons
    have hitem : item first ending (rest ++ closing) = .done found (left ++ closing) := by
      rw [item_append hc hrest, hi]
      rfl
    rw [List.cons_append, items_cons_of_done hk' hk hitem,
      ih (hrest.of_suffix (suffix_of_item hi))]
  | case4 first rest hk error left hi =>
    rename_i ih
    obtain ⟨hk', hrest⟩ := hf.of_cons
    have hitem : item first ending (rest ++ closing) = .fail error (left ++ closing) := by
      rw [item_append hc hrest, hi]
      rfl
    have hleft : Unended left := hf.of_suffix (suffix_of_mistake hi)
    have hbehind := hleft.of_suffix ((recover_suffix 0 left).trans (List.tail_suffix left))
    rw [List.cons_append, items_cons_of_fail hk' hk hitem, recover_append hc hleft, ih hbehind]

/-- The items in a list of tokens that is not cut, or all that is wrong with it. -/
def ofTokens (tokens : List Token) : Except (List SyntaxError) (List (Located Item)) :=
  judge (items (lastEnd tokens) tokens)

end Uncut

/-! ### Lists of tokens -/

/-- What is read off a list of tokens is what is read off those in front of its first end of
file. -/
theorem ofTokens_of_closed (hc : kind closing = .endOfFile) (hf : Unended front) :
    ofTokens (front ++ closing) =
      judge (items (place (lastEnd (front ++ closing)) closing) front) := by
  have hnone : front.find? (·.kind == .endOfFile) = none := by
    simpa [List.find?_eq_none, Unended] using hf
  have hfront : (front ++ closing).takeWhile (·.kind != .endOfFile) = front := by
    have hall : ∀ t ∈ front, (t.kind != .endOfFile) = true := fun t ht => by simpa using hf t ht
    rw [List.takeWhile_append_of_pos hall]
    obtain rfl | ⟨span, behind, rfl⟩ := eq_nil_or_cons_of_kind hc <;> simp
  have hending : ending (front ++ closing) = place (lastEnd (front ++ closing)) closing := by
    rw [ending, List.find?_append, hnone, Option.none_or]
    obtain rfl | ⟨span, behind, rfl⟩ := eq_nil_or_cons_of_kind hc <;> rfl
  rw [ofTokens, hfront, hending]
  rfl

theorem uncut_ofTokens (tokens : List Token) : Uncut.ofTokens tokens = ofTokens tokens := by
  obtain ⟨front, closing, rfl, hc, hf⟩ := Uncut.exists_closed tokens
  rw [Uncut.ofTokens, Uncut.items_append hc hf, ofTokens_of_closed hc hf]

/-- Nothing behind the first end of file matters for `read`, and a list of tokens without one is
read as with one behind its last token. -/
structure StopsAtEnd (read : List Token → Except (List SyntaxError) (List (Located Item))) :
    Prop where
  behind : ∀ front span behind, Unended front →
    read (front ++ ⟨.endOfFile, span⟩ :: behind) = read (front ++ [⟨.endOfFile, span⟩])
  without : ∀ tokens, Unended tokens →
    read tokens = read (tokens ++ [⟨.endOfFile, lastEnd tokens⟩])

theorem stopsAtEnd_ofTokens : StopsAtEnd ofTokens where
  behind front span behind hf := by
    rw [ofTokens_of_closed rfl hf, ofTokens_of_closed rfl hf]
    rfl
  without tokens hf := by
    have hnil : ofTokens (tokens ++ []) = _ := ofTokens_of_closed rfl hf
    rw [List.append_nil] at hnil
    rw [hnil, ofTokens_of_closed rfl hf]
    rfl

/-- **Nothing behind the first end of file is looked at**: uncut tokens are read as those that are
cut there, so that what stands behind does not matter; and tokens without an end of file are read as
with one behind the last of them. -/
theorem uncut_stopsAtEnd :
    Uncut.ofTokens = ofTokens ∧ StopsAtEnd Uncut.ofTokens ∧ StopsAtEnd ofTokens := by
  have huncut : Uncut.ofTokens = ofTokens := funext uncut_ofTokens
  exact ⟨huncut, huncut ▸ stopsAtEnd_ofTokens, stopsAtEnd_ofTokens⟩

/-- Tokens in no order, which end in a group of brackets in the value of a function. -/
def overrunFront : List Token :=
  [⟨.word "f", ⟨9, 4⟩⟩, ⟨.define, ⟨1, 2⟩⟩, ⟨.opening .round, ⟨7, 8⟩⟩, ⟨.word "a", ⟨3, 3⟩⟩,
    ⟨.member, ⟨5, 6⟩⟩]

/-- What would go on with the name, the group and the function behind the end of the file. -/
def overrunBehind : List Token :=
  [⟨.word "b", ⟨0, 1⟩⟩, ⟨.closing .round, ⟨2, 2⟩⟩, ⟨.thickArrow, ⟨4, 6⟩⟩, ⟨.word "c", ⟨8, 9⟩⟩,
    ⟨.semicolon, ⟨5, 5⟩⟩, ⟨.endOfFile, ⟨7, 7⟩⟩]

/-- The bracket in front of the end of the file stays open, whatever stands behind. -/
theorem overrun_stops :
    Unended overrunFront ∧
    Uncut.ofTokens (overrunFront ++ ⟨.endOfFile, ⟨6, 1⟩⟩ :: overrunBehind) =
      Uncut.ofTokens (overrunFront ++ [⟨.endOfFile, ⟨6, 1⟩⟩]) ∧
    ofTokens (overrunFront ++ [⟨.endOfFile, ⟨6, 1⟩⟩]) = .error [⟨.openBracket, ⟨7, 8⟩⟩] := by
  have hf : Unended overrunFront := by simp [Unended, overrunFront]
  exact ⟨hf, uncut_stopsAtEnd.2.1.behind _ _ _ hf, by decide +kernel⟩

end Program

end ModuleResolution
