import ModuleResolution.Proofs.Joining
import ModuleResolution.Proofs.Marking

/-!
# Where items and mistakes stand

What is read off tokens stands where they stand.  The names and the paths in items stand where one
token does, the qualified names from where one token does to where another does, and a mistake is
told where a token stands or the tokens end.

* `Item.Placed` : the names, the paths and the qualified names in an item stand at given places.
* `Reading.Stays` : what is read, and the mistake, stand where the tokens do.
* `Program.placed_items` : so do the items and the mistakes of a program.
* `Program.placed_of_ofText`, `marks_of_ofText_error` : those of a text mark stretches of it.
-/

namespace ModuleResolution

/-! ### Items that are placed -/

section Placed

variable (P : Span → Prop)

/-- The span goes from a place with `P` to a place with `P`. -/
def Span.Joins (s : Span) : Prop := ∃ a b : Span, P a ∧ P b ∧ s = a.join b

/-- The name stands at a place with `P`, and the qualified names go from one to another. -/
def Declaration.Placed (d : Declaration) : Prop :=
  P d.name.span ∧ ∀ reference ∈ d.references, reference.span.Joins P

/-- The names, over there and over here, stand at places with `P`. -/
def Import.Request.Placed (q : Request) : Prop := P q.exported.span ∧ P q.introduced.span

/-- The names stand at places with `P`. -/
def Import.Form.Placed : Form → Prop
  | whole alias? => ∀ name ∈ alias?, P name.span
  | selected requests => ∀ q ∈ requests, q.Placed P

/-- The names and the path stand at places with `P`, and the qualified names go from one to
another. -/
def Item.Placed : Item → Prop
  | declaration d => d.Placed P
  | importing i => P i.path.span ∧ i.form.Placed P

end Placed

variable {P : Span → Prop}

/-! ### Readings that stay -/

namespace Reading

variable {α β : Type} {Q : α → Prop} {Q' : β → Prop} {ending : Span} {tokens : List Token}

/-- The value has `Q`, or the mistake is told at a place with `P`. -/
def Step.Placed (P : Span → Prop) (Q : α → Prop) : Step α → Prop
  | done value _ => Q value
  | fail error _ => P error.span

theorem Step.Placed.map {s : Step α} (h : s.Placed P Q) {f : α → β}
    (hf : ∀ value, Q value → Q' (f value)) : (s.map f).Placed P Q' := by
  cases s with
  | done value rest => exact hf value h
  | fail error rest => exact h

/-- Where the tokens and their end stand at places with `P`, the reading gives a value with `Q`, or
tells a mistake at a place with `P`. -/
def Stays (P : Span → Prop) (Q : α → Prop) (reading : Reading α) : Prop :=
  ∀ ending tokens, P ending → (∀ t ∈ tokens, P t.span) → (reading ending tokens).Placed P Q

theorem Stays.bind {reading : Reading α} {next : α → Reading β} (h : Stays P Q reading)
    (hk : Keeps reading) (hn : ∀ value, Q value → Stays P Q' (next value)) :
    Stays P Q' (reading >>= next) := by
  intro ending tokens he ht
  have hfirst := h ending tokens he ht
  have hrest := (hk ending tokens).subset
  simp only [Bind.bind]
  cases hs : reading ending tokens with
  | done value rest =>
    rw [hs] at hfirst hrest
    exact hn value hfirst ending rest he fun t h => ht t (hrest h)
  | fail error rest =>
    rw [hs] at hfirst
    exact hfirst

theorem stays_pure {value : α} (h : Q value) : Stays P Q (pure value) := fun _ _ _ _ => h

theorem place_of (he : P ending) (ht : ∀ t ∈ tokens, P t.span) : P (place ending tokens) := by
  cases tokens with
  | nil => exact he
  | cons token rest => exact ht token List.mem_cons_self

theorem stays_fail (problem : Problem) : Stays P Q (fail problem) := fun _ _ => place_of

theorem stays_next : Stays P (fun _ => True) next := fun _ _ _ _ => trivial

theorem stays_expect (wanted : Token.Kind) (spot : Problem.Place) :
    Stays P P (expect wanted spot) := by
  intro ending tokens he ht
  unfold expect
  split
  · exact place_of he ht
  · exact place_of he ht

theorem stays_accept (wanted : Token.Kind) : Stays P (fun _ => True) (accept wanted) := by
  intro ending tokens he ht
  unfold accept
  split <;> trivial

end Reading

namespace Program

open Reading

variable {ending span start : Span} {tokens rest : List Token} {openers : List Span}
  {wanted : Token.Kind} {stop : Nat} {name : Located String}
  {references : List (Located Reference)}

/-! ### Imports -/

theorem stays_acceptImport : Stays P (fun _ => True) acceptImport := by
  intro ending tokens he ht
  unfold acceptImport
  split <;> trivial

theorem stays_importPath : Stays P (fun path => P path.span) importPath := by
  intro ending tokens he ht
  unfold importPath
  split
  · exact ht _ List.mem_cons_self
  · exact place_of he ht

theorem stays_importTarget : Stays P (fun path => P path.span) importTarget :=
  (stays_expect _ _).bind (keeps_expect _ _) fun _ _ =>
    stays_importPath.bind keeps_importPath fun _ hpath =>
      (stays_expect _ _).bind (keeps_expect _ _) fun _ _ => stays_pure hpath

theorem stays_importRest {form : Import.Form} (hf : form.Placed P) :
    Stays P (fun x => x.value.Placed P) (importRest start form) :=
  stays_importTarget.bind keeps_importTarget fun _ hpath =>
    (stays_expect _ _).bind (keeps_expect _ _) fun _ _ => stays_pure ⟨hpath, hf⟩

theorem stays_requests : Stays P (fun names => ∀ q ∈ names, q.Placed P) requests := by
  intro ending tokens he ht
  -- one more name in front of those that are placed
  have hcons {q : Import.Request} (hq : q.Placed P) (names : List Import.Request)
      (hnames : ∀ q ∈ names, q.Placed P) : ∀ q' ∈ q :: names, q'.Placed P :=
    List.forall_mem_cons.2 ⟨hq, hnames⟩
  have hone {q : Import.Request} (hq : q.Placed P) : ∀ q' ∈ [q], q'.Placed P :=
    hcons hq [] fun _ h => by cases h
  fun_induction requests ending tokens with
  | case1 => exact fun _ h => by cases h
  | case2 _ _ _ _ _ _ _ ih =>
    simp only [List.forall_mem_cons] at ht
    obtain ⟨hname, -, hrenamed, -, hrest⟩ := ht
    exact (ih hrest).map (hcons ⟨hname, hrenamed⟩)
  | case3 =>
    simp only [List.forall_mem_cons] at ht
    obtain ⟨hname, -, hrenamed, -⟩ := ht
    exact hone ⟨hname, hrenamed⟩
  | case4 =>
    simp only [List.forall_mem_cons] at ht
    obtain ⟨-, -, hrest⟩ := ht
    exact place_of he hrest
  | case5 _ _ _ _ ih =>
    simp only [List.forall_mem_cons] at ht
    obtain ⟨hname, -, hrest⟩ := ht
    exact (ih hrest).map (hcons ⟨hname, hname⟩)
  | case6 =>
    have hname := (List.forall_mem_cons.1 ht).1
    exact hone ⟨hname, hname⟩
  | case7 => exact place_of he ht

theorem stays_selection : Stays P (fun x => x.value.Placed P) (selection start) := by
  refine stays_requests.bind keeps_requests fun names hnames =>
    (stays_expect _ _).bind (keeps_expect _ _) fun _ _ =>
      (stays_expect _ _).bind (keeps_expect _ _) fun _ _ =>
        stays_acceptImport.bind keeps_acceptImport fun taken _ => ?_
  split
  · exact stays_importRest hnames
  · exact stays_next.bind keeps_next fun _ _ => stays_fail _

/-! ### Types and values -/

theorem placed_members (ht : ∀ t ∈ tokens, P t.span) :
    ∀ name ∈ (members tokens).1, P name.span := by
  fun_induction members tokens with
  | case1 _ _ _ _ ih =>
    simp only [List.forall_mem_cons] at ht
    obtain ⟨-, hname, hrest⟩ := ht
    exact List.forall_mem_cons.2 ⟨hname, ih hrest⟩
  | case2 => exact fun _ h => by cases h

/-- Where the brackets that are open stand at such places too, so does what is found in opaque
tokens. -/
theorem placed_scanFrom (he : P ending) (ho : ∀ opener ∈ openers, P opener)
    (ht : ∀ t ∈ tokens, P t.span) : (scanFrom ending wanted openers stop tokens).Placed P
      fun s => ∀ reference ∈ s.references, reference.span.Joins P := by
  fun_induction scanFrom ending wanted openers stop tokens with
  | case1 => exact ho _ List.mem_cons_self
  | case2 => exact he
  | case3 => exact fun _ h => by cases h
  | case4 _ _ _ _ _ _ ih =>
    obtain ⟨hspan, hrest⟩ := List.forall_mem_cons.1 ht
    exact ih (List.forall_mem_cons.2 ⟨hspan, ho⟩) hrest
  | case5 => exact ht _ List.mem_cons_self
  | case6 _ _ _ _ _ _ _ ih =>
    exact ih (List.forall_mem_cons.1 ho).2 (List.forall_mem_cons.1 ht).2
  | case7 _ _ _ _ _ _ h =>
    rw [if_pos h]
    exact ht _ List.mem_cons_self
  | case8 _ _ _ _ _ none _ h ih =>
    rw [if_neg h, none]
    exact ih ho (List.forall_mem_cons.1 ht).2
  | case9 _ _ _ _ _ last some _ h ih =>
    obtain ⟨hspan, hrest⟩ := List.forall_mem_cons.1 ht
    rw [if_neg h, some]
    -- the qualified name goes from its first name to the last of its members
    have hlast := placed_members hrest last (List.mem_of_getLast? some)
    refine (ih ho fun t h => hrest t ((members_suffix _).subset h)).map fun s hs => ?_
    exact List.forall_mem_cons.2 ⟨⟨_, _, hspan, hlast, rfl⟩, hs⟩
  | case10 _ _ _ _ _ _ _ _ _ ih => exact ih ho (List.forall_mem_cons.1 ht).2

theorem stays_scan (wanted : Token.Kind) :
    Stays P (fun found => ∀ reference ∈ found.2, reference.span.Joins P) (scan wanted) :=
  fun _ _ he ht => (placed_scanFrom he (fun _ h => by cases h) ht).map fun _ hs => hs

/-! ### Bindings -/

theorem stays_bindingType (name : Located String) :
    Stays P (fun references => ∀ reference ∈ references, reference.span.Joins P)
      (bindingType name) := by
  refine (stays_accept _).bind (keeps_accept _) fun taken _ => ?_
  split
  · exact (stays_scan _).bind (keeps_scan _) fun _ hfound =>
      (stays_expect _ _).bind (keeps_expect _ _) fun _ _ => stays_pure hfound
  · exact (stays_expect _ _).bind (keeps_expect _ _) fun _ _ => stays_pure fun _ h => by cases h

theorem stays_value (hname : P name.span)
    (hr : ∀ reference ∈ references, reference.span.Joins P) :
    Stays P (fun x => x.value.Placed P) (value name references) := by
  have hkind : Stays P (fun _ => True) fun _ tokens => .done (valueKind tokens) tokens :=
    fun _ _ _ _ => trivial
  refine hkind.bind (fun _ tokens => List.suffix_refl tokens) fun _ _ =>
    (stays_scan _).bind (keeps_scan _) fun found hfound => ?_
  dsimp only
  split
  · exact stays_fail _
  · refine (stays_expect _ _).bind (keeps_expect _ _) fun _ _ => stays_pure ⟨hname, ?_⟩
    exact fun reference h => (List.mem_append.1 h).elim (hr reference) (hfound reference)

theorem stays_binding (hname : P name.span) :
    Stays P (fun x => x.value.Placed P) (binding name) := by
  refine (stays_bindingType name).bind (keeps_bindingType name) fun references hr =>
    stays_acceptImport.bind keeps_acceptImport fun taken _ => ?_
  split
  · have hform : (Import.Form.whole (some name)).Placed P := by
      intro introduced h
      rw [← Option.mem_some_iff.1 h]
      exact hname
    exact stays_importRest hform
  · exact stays_value hname hr

/-! ### Programs -/

theorem placed_item {first : Token} (he : P ending) (ht : ∀ t ∈ first :: rest, P t.span) :
    (item first ending rest).Placed P fun x => x.value.Placed P := by
  obtain ⟨hfirst, hrest⟩ := List.forall_mem_cons.1 ht
  simp only [item]
  split
  · split
    · have hform : (Import.Form.whole none).Placed P := fun _ h => by cases h
      exact stays_importRest hform _ _ he hrest
    · exact stays_binding hfirst _ _ he hrest
  · exact stays_selection _ _ he hrest
  · exact hfirst

/-- **The items and the mistakes of a program stand where its tokens do.** -/
theorem placed_items (he : P ending) (ht : ∀ t ∈ tokens, P t.span) :
    (∀ e ∈ (items ending tokens).1, P e.span) ∧
      ∀ x ∈ (items ending tokens).2, x.value.Placed P := by
  fun_induction items ending tokens with
  | case1 => exact ⟨List.forall_mem_nil _, List.forall_mem_nil _⟩
  | case2 first rest hk ih => exact ih (List.forall_mem_cons.1 ht).2
  | case3 first rest hk found left hi =>
    rename_i ih
    have hitem := placed_item he ht
    have hleft := (suffix_of_item hi).trans (List.suffix_cons first rest)
    rw [hi] at hitem
    obtain ⟨herrors, hfound⟩ := ih fun t h => ht t (hleft.subset h)
    exact ⟨herrors, List.forall_mem_cons.2 ⟨hitem, hfound⟩⟩
  | case4 first rest hk error left hi =>
    rename_i ih
    have hitem := placed_item he ht
    have hleft :=
      ((recover_suffix 0 left).trans (List.tail_suffix left)).trans (suffix_of_mistake hi)
    rw [hi] at hitem
    obtain ⟨herrors, hfound⟩ := ih fun t h => ht t (hleft.subset h)
    exact ⟨List.forall_mem_cons.2 ⟨hitem, herrors⟩, hfound⟩

/-! ### Texts -/

variable {source : String}

theorem ofText_eq_judge {tokens : List Token} (h : tokenize source = .ok tokens) :
    ∃ errors found, ofText source = judge (errors, found) ∧
      (∀ e ∈ errors, e.span.Marks source) ∧ ∀ x ∈ found, x.value.Placed (Span.Marks source) := by
  obtain ⟨body, span, rfl, hk⟩ := tokenize_closed h
  have hmarks {t : Token} (ht : t ∈ body ++ [⟨.endOfFile, span⟩]) := marks_of_tokenize h ht
  obtain ⟨herrors, hfound⟩ := placed_items (hmarks (List.mem_append_right _ List.mem_cons_self))
    fun t ht => hmarks (List.mem_append_left _ ht)
  exact ⟨_, _, by simp only [ofText, h, ofTokens_closed hk], herrors, hfound⟩

/-- **The items of a text stand in the text.** -/
theorem placed_of_ofText {found : List (Located Item)} (h : ofText source = .ok found) :
    ∀ x ∈ found, x.value.Placed (Span.Marks source) := by
  cases ht : tokenize source with
  | error errors =>
    simp only [ofText, ht] at h
    cases h
  | ok tokens =>
    obtain ⟨errors, found', hjudge, -, hfound⟩ := ofText_eq_judge ht
    obtain ⟨-, rfl⟩ := Prod.mk.inj (judge_eq_ok (hjudge.symm.trans h))
    exact hfound

/-- **The mistakes in a text stand in the text.** -/
theorem marks_of_ofText_error {errors : List SyntaxError} (h : ofText source = .error errors) :
    ∀ e ∈ errors, e.span.Marks source := by
  cases ht : tokenize source with
  | error errors' =>
    simp only [ofText, ht] at h
    cases h
    exact fun e he => (marked_of_tokenize_error ht he).marks
  | ok tokens =>
    obtain ⟨errors', found, hjudge, herrors, -⟩ := ofText_eq_judge ht
    rw [hjudge] at h
    cases errors' with
    | nil => cases h
    | cons error errors' =>
      cases h
      exact herrors

end Program

end ModuleResolution
