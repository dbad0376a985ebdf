import Mathlib.Order.MinMax
import ModuleResolution.Proofs.Locality

/-!
# Tokens that are moved

Where the tokens of a module stand matters for where its items stand, and for nothing else: if each
offset is moved so that none passes another, what is read is the same, moved likewise.

* `Span.move`, `Token.move`, `Item.move` : the same with each offset moved.
* `Token.Moves` : offsets are moved without passing each other.
* `Reading.Follows` : a reading reads the same off tokens that are moved.
* `Program.items_move` : so do the items of a program.
-/

namespace ModuleResolution

variable {f : Nat → Nat}

/-! ### Moving what stands somewhere -/

/-- The span with its ends moved. -/
def Span.move (f : Nat → Nat) (s : Span) : Span := ⟨f s.start, f s.stop⟩

/-- The same value at a place that is moved. -/
def Located.move {α : Type} (f : Nat → Nat) (x : Located α) : Located α := ⟨x.value, x.span.move f⟩

/-- The same token at a place that is moved. -/
def Token.move (f : Nat → Nat) (t : Token) : Token := ⟨t.kind, t.span.move f⟩

/-- The request with its names moved. -/
def Import.Request.move (f : Nat → Nat) (q : Request) : Request :=
  ⟨q.exported.move f, q.renamed.map (Located.move f)⟩

/-- The form with its names moved. -/
def Import.Form.move (f : Nat → Nat) : Form → Form
  | whole alias? => whole (alias?.map (Located.move f))
  | selected requests => selected (requests.map (Request.move f))

/-- The import with its path and its names moved. -/
def Import.move (f : Nat → Nat) (i : Import) : Import := ⟨i.path.move f, i.form.move f⟩

/-- The declaration with its name, its value and the qualified names in it moved. -/
def Declaration.move (f : Nat → Nat) (d : Declaration) : Declaration :=
  ⟨d.name.move f, d.kind, d.visibility, d.body.move f, d.references.map (Located.move f)⟩

/-- The item with all in it moved. -/
def Item.move (f : Nat → Nat) : Item → Item
  | declaration d => declaration (d.move f)
  | importing i => importing (i.move f)

/-- The item with all in it moved, at a place that is moved. -/
def Item.moveAt (f : Nat → Nat) (x : Located Item) : Located Item := ⟨x.value.move f, x.span.move f⟩

/-- The offsets are moved so that none passes another, and no token comes to touch one that it stood
apart from, or to hold no byte. -/
structure Token.Moves (f : Nat → Nat) (tokens : List Token) : Prop where
  monotone : Monotone f
  reflects : ∀ t ∈ tokens, ∀ t' ∈ tokens, f t'.span.stop ≤ f t.span.start →
    t'.span.stop ≤ t.span.start

theorem Token.Moves.of_suffix {tokens tokens' : List Token} (h : Token.Moves f tokens)
    (hs : tokens' <:+ tokens) : Token.Moves f tokens' :=
  ⟨h.monotone, fun t ht t' ht' => h.reflects t (hs.subset ht) t' (hs.subset ht')⟩

theorem Span.join_move (hf : Monotone f) (a b : Span) :
    (a.join b).move f = (a.move f).join (b.move f) := by
  simp only [join, move, hf.map_min, hf.map_max]

namespace Reading

variable {α β γ δ : Type} {ending : Span} {tokens : List Token}

/-- The result with all in it moved, the value by `g`. -/
def Step.move (f : Nat → Nat) (g : α → β) : Step α → Step β
  | done value rest => done (g value) (rest.map (Token.move f))
  | fail error rest => fail (error.move f) (rest.map (Token.move f))

theorem Step.move_map {g : α → β} {g' : γ → δ} {h : α → γ} {h' : β → δ} {s : Step α}
    (hc : ∀ value, g' (h value) = h' (g value)) : (s.map h).move f g' = (s.move f g).map h' := by
  cases s with
  | done value rest => exact congrArg (done · _) (hc value)
  | fail error rest => rfl

/-- Off tokens that are moved, the one reading reads what the other one reads, moved by `g`. -/
def Follows (f : Nat → Nat) (g : α → β) (reading : Reading α) (reading' : Reading β) : Prop :=
  ∀ ending tokens, Token.Moves f tokens →
    reading' (ending.move f) (tokens.map (Token.move f)) = (reading ending tokens).move f g

@[simp] theorem kind_move (tokens : List Token) :
    kind (tokens.map (Token.move f)) = kind tokens := by
  cases tokens <;> rfl

@[simp] theorem place_move (ending : Span) (tokens : List Token) :
    place (ending.move f) (tokens.map (Token.move f)) = (place ending tokens).move f := by
  cases tokens <;> rfl

theorem Follows.bind {g : α → β} {h : γ → δ} {reading : Reading α} {reading' : Reading β}
    {next : α → Reading γ} {next' : β → Reading δ} (hr : Follows f g reading reading')
    (hk : Keeps reading) (hn : ∀ value, Follows f h (next value) (next' (g value))) :
    Follows f h (reading >>= next) (reading' >>= next') := by
  intro ending tokens hm
  have hfirst := hr ending tokens hm
  have hkeeps := hk ending tokens
  simp only [Bind.bind, hfirst]
  cases hs : reading ending tokens with
  | done value rest =>
    rw [hs] at hkeeps
    exact hn value ending rest (hm.of_suffix hkeeps)
  | fail error rest => rfl

theorem follows_pure (g : α → β) (value : α) : Follows f g (pure value) (pure (g value)) :=
  fun _ _ _ => rfl

theorem follows_fail (g : α → β) (problem : Problem) :
    Follows f g (fail problem) (fail problem) := by
  intro ending tokens _
  simp only [fail, place_move]
  rfl

theorem follows_next : Follows f id next next := by
  intro ending tokens _
  simp only [next, kind_move]
  rfl

theorem follows_expect (wanted : Token.Kind) (spot : Problem.Place) :
    Follows f (Span.move f) (expect wanted spot) (expect wanted spot) := by
  intro ending tokens _
  simp only [expect, fail, kind_move, place_move]
  split
  · rw [← List.map_tail]
    rfl
  · rfl

theorem follows_accept (wanted : Token.Kind) : Follows f id (accept wanted) (accept wanted) := by
  intro ending tokens _
  simp only [accept, kind_move]
  split
  · rw [← List.map_tail]
    rfl
  · rfl

end Reading

namespace Program

open Reading

variable {ending : Span} {tokens : List Token}

/-! ### Imports -/

@[simp] theorem atImport_move (tokens : List Token) :
    atImport (tokens.map (Token.move f)) = atImport tokens := by
  match tokens with
  | [] => rfl
  | ⟨k, span⟩ :: rest =>
    cases k with
    | word name => simp only [List.map_cons, Token.move, atImport, kind_move]
    | _ => rfl

theorem follows_acceptImport : Follows f id acceptImport acceptImport := by
  intro ending tokens _
  simp only [acceptImport, atImport_move]
  split
  · rw [← List.map_tail]
    rfl
  · rfl

theorem follows_importPath : Follows f (Located.move f) importPath importPath := by
  intro ending tokens _
  match tokens with
  | [] => rfl
  | ⟨k, span⟩ :: rest => cases k <;> rfl

theorem follows_importTarget : Follows f (Located.move f) importTarget importTarget :=
  (follows_expect _ _).bind (keeps_expect _ _) fun _ =>
    follows_importPath.bind keeps_importPath fun _ =>
      (follows_expect _ _).bind (keeps_expect _ _) fun _ => follows_pure _ _

theorem follows_importRest (hf : Monotone f) (start : Span) (form : Import.Form) :
    Follows f (Item.moveAt f) (importRest start form)
      (importRest (start.move f) (form.move f)) := by
  refine follows_importTarget.bind keeps_importTarget fun path =>
    (follows_expect _ _).bind (keeps_expect _ _) fun stop => ?_
  rw [← Span.join_move hf]
  exact follows_pure (Item.moveAt f) _

/-! ### Destructuring patterns -/

theorem map_move_eq_cons {k : Token.Kind} {span : Span} {rest : List Token} :
    tokens.map (Token.move f) = ⟨k, span⟩ :: rest ↔ ∃ span' rest', tokens = ⟨k, span'⟩ :: rest' ∧
      span'.move f = span ∧ rest'.map (Token.move f) = rest := by
  constructor
  · intro h
    obtain ⟨⟨_, span'⟩, rest', rfl, ht, rfl⟩ := List.map_eq_cons_iff.1 h
    obtain ⟨rfl, rfl⟩ := Token.mk.inj ht
    exact ⟨span', rest', rfl, rfl, rfl⟩
  · rintro ⟨span', rest', rfl, rfl, rfl⟩
    rfl

theorem requests_move (ending : Span) (tokens : List Token) :
    requests (ending.move f) (tokens.map (Token.move f)) =
      (requests ending tokens).move f (List.map (Import.Request.move f)) := by
  fun_induction requests ending tokens with
  | case1 => simp [requests, Token.move, Step.move]
  | case2 exported span₁ colon renamed span₂ comma rest ih =>
    simp only [List.map_cons, Token.move, requests, ih]
    refine (Step.move_map ?_).symm
    exact fun _ => rfl
  | case3 exported span₁ colon renamed span₂ rest hcomma =>
    simp only [List.map_cons, Token.move]
    rw [requests]
    · rfl
    · simp_all [map_move_eq_cons]
  | case4 name span₁ colon rest =>
    simp only [List.map_cons, Token.move]
    rw [requests]
    · simp only [fail, kind_move, place_move]
      rfl
    all_goals simp_all [map_move_eq_cons]
  | case5 exported span₁ comma rest ih =>
    simp only [List.map_cons, Token.move, requests, ih]
    refine (Step.move_map ?_).symm
    exact fun _ => rfl
  | case6 exported span rest =>
    simp only [List.map_cons, Token.move]
    rw [requests]
    · rfl
    all_goals simp_all [map_move_eq_cons]
  | case7 tokens =>
    rw [requests]
    · simp only [fail, kind_move, place_move]
      rfl
    all_goals simp_all [map_move_eq_cons]

theorem follows_requests : Follows f (List.map (Import.Request.move f)) requests requests :=
  fun ending tokens _ => requests_move ending tokens

theorem follows_selection (hf : Monotone f) (start : Span) :
    Follows f (Item.moveAt f) (selection start) (selection (start.move f)) := by
  refine follows_requests.bind keeps_requests fun asked =>
    (follows_expect _ _).bind (keeps_expect _ _) fun _ =>
      (follows_expect _ _).bind (keeps_expect _ _) fun _ =>
        follows_acceptImport.bind keeps_acceptImport fun accepted => ?_
  cases accepted with
  | true => exact follows_importRest hf start (.selected asked)
  | false => exact follows_next.bind keeps_next fun _ => follows_fail _ _

/-! ### Opaque tokens -/

/-- The stretch with its end and the qualified names in it moved. -/
def Stretch.move (f : Nat → Nat) (s : Stretch) : Stretch :=
  ⟨f s.stop, s.references.map (Located.move f)⟩

theorem members_move (tokens : List Token) : members (tokens.map (Token.move f)) =
    ((members tokens).1.map (Located.move f), (members tokens).2.map (Token.move f)) := by
  fun_induction members tokens with
  | case1 sign name span rest ih =>
    simp only [List.map_cons, Token.move, members] at ih ⊢
    rw [ih]
    rfl
  | case2 tokens h =>
    refine members_of_complete fun sign name span rest he => ?_
    simp only [map_move_eq_cons] at he
    obtain ⟨sign', _, ht, -, span', rest', rfl, -, -⟩ := he
    exact h _ _ _ _ ht

theorem referenceOf_move (hf : Monotone f) (name : String) (span : Span)
    (path : List (Located String)) (last : Located String) (behind : List Token) :
    referenceOf name (span.move f) (path.map (Located.move f)) (last.move f)
      (behind.map (Token.move f)) = (referenceOf name span path last behind).move f := by
  simp only [referenceOf, kind_move, Located.move, Span.join_move hf, List.map_map]
  rfl

theorem scanFrom_move (hf : Monotone f) (ending : Span) (wanted : Token.Kind) (openers : List Span)
    (stop : Nat) (tokens : List Token) :
    scanFrom (ending.move f) wanted (openers.map (Span.move f)) (f stop)
      (tokens.map (Token.move f)) =
        (scanFrom ending wanted openers stop tokens).move f (Stretch.move f) := by
  fun_induction scanFrom ending wanted openers stop tokens with
  | case1 stop opener outer => rw [List.map_nil, List.map_cons, scanFrom]; rfl
  | case2 stop => rw [List.map_nil, List.map_nil, scanFrom]; rfl
  | case3 openers stop kind span rest h =>
    exact scanFrom_stop (by simpa using h)
  | case4 openers stop span rest bracket h ih =>
    exact (scanFrom_opening (by simpa using h)).trans ih
  | case5 stop span rest bracket h => exact scanFrom_unmatched (by simpa using h)
  | case6 stop span rest bracket opener outer h ih => exact (scanFrom_closing _).trans ih
  | case7 openers stop span rest name h hi =>
    rw [if_pos hi]
    exact scanFrom_import (by simpa using h) ((atImport_move _).trans hi)
  | case8 openers stop span rest name hnone h hi ih =>
    rw [if_neg hi, hnone]
    refine (scanFrom_name (by simpa using h) ?_ ?_).trans ih
    · exact fun hi' => hi ((atImport_move _).symm.trans hi')
    · rw [members_move, List.getLast?_map, hnone]
      rfl
  | case9 openers stop span rest name last hlast h hi ih =>
    rw [if_neg hi, hlast]
    have hlast' : (members (rest.map (Token.move f))).1.getLast? = some (last.move f) := by
      rw [members_move, List.getLast?_map, hlast]
      rfl
    refine (scanFrom_reference (by simpa using h) ?_ hlast').trans ?_
    · exact fun hi' => hi ((atImport_move _).symm.trans hi')
    · rw [members_move, referenceOf_move hf]
      refine (congrArg (Step.map _) ih).trans (Step.move_map ?_).symm
      exact fun _ => rfl
  | case10 openers stop kind span rest h h₁ h₂ h₃ ih =>
    exact (scanFrom_inert (by simpa using h) ⟨h₁, h₂⟩ h₃).trans ih

theorem follows_scan (hf : Monotone f) (wanted : Token.Kind) :
    Follows f (fun body => (body.1.move f, body.2.map (Located.move f))) (scan wanted)
      (scan wanted) := by
  intro ending tokens _
  have hmove := scanFrom_move hf ending wanted [] (place ending tokens).start tokens
  simp only [scan, place_move]
  refine (congrArg (Step.map _) hmove).trans (Step.move_map ?_).symm
  exact fun _ => rfl

/-! ### Types and values -/

theorem follows_bindingType (hf : Monotone f) (name : Located String) :
    Follows f (List.map (Located.move f)) (bindingType name) (bindingType (name.move f)) := by
  refine (follows_accept _).bind (keeps_accept _) fun taken => ?_
  cases taken with
  | true =>
    exact (follows_scan hf _).bind (keeps_scan _) fun _ =>
      (follows_expect _ _).bind (keeps_expect _ _) fun _ => follows_pure _ _
  | false => exact (follows_expect _ _).bind (keeps_expect _ _) fun _ => follows_pure _ _

theorem afterGroup_move (depth : Nat) (tokens : List Token) :
    afterGroup depth (tokens.map (Token.move f)) =
      (afterGroup depth tokens).map (List.map (Token.move f)) := by
  induction tokens generalizing depth with
  | nil => rfl
  | cons token rest ih =>
    obtain ⟨k, span⟩ := token
    cases k with
    | opening bracket => exact ih (depth + 1)
    | closing bracket =>
      simp only [List.map_cons, Token.move, afterGroup]
      split
      · rfl
      · exact ih (depth - 1)
    | _ => exact ih depth

theorem valueKind_move (tokens : List Token) :
    valueKind (tokens.map (Token.move f)) = valueKind tokens := by
  match tokens with
  | [] => rfl
  | ⟨k, span⟩ :: rest =>
    cases k with
    | word name => simp only [List.map_cons, Token.move, valueKind, kind_move]
    | opening bracket =>
      cases bracket with
      | round =>
        simp only [List.map_cons, Token.move, valueKind, afterGroup_move, Option.map_map]
        rw [show kind ∘ List.map (Token.move f) = kind from funext kind_move]
      | _ => rfl
    | _ => rfl

/-- A stretch that is gone over is empty where it is moved to only if it is so where it stands. -/
theorem isEmpty_move (hm : Token.Moves f tokens) {wanted : Token.Kind} {body : Span}
    {references : List (Located Reference)} {left : List Token}
    (hs : scan wanted ending tokens = .done (body, references) left) :
    (body.move f).isEmpty = body.isEmpty := by
  obtain ⟨s, hscan, rfl, -⟩ := scan_eq_done hs
  obtain ⟨taken, rfl, hstop⟩ := stop_of_scanFrom hscan
  rw [Bool.eq_iff_iff, Span.isEmpty_iff, Span.isEmpty_iff]
  refine ⟨fun hle => ?_, fun hle => hm.monotone hle⟩
  rcases List.eq_nil_or_concat' taken with rfl | ⟨front, last, rfl⟩
  · exact Nat.le_of_eq hstop
  · -- the stretch goes from the first token to the last of those that are taken
    rw [lastStop_append] at hstop
    obtain ⟨first, more, htokens⟩ := List.exists_cons_of_ne_nil
      (List.append_ne_nil_of_left_ne_nil (List.append_ne_nil_of_right_ne_nil front
        (List.cons_ne_nil last [])) left)
    have hlast : last ∈ front ++ [last] ++ left := by simp
    rw [htokens] at hm hle hlast ⊢
    dsimp only at hle ⊢
    rw [hstop] at hle ⊢
    exact hm.reflects first List.mem_cons_self last hlast hle

theorem follows_declared (hf : Monotone f) (name : Located String)
    (references : List (Located Reference)) (kind : Declaration.Kind)
    {body : Span × List (Located Reference)} (hb : (body.1.move f).isEmpty = body.1.isEmpty) :
    Follows f (Item.moveAt f) (declared name references kind body)
      (declared (name.move f) (references.map (Located.move f)) kind
        (body.1.move f, body.2.map (Located.move f))) := by
  unfold declared
  rw [hb]
  split
  · exact follows_fail _ _
  · refine (follows_expect _ _).bind (keeps_expect _ _) fun stop => ?_
    rw [← List.map_append]
    change Follows f (Item.moveAt f) _ (pure ⟨_, (name.span.move f).join (stop.move f)⟩)
    rw [← Span.join_move hf]
    exact follows_pure (Item.moveAt f) _

theorem follows_value (hf : Monotone f) (name : Located String)
    (references : List (Located Reference)) :
    Follows f (Item.moveAt f) (value name references)
      (value (name.move f) (references.map (Located.move f))) := by
  intro ending tokens hm
  have hscan := follows_scan hf .semicolon ending tokens hm
  rw [value_eq, value_eq, valueKind_move]
  cases hs : scan .semicolon ending tokens with
  | done body left =>
    rw [hs] at hscan
    rw [bind_of_done hs, bind_of_done hscan]
    exact follows_declared hf name references _ (isEmpty_move hm hs) ending left
      (hm.of_suffix (suffix_of_done (keeps_scan _) hs))
  | fail error left =>
    rw [hs] at hscan
    rw [bind_of_fail hs, bind_of_fail hscan]
    rfl

theorem follows_binding (hf : Monotone f) (name : Located String) :
    Follows f (Item.moveAt f) (binding name) (binding (name.move f)) := by
  refine (follows_bindingType hf name).bind (keeps_bindingType name) fun references =>
    follows_acceptImport.bind keeps_acceptImport fun accepted => ?_
  cases accepted with
  | true => exact follows_importRest hf name.span (.whole (some name))
  | false => exact follows_value hf name references

/-! ### Items -/

theorem item_move {first : Token} {rest : List Token} (hm : Token.Moves f (first :: rest))
    (ending : Span) : item (first.move f) (ending.move f) (rest.map (Token.move f)) =
      (item first ending rest).move f (Item.moveAt f) := by
  have hrest := hm.of_suffix (List.suffix_cons first rest)
  obtain ⟨k, span⟩ := first
  cases k with
  | word name =>
    have hi : atImport (⟨.word name, span.move f⟩ :: rest.map (Token.move f)) =
        atImport (⟨.word name, span⟩ :: rest) := atImport_move (⟨.word name, span⟩ :: rest)
    simp only [Token.move, item, hi]
    split
    · exact follows_importRest hm.monotone span (.whole none) ending rest hrest
    · exact follows_binding hm.monotone ⟨name, span⟩ ending rest hrest
  | opening bracket =>
    cases bracket with
    | curly => exact follows_selection hm.monotone span ending rest hrest
    | _ => rfl
  | _ => rfl

theorem recover_move (depth : Nat) (tokens : List Token) :
    recover depth (tokens.map (Token.move f)) = (recover depth tokens).map (Token.move f) := by
  induction tokens generalizing depth with
  | nil => rfl
  | cons token rest ih =>
    obtain ⟨k, span⟩ := token
    cases k with
    | semicolon =>
      simp only [List.map_cons, Token.move, recover]
      split
      · rfl
      · exact ih depth
    | opening bracket => exact ih (depth + 1)
    | closing bracket => exact ih (depth - 1)
    | _ => exact ih depth

/-- **Where tokens stand matters for where items and mistakes stand**, and for nothing else. -/
theorem items_move (hm : Token.Moves f tokens) :
    items (ending.move f) (tokens.map (Token.move f)) =
      ((items ending tokens).1.map (Located.move f),
        (items ending tokens).2.map (Item.moveAt f)) := by
  fun_induction items ending tokens with
  | case1 =>
    rw [List.map_nil, items]
    rfl
  | case2 first rest hk ih =>
    have hk' : (first.move f).kind = .semicolon := hk
    rw [List.map_cons, items_cons_of_semicolon hk']
    exact ih (hm.of_suffix (List.suffix_cons _ _))
  | case3 first rest hk found left hi =>
    rename_i ih
    have hitem := item_move hm ending
    have hk' : (first.move f).kind ≠ .semicolon := hk
    have hleft := (suffix_of_item hi).trans (List.suffix_cons first rest)
    rw [hi] at hitem
    rw [List.map_cons, items_cons_of_done hk' hitem, ih (hm.of_suffix hleft)]
    rfl
  | case4 first rest hk error left hi =>
    rename_i ih
    have hitem := item_move hm ending
    have hk' : (first.move f).kind ≠ .semicolon := hk
    have hleft :=
      ((recover_suffix 0 left).trans (List.tail_suffix left)).trans (suffix_of_mistake hi)
    rw [hi] at hitem
    rw [List.map_cons, items_cons_of_fail hk' hitem, recover_move, ih (hm.of_suffix hleft)]
    rfl

end Program

end ModuleResolution
