import ModuleResolution.Proofs.Resolution

/-!
# Valid modules

A module is valid if it can be had, if everything in it is in order, and if the modules that it
imports are valid.  What is wrong with a module that is not valid is the first thing that is wrong
with its items, where an imported module that is not valid is wrong as such, whatever is wrong with
it.

* `Project.Wellformed` : everything in a module is in order.
* `Project.Valid` : the valid modules.
* `Project.verdict` : the first thing that is wrong with a module.
* `Project.verdict_eq_none_iff` : nothing is wrong with a module if it is valid.
-/

namespace ModuleResolution

/-! ### The names in a module -/

namespace Import

/-- The names that an import of the module `target` introduces. -/
def names (i : Import) (target : Key) : List (Located String) :=
  match i.form with
  | .whole alias? => [i.introduced alias? target]
  | .selected requests => requests.map Request.introduced

/-- The names that an import asks for. -/
def requested (i : Import) : List String :=
  match i.form with
  | .whole _ => []
  | .selected requests => requests.map (·.exported.value)

end Import

namespace Project

variable (project : Project)

/-- The names that some items of the module `key` introduce. -/
def names (key : Key) (items : List Item) : List (Located String) :=
  items.flatMap fun
    | .declaration d => [d.name]
    | .importing i => (i.key project.layout key).toOption.elim [] i.names

/-! ### Validity -/

/-- Everything in the module `key` with the items `items` is in order, as far as it depends on what
its imports offer. -/
structure Wellformed (key : Key) (items : List Item) : Prop where
  /-- No two declarations have one name. -/
  declared_nodup : ((items.filterMap Item.declaration?).map (·.name.value)).Nodup
  /-- The path of every import leads to a module. -/
  resolved : ∀ i, .importing i ∈ items → ∃ target, i.key project.layout key = .ok target
  /-- Every name that is asked for is exported. -/
  requested : ∀ i target, .importing i ∈ items → i.key project.layout key = .ok target →
    ∀ name ∈ i.requested, (project.exports target).contains name
  /-- No name is introduced twice. -/
  introduced_nodup : ((project.names key items).map Located.value).Nodup
  /-- Every qualified name in a declaration denotes something. -/
  denoted : ∀ d, .declaration d ∈ items → ∀ reference ∈ d.references,
    ∃ referent, project.Denotes key reference.value referent

/-- The valid modules: the least set of modules that can be had, in which everything is in order,
and whose imports are in the set. -/
inductive Valid : Key → Prop where
  | intro {key items} (contents : project.contents key = .ok items)
    (wellformed : project.Wellformed key items)
    (imports : ∀ target, project.Imports key target → Valid target) : Valid key

variable {project} {key target : Key} {items : List Item}

theorem Valid.of_imports (h : project.Valid key) (hi : project.Imports key target) :
    project.Valid target := by
  cases h with
  | intro _ _ imports => exact imports target hi

theorem Valid.of_reachable (h : project.Valid key)
    (hr : Relation.ReflTransGen project.Imports key target) : project.Valid target := by
  induction hr with
  | refl => exact h
  | tail _ hi ih => exact ih.of_imports hi

/-- A valid module does not import itself, not by way of others either. -/
theorem Valid.not_circular (h : project.Valid key) :
    ¬ Relation.TransGen project.Imports key key := by
  induction h with
  | @intro key items _ _ _ ih =>
    intro hc
    obtain ⟨target, hi, ht⟩ := Relation.TransGen.head'_iff.1 hc
    exact ih target hi (.trans_right ht (.single hi))

/-! ### Verdicts -/

end Project

/-- What is wrong with a module. -/
inductive Obstacle where
  /-- Something in the module itself. -/
  | failure (failure : Failure)
  /-- An imported module that is not valid. -/
  | target (target : Key)
deriving DecidableEq

namespace Obstacle

variable {α : Type} {step : Except Failure α} {next : α → Option Obstacle}

/-- The failure of a step, or what is wrong behind it. -/
def behind (step : Except Failure α) (next : α → Option Obstacle) : Option Obstacle :=
  match step with
  | .error f => some (.failure f)
  | .ok value => next value

theorem behind_eq_none_iff :
    behind step next = none ↔ ∃ value, step = .ok value ∧ next value = none := by
  cases step <;> simp [behind]

theorem behind_eq_target_iff {target : Key} : behind step next = some (.target target) ↔
    ∃ value, step = .ok value ∧ next value = some (.target target) := by
  cases step <;> simp [behind]

end Obstacle

namespace Project

variable (project : Project)

open scoped Classical in
/-- The first thing that is wrong with some items of the module `key`; the names `names` are
introduced in front of them. -/
noncomputable def obstacle? (key : Key) (names : List (Located String)) :
    List Item → Option Obstacle
  | [] => none
  | .declaration d :: rest =>
    Obstacle.behind (claim key names [.ok d.name]) fun names => obstacle? key names rest
  | .importing i :: rest =>
    Obstacle.behind (i.key project.layout key) fun target =>
      -- what is wrong with the imported module is left to its own verdict
      if project.Valid target then
        Obstacle.behind (claim key names (i.claims key target (project.exports target)))
          fun names => obstacle? key names rest
      else some (.target target)

/-- The first thing that is wrong with a module. -/
noncomputable def verdict (key : Key) : Option Obstacle :=
  Obstacle.behind (project.opened key) fun items =>
    (project.obstacle? key [] items).or ((project.dangling? key).map .failure)

end Project

/-! ### Nothing is wrong -/

theorem find?_eq_none_iff_nodup {α : Type} {f : α → String} {l : List α}
    (hl : (l.map f).Nodup) (a : α) :
    l.find? (fun b => f b == f a) = none ↔ ((l ++ [a]).map f).Nodup := by
  rw [List.map_append, List.map_singleton, List.nodup_append, List.find?_eq_none]
  constructor
  · refine fun h => ⟨hl, List.nodup_singleton _, fun x hx y hy he => ?_⟩
    obtain ⟨b, hb, rfl⟩ := List.mem_map.1 hx
    rw [List.mem_singleton.1 hy] at he
    exact h b hb (by simpa using he)
  · rintro ⟨-, -, h⟩ b hb he
    exact h _ (List.mem_map_of_mem hb) _ (List.mem_singleton_self _) (by simpa using he)

/-- Names can be had if they are there to be had and no name is bound twice. -/
theorem claim_eq_ok_iff {key : Key} {names names' : List (Located String)}
    {attempts : List (Except Failure (Located String))} (hn : (names.map Located.value).Nodup) :
    claim key names attempts = .ok names' ↔
      ∃ more, attempts = more.map .ok ∧ names' = names ++ more ∧
        ((names ++ more).map Located.value).Nodup := by
  induction attempts generalizing names with
  | nil =>
    simp only [claim, Except.ok.injEq]
    constructor
    · rintro rfl
      exact ⟨[], rfl, (List.append_nil _).symm, by rwa [List.append_nil]⟩
    · rintro ⟨more, hmore, rfl, -⟩
      rw [List.map_eq_nil_iff.1 hmore.symm, List.append_nil]
  | cons attempt rest ih =>
    cases attempt with
    | error failure =>
      constructor
      · intro h
        cases h
      · rintro ⟨_ | ⟨name, more⟩, hmore, -⟩ <;> cases hmore
    | ok name =>
      have hiff := find?_eq_none_iff_nodup hn name
      rw [claim]
      cases hf : names.find? (·.value == name.value) with
      | some previous =>
        constructor
        · intro h
          cases h
        · rintro ⟨_ | ⟨name', more⟩, hmore, -, hnodup⟩ <;> cases hmore
          rw [List.append_cons, List.map_append, List.nodup_append] at hnodup
          cases hf.symm.trans (hiff.2 hnodup.1)
      | none =>
        rw [ih (hiff.1 hf)]
        constructor
        · rintro ⟨more, rfl, rfl, hnodup⟩
          exact ⟨name :: more, rfl, by simp, by simpa using hnodup⟩
        · rintro ⟨_ | ⟨name', more⟩, hmore, rfl, hnodup⟩ <;> cases hmore
          exact ⟨more, rfl, by simp, by simpa using hnodup⟩

namespace Exports

theorem contains_eq (e : Exports) (name : String) :
    e.contains name = (e.index? name).isSome := by
  rw [contains, index?, Option.isSome_map, List.isSome_find?]

theorem repeatedAfter_eq_none_iff {seen declarations : List Declaration}
    (hseen : (seen.map (·.name.value)).Nodup) :
    repeatedAfter seen declarations = none ↔
      ((seen ++ declarations).map (·.name.value)).Nodup := by
  induction declarations generalizing seen with
  | nil => simpa [repeatedAfter] using hseen
  | cons d rest ih =>
    have hiff := find?_eq_none_iff_nodup hseen d
    rw [repeatedAfter, List.append_cons seen d rest]
    cases hf : seen.find? (·.name.value == d.name.value) with
    | some first =>
      refine ⟨fun h => (by cases h), fun hnodup => ?_⟩
      rw [List.map_append, List.nodup_append] at hnodup
      cases hf.symm.trans (hiff.2 hnodup.1)
    | none => exact ih (hiff.1 hf)

theorem build_eq_ok_iff {key : Key} {declarations : List Declaration} {exports : Exports} :
    build key declarations = .ok exports ↔
      (declarations.map (·.name.value)).Nodup ∧ exports = .ofDeclarations declarations := by
  have hiff : repeatedAfter [] declarations = none ↔ _ := repeatedAfter_eq_none_iff List.nodup_nil
  rw [List.nil_append] at hiff
  rw [← hiff, build, repeated?]
  cases repeatedAfter [] declarations with
  | some pair => simp
  | none => simp [eq_comm]

end Exports

theorem Import.claims_eq_iff {i : Import} {key target : Key} {exports : Exports}
    {more : List (Located String)} :
    i.claims key target exports = more.map .ok ↔
      (∀ name ∈ i.requested, exports.contains name) ∧ i.names target = more := by
  unfold claims requested names
  cases i.form with
  | whole alias? =>
    have hinj : ([i.introduced alias? target].map Except.ok : List (Except Failure _)) =
        more.map .ok ↔ _ := List.map_inj_right fun _ _ => Except.ok.inj
    simpa using hinj
  | selected requests =>
    simp only [List.forall_mem_map]
    induction requests generalizing more with
    | nil => cases more <;> simp
    | cons q rest ih =>
      rw [List.map_cons, Request.claimed, ← Exports.contains_eq]
      cases more with
      | nil => simp
      | cons name more =>
        rw [List.map_cons, List.cons.injEq, ih]
        split_ifs with hc
        · simp [hc, and_left_comm]
        · simp [hc]

namespace Project

variable {project : Project} {key : Key} {names : List (Located String)} {items : List Item}

/-- The names that are claimed of a valid module are what can be wrong with an import. -/
theorem obstacle?_importing {i : Import} {rest : List Item} {target : Key}
    (hk : i.key project.layout key = .ok target) (hv : project.Valid target) :
    project.obstacle? key names (.importing i :: rest) =
      Obstacle.behind (claim key names (i.claims key target (project.exports target)))
        fun names => project.obstacle? key names rest := by
  rw [obstacle?, hk]
  exact if_pos hv

theorem names_importing {i : Import} {rest : List Item} {target : Key}
    (hk : i.key project.layout key = .ok target) :
    project.names key (.importing i :: rest) = i.names target ++ project.names key rest := by
  simp [Project.names, hk, Except.toOption]

/-- Nothing is wrong with items whose imports lead to valid modules that export what is asked for,
if no name is introduced twice. -/
theorem obstacle?_eq_none_iff (hn : (names.map Located.value).Nodup) :
    project.obstacle? key names items = none ↔
      (∀ i, .importing i ∈ items → ∃ target, i.key project.layout key = .ok target ∧
        project.Valid target ∧ ∀ name ∈ i.requested, (project.exports target).contains name) ∧
      ((names ++ project.names key items).map Located.value).Nodup := by
  induction items generalizing names with
  | nil => simpa [obstacle?, Project.names] using hn
  | cons item rest ih =>
    -- names that are distinct together with those behind them are distinct by themselves
    have hfront : ∀ {more : List (Located String)},
        ((names ++ more ++ project.names key rest).map Located.value).Nodup →
        ((names ++ more).map Located.value).Nodup := by
      intro more hnodup
      rw [List.map_append, List.nodup_append] at hnodup
      exact hnodup.1
    cases item with
    | declaration d =>
      have hnames : project.names key (.declaration d :: rest) =
          [d.name] ++ project.names key rest := rfl
      simp only [obstacle?, Obstacle.behind_eq_none_iff, hnames, ← List.append_assoc,
        List.mem_cons, reduceCtorEq, false_or]
      constructor
      · rintro ⟨names', hc, hrest⟩
        obtain ⟨more, hmore, rfl, hnodup⟩ := (claim_eq_ok_iff hn).1 hc
        obtain rfl : [d.name] = more := List.map_injective_iff.2 (fun _ _ => Except.ok.inj) hmore
        exact (ih hnodup).1 hrest
      · rintro ⟨himports, hnodup⟩
        exact ⟨_, (claim_eq_ok_iff hn).2 ⟨[d.name], rfl, rfl, hfront hnodup⟩,
          (ih (hfront hnodup)).2 ⟨himports, hnodup⟩⟩
    | importing i =>
      simp only [obstacle?, Obstacle.behind_eq_none_iff, List.mem_cons, Item.importing.injEq,
        forall_eq_or_imp]
      constructor
      · rintro ⟨target, hk, hrest⟩
        split_ifs at hrest with hv
        obtain ⟨names', hc, hrest⟩ := Obstacle.behind_eq_none_iff.1 hrest
        obtain ⟨more, hmore, rfl, hnodup⟩ := (claim_eq_ok_iff hn).1 hc
        obtain ⟨hrequested, rfl⟩ := Import.claims_eq_iff.1 hmore
        rw [names_importing hk, ← List.append_assoc]
        obtain ⟨himports, hnodup'⟩ := (ih hnodup).1 hrest
        exact ⟨⟨⟨target, hk, hv, hrequested⟩, himports⟩, hnodup'⟩
      · rintro ⟨⟨⟨target, hk, hv, hrequested⟩, himports⟩, hnodup⟩
        rw [names_importing hk, ← List.append_assoc] at hnodup
        refine ⟨target, hk, ?_⟩
        rw [if_pos hv, Obstacle.behind_eq_none_iff]
        exact ⟨_, (claim_eq_ok_iff hn).2
          ⟨i.names target, Import.claims_eq_iff.2 ⟨hrequested, rfl⟩, rfl, hfront hnodup⟩,
          (ih (hfront hnodup)).2 ⟨himports, hnodup⟩⟩

theorem opened_eq_ok_iff : project.opened key = .ok items ↔
    project.contents key = .ok items ∧
      ((items.filterMap Item.declaration?).map (·.name.value)).Nodup := by
  constructor
  · intro h
    obtain ⟨hc, hr⟩ := contents_of_opened h
    have hb : Exports.build key (items.filterMap Item.declaration?) =
        .ok (.ofDeclarations (items.filterMap Item.declaration?)) := by rw [Exports.build, hr]
    exact ⟨hc, (Exports.build_eq_ok_iff.1 hb).1⟩
  · rintro ⟨hc, hn⟩
    rw [opened, hc]
    change (Exports.build key _ >>= fun _ => Except.ok items) = _
    rw [Exports.build_eq_ok_iff.2 ⟨hn, rfl⟩]
    rfl

theorem imports_iff {target : Key} : project.Imports key target ↔
    ∃ i, .importing i ∈ project.itemsAt key ∧ i.key project.layout key = .ok target := by
  simp only [Imports, imports, targets, List.mem_filterMap, Option.bind_eq_some_iff]
  constructor
  · rintro ⟨item, hitem, i, hi, hk⟩
    cases item with
    | declaration d => cases hi
    | importing i' =>
      cases hi
      exact ⟨i, hitem, by cases h : i.key project.layout key <;> simp_all [Except.toOption]⟩
  · rintro ⟨i, hi, hk⟩
    exact ⟨.importing i, hi, i, rfl, by rw [hk]; rfl⟩

theorem mem_declarations_iff {d : Declaration} :
    d ∈ project.declarations key ↔ .declaration d ∈ project.itemsAt key := by
  rw [declarations, List.mem_filterMap]
  constructor
  · rintro ⟨_ | _, hitem, hd⟩ <;> cases hd
    exact hitem
  · exact fun hd => ⟨_, hd, rfl⟩

/-- **Nothing is wrong with a module if and only if it is valid.** -/
theorem verdict_eq_none_iff : project.verdict key = none ↔ project.Valid key := by
  simp only [verdict, Obstacle.behind_eq_none_iff, Option.or_eq_none_iff, Option.map_eq_none_iff,
    dangling?_eq_none_iff, mem_declarations_iff]
  constructor
  · rintro ⟨items, ho, hobstacle, hdenoted⟩
    obtain ⟨hc, hn⟩ := opened_eq_ok_iff.1 ho
    rw [obstacle?_eq_none_iff (by simp), List.nil_append] at hobstacle
    obtain ⟨himports, hnames⟩ := hobstacle
    rw [itemsAt_of_opened ho] at hdenoted
    refine .intro hc ⟨hn, fun i hi => ?_, fun i target hi hk => ?_, hnames, hdenoted⟩
      fun target htarget => ?_
    · obtain ⟨target, hk, -⟩ := himports i hi
      exact ⟨target, hk⟩
    · obtain ⟨target', hk', -, hrequested⟩ := himports i hi
      cases hk.symm.trans hk'
      exact hrequested
    · obtain ⟨i, hi, hk⟩ := imports_iff.1 htarget
      rw [itemsAt_of_opened ho] at hi
      obtain ⟨target', hk', hvalid, -⟩ := himports i hi
      cases hk.symm.trans hk'
      exact hvalid
  · rintro ⟨hc, hw, hvalid⟩
    have ho := opened_eq_ok_iff.2 ⟨hc, hw.declared_nodup⟩
    simp only [imports_iff, itemsAt_of_opened ho] at hvalid
    refine ⟨_, ho, (obstacle?_eq_none_iff (by simp)).2 ⟨fun i hi => ?_, hw.introduced_nodup⟩, ?_⟩
    · obtain ⟨target, hk⟩ := hw.resolved i hi
      exact ⟨target, hk, hvalid target ⟨i, hi, hk⟩, hw.requested i target hi hk⟩
    · rw [itemsAt_of_opened ho]
      exact hw.denoted

end Project

end ModuleResolution
