import ModuleResolution.Proofs.Outcome
import ModuleResolution.Proofs.Trail

/-!
# Names that are introduced twice

Two checks see to it that no name of a module is introduced twice.  Before anything is imported, the
declarations are gone through; then the names of declarations and imports are claimed, item by item.
Each check tells of the first name that an earlier one is like, and of that earlier one.

* `Clash` : the first element of a list whose name an earlier one has.
* `Project.opened_of_clash` : a clash of declarations is told before anything is imported.
* `Project.obstacle?_of_clash` : a clash of the names that items introduce is what is wrong with
  them, if nothing is wrong with what they import.
* `Draft.Takes.obstacle` : taking the items stops at the first thing that is wrong with them.
* `Project.clashes_told` : what a request for a module is answered with that introduces a name
  twice.
-/

namespace ModuleResolution

/-! ### The first repetition in a list -/

/-- `later` is the first element of the list whose name, which `f` tells, an earlier one has; this
is `earlier`. -/
inductive Clash {α : Type} (f : α → String) : List α → α → α → Prop
  | intro {before after : List α} {earlier later : α} (distinct : (before.map f).Nodup)
    (mem : earlier ∈ before) (same : f earlier = f later) :
    Clash f (before ++ later :: after) earlier later

namespace Clash

variable {α : Type} {f : α → String} {l : List α} {earlier earlier' later later' : α}

theorem append (h : Clash f l earlier later) (more : List α) :
    Clash f (l ++ more) earlier later := by
  obtain ⟨hdistinct, hmem, hsame⟩ := h
  rw [List.append_assoc]
  exact .intro hdistinct hmem hsame

theorem not_nodup (h : Clash f l earlier later) : ¬ (l.map f).Nodup := by
  obtain ⟨-, hmem, hsame⟩ := h
  intro hnodup
  rw [List.map_append, List.map_cons, List.nodup_append] at hnodup
  exact hnodup.2.2 _ (List.mem_map_of_mem hmem) _ List.mem_cons_self hsame

theorem of_find? {before : List α} (hn : (before.map f).Nodup)
    (h : before.find? (fun b => f b == f later) = some earlier) (after : List α) :
    Clash f (before ++ later :: after) earlier later :=
  .intro hn (List.mem_of_find?_eq_some h) (by simpa using List.find?_some h)

theorem nodup_or (f : α → String) (l : List α) :
    (l.map f).Nodup ∨ ∃ earlier later, Clash f l earlier later := by
  induction l using List.reverseRecOn with
  | nil => exact .inl List.nodup_nil
  | append_singleton before a ih =>
    rcases ih with hn | ⟨earlier, later, hc⟩
    · cases hf : before.find? (fun b => f b == f a) with
      | none => exact .inl ((find?_eq_none_iff_nodup hn a).1 hf)
      | some earlier => exact .inr ⟨earlier, a, .of_find? hn hf []⟩
    · exact .inr ⟨earlier, later, hc.append [a]⟩

theorem length_le {before after before' after' : List α} (hmem : earlier ∈ before)
    (hsame : f earlier = f later) (hn : (before'.map f).Nodup)
    (he : before ++ later :: after = before' ++ later' :: after') :
    before'.length ≤ before.length := by
  by_contra hlt
  rw [Nat.not_le] at hlt
  have hprefix : before ++ [later] <+: before' ++ later' :: after' := he ▸ ⟨after, by simp⟩
  obtain ⟨inner, rfl⟩ := List.prefix_of_prefix_length_le hprefix (List.prefix_append _ _)
    (by rw [List.length_append]; exact hlt)
  rw [List.append_assoc] at hn
  exact (Clash.intro (List.Nodup.of_append_left (by simpa using hn)) hmem hsame).not_nodup hn

theorem unique (h : Clash f l earlier later) (h' : Clash f l earlier' later') :
    earlier = earlier' ∧ later = later' := by
  cases h with
  | @intro before after _ _ hdistinct hmem hsame =>
    generalize hl : before ++ later :: after = l at h'
    cases h' with
    | @intro before' after' _ _ hdistinct' hmem' hsame' =>
      have hlength : before.length = before'.length :=
        Nat.le_antisymm (length_le hmem' hsame' hdistinct hl.symm)
          (length_le hmem hsame hdistinct' hl)
      obtain ⟨rfl, hrest⟩ := List.append_inj hl hlength
      obtain ⟨rfl, -⟩ := List.cons.inj hrest
      exact ⟨List.inj_on_of_nodup_map hdistinct hmem hmem' (hsame.trans hsame'.symm), rfl⟩

end Clash

/-! ### The two checks -/

theorem claim_map_ok (key : Key) {names : List (Located String)}
    (hn : (names.map Located.value).Nodup) (more : List (Located String)) :
    (((names ++ more).map Located.value).Nodup ∧
        claim key names (more.map .ok) = .ok (names ++ more)) ∨
      ∃ earlier later, Clash Located.value (names ++ more) earlier later ∧
        claim key names (more.map .ok) =
          .error (.collision key later.value earlier.span later.span) := by
  induction more generalizing names with
  | nil => exact .inl ⟨by rwa [List.append_nil], by rw [List.append_nil]; rfl⟩
  | cons name rest ih =>
    rw [List.map_cons, claim]
    cases hf : names.find? (·.value == name.value) with
    | some previous => exact .inr ⟨previous, name, .of_find? hn hf rest, rfl⟩
    | none =>
      rw [List.append_cons]
      exact ih ((find?_eq_none_iff_nodup hn name).1 hf)

theorem Exports.clash_of_repeatedAfter {seen declarations : List Declaration}
    {first second : Declaration} (hseen : (seen.map (·.name.value)).Nodup)
    (h : repeatedAfter seen declarations = some (first, second)) :
    Clash (·.name.value) (seen ++ declarations) first second := by
  induction declarations generalizing seen with
  | nil => cases h
  | cons d rest ih =>
    rw [repeatedAfter] at h
    cases hf : seen.find? (·.name.value == d.name.value) with
    | some previous =>
      rw [hf] at h
      cases h
      exact .of_find? hseen hf rest
    | none =>
      rw [hf] at h
      rw [List.append_cons]
      exact ih ((find?_eq_none_iff_nodup hseen d).1 hf) h

namespace Project

variable {project : Project} {key : Key} {names : List (Located String)} {items : List Item}

/-- **A clash of declarations is told**, instead of the items. -/
theorem opened_of_clash {first second : Declaration} (hc : project.contents key = .ok items)
    (h : Clash (·.name.value) (items.filterMap Item.declaration?) first second) :
    project.opened key =
      .error (.duplicate key second.name.value first.name.span second.name.span) := by
  rw [opened, hc]
  change (Exports.build key _ >>= fun _ => Except.ok items) = _
  rw [Exports.build]
  have hseen : (([] : List Declaration).map (·.name.value)).Nodup := List.nodup_nil
  cases hr : Exports.repeated? (items.filterMap Item.declaration?) with
  | none => exact absurd ((Exports.repeatedAfter_eq_none_iff hseen).1 hr) h.not_nodup
  | some pair =>
    obtain ⟨first', second'⟩ := pair
    obtain ⟨rfl, rfl⟩ := h.unique (Exports.clash_of_repeatedAfter hseen hr)
    rfl

/-- The imports among some items of the module `key` lead to valid modules, which export what is
asked for. -/
def Supplied (project : Project) (key : Key) (items : List Item) : Prop :=
  ∀ i, .importing i ∈ items → ∃ target, i.key project.layout key = .ok target ∧
    project.Valid target ∧ ∀ name ∈ i.requested, (project.exports target).contains name

/-- If nothing is wrong with what items import, a clash of the names that they introduce is what is
wrong with them. -/
theorem obstacle?_of_supplied (hn : (names.map Located.value).Nodup)
    (hs : project.Supplied key items) :
    ((names ++ project.names key items).map Located.value).Nodup ∨
      ∃ earlier later, Clash Located.value (names ++ project.names key items) earlier later ∧
        project.obstacle? key names items =
          some (.failure (.collision key later.value earlier.span later.span)) := by
  induction items generalizing names with
  | nil => exact .inl (by simpa [Project.names] using hn)
  | cons item rest ih =>
    have hrest : project.Supplied key rest := fun i hi => hs i (List.mem_cons_of_mem _ hi)
    cases item with
    | declaration d =>
      have hnames : project.names key (.declaration d :: rest) =
          [d.name] ++ project.names key rest := rfl
      rw [hnames, ← List.append_assoc, obstacle?]
      rcases claim_map_ok key hn [d.name] with ⟨hnodup, hclaim⟩ | ⟨earlier, later, hc, hclaim⟩
      · rw [show claim key names [.ok d.name] = _ from hclaim]
        exact ih hnodup hrest
      · rw [show claim key names [.ok d.name] = _ from hclaim]
        exact .inr ⟨earlier, later, hc.append _, rfl⟩
    | importing i =>
      obtain ⟨target, hk, hv, hrequested⟩ := hs i List.mem_cons_self
      have hclaims : i.claims key target (project.exports target) = (i.names target).map .ok :=
        Import.claims_eq_iff.2 ⟨hrequested, rfl⟩
      rw [names_importing hk, ← List.append_assoc, obstacle?_importing hk hv, hclaims]
      rcases claim_map_ok key hn (i.names target) with
        ⟨hnodup, hclaim⟩ | ⟨earlier, later, hc, hclaim⟩
      · rw [hclaim]
        exact ih hnodup hrest
      · rw [hclaim]
        exact .inr ⟨earlier, later, hc.append _, rfl⟩

/-- **A clash of the names that items introduce** is what is wrong with them, if nothing is wrong
with what they import. -/
theorem obstacle?_of_clash {earlier later : Located String} (hs : project.Supplied key items)
    (h : Clash Located.value (project.names key items) earlier later) :
    project.obstacle? key [] items =
      some (.failure (.collision key later.value earlier.span later.span)) := by
  have hnone : (([] : List (Located String)).map Located.value).Nodup := List.nodup_nil
  rcases obstacle?_of_supplied hnone hs with hnodup | ⟨earlier', later', hc, hobstacle⟩
  · exact absurd hnodup h.not_nodup
  · obtain ⟨rfl, rfl⟩ := h.unique hc
    exact hobstacle

end Project

/-! ### What stops a module -/

/-- **Taking the items of a module stops at the first thing that is wrong with them**, unless this
is an imported module. -/
theorem Draft.Takes.obstacle {project : Project} {depth : Nat} {key : Key} {draft : Draft}
    {items : List Item} {s : Session} {out : Except Failure Draft × Session}
    (hvisit : project.Answers depth (project.visit depth))
    (h : Takes (project.visit depth) project.layout key draft items s out)
    (ht : draft.Tracks project depth key s.registry items) :
    (∀ f, project.obstacle? key [] (project.itemsAt key) = some (.failure f) →
        out.1 = .error f) ∧
      (project.obstacle? key [] (project.itemsAt key) = none → ∃ draft', out.1 = .ok draft') := by
  induction h with
  | @done draft s =>
    have hnone : project.obstacle? key [] (project.itemsAt key) = none := ht.obstacle?.symm
    simp [hnone]
  | collided hd => simp [ht.collided hd]
  | declared hd _ ih => exact ih (ht.declaring hd)
  | astray hk => simp [ht.astray hk]
  | failed hk hv =>
    obtain ⟨_ | ⟨hf, hr⟩, -⟩ := ht.visited hvisit hk hv
    simp [ht.blamed hk hr.not_valid]
  | refused hk hv hi =>
    obtain ⟨⟨hf, hm, hmk, hs⟩ | _, htracks⟩ := ht.visited hvisit hk hv
    simp [htracks.refused hk hm hmk hs hi]
  | bound hk hv hi _ ih =>
    obtain ⟨⟨hf, hm, hmk, hs⟩ | _, htracks⟩ := ht.visited hvisit hk hv
    exact ih (htracks.bound hk hm hmk hs hi)

namespace Project

variable (project : Project)

/-- A module that is not known fails for the first thing that is wrong with its items; if nothing is
wrong with them, it fails for a qualified name only. -/
theorem visit_obstacle {depth : Nat} {key : Key} {s : Session} {items : List Item}
    (hc : s.registry.Coherent) (hf : project.Faithful s.registry)
    (ha : project.Admits (depth + 1) s.registry key) (hn : s.registry.find? key = none)
    (ho : project.opened key = .ok items) :
    (∀ f, project.obstacle? key [] items = some (.failure f) →
        (project.visit (depth + 1) key s).1 = .error f) ∧
      (project.obstacle? key [] items = none →
        ∀ f, (project.visit (depth + 1) key s).1 = .error f → f.isMisuse = true) := by
  have htracks := project.tracks_opening hc hf ha hn ho
  have hvisit := project.visits_visit depth key s
  rw [← itemsAt_of_opened ho]
  generalize project.visit (depth + 1) key s = out at hvisit
  cases hvisit with
  | known hf' =>
    rw [hn] at hf'
    cases hf'
  | refused _ ho' =>
    rw [ho] at ho'
    cases ho'
  | stopped _ ho' ht =>
    rw [ho] at ho'
    cases ho'
    obtain ⟨hfailure, hnone⟩ := ht.obstacle (project.visit_answers depth) htracks
    refine ⟨fun f h => congrArg _ (Except.error.inj (hfailure f h)), fun h => ?_⟩
    obtain ⟨_, hok⟩ := hnone h
    cases hok
  | dangling _ ho' ht hd =>
    rw [ho] at ho'
    cases ho'
    obtain ⟨hfailure, -⟩ := ht.obstacle (project.visit_answers depth) htracks
    refine ⟨fun f h => (by cases hfailure f h), ?_⟩
    rintro _ _ ⟨⟩
    exact Registry.isMisuse_of_dangling? hd
  | ready _ ho' ht _ =>
    rw [ho] at ho'
    cases ho'
    obtain ⟨hfailure, -⟩ := ht.obstacle (project.visit_answers depth) htracks
    refine ⟨fun f h => (by cases hfailure f h), ?_⟩
    rintro _ _ ⟨⟩

theorem visit_of_opened_eq_error (depth : Nat) {key : Key} {s : Session} {failure : Failure}
    (hn : s.registry.find? key = none) (ho : project.opened key = .error failure) :
    project.visit (depth + 1) key s =
      (.error failure, (project.opening key s).on (·.fail s.registry.fresh failure)) := by
  rw [visit]
  simp only [hn, loadBy_eq, ho]

theorem asks_of_opened_eq_error (key : Key) (s : Session) (failure : Failure) :
    project.Asks s ((project.opening key s).on (·.fail s.registry.fresh failure)) [key] :=
  (project.asks_opening key s).on (Registry.keys_fail failure)

theorem valid_of_obtain {target : Key} {h : Handle} {s : Session}
    (hv : project.obtain target .empty = (.ok h, s)) :
    project.Valid target ∧ (s.registry.record h).exports = project.exports target := by
  have hanswer := project.visit_answers project.depth target .empty Registry.coherent_empty
    faithful_empty (.top rfl target)
  have hc := coherent_of_obtain hv
  rw [show project.visit project.depth target .empty = (.ok h, s) from hv] at hanswer
  cases hanswer with
  | ok hf hm hk hs =>
    rw [← hk]
    refine ⟨hf.valid hm hs, ?_⟩
    rw [(hf.tells.shows h (hc.mem_finished.2 ⟨_, hm, hs⟩)).exports_eq, Registry.keyOf_eq hm]

end Project

/-! ### Requests of a run -/

/-- The request is met with the project, in a run that has met no other. -/
def Visit.Admitted (project : Project) (v : Visit) : Prop :=
  ∃ depth, v.before.registry.Coherent ∧ project.Faithful v.before.registry ∧
    project.Admits depth v.before.registry v.key ∧ v = project.visited depth v.key v.before

theorem Draft.Takes.admitted {project : Project} {depth : Nat} {key : Key} {draft : Draft}
    {items : List Item} {s : Session} {out : Except Failure Draft × Session}
    (htrail : ∀ target (s : Session), s.registry.Coherent → project.Faithful s.registry →
      project.Admits depth s.registry target → ∀ v ∈ project.trail depth target s,
      v.Admitted project)
    (h : Takes (project.visit depth) project.layout key draft items s out)
    (ht : draft.Tracks project depth key s.registry items) :
    ∀ v ∈ draft.trail (project.visit depth) (project.trail depth) project.layout key items s,
      v.Admitted project := by
  have hfirst : ∀ {draft : Draft} {i rest target} {s : Session},
      draft.Tracks project depth key s.registry (.importing i :: rest) →
      i.key project.layout key = .ok target →
      ∀ v ∈ project.trail depth target s, v.Admitted project := fun ht hk =>
    htrail _ _ ht.coherent ht.faithful (ht.admits _ (ht.awaits hk))
  induction h with
  | done => exact List.forall_mem_nil _
  | collided hd =>
    rw [trail_collided hd]
    exact List.forall_mem_nil _
  | declared hd _ ih =>
    rw [trail_declared hd]
    exact ih (ht.declaring hd)
  | astray hk =>
    rw [trail_astray hk]
    exact List.forall_mem_nil _
  | failed hk hv =>
    rw [trail_failed hk hv]
    exact hfirst ht hk
  | refused hk hv hi =>
    rw [trail_refused hk hv hi]
    exact hfirst ht hk
  | bound hk hv hi _ ih =>
    obtain ⟨⟨hf, hm, hmk, hs⟩ | _, htracks⟩ := ht.visited (project.visit_answers depth) hk hv
    rw [trail_bound hk hv hi]
    exact List.forall_mem_append.2 ⟨hfirst ht hk, ih (htracks.bound hk hm hmk hs hi)⟩

namespace Project

variable (project : Project)

theorem admitted_of_mem_trail (depth : Nat) (key : Key) (s : Session)
    (hc : s.registry.Coherent) (hf : project.Faithful s.registry)
    (ha : project.Admits depth s.registry key) :
    ∀ v ∈ project.trail depth key s, v.Admitted project := by
  induction depth generalizing key s with
  | zero => exact absurd (ha.depth_pos hc) (Nat.lt_irrefl 0)
  | succ depth ih =>
    rw [trail]
    refine List.forall_mem_cons.2 ⟨⟨depth + 1, hc, hf, ha, rfl⟩, ?_⟩
    cases hn : s.registry.find? key with
    | some h => exact List.forall_mem_nil _
    | none =>
      cases ho : project.opened key with
      | error failure => exact List.forall_mem_nil _
      | ok items =>
        have ht := Draft.takes_takeAll (project.visit depth) project.layout key .empty items
          (project.opening key s)
        exact ht.admitted ih (project.tracks_opening hc hf ha hn ho)

theorem visited_mem_trail (depth : Nat) (key : Key) (s : Session) :
    project.visited depth key s ∈ project.trail depth key s := by
  cases depth with
  | zero => exact List.mem_singleton_self _
  | succ depth => exact List.mem_cons_self

/-- All requests of a run that is met with one project are met with it. -/
theorem admitted_of_mem (demands : List Demand) :
    ∀ v ∈ Session.empty.trail (demands.map (project, ·)), v.Admitted project := by
  have hgeneral : ∀ s : Session, s.registry.Coherent → s.registry.active = [] →
      project.Faithful s.registry →
      ∀ v ∈ s.trail (demands.map (project, ·)), v.Admitted project := by
    induction demands with
    | nil => exact fun _ _ _ _ => List.forall_mem_nil _
    | cons d rest ih =>
      intro s hc ha hf
      rw [List.map_cons, Session.trail, meet_asked]
      cases project.asked d with
      | none => exact ih s hc ha hf
      | some key =>
        have htop : project.Admits project.depth s.registry key := .top ha key
        refine List.forall_mem_append.2
          ⟨project.admitted_of_mem_trail project.depth key s hc hf htop, ih _ ?_ ?_ ?_⟩
        · exact (project.visit_coherent project.depth key s hc).1
        · exact (project.visit_grows project.depth key s).active.trans ha
        · exact (project.visit_answers project.depth key s hc hf htop).faithful
  exact hgeneral .empty Registry.coherent_empty rfl faithful_empty

variable {project}

theorem told_of_declared {v : Visit} {items : List Item} {first second : Declaration}
    (hv : v.Admitted project) (hn : v.before.registry.find? v.key = none)
    (hc : project.contents v.key = .ok items)
    (h : Clash (·.name.value) (items.filterMap Item.declaration?) first second) :
    v.answer =
        .error (.duplicate v.key second.name.value first.name.span second.name.span) ∧
      project.Asks v.before v.after [v.key] ∧
      ∃ depth, ∀ layout, v = visited { project with layout } depth v.key v.before := by
  obtain ⟨depth, hcoherent, -, ha, hmet⟩ := hv
  obtain ⟨depth, rfl⟩ := Nat.exists_eq_succ_of_ne_zero (Nat.ne_of_gt (ha.depth_pos hcoherent))
  have ho := opened_of_clash hc h
  have hvisit := project.visit_of_opened_eq_error depth hn ho
  rw [visited, hvisit] at hmet
  refine ⟨congrArg Visit.answer hmet, ?_, depth + 1, fun layout => ?_⟩
  · rw [show v.after = _ from congrArg Visit.after hmet]
    exact project.asks_of_opened_eq_error v.key v.before _
  · -- neither the text nor the items depend on where imports lead
    have hother := visit_of_opened_eq_error { project with layout } depth hn ho
    rw [visited, hother]
    exact hmet

theorem told_of_supplied {v : Visit} {items : List Item} (hv : v.Admitted project)
    (hn : v.before.registry.find? v.key = none) (ho : project.opened v.key = .ok items)
    (hs : project.Supplied v.key items) :
    (∀ earlier later, Clash Located.value (project.names v.key items) earlier later →
        v.answer = .error (.collision v.key later.value earlier.span later.span)) ∧
      (((project.names v.key items).map Located.value).Nodup →
        ∀ f, v.answer = .error f → f.isMisuse = true) := by
  obtain ⟨depth, hcoherent, hf, ha, hmet⟩ := hv
  obtain ⟨depth, rfl⟩ := Nat.exists_eq_succ_of_ne_zero (Nat.ne_of_gt (ha.depth_pos hcoherent))
  have hanswer : v.answer = (project.visit (depth + 1) v.key v.before).1 :=
    congrArg Visit.answer hmet
  obtain ⟨hfailure, hnone⟩ := project.visit_obstacle hcoherent hf ha hn ho
  rw [hanswer]
  refine ⟨fun earlier later h => hfailure _ (obstacle?_of_clash hs h), fun hnodup => hnone ?_⟩
  have hnone : (([] : List (Located String)).map Located.value).Nodup := List.nodup_nil
  exact (obstacle?_eq_none_iff hnone).2 ⟨hs, hnodup⟩

/-- **What a request for a module is answered with that introduces a name twice**, wherever in a run
it is made.  If two declarations have one name, the request fails with the first one that repeats a
name; nothing but the module itself has been asked for then, and it has not mattered where its
imports lead.  Otherwise, if the imports lead to modules that load and that export what is asked
for, the request fails with a collision exactly where a name is introduced twice, and tells of the
first name that repeats an earlier one. -/
theorem clashes_told (demands : List Demand) {v : Visit} {items : List Item}
    (hv : v ∈ Session.empty.trail (demands.map (project, ·)))
    (hn : v.before.registry.find? v.key = none) (hc : project.contents v.key = .ok items) :
    (¬ ((items.filterMap Item.declaration?).map (·.name.value)).Nodup →
      ∃ first second, Clash (·.name.value) (items.filterMap Item.declaration?) first second ∧
        v.answer =
          .error (.duplicate v.key second.name.value first.name.span second.name.span) ∧
        project.Asks v.before v.after [v.key] ∧
        ∃ depth, ∀ layout, v = visited { project with layout } depth v.key v.before) ∧
      (((items.filterMap Item.declaration?).map (·.name.value)).Nodup →
        (∀ i, .importing i ∈ items → ∃ target h s, i.key project.layout v.key = .ok target ∧
          project.obtain target .empty = (.ok h, s) ∧
          ∀ name ∈ i.requested, (s.registry.record h).exports.contains name) →
        ((∃ key name previous span, v.answer = .error (.collision key name previous span)) ↔
            ¬ ((project.names v.key items).map Located.value).Nodup) ∧
          ∀ key name previous span, v.answer = .error (.collision key name previous span) →
            ∃ earlier later, Clash Located.value (project.names v.key items) earlier later ∧
              key = v.key ∧ name = later.value ∧ previous = earlier.span ∧ span = later.span) := by
  have hadmitted := project.admitted_of_mem demands v hv
  refine ⟨fun hrepeated => ?_, fun hdeclared himports => ?_⟩
  · obtain ⟨first, second, h⟩ :=
      (Clash.nodup_or (fun d : Declaration => d.name.value) _).resolve_left hrepeated
    exact ⟨first, second, h, told_of_declared hadmitted hn hc h⟩
  · have hs : project.Supplied v.key items := by
      intro i hi
      obtain ⟨target, h, s, hk, hobtain, hrequested⟩ := himports i hi
      obtain ⟨hvalid, hexports⟩ := valid_of_obtain project hobtain
      exact ⟨target, hk, hvalid, hexports ▸ hrequested⟩
    obtain ⟨hclash, hnone⟩ :=
      told_of_supplied hadmitted hn (opened_eq_ok_iff.2 ⟨hc, hdeclared⟩) hs
    rcases Clash.nodup_or Located.value (project.names v.key items) with
      hnodup | ⟨earlier, later, h⟩
    · -- without a clash there is no collision to tell of
      have hfree : ∀ key name previous span,
          v.answer ≠ .error (.collision key name previous span) := fun _ _ _ _ he => by
        cases hnone hnodup _ he
      refine ⟨iff_of_false ?_ (not_not.2 hnodup), fun _ _ _ _ he => absurd he (hfree _ _ _ _)⟩
      rintro ⟨key, name, previous, span, he⟩
      exact hfree _ _ _ _ he
    · have htold := hclash earlier later h
      refine ⟨iff_of_true ⟨_, _, _, _, htold⟩ h.not_nodup, fun key name previous span he => ?_⟩
      cases htold.symm.trans he
      exact ⟨earlier, later, h, rfl, rfl, rfl, rfl⟩

/-- A module with a hidden declaration whose name another one has, and with an import that leads
nowhere; one with an alias that has the name of a declaration in front of it. -/
def echoes : Project :=
  { Project.ofTexts
      [("a.hash", "import(\"gone\"); x := 1; y := 2; x := 3;"),
        ("b.hash", "Q := 1; import(\"c\"); \x7bP: Q, o\x7d := import(\"c\");"),
        ("c.hash", "P := struct(); o := 2;")] with
    items := Program.itemsHiding fun _ => ["x"] }

/-- The repetition of the first module is told, and nothing but the module has been asked for.  That
of the second one is told after the third one has loaded. -/
theorem echoes_told :
    let a : Key := ⟨["p"], ["a.hash"]⟩
    let b : Key := ⟨["p"], ["b.hash"]⟩
    let v := echoes.visited echoes.depth a .empty
    let w := echoes.visited echoes.depth b v.after
    v.answer = .error (.duplicate a "x" ⟨16, 17⟩ ⟨32, 33⟩) ∧ echoes.Asks v.before v.after [a] ∧
      w.answer = .error (.collision b "Q" ⟨0, 1⟩ ⟨25, 26⟩) ∧
      w.after.registry.keys = [a, b, ⟨["p"], ["c.hash"]⟩] ∧
      ¬ ((echoes.names b ((echoes.contents b).toOption.getD [])).map Located.value).Nodup := by
  intro a b v w
  let c : Key := ⟨["p"], ["c.hash"]⟩
  let items : Key → List Item := fun key => (echoes.contents key).toOption.getD []
  let demands : List Demand := [.entry "a", .entry "b"]
  have hdemands : echoes.asked (.entry "a") = some a ∧ echoes.asked (.entry "b") = some b := by
    decide +kernel
  have htrail : Session.empty.trail (demands.map (echoes, ·)) =
      echoes.trail echoes.depth a .empty ++ (echoes.trail echoes.depth b v.after ++ []) := by
    simp only [demands, List.map, Session.trail, meet_asked, hdemands, Option.elim]
    rfl
  have hv : v ∈ Session.empty.trail (demands.map (echoes, ·)) := by
    rw [htrail]
    exact List.mem_append_left _ (echoes.visited_mem_trail _ _ _)
  have hw : w ∈ Session.empty.trail (demands.map (echoes, ·)) := by
    rw [htrail]
    exact List.mem_append_right _ (List.mem_append_left _ (echoes.visited_mem_trail _ _ _))
  have hcontents : echoes.contents a = .ok (items a) ∧ echoes.contents b = .ok (items b) := by
    decide +kernel
  obtain ⟨htwice, -⟩ := clashes_told demands hv rfl hcontents.1
  obtain ⟨-, honce⟩ := clashes_told demands hw (by decide +kernel) hcontents.2
  obtain ⟨-, -, -, -, hasks, -⟩ := htwice (by decide +kernel)
  refine ⟨by decide +kernel, hasks, ?_⟩
  let exports := ((echoes.obtain c .empty).2.registry.record ⟨0⟩).exports
  have himports : ∀ i ∈ (items b).filterMap Item.import?, i.key echoes.layout b = .ok c ∧
      ∀ name ∈ i.requested, exports.contains name := by
    decide +kernel
  obtain ⟨hcollision, -⟩ := honce (by decide +kernel) fun i hi => by
    obtain ⟨hk, hrequested⟩ := himports i (List.mem_filterMap.2 ⟨_, hi, rfl⟩)
    exact ⟨c, ⟨0⟩, _, hk, Prod.ext (by decide +kernel) rfl, hrequested⟩
  have hanswer : w.answer = .error (.collision b "Q" ⟨0, 1⟩ ⟨25, 26⟩) := by decide +kernel
  exact ⟨hanswer, by decide +kernel, hcollision.1 ⟨_, _, _, _, hanswer⟩⟩

end Project

end ModuleResolution
