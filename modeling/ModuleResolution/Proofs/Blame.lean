import Mathlib.Data.List.Chain
import Mathlib.Data.List.Rotate
import ModuleResolution.Proofs.Validity

/-!
# What is to blame

If what is wrong with a module is that one of its imports is not valid, that import is to blame, and
what is wrong with it is so in turn.  Each module has one import to blame at most, so that there is
one way to go on from it: it ends at a failure, or it goes round in a circle.

* `Circle` : a way along a relation that goes round.
* `Project.Root` : the failure at the end of the way from a module, or one that tells its circle.
* `Project.Root.akin` : a module has one such failure, up to where the circle is entered.
-/

namespace ModuleResolution

/-! ### Circles -/

section Circle

variable {α : Type} {step step' : α → α → Prop} {a b : α} {l l' : List α}

/-- The steps from `a` lead through `l` back to `a`, and meet nothing twice. -/
structure Circle (step : α → α → Prop) (a : α) (l : List α) : Prop where
  nodup : (a :: l).Nodup
  chain : (a :: l ++ [a]).IsChain step

/-- Two ways from one place go together as long as both go on. -/
theorem prefix_of_chains (hu : Relator.RightUnique step) (h : (a :: l).IsChain step)
    (h' : (a :: l').IsChain step) : l <+: l' ∨ l' <+: l := by
  induction l generalizing a l' with
  | nil => exact .inl List.nil_prefix
  | cons b l ih =>
    cases l' with
    | nil => exact .inr List.nil_prefix
    | cons b' l' =>
      rw [List.isChain_cons_cons] at h h'
      obtain rfl := hu h.1 h'.1
      simpa only [List.prefix_cons_inj] using ih h.2 h'.2

namespace Circle

theorem mono (h : Circle step a l) (hstep : ∀ a b, step a b → step' a b) : Circle step' a l :=
  ⟨h.nodup, h.chain.imp hstep⟩

theorem exists_step (h : Circle step a l) : ∃ b ∈ a :: l, step a b := by
  have hc := h.chain
  cases l with
  | nil => exact ⟨a, List.mem_cons_self, List.rel_of_isChain_cons_cons hc⟩
  | cons b l => exact ⟨b, by simp, List.rel_of_isChain_cons_cons hc⟩

theorem rotated (h : Circle step a l) (hb : b ∈ a :: l) :
    ∃ l', Circle step b l' ∧ (a :: l).IsRotated (b :: l') := by
  rcases List.mem_cons.1 hb with rfl | hb
  · exact ⟨l, h, .refl _⟩
  · obtain ⟨u, v, rfl⟩ := List.append_of_mem hb
    have hrot : (a :: u ++ b :: v).IsRotated (b :: v ++ a :: u) := List.isRotated_append
    refine ⟨v ++ a :: u, ⟨hrot.nodup_iff.1 h.nodup, ?_⟩, hrot⟩
    -- the circle is cut at `b` and put together again at `a`
    have hc : (a :: u ++ b :: (v ++ [a])).IsChain step := by simpa using h.chain
    rw [List.isChain_split] at hc
    have hc' : (b :: v ++ a :: (u ++ [b])).IsChain step := List.isChain_split.2 ⟨hc.2, hc.1⟩
    simpa using hc'

variable (hu : Relator.RightUnique step)

include hu

/-- Where each place has one step, a circle is given by one of its places. -/
theorem unique (h : Circle step a l) (h' : Circle step a l') : l = l' := by
  -- the shorter way ends at `a`, which the longer one meets at its end only
  have hshorter : ∀ {l l'}, Circle step a l → Circle step a l' → l ++ [a] <+: l' ++ [a] →
      l = l' := by
    intro l l' h h' hp
    rcases List.prefix_concat_iff.1 hp with he | hp
    · exact List.append_cancel_right he
    · have hmem : a ∈ l' := hp.subset (by simp)
      exact absurd hmem (List.nodup_cons.1 h'.nodup).1
  rcases prefix_of_chains hu h.chain h'.chain with hp | hp
  · exact hshorter h h' hp
  · exact (hshorter h' h hp).symm

/-- Where each place has one step, no way leaves a circle. -/
theorem mem_of_reachable (h : Circle step a l) (hr : Relation.ReflTransGen step a b) :
    b ∈ a :: l := by
  induction hr with
  | refl => exact List.mem_cons_self
  | tail _ hs ih =>
    obtain ⟨l', hc, hrot⟩ := h.rotated ih
    obtain ⟨c, hmem, hs'⟩ := hc.exists_step
    rw [hu hs hs']
    exact hrot.mem_iff.2 hmem

end Circle

end Circle

/-- Two failures are akin if they are the same, or if they tell one circle of `imports`, entered at
two of its modules. -/
inductive Failure.Akin (imports : Key → Key → Prop) : Failure → Failure → Prop where
  | same (failure : Failure) : Akin imports failure failure
  | circular {key key' : Key} {l l' : List Key} (circle : Circle imports key l)
    (circle' : Circle imports key' l') (rotated : (key :: l).IsRotated (key' :: l')) :
    Akin imports (.circular key (key :: l ++ [key])) (.circular key' (key' :: l' ++ [key']))

theorem Failure.Akin.symm {imports : Key → Key → Prop} {f f' : Failure}
    (h : Akin imports f f') : Akin imports f' f := by
  cases h with
  | same => exact .same _
  | circular circle circle' rotated => exact .circular circle' circle rotated.symm

/-! ### Roots -/

namespace Project

variable (project : Project)

/-- What is wrong with the module `key` is that `target`, which it imports, is not valid. -/
def Blames (key target : Key) : Prop := project.verdict key = some (.target target)

/-- A way along those to blame ends at the module `last`, with this failure. -/
inductive Ends (last : Key) : Failure → Prop where
  /-- Something in the module itself is wrong. -/
  | failure {failure : Failure} (verdict : project.verdict last = some (.failure failure)) :
    Ends last failure.underlying
  /-- The module is on a circle. -/
  | circular {l : List Key} (circle : Circle project.Blames last l) :
    Ends last (.circular last (last :: l ++ [last]))

/-- What is wrong with a module comes from this failure. -/
def Root (key : Key) (failure : Failure) : Prop :=
  ∃ last, Relation.ReflTransGen project.Blames key last ∧ project.Ends last failure

variable {project} {key target last last' : Key} {f f' : Failure}

theorem blames_rightUnique : Relator.RightUnique project.Blames := by
  intro key target target' h h'
  cases h.symm.trans h'
  rfl

theorem target_of_obstacle? {names : List (Located String)} {items : List Item}
    (h : project.obstacle? key names items = some (.target target)) :
    target ∈ project.targets key items ∧ ¬ project.Valid target := by
  induction items generalizing names with
  | nil => cases h
  | cons item rest ih =>
    cases item with
    | declaration d =>
      obtain ⟨names', -, h⟩ := Obstacle.behind_eq_target_iff.1 h
      exact ih h
    | importing i =>
      obtain ⟨target', hk, h⟩ := Obstacle.behind_eq_target_iff.1 h
      rw [targets_importing hk, List.mem_cons]
      split_ifs at h with hv
      · obtain ⟨names', -, h⟩ := Obstacle.behind_eq_target_iff.1 h
        exact ⟨.inr (ih h).1, (ih h).2⟩
      · cases h
        exact ⟨.inl rfl, hv⟩

theorem Blames.spec (h : project.Blames key target) :
    project.Imports key target ∧ ¬ project.Valid target := by
  obtain ⟨items, ho, h⟩ := Obstacle.behind_eq_target_iff.1 h
  rcases Option.or_eq_some_iff.1 h with h | ⟨-, h⟩
  · rw [Imports, imports, itemsAt_of_opened ho]
    exact target_of_obstacle? h
  · obtain ⟨failure, -, h⟩ := Option.map_eq_some_iff.1 h
    cases h

theorem Root.of_verdict (h : project.verdict key = some (.failure f)) :
    project.Root key f.underlying :=
  ⟨key, .refl, .failure h⟩

theorem Root.of_blames (h : project.Root target f) (hb : project.Blames key target) :
    project.Root key f := by
  obtain ⟨last, hr, he⟩ := h
  exact ⟨last, .head hb hr, he⟩

theorem Root.not_valid (h : project.Root key f) : ¬ project.Valid key := by
  rw [← verdict_eq_none_iff]
  intro hv
  obtain ⟨last, hr, he⟩ := h
  rcases Relation.ReflTransGen.cases_head hr with rfl | ⟨target, hb, -⟩
  · cases he with
    | failure verdict => cases hv.symm.trans verdict
    | circular circle =>
      obtain ⟨target, -, hb⟩ := circle.exists_step
      cases hv.symm.trans hb
  · cases hv.symm.trans hb

theorem Ends.akin_of_reachable (hr : Relation.ReflTransGen project.Blames last last')
    (h : project.Ends last f) (h' : project.Ends last' f') : Failure.Akin project.Imports f f' := by
  have himports : ∀ a b, project.Blames a b → project.Imports a b := fun _ _ hb => hb.spec.1
  cases h with
  | failure verdict =>
    rcases Relation.ReflTransGen.cases_head hr with rfl | ⟨target, hb, -⟩
    · cases h' with
      | failure verdict' =>
        cases verdict.symm.trans verdict'
        exact .same _
      | circular circle =>
        obtain ⟨target, -, hb⟩ := circle.exists_step
        cases verdict.symm.trans hb
    · cases verdict.symm.trans hb
  | circular circle =>
    -- the other way ends on the same circle, which may be entered there
    have hmem := circle.mem_of_reachable blames_rightUnique hr
    obtain ⟨l', circle', hrot⟩ := circle.rotated hmem
    cases h' with
    | failure verdict =>
      obtain ⟨target, -, hb⟩ := circle'.exists_step
      cases verdict.symm.trans hb
    | circular circle'' =>
      obtain rfl := circle'.unique blames_rightUnique circle''
      exact .circular (circle.mono himports) (circle'.mono himports) hrot

/-- **What is wrong with a module comes from one failure**, up to where a circle is entered. -/
theorem Root.akin (h : project.Root key f) (h' : project.Root key f') :
    Failure.Akin project.Imports f f' := by
  obtain ⟨last, hr, he⟩ := h
  obtain ⟨last', hr', he'⟩ := h'
  rcases Relation.ReflTransGen.total_of_right_unique blames_rightUnique hr hr' with hl | hl
  · exact he.akin_of_reachable hl he'
  · exact (he'.akin_of_reachable hl he).symm

end Project

end ModuleResolution
