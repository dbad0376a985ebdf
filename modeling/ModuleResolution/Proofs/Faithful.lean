import ModuleResolution.Proofs.Blame
import ModuleResolution.Proofs.Depth

/-!
# Registries that are faithful to the project

Loading knows nothing of valid modules: it stops at the first module that fails, and a module that
is still being loaded fails at once.  What it says of the modules that have ended is right all the
same, because the modules being loaded import each other: if one of them is asked for again, none of
those from there on is valid, and each is to blame for the one that imports it.

* `Project.Faithful` : what a registry says of the modules that have ended is what the project says.
* `Project.Admits` : a module may be asked for next, the modules being loaded being what they are.
* `Project.Admits.root_of_mem_active` : asking for a module that is being loaded ends in a circle.
-/

namespace ModuleResolution

namespace Project

/-! ### Faithful registries -/

/-- What the registry says of the modules that have ended is what the project says. -/
structure Faithful (project : Project) (r : Registry) : Prop where
  tells : project.Tells r
  /-- The modules that are ready are valid. -/
  valid : ∀ {h m}, r.module? h = some m → m.state = .ready → project.Valid m.key
  /-- The failure of a module that has failed is what is wrong with it. -/
  root : ∀ {h m f}, r.module? h = some m → m.state = .failed f → project.Root m.key f.underlying

variable {project : Project} {r r' : Registry} {key target : Key} {h : Handle} {m : Module}

theorem faithful_empty : project.Faithful .empty :=
  ⟨⟨nofun, nofun⟩, nofun, nofun⟩

/-- More modules of which none is ready change nothing about those that are. -/
theorem Tells.mono (hr : project.Tells r) (hc : r.Coherent) (hp : r.modules <+: r'.modules)
    (hf : r'.finished = r.finished) : project.Tells r' := by
  have hrecord : ∀ t ∈ r.finished,
      ∃ m, r.module? t = some m ∧ r.record t = m ∧ r'.record t = m := by
    intro t ht
    obtain ⟨m, hm, -⟩ := hc.mem_finished.1 ht
    exact ⟨m, hm, Registry.record_eq hm, Registry.record_eq (Registry.module?_mono hp hm)⟩
  refine ⟨fun t ht => ?_, fun t ht => ?_⟩ <;> rw [hf] at ht <;>
    obtain ⟨m, hm, hrm, hrm'⟩ := hrecord t ht
  · have hs := hr.shows t ht
    rw [Shows, hrm] at hs
    rw [Shows, hrm', hc.outline_mono hp hm, hc.keyOf_mono hp ht, hs]
  · rw [hrm', hf, ← hrm]
    exact hr.closed t ht

theorem Faithful.started (hr : project.Faithful r) (hc : r.Coherent) (source : String) :
    project.Faithful (r.started key source) where
  tells := hr.tells.mono hc (List.prefix_append _ _) rfl
  valid := by
    intro h m hm hs
    rw [Registry.module?_started] at hm
    split_ifs at hm
    · cases hm; cases hs
    · exact hr.valid hm hs
  root := by
    intro h m f hm hs
    rw [Registry.module?_started] at hm
    split_ifs at hm
    · cases hm; cases hs
    · exact hr.root hm hs

section Ended

variable {outer : List Key} {f : Module → Module} {finished : List Handle}

theorem Tells.ended (hr : project.Tells r) (hc : r.Coherent) (hi : r.Innermost h m outer)
    (hk : ∀ m, (f m).key = m.key)
    (hready : (f m).state = .ready → r.outline (f m) = project.outline m.key ∧
      ∀ t ∈ (f m).handles, t ∈ r.finished)
    (hfin : finished = r.finished ++ if (f m).state = .ready then [h] else []) :
    project.Tells (r.ended h f finished) := by
  have hkey : (r.ended h f finished).keyOf = r.keyOf :=
    Registry.keyOf_update (r := r.leave) hk
  have hold : ∀ t ∈ r.finished, (r.ended h f finished).record t = r.record t := by
    intro t ht
    have hne : h ≠ t := by
      rintro rfl
      exact hc.not_mem_finished hi ht
    rw [Registry.record, Registry.module?_ended hi.module?, if_neg hne, Registry.record]
  have hnew : (r.ended h f finished).record h = f m :=
    Registry.record_eq (Registry.module?_ended_self hi.module? _ _)
  have hmem : ∀ t ∈ (r.ended h f finished).finished,
      t ∈ r.finished ∨ t = h ∧ (f m).state = .ready := by
    intro t ht
    change t ∈ finished at ht
    rw [hfin, List.mem_append] at ht
    refine ht.imp_right fun ht => ?_
    split_ifs at ht with hs
    · exact ⟨List.mem_singleton.1 ht, hs⟩
    · cases ht
  have hsub : ∀ t ∈ r.finished, t ∈ (r.ended h f finished).finished := by
    intro t ht
    change t ∈ finished
    rw [hfin]
    exact List.mem_append_left _ ht
  refine ⟨fun t ht => ?_, fun t ht => ?_⟩
  · rw [Shows, hkey, Registry.outline, hkey]
    rcases hmem t ht with ht | ⟨rfl, hs⟩
    · rw [hold t ht]
      exact hr.shows t ht
    · rw [hnew, Registry.keyOf_eq hi.module?]
      exact (hready hs).1
  · rcases hmem t ht with ht | ⟨rfl, hs⟩
    · rw [hold t ht]
      exact fun t' ht' => hsub t' (hr.closed t ht t' ht')
    · rw [hnew]
      exact fun t' ht' => hsub t' ((hready hs).2 t' ht')

/-- The module loaded innermost may end as the project says. -/
theorem Faithful.ended (hr : project.Faithful r) (hc : r.Coherent) (hi : r.Innermost h m outer)
    (hk : ∀ m, (f m).key = m.key)
    (hready : (f m).state = .ready → r.outline (f m) = project.outline m.key ∧
      ∀ t ∈ (f m).handles, t ∈ r.finished)
    (hvalid : (f m).state = .ready → project.Valid m.key)
    (hroot : ∀ failure, (f m).state = .failed failure → project.Root m.key failure.underlying)
    (hfin : finished = r.finished ++ if (f m).state = .ready then [h] else []) :
    project.Faithful (r.ended h f finished) where
  tells := hr.tells.ended hc hi hk hready hfin
  valid := by
    intro h' m' hm' hs
    rw [Registry.module?_ended hi.module?] at hm'
    split_ifs at hm'
    · cases hm'
      rw [hk]
      exact hvalid hs
    · exact hr.valid hm' hs
  root := by
    intro h' m' failure hm' hs
    rw [Registry.module?_ended hi.module?] at hm'
    split_ifs at hm'
    · cases hm'
      rw [hk]
      exact hroot failure hs
    · exact hr.root hm' hs

/-- The module loaded innermost may fail as the project says. -/
theorem Faithful.failed (hr : project.Faithful r) (hc : r.Coherent) (hi : r.Innermost h m outer)
    (hk : ∀ m, (f m).key = m.key) {failure : Failure} (hs : (f m).state = .failed failure)
    (hroot : project.Root m.key failure.underlying) :
    project.Faithful (r.ended h f r.finished) := by
  refine hr.ended hc hi hk ?_ ?_ ?_ ?_ <;> simp only [hs, reduceCtorEq, false_implies, if_false,
    List.append_nil, Module.State.failed.injEq]
  rintro _ rfl
  exact hroot

end Ended

/-! ### Modules being loaded -/

/-- The module `key` may wait for `target`: it imports it, and if `target` is not valid, it is to
blame. -/
def Awaits (project : Project) (key target : Key) : Prop :=
  project.Imports key target ∧ (¬ project.Valid target → project.Blames key target)

/-- The module `key` may be asked for with up to `depth` more modules being loaded at a time. -/
structure Admits (project : Project) (depth : Nat) (r : Registry) (key : Key) : Prop where
  /-- Each module being loaded waits for the next one, and the innermost for `key`. -/
  awaits : (r.active ++ [key]).IsChain project.Awaits
  /-- The modules being loaded have a text. -/
  served : ∀ k ∈ r.active, k ∈ project.loader.served
  room : project.loader.served.length < depth + r.active.length

theorem transGen_of_chain {step : Key → Key → Prop} {l : List Key}
    (h : (key :: l ++ [key]).IsChain step) : Relation.TransGen step key key := by
  cases l with
  | nil => exact .single (List.rel_of_isChain_cons_cons h)
  | cons b l =>
    have hc : (b :: (l ++ [key])).IsChain step := List.IsChain.of_cons h
    exact .head' (List.rel_of_isChain_cons_cons h)
      (List.relationReflTransGen_of_exists_isChain_cons _ hc (by simp))

/-- A way round that waits for itself is a circle, and each module on it is to blame for the one in
front of it. -/
theorem circle_of_awaits {l : List Key} (hl : (key :: l).Nodup)
    (h : (key :: l ++ [key]).IsChain project.Awaits) : Circle project.Blames key l := by
  have himports : (key :: l ++ [key]).IsChain project.Imports := h.imp fun _ _ ha => ha.1
  -- `key` imports itself, and what is wrong with it is wrong with those in front of it
  have hkey : ¬ project.Valid key := fun hv => hv.not_circular (transGen_of_chain himports)
  have hall : ∀ k ∈ key :: l ++ [key], ¬ project.Valid k := by
    intro k hk
    rcases List.mem_append.1 hk with hk | hk
    · exact himports.backwards_concat_induction (fun k => ¬ project.Valid k) _
        (fun _ _ hi hv hv' => hv (hv'.of_imports hi)) hkey k hk
    · rwa [List.mem_singleton.1 hk]
  exact ⟨hl, h.imp_of_mem_imp fun _ b _ hb ha => ha.2 (hall b hb)⟩

namespace Admits

variable {depth : Nat}

theorem top (hr : r.active = []) (key : Key) : project.Admits project.depth r key := by
  refine ⟨?_, ?_, ?_⟩
  · rw [hr]
    exact .singleton _
  · rw [hr]
    intro k hk
    cases hk
  · rw [hr, depth]
    exact Nat.lt_succ_self _

theorem step (ha : project.Admits (depth + 1) r key) (hr : r'.active = r.active ++ [key])
    (hkey : key ∈ project.loader.served) (ht : project.Awaits key target) :
    project.Admits depth r' target := by
  refine ⟨?_, ?_, ?_⟩
  · rw [hr, List.append_assoc]
    exact List.isChain_split.2 ⟨ha.awaits, List.isChain_pair.2 ht⟩
  · rw [hr]
    intro k hk
    rcases List.mem_append.1 hk with hk | hk
    · exact ha.served k hk
    · rwa [List.mem_singleton.1 hk]
  · have := ha.room
    rw [hr, List.length_append, List.length_singleton]
    omega

theorem depth_pos (ha : project.Admits depth r key) (hr : r.Coherent) : 0 < depth :=
  HasRoom.depth_pos ⟨ha.served, ha.room⟩ hr

/-- **Asking for a module that is being loaded ends in a circle.** -/
theorem root_of_mem_active (ha : project.Admits depth r key) (hr : r.Coherent)
    (hkey : key ∈ r.active) : project.Root key (.circular key (r.chain key)) := by
  -- the chain starts where `key` stands among the modules being loaded
  obtain ⟨u, v, huv⟩ := List.append_of_mem hkey
  have hnodup := hr.active_nodup
  have hchain := Registry.chain_eq huv hnodup
  rw [huv, List.nodup_append] at hnodup
  have hawaits := ha.awaits
  rw [huv, List.append_assoc] at hawaits
  rw [hchain]
  exact ⟨key, .refl, .circular (circle_of_awaits hnodup.2.1 hawaits.right_of_append)⟩

end Admits

end Project

end ModuleResolution
