import Mathlib.Logic.Relation

/-!
# Depth-first traversals

A depth-first traversal of a graph goes through some nodes one after the other.  A node that has
been seen is passed over; any other is entered, its successors are traversed, and it is left again.

* `Traversal` : which nodes are entered, in which order (the preorder), and in which order they are
  left (the postorder).
* `Traversal.unique` : a graph has one traversal from given nodes.
* `Traversal.mem_iff` : a traversal enters the nodes that can be reached.
-/

namespace ModuleResolution

/-- `Traversal next seen todo pre post`: the traversal that has seen the nodes `seen` and goes
through the nodes `todo` enters the nodes `pre` and leaves the nodes `post`, in this order; `next`
are the successors of a node. -/
inductive Traversal {α : Type} (next : α → List α) :
    (seen todo pre post : List α) → Prop
  /-- There are no more nodes. -/
  | done {seen} : Traversal next seen [] [] []
  /-- A node is passed over. -/
  | seen {seen k todo pre post} (hk : k ∈ seen) (htodo : Traversal next seen todo pre post) :
    Traversal next seen (k :: todo) pre post
  /-- A node is entered, its successors are traversed, and it is left. -/
  | enter {seen k todo below below' pre post} (hk : k ∉ seen)
    (hbelow : Traversal next (seen ++ [k]) (next k) below below')
    (htodo : Traversal next (seen ++ k :: below) todo pre post) :
    Traversal next seen (k :: todo) (k :: (below ++ pre)) (below' ++ k :: post)

namespace Traversal

variable {α : Type} {next : α → List α} {seen todo todo' pre pre' post post' : List α} {k : α}

/-- **A graph has one depth-first traversal from given nodes.** -/
theorem unique (h : Traversal next seen todo pre post) (h' : Traversal next seen todo pre' post') :
    pre = pre' ∧ post = post' := by
  induction h generalizing pre' post' with
  | done =>
    cases h'
    exact ⟨rfl, rfl⟩
  | seen hk _ ih =>
    cases h' with
    | seen _ htodo => exact ih htodo
    | enter hk' => exact absurd hk hk'
  | enter hk _ _ ihbelow ihtodo =>
    cases h' with
    | seen hk' => exact absurd hk' hk
    | enter _ hbelow htodo =>
      obtain ⟨rfl, rfl⟩ := ihbelow hbelow
      obtain ⟨rfl, rfl⟩ := ihtodo htodo
      exact ⟨rfl, rfl⟩

theorem append (h : Traversal next seen todo pre post)
    (h' : Traversal next (seen ++ pre) todo' pre' post') :
    Traversal next seen (todo ++ todo') (pre ++ pre') (post ++ post') := by
  induction h with
  | done => simpa using h'
  | seen hk _ ih => exact .seen hk (ih h')
  | enter hk hbelow _ _ ih =>
    have := Traversal.enter hk hbelow (ih (by simpa using h'))
    simpa using this

theorem single (hk : k ∉ seen) (h : Traversal next (seen ++ [k]) (next k) pre post) :
    Traversal next seen [k] (k :: pre) (post ++ [k]) := by
  simpa using Traversal.enter hk h .done

/-- The nodes that are entered are those that are left. -/
theorem perm (h : Traversal next seen todo pre post) : pre.Perm post := by
  induction h with
  | done => exact .nil
  | seen _ _ ih => exact ih
  | enter _ _ _ ihbelow ihtodo =>
    exact ((ihbelow.append ihtodo).cons _).trans List.perm_middle.symm

/-- A traversal enters nodes only that can be reached. -/
theorem reachable (h : Traversal next seen todo pre post) (hk : k ∈ pre) :
    ∃ root ∈ todo, Relation.ReflTransGen (fun a b => b ∈ next a) root k := by
  induction h with
  | done => cases hk
  | seen _ _ ih =>
    obtain ⟨root, hroot, hpath⟩ := ih hk
    exact ⟨root, List.mem_cons_of_mem _ hroot, hpath⟩
  | @enter _ k' _ _ _ _ _ _ _ _ ihbelow ihtodo =>
    rw [List.mem_cons, List.mem_append] at hk
    rcases hk with rfl | hk | hk
    · exact ⟨k, List.mem_cons_self, .refl⟩
    · obtain ⟨root, hroot, hpath⟩ := ihbelow hk
      exact ⟨k', List.mem_cons_self, .head hroot hpath⟩
    · obtain ⟨root, hroot, hpath⟩ := ihtodo hk
      exact ⟨root, List.mem_cons_of_mem _ hroot, hpath⟩

theorem subset (h : Traversal next seen todo pre post) : todo ⊆ seen ++ pre := by
  induction h with
  | done => exact List.nil_subset _
  | seen hk _ ih => exact List.cons_subset.2 ⟨List.mem_append_left _ hk, ih⟩
  | enter _ _ _ _ ih =>
    refine List.cons_subset.2 ⟨by simp, fun x hx => ?_⟩
    simpa using ih hx

theorem next_subset (h : Traversal next seen todo pre post) (hk : k ∈ pre) :
    next k ⊆ seen ++ pre := by
  induction h with
  | done => cases hk
  | seen _ _ ih => exact ih hk
  | @enter seen k' _ below _ pre _ _ hbelow htodo ihbelow ihtodo =>
    have hsub : (seen ++ [k']) ++ below ⊆ seen ++ k' :: (below ++ pre) := by
      intro x hx
      simp only [List.mem_append, List.mem_cons, List.not_mem_nil, or_false] at hx ⊢
      rcases hx with (hx | hx) | hx
      · exact .inl hx
      · exact .inr (.inl hx)
      · exact .inr (.inr (.inl hx))
    rw [List.mem_cons, List.mem_append] at hk
    rcases hk with rfl | hk | hk
    · exact List.Subset.trans hbelow.subset hsub
    · exact List.Subset.trans (ihbelow hk) hsub
    · simpa using ihtodo hk

/-- **A traversal from one node enters exactly the nodes that can be reached from it.** -/
theorem mem_iff {root : α} (h : Traversal next [] [root] pre post) :
    k ∈ pre ↔ Relation.ReflTransGen (fun a b => b ∈ next a) root k := by
  constructor
  · intro hk
    obtain ⟨root', hroot, hpath⟩ := h.reachable hk
    rwa [List.mem_singleton.1 hroot] at hpath
  · intro hpath
    induction hpath with
    | refl => exact h.subset (List.mem_singleton_self _)
    | tail _ hstep ih => exact h.next_subset ih hstep

end Traversal

end ModuleResolution
