import Kurios.Base.DList

/-!
Trees of nodes with a pointer to the first child and to both siblings.

`Lists first next d c` follows the pointers: `c` is met in the list of children of `d`.
`Forest` says, with the lists of children as `kids`, that these are doubly linked lists of
live nodes which point back to the node that lists them. A node can be pushed in front of a
list (`Forest.push`), taken out of one (`Forest.remove`), added and released.

A forest may have cycles. What a root reaches has none, if the root has no parent
(`Forest.acyclic`): the way up from a node is unique, and it ends at the root.
-/

namespace Kurios.Base

open Function List

variable {α : Type}

/-- `c` is met along the list of children of `d`. -/
inductive Lists (first next : α → Option α) (d : α) : α → Prop
  | first {c : α} (h : first d = some c) : Lists first next d c
  | next {c c' : α} (h : Lists first next d c) (hnext : next c = some c') : Lists first next d c'

/-- The lists of children of live nodes. -/
structure Forest (live : Finset α) (first next prev parent : α → Option α) (kids : α → List α) :
    Prop where
  siblings : ∀ d ∈ live, DList next prev (kids d)
  first_eq : ∀ d ∈ live, first d = (kids d).head?
  parent_eq : ∀ d ∈ live, ∀ c ∈ kids d, parent c = some d
  kids_live : ∀ d ∈ live, ∀ c ∈ kids d, c ∈ live

namespace Forest

variable {live live' : Finset α} {first next prev parent first' next' prev' parent' : α → Option α}
  {kids kids' : α → List α} {c d d' : α}

section

variable (h : Forest live first next prev parent kids)
include h

/-- A node is in one list at most. -/
theorem kids_disjoint (hd : d ∈ live) (hd' : d' ∈ live) (hc : c ∈ kids d) (hc' : c ∈ kids d') :
    d = d' := by
  have hpar := h.parent_eq d hd c hc
  rw [h.parent_eq d' hd' c hc'] at hpar
  exact (Option.some.inj hpar).symm

theorem lists_iff (hd : d ∈ live) : Lists first next d c ↔ c ∈ kids d := by
  constructor
  · intro hlists
    induction hlists with
    | first hfirst =>
      rw [h.first_eq d hd] at hfirst
      exact mem_of_head? hfirst
    | next _ hnext ih => exact (h.siblings d hd).next_mem ih hnext
  intro hmem
  refine (h.siblings d hd).links.forall_of_walk (fun c hc => ?_)
    (fun c c' hc hnext => ?_) c hmem
  · exact .first ((h.first_eq d hd).trans hc)
  · exact .next hc hnext

/-! ### Changes -/

/-- Lists of nodes whose pointers stay. -/
theorem frame (hsub : ∀ d ∈ live', d ∈ live ∧ ∀ c ∈ kids d, c ∈ live')
    (hfirst : ∀ d ∈ live', first' d = first d) (hnext : ∀ d ∈ live', next' d = next d)
    (hprev : ∀ d ∈ live', prev' d = prev d) (hpar : ∀ d ∈ live', parent' d = parent d) :
    Forest live' first' next' prev' parent' kids where
  siblings d hd := by
    obtain ⟨hlive, hkids⟩ := hsub d hd
    exact (h.siblings d hlive).frame (fun c hc => hnext c (hkids c hc))
      fun c hc => hprev c (hkids c hc)
  first_eq d hd := (hfirst d hd).trans (h.first_eq d (hsub d hd).1)
  parent_eq d hd c hc := by
    obtain ⟨hlive, hkids⟩ := hsub d hd
    exact (hpar c (hkids c hc)).trans (h.parent_eq d hlive c hc)
  kids_live d hd c hc := (hsub d hd).2 c hc

end

variable [DecidableEq α]

section

variable (h : Forest live first next prev parent kids)
include h

/-- A new node without children. -/
theorem add (hd : d ∉ live) (hfirst : first' d = none) (hfirst' : ∀ e ∈ live, first' e = first e)
    (hnext : ∀ e ∈ live, next' e = next e) (hprev : ∀ e ∈ live, prev' e = prev e)
    (hpar : ∀ e ∈ live, parent' e = parent e) :
    Forest (insert d live) first' next' prev' parent' (update kids d []) := by
  have hne : ∀ e ∈ live, e ≠ d := by
    rintro e he rfl
    exact hd he
  have hold : Forest live first' next' prev' parent' kids :=
    h.frame (fun e he => ⟨he, h.kids_live e he⟩) hfirst' hnext hprev hpar
  refine ⟨fun e he => ?_, fun e he => ?_, fun e he c hc => ?_, fun e he c hc => ?_⟩
  all_goals rcases Finset.mem_insert.mp he with rfl | he
  · rw [update_self]
    exact DList.nil
  · rw [update_of_ne (hne e he)]
    exact hold.siblings e he
  · rw [update_self]
    exact hfirst
  · rw [update_of_ne (hne e he)]
    exact hold.first_eq e he
  · rw [update_self] at hc
    cases hc
  · rw [update_of_ne (hne e he)] at hc
    exact hold.parent_eq e he c hc
  · rw [update_self] at hc
    cases hc
  · rw [update_of_ne (hne e he)] at hc
    exact Finset.mem_insert_of_mem (hold.kids_live e he c hc)

/-- A node that is in no list becomes the first child of `d`. -/
theorem push (hd : d ∈ live) (hc : c ∈ live) (hnot : ∀ e ∈ live, c ∉ kids e)
    (hfirst : first' = update first d (some c)) (hnext : next' = update next c (first d))
    (hprev : ∀ y, prev' y = if y = c then none else if first d = some y then some c else prev y)
    (hpar : parent' = update parent c (some d)) :
    Forest live first' next' prev' parent' (update kids d (c :: kids d)) := by
  have hne : ∀ e ∈ live, ∀ y ∈ kids e, y ≠ c := by
    rintro e he y hy rfl
    exact hnot e he hy
  refine ⟨fun e he => ?_, fun e he => ?_, fun e he y hy => ?_, fun e he y hy => ?_⟩
  all_goals by_cases hed : e = d
  · subst hed
    rw [update_self]
    apply (h.siblings e he).push (hnot e he)
    · rw [hprev, if_pos rfl]
    · rw [hnext, update_self, h.first_eq e he]
    · intro y hy
      rw [hnext, update_of_ne (hne e he y hy)]
    · intro y hy
      rw [hprev, if_neg (hne e he y hy), h.first_eq e he]
  · rw [update_of_ne hed]
    apply (h.siblings e he).frame <;> intro y hy
    · rw [hnext, update_of_ne (hne e he y hy)]
    -- The first child of `d` is in no other list.
    rw [hprev, if_neg (hne e he y hy), if_neg]
    intro hfirst
    rw [h.first_eq d hd] at hfirst
    exact hed (h.kids_disjoint he hd hy (mem_of_head? hfirst))
  · subst hed
    rw [hfirst, update_self, update_self]
    rfl
  · rw [hfirst, update_of_ne hed, update_of_ne hed]
    exact h.first_eq e he
  · subst hed
    rw [update_self] at hy
    rcases mem_cons.mp hy with rfl | hy
    · rw [hpar, update_self]
    · rw [hpar, update_of_ne (hne e he y hy)]
      exact h.parent_eq e he y hy
  · rw [update_of_ne hed] at hy
    rw [hpar, update_of_ne (hne e he y hy)]
    exact h.parent_eq e he y hy
  · subst hed
    rw [update_self] at hy
    rcases mem_cons.mp hy with rfl | hy
    · exact hc
    · exact h.kids_live e he y hy
  · rw [update_of_ne hed] at hy
    exact h.kids_live e he y hy

/-- A child of `d` leaves the list. -/
theorem remove (hd : d ∈ live) (hc : c ∈ kids d)
    (hfirst : ∀ e, first' e = if e = d ∧ prev c = none then next c else first e)
    (hnext : ∀ y, y ≠ c → next' y = if prev c = some y then next c else next y)
    (hprev : ∀ y, y ≠ c → prev' y = if next c = some y then prev c else prev y)
    (hpar : ∀ y, y ≠ c → parent' y = parent y) :
    Forest live first' next' prev' parent' (update kids d ((kids d).erase c)) ∧
      ∀ e ∈ live, c ∉ update kids d ((kids d).erase c) e := by
  have hlist := h.siblings d hd
  have hother : ∀ e ∈ live, e ≠ d → ∀ y ∈ kids e, y ∉ kids d := fun e he hed y hy hy' =>
    hed (h.kids_disjoint he hd hy hy')
  have hgone : ∀ e ∈ live, c ∉ update kids d ((kids d).erase c) e := by
    intro e he
    by_cases hed : e = d
    · subst hed
      rw [update_self]
      exact fun hmem => (hlist.nodup.mem_erase_iff.mp hmem).1 rfl
    · rw [update_of_ne hed]
      exact fun hmem => hother e he hed c hmem hc
  have hne : ∀ e ∈ live, ∀ y ∈ update kids d ((kids d).erase c) e, y ≠ c := by
    rintro e he y hy rfl
    exact hgone e he hy
  refine ⟨⟨fun e he => ?_, fun e he => ?_, fun e he y hy => ?_, fun e he y hy => ?_⟩, hgone⟩
  · by_cases hed : e = d
    · subst hed
      rw [update_self]
      exact hlist.remove hc (fun y _ => hnext y) fun y _ => hprev y
    have hkids : ∀ y ∈ kids e, y ≠ c := by
      rintro y hy rfl
      exact hother e he hed y hy hc
    rw [update_of_ne hed]
    -- The neighbours of `c` are in the list of `d`.
    apply (h.siblings e he).frame <;> intro y hy
    · rw [hnext y (hkids y hy), if_neg]
      exact fun heq => hother e he hed y hy (hlist.prev_mem hc heq)
    · rw [hprev y (hkids y hy), if_neg]
      exact fun heq => hother e he hed y hy (hlist.next_mem hc heq)
  · by_cases hed : e = d
    · subst hed
      rw [update_self, hlist.head?_erase hc, hfirst, ← h.first_eq e he]
      simp
    · rw [update_of_ne hed, hfirst, if_neg (fun hboth => hed hboth.1)]
      exact h.first_eq e he
  · have hmem : y ∈ kids e := by
      by_cases hed : e = d
      · subst hed
        rw [update_self] at hy
        exact mem_of_mem_erase hy
      · rwa [update_of_ne hed] at hy
    rw [hpar y (hne e he y hy)]
    exact h.parent_eq e he y hmem
  by_cases hed : e = d
  · subst hed
    rw [update_self] at hy
    exact h.kids_live e he y (mem_of_mem_erase hy)
  · rw [update_of_ne hed] at hy
    exact h.kids_live e he y hy

end

/-! ### What a root reaches -/

section Reach

variable {root : α}

omit [DecidableEq α]

section

variable (h : Forest live first next prev parent kids)
include h

theorem reach_live (hroot : root ∈ live)
    (hreach : Relation.ReflTransGen (Lists first next) root d) : d ∈ live := by
  induction hreach with
  | refl => exact hroot
  | tail _ hlists ih => exact h.kids_live _ ih _ ((h.lists_iff ih).mp hlists)

/-- Nothing that a root without a parent reaches is below itself. -/
theorem acyclic (hroot : root ∈ live) (hpar : parent root = none)
    (hreach : Relation.ReflTransGen (Lists first next) root d) :
    ¬ Relation.TransGen (Lists first next) d d := by
  have hup : ∀ {e c}, e ∈ live → Lists first next e c → parent c = some e := fun he hlists =>
    h.parent_eq _ he _ ((h.lists_iff he).mp hlists)
  -- Whatever is above a reachable node, below itself or not, is reached itself.
  induction hreach with
  | refl =>
    intro hcycle
    obtain ⟨e, hpath, hlast⟩ := Relation.TransGen.tail'_iff.mp hcycle
    rw [hup (h.reach_live hroot hpath) hlast] at hpar
    cases hpar
  | @tail e c hreach hlists ih =>
    intro hcycle
    have he := h.reach_live hroot hreach
    obtain ⟨e', hpath, hlast⟩ := Relation.TransGen.tail'_iff.mp hcycle
    have hc := h.kids_live e he c ((h.lists_iff he).mp hlists)
    have he' := h.reach_live hc hpath
    -- The two last steps come from the one parent of `c`.
    obtain rfl : e = e' := by
      have hparent' := hup he hlists
      rw [hup he' hlast] at hparent'
      exact (Option.some.inj hparent').symm
    exact ih (Relation.TransGen.head' hlists hpath)

end

end Reach

end Forest

end Kurios.Base
