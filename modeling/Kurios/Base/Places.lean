import Kurios.Base.Loop

/-!
Blocks that are reached by pointers, each at one place.

A place is where in a structure a block stands: under which root, and by which path.
`root p b` says that a root pointer at place `p` leads to `b`, `link b k` is the `k`th
pointer in block `b`, and `child p b k` is the place that this pointer leads to when `b`
stands at `p` (`none` when such a block holds no pointers). `Reaches p b` says that block
`b` is reached at place `p`.

The question is whether a block is reached at two places. `Labels owner` answers it: it
gives every block one place that agrees with all pointers. The lemmas say how the labels
follow the changes of a pointer structure; the new block of `addRoot` and `addLink` is one
without a label.
-/

namespace Kurios.Base

open Function Option

variable {P B K : Type*} {owner : B → Option P} {p : P} {b c : B}

/-- A block that gets a label is another one than those that have one. -/
theorem ne_of_label (hb : owner b = some p) (hc : owner c = none) : b ≠ c := by
  rintro rfl
  rw [hc] at hb
  cases hb

theorem update_of_label [DecidableEq B] (hc : owner c = none) (hb : owner b = some p)
    (x : Option P) : update owner c x b = some p :=
  (update_of_ne (ne_of_label hb hc) _ _).trans hb

/-- Block `b` is reached at place `p`. -/
inductive Reaches (root : P → B → Prop) (link : B → K → Option B) (child : P → B → K → Option P) :
    P → B → Prop
  | root {p : P} {b : B} (h : root p b) : Reaches root link child p b
  | link {p q : P} {b c : B} {k : K} (hp : Reaches root link child p b)
    (hq : child p b k = some q) (hc : link b k = some c) : Reaches root link child q c

/-- The places `owner` gives to blocks agree with the pointers. -/
structure Labels (root : P → B → Prop) (link : B → K → Option B) (child : P → B → K → Option P)
    (owner : B → Option P) : Prop where
  root : ∀ p b, root p b → owner b = some p
  link : ∀ p q b c k, owner b = some p → child p b k = some q → link b k = some c → owner c = some q

variable {root root' : P → B → Prop} {link link' : B → K → Option B}
  {child : P → B → K → Option P} {owner : B → Option P}

theorem Labels.owner_eq (h : Labels root link child owner) (hreach : Reaches root link child p b) :
    owner b = some p := by
  induction hreach with
  | root hroot => exact h.root _ _ hroot
  | link _ hq hc ih => exact h.link _ _ _ _ _ ih hq hc

open Classical in
/-- When no block is reached at two places, the places where blocks are reached are labels. -/
theorem exists_labels (h : ∀ p q b, Reaches root link child p b → Reaches root link child q b →
    p = q) : ∃ owner, Labels root link child owner ∧
      ∀ p b, owner b = some p → Reaches root link child p b := by
  have hspec : ∀ p b, (if hb : ∃ q, Reaches root link child q b then some hb.choose else none) =
      some p ↔ Reaches root link child p b := by
    intro p b
    split
    case isTrue hb =>
      constructor
      · intro heq
        exact some.inj heq ▸ hb.choose_spec
      · intro hp
        exact congrArg some (h _ _ b hb.choose_spec hp)
    case isFalse hb =>
    constructor
    · intro heq
      cases heq
    · intro hp
      exact absurd ⟨p, hp⟩ hb
  refine ⟨fun b => if hb : ∃ q, Reaches root link child q b then some hb.choose else none,
    ⟨?_, ?_⟩, fun p b => (hspec p b).mp⟩
  · intro p b hroot
    exact (hspec p b).mpr (.root hroot)
  · intro p q b c k howner hq hc
    exact (hspec q c).mpr (.link ((hspec p b).mp howner) hq hc)

namespace Labels

theorem mono (h : Labels root link child owner) (hroot : ∀ p b, root' p b → root p b) :
    Labels root' link child owner where
  root p b hp := h.root p b (hroot p b hp)
  link := h.link

section Grow

variable [DecidableEq B] {b t : B} {p q : P} {k : K}

/-- A root pointer to a block that has no label and no pointers. -/
theorem addRoot (h : Labels root link child owner) (hfree : owner b = none)
    (hemp : ∀ k, (child p b k).isSome → link b k = none) :
    Labels (fun p' b' => root p' b' ∨ (p' = p ∧ b' = b)) link child (update owner b (some p)) where
  root p' b' hroot := by
    rcases hroot with hroot | ⟨rfl, rfl⟩
    · exact update_of_label hfree (h.root p' b' hroot) _
    · exact update_self _ _ _
  link p' q' b' c k howner hq hc := by
    rcases update_cases howner with ⟨rfl, ⟨⟩⟩ | ⟨-, howner⟩
    · rw [hemp k (by rw [hq]; rfl)] at hc
      cases hc
    · exact update_of_label hfree (h.link p' q' b' c k howner hq hc) _

/-- A pointer in block `t` to a block that has no label and no pointers. -/
theorem addLink (h : Labels root link child owner) (ht : owner t = some p)
    (hq : child p t k = some q) (hfree : owner b = none)
    (hemp : ∀ k, (child q b k).isSome → link' b k = none) (hlink : link' t k = some b)
    (hother : ∀ b' p' k' c, owner b' = some p' → (child p' b' k').isSome → b' ≠ t ∨ k' ≠ k →
      link' b' k' = some c → link b' k' = some c) :
    Labels root link' child (update owner b (some q)) := by
  refine ⟨fun p' b' hroot => update_of_label hfree (h.root p' b' hroot) _,
    fun p' q' b' c k' howner hq' hc => ?_⟩
  rcases update_cases howner with ⟨rfl, ⟨⟩⟩ | ⟨-, howner⟩
  · rw [hemp k' (by rw [hq']; rfl)] at hc
    cases hc
  by_cases hcell : b' = t ∧ k' = k
  · obtain ⟨rfl, rfl⟩ := hcell
    rw [ht] at howner
    cases howner
    rw [hq] at hq'
    cases hq'
    rw [hlink] at hc
    cases hc
    exact update_self _ _ _
  · have hold := hother b' p' k' c howner (by rw [hq']; rfl) (by tauto) hc
    exact update_of_label hfree (h.link p' q' b' c k' howner hq' hold) _

end Grow

/-- Everything below some roots goes. -/
theorem drop (h : Labels root link child owner) (gone : P → Prop) [DecidablePred gone]
    (hclosed : ∀ p q b k, child p b k = some q → (gone q ↔ gone p))
    (hroot : ∀ p b, root' p b → root p b ∧ ¬ gone p) :
    Labels root' link child (fun b => (owner b).filter fun p => decide (¬ gone p)) where
  root p b hp := by
    obtain ⟨hold, hkept⟩ := hroot p b hp
    simp [Option.filter, h.root p b hold, hkept]
  link p q b c k howner hq hc := by
    obtain ⟨howner, hkept⟩ := filter_eq_some_iff.mp howner
    have hnew := h.link p q b c k howner hq hc
    have hgone : ¬ gone q := fun hgone => of_decide_eq_true hkept ((hclosed p q b k hq).mp hgone)
    simp [Option.filter, hnew, hgone]

end Labels

end Kurios.Base
