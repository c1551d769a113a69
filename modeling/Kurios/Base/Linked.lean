import Mathlib

/-!
Chains in a table of successors.

`next c` is the number that the table holds for `c`; it is the successor of `c` if it is
`valid`, and a mark that the chain ends otherwise. `Linked c cs e` says that the chain from
`c` consists of `cs` and ends with the mark `e`. A chain with an end has no cycle
(`Linked.nodup`).
-/

namespace Kurios.Base

open List Finset

inductive Linked (next : Nat → Nat) (valid : Nat → Prop) : Nat → List Nat → Nat → Prop
  | nil {c : Nat} (h : ¬ valid c) : Linked next valid c [] c
  | cons {c e : Nat} {cs : List Nat} (h : valid c) (hrest : Linked next valid (next c) cs e) :
    Linked next valid c (c :: cs) e

namespace Linked

variable {next next' : Nat → Nat} {valid : Nat → Prop} {c d e e' : Nat} {cs ds : List Nat}

section

variable (h : Linked next valid c cs e)
include h

theorem valid_of_mem (hd : d ∈ cs) : valid d := by
  induction h with
  | nil => cases hd
  | cons hc _ ih =>
    rcases mem_cons.mp hd with rfl | hd
    · exact hc
    · exact ih hd

theorem unique (h' : Linked next valid c ds e') : cs = ds ∧ e = e' := by
  induction h generalizing ds with
  | nil hc =>
    cases h' with
    | nil => exact ⟨rfl, rfl⟩
    | cons hc' _ => exact absurd hc' hc
  | cons hc _ ih =>
    cases h' with
    | nil hc' => exact absurd hc hc'
    | cons _ hrest' =>
      obtain ⟨rfl, rfl⟩ := ih hrest'
      exact ⟨rfl, rfl⟩

/-- The chain from a member is a part of the chain. -/
theorem suffix (hd : d ∈ cs) : ∃ ds, d :: ds <:+ cs ∧ Linked next valid d (d :: ds) e := by
  induction h with
  | nil => cases hd
  | @cons c e cs hc hrest ih =>
    rcases mem_cons.mp hd with rfl | hd
    · exact ⟨cs, suffix_refl _, .cons hc hrest⟩
    · obtain ⟨ds, hsuffix, hlinked⟩ := ih hd
      exact ⟨ds, hsuffix.trans (suffix_cons _ _), hlinked⟩

theorem nodup : cs.Nodup := by
  induction h with
  | nil => exact nodup_nil
  | @cons c e cs hc hrest ih =>
    refine nodup_cons.mpr ⟨fun hmem => ?_, ih⟩
    -- The chain from `c` would be a proper part of itself.
    obtain ⟨ds, hsuffix, hlinked⟩ := hrest.suffix hmem
    have heq := (hlinked.unique (.cons hc hrest)).1
    have hlen := hsuffix.length_le
    rw [heq, length_cons] at hlen
    omega

/-- Only the entries of the chain matter. -/
theorem congr (hsame : ∀ d ∈ cs, next' d = next d) : Linked next' valid c cs e := by
  induction h with
  | nil hc => exact .nil hc
  | @cons c e cs hc hrest ih =>
    refine .cons hc ?_
    rw [hsame c mem_cons_self]
    exact ih fun d hd => hsame d (mem_cons_of_mem c hd)

/-- The chain from a member on goes on with its successor. -/
theorem of_mem (hd : d ∈ cs) : ∃ ds, d :: ds <:+ cs ∧ Linked next valid (next d) ds e := by
  obtain ⟨ds, hsuffix, hlinked⟩ := h.suffix hd
  cases hlinked with
  | cons _ hrest => exact ⟨ds, hsuffix, hrest⟩

theorem next_mem (hd : d ∈ cs) (hnext : valid (next d)) : next d ∈ cs := by
  obtain ⟨ds, hsuffix, hrest⟩ := h.of_mem hd
  cases hrest with
  | nil hinv => exact absurd hnext hinv
  | cons => exact hsuffix.subset (mem_cons_of_mem _ mem_cons_self)

/-- No member leads back to the first one. -/
theorem next_ne (hd : d ∈ cs) : next d ≠ c := by
  intro heq
  obtain ⟨ds, hsuffix, hrest⟩ := h.of_mem hd
  rw [heq] at hrest
  have hlen := hsuffix.length_le
  rw [(hrest.unique h).1, length_cons] at hlen
  omega

/-- Different members have different successors. -/
theorem next_injective {d'} (hd : d ∈ cs) (hd' : d' ∈ cs) (heq : next d = next d') : d = d' := by
  obtain ⟨ds, hsuffix, hrest⟩ := h.of_mem hd
  obtain ⟨ds', hsuffix', hrest'⟩ := h.of_mem hd'
  rw [heq] at hrest
  obtain rfl := (hrest.unique hrest').1
  have hsame := suffix_of_suffix_length_le hsuffix hsuffix' le_rfl
  exact (List.cons.inj (hsame.eq_of_length rfl)).1

omit h in
/-- A chain without repetition ends, because there are so many numbers only. -/
theorem exists_of_injective {N} (hbound : ∀ c, valid c → c < N)
    (hinj : ∀ m n, (∀ k ≤ n, valid (next^[k] c)) → m < n → next^[m] c ≠ next^[n] c) :
    ∃ cs e, Linked next valid c cs e := by
  by_cases hall : ∀ k ≤ N, valid (next^[k] c)
  · have hcard : ((Finset.range (N + 1)).image fun k => next^[k] c).card ≤ N := by
      refine le_trans (card_le_card fun d hd => ?_) (Nat.le_of_eq (card_range N))
      obtain ⟨k, hk, rfl⟩ := mem_image.mp hd
      exact Finset.mem_range.mpr (hbound _ (hall k (Nat.le_of_lt_succ (Finset.mem_range.mp hk))))
    rw [card_image_of_injOn, card_range] at hcard
    · omega
    intro m hm n hn heq
    have hm := Nat.le_of_lt_succ (Finset.mem_range.mp hm)
    have hn := Nat.le_of_lt_succ (Finset.mem_range.mp hn)
    rcases Nat.lt_trichotomy m n with hlt | rfl | hlt
    · exact absurd heq (hinj m n (fun k hk => hall k (hk.trans hn)) hlt)
    · rfl
    · exact absurd heq.symm (hinj n m (fun k hk => hall k (hk.trans hm)) hlt)
  -- The chain ends at the first number that is not valid.
  obtain ⟨k, hk⟩ : ∃ k, ¬ valid (next^[k] c) := by
    by_contra hnone
    exact hall fun k _ => by_contra fun hk => hnone ⟨k, hk⟩
  clear hinj hall
  induction k generalizing c with
  | zero => exact ⟨[], c, .nil hk⟩
  | succ k ih =>
    by_cases hc : valid c
    · obtain ⟨cs, e, hrest⟩ := ih hk
      exact ⟨c :: cs, e, .cons hc hrest⟩
    · exact ⟨[], c, .nil hc⟩

theorem length_le {N} (hbound : ∀ c, valid c → c < N) : cs.length ≤ N := by
  rw [← toFinset_card_of_nodup h.nodup, ← card_range N]
  refine card_le_card fun d hd => ?_
  exact Finset.mem_range.mpr (hbound d (h.valid_of_mem (mem_toFinset.mp hd)))

end

end Linked

end Kurios.Base
