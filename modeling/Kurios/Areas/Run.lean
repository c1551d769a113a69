import Kurios.Areas.List

/-!
Histories of one VMA list.

A history starts from an empty list and is a sequence of `vma_create`, with
arbitrary 64-bit ranges, and of `vma_destroy` of areas that are on the list. The
slab allocator is the environment: each `vma_create` comes with the pointer
`kmem_cache_alloc` would return, which is not a live object and lies in the kernel
heap, or with a failure.
-/

namespace Kurios.Areas

open Base
open Heap (kheapStart kheapEnd)

inductive VmaCall where
  | create (start stop : BitVec 64) (flags prot : BitVec 32) (alloc : Option Nat)
  | destroy (vma : Nat)

/-- The list, and the nodes the slab cache has handed out for it. -/
structure VmaHistory where
  state : VmaState
  live : List Nat

namespace VmaHistory

section

variable (s : VmaHistory)

/-- What `kmem_cache_alloc` may return. -/
def Fresh (alloc : Option Nat) : Prop :=
  ∀ p ∈ alloc, p ∉ s.live ∧ kheapStart ≤ p ∧ p < kheapEnd
deriving Decidable

/-- The calls a history may continue with. -/
def Legal : VmaCall → Prop
  | .create _ _ _ _ alloc => s.Fresh alloc
  | .destroy vma => vma ∈ s.live

def step : VmaCall → Option VmaHistory
  | .create start stop flags prot alloc =>
    if s.Fresh alloc then
      (vmaCreate s.state start.toNat stop.toNat flags.toNat prot.toNat alloc).map fun r =>
        ⟨r.2, r.1.toList ++ s.live⟩
    else none
  | .destroy vma =>
    if vma ∈ s.live then some ⟨vmaDestroy s.state vma, s.live.erase vma⟩ else none

/-- The nodes on the list are the live ones. -/
structure Inv (xs : List Nat) : Prop where
  list : VmaInv s.state xs
  perm : xs.Perm s.live

end

variable {c : VmaCall}

/-- A legal call returns, and keeps the invariant. -/
theorem Inv.step {s : VmaHistory} {xs : List Nat} (h : s.Inv xs) (hc : s.Legal c) :
    ∃ s' xs', s.step c = some s' ∧ s'.Inv xs' := by
  cases c with
  | create start stop flags prot alloc =>
    have hfresh : s.Fresh alloc := hc
    have halloc : ∀ p, alloc = some p → p ∉ xs ∧ kheapStart ≤ p ∧ p < kheapEnd := by
      intro p hp
      obtain ⟨hlive, hheap⟩ := hfresh p hp
      exact ⟨fun hin => hlive (h.perm.mem_iff.mp hin), hheap⟩
    simp only [VmaHistory.step, if_pos hfresh]
    rcases h.list.create start.toNat stop.toNat flags.toNat prot.toNat halloc with
      heq | ⟨vma, s', l, r, heq, -, hxs, hinv, -⟩
    · exact ⟨s, xs, by simp [heq], h⟩
    · refine ⟨⟨s', vma :: s.live⟩, l ++ vma :: r, by simp [heq], hinv, ?_⟩
      exact List.perm_middle.trans ((hxs ▸ h.perm).cons vma)
  | destroy vma =>
    have hmem : vma ∈ s.live := hc
    refine ⟨⟨vmaDestroy s.state vma, s.live.erase vma⟩, xs.erase vma, ?_, ?_, h.perm.erase vma⟩
    · simp [VmaHistory.step, if_pos hmem]
    · exact h.list.destroy (h.perm.mem_iff.mpr hmem)

theorem legal_of_step {s s' : VmaHistory} (h : s.step c = some s') : s.Legal c := by
  cases c
  all_goals
    simp only [VmaHistory.step] at h
    split at h
    · assumption
    · cases h

end VmaHistory

/-- `[start, stop)` and the area share an address. -/
def Area.Meets (a : Area) (start stop : Nat) : Prop :=
  ∃ x, start ≤ x ∧ x < stop ∧ a.start ≤ x ∧ x < a.stop

theorem Area.meets_iff {a : Area} (ha : a.Valid) {start stop : Nat} (hlt : start < stop) :
    a.Meets start stop ↔ start < a.stop ∧ a.start < stop := by
  have hne := ha.nonempty
  constructor
  · rintro ⟨x, h1, h2, h3, h4⟩
    omega
  · intro h
    exact ⟨max start a.start, by omega⟩

/-- **The VMA list invariant.** After every history the list is a consistent doubly
linked list of `count` aligned, non-empty, increasing and disjoint areas; the
three searches return exactly what they are asked for; and every further call
returns. -/
theorem vma_list_invariant {vmas : Nat → Vma} {calls : List VmaCall} {s : VmaHistory}
    (hrun : run VmaHistory.step ⟨vmaListCreate vmas, []⟩ calls = some s) :
    ∃ xs, xs.Perm s.live ∧ VmaInv s.state xs ∧
      (∀ addr, ∃ result, vmaFind s.state addr = some result ∧ ∀ p, result = some p ↔
          p ∈ xs ∧ (s.state.area p).start ≤ addr ∧ addr < (s.state.area p).stop) ∧
      (∀ addr, ∃ result, vmaFindOrNext s.state addr = some result ∧
        ∀ p, result = some p ↔ p ∈ xs ∧ addr < (s.state.area p).stop ∧
          ∀ q ∈ xs, addr < (s.state.area q).stop →
            (s.state.area p).start ≤ (s.state.area q).start) ∧
      (∀ start stop, start < stop → ∃ result, vmaOverlaps s.state start stop = some result ∧
        (result = true ↔ ∃ p ∈ xs, (s.state.area p).Meets start stop)) ∧
      ∀ c, s.Legal c → ∃ s', s.step c = some s' := by
  have hstart : VmaHistory.Inv ⟨vmaListCreate vmas, []⟩ [] := ⟨VmaInv.empty vmas, List.Perm.nil⟩
  obtain ⟨xs, hinv⟩ := run_inv (fun s : VmaHistory => ∃ xs, s.Inv xs)
    (fun s c s' hs hstep => by
      obtain ⟨xs, hs⟩ := hs
      obtain ⟨t, ys, ht, hinv⟩ := hs.step (VmaHistory.legal_of_step hstep)
      obtain rfl : t = s' := Option.some.inj (ht.symm.trans hstep)
      exact ⟨ys, hinv⟩) ⟨[], hstart⟩ hrun
  have h := hinv.list
  refine ⟨xs, hinv.perm, h, fun addr => ⟨_, h.vmaFind_eq addr, fun p => h.find_contains_iff⟩,
    fun addr => ⟨_, h.vmaFindOrNext_eq addr, fun p => h.find_above_iff⟩, fun start stop hlt =>
    ⟨_, h.vmaOverlaps_eq start stop, ?_⟩, fun c hc => ?_⟩
  · rw [decide_eq_true_eq]
    exact exists_congr fun p => and_congr_right fun hp => (Area.meets_iff (h.valid p hp) hlt).symm
  · obtain ⟨s', xs', hstep, -⟩ := hinv.step hc
    exact ⟨s', hstep⟩

/-- Two areas, the second one rounded out to a whole page after an overlap was
refused; then the first one is destroyed. -/
def twoAreas : Option VmaHistory :=
  run VmaHistory.step ⟨vmaListCreate fun _ => ⟨0, 0, 0, 0, none, none, none, 0⟩, []⟩
    [.create 0x400000 0x402000 5 5 (some kheapStart),
      .create 0x401f00 0x402001 3 7 (some (kheapStart + 64)),
      .create 0x402010 0x402020 3 7 (some (kheapStart + 64)), .destroy kheapStart]

theorem vma_list_invariant_twoAreas : ∃ s, twoAreas = some s ∧ s.live = [kheapStart + 64] ∧
      ∃ xs, xs.Perm s.live ∧ VmaInv s.state xs := by
  have hlive : twoAreas.map VmaHistory.live = some [kheapStart + 64] := by decide +kernel
  obtain ⟨s, hs, hlive⟩ := Option.map_eq_some_iff.mp hlive
  obtain ⟨xs, hperm, hinv, -⟩ := vma_list_invariant hs
  exact ⟨s, hs, hlive, xs, hperm, hinv⟩

end Kurios.Areas
