import Mathlib

/-!
Intrusive doubly linked lists.

The links live in two partial functions on nodes, `next` and `prev`, whatever
memory they are read from. `Segment next prev p xs q` says that the nodes `xs` are
chained in order, entered from `p` and left towards `q`; `DList next prev xs` is
the whole list, `NULL`-terminated on both sides and without repetitions. The
three edits are stated by what the link fields look like afterwards:

* `DList.insert`: a node between two neighbours,
* `DList.push`: a node in front,
* `DList.remove`: a node taken out, its neighbours joined.

`DList.frame` is the frame rule: writes to other nodes leave the list alone.
Loops that follow `next` are `walk` and `walkWhile`; on a list they are a search
and a split of it (`Segment.walk_eq`, `Segment.walkWhile_eq`). `collect` is the list of
the nodes.
-/

namespace Kurios.Base

open List Option

variable {α : Type} {fuel : Nat} {y x : α}

/-- The nodes `xs` are chained, entered from `p` and left towards `q`. -/
def Segment (next prev : α → Option α) : Option α → List α → Option α → Prop
  | _, [], _ => True
  | p, x :: xs, q => prev x = p ∧ next x = xs.head?.or q ∧ Segment next prev (some x) xs q

/-- `xs` is a doubly linked list: no repetitions, `NULL` at both ends. -/
structure DList (next prev : α → Option α) (xs : List α) : Prop where
  nodup : xs.Nodup
  links : Segment next prev none xs none

section Segments

variable {next prev next' prev' : α → Option α} {p q : Option α} {l r xs : List α}

/-- A segment splits anywhere; each half is entered from, and left towards, its
neighbour in the other half. -/
theorem segment_append : Segment next prev p (l ++ r) q ↔
      Segment next prev p l (r.head?.or q) ∧ Segment next prev (l.getLast?.or p) r q := by
  induction l generalizing p with
  | nil => simp [Segment]
  | cons x l ih =>
    have hlast : (x :: l).getLast?.or p = l.getLast?.or (some x) := by
      cases l with
      | nil => rfl
      | cons z zs =>
        rw [getLast?_cons_cons]
        cases h : (z :: zs).getLast? with
        | none => simp at h
        | some w => rfl
    have hhead : (l ++ r).head?.or q = l.head?.or (r.head?.or q) := by
      cases l <;> simp
    simp only [cons_append, Segment, ih, hlast, hhead, and_assoc]

section

variable (h : Segment next prev p xs q)
include h

theorem Segment.prev_head (hx : xs.head? = some x) : prev x = p := by
  cases xs with
  | nil => simp at hx
  | cons z zs =>
    obtain rfl : z = x := by simpa using hx
    exact h.1

theorem Segment.next_last (hx : xs.getLast? = some x) : next x = q := by
  obtain ⟨l, rfl⟩ := getLast?_eq_some_iff.mp hx
  simpa using (segment_append.mp h).2.2.1

/-- The two ends of a segment can be moved; only the first `prev` and the last
`next` change. -/
theorem Segment.retarget [DecidableEq α] {p' q'} (nd : xs.Nodup)
    (hnext : ∀ y ∈ xs, next' y = if xs.getLast? = some y then q' else next y)
    (hprev : ∀ y ∈ xs, prev' y = if xs.head? = some y then p' else prev y) :
    Segment next' prev' p' xs q' := by
  induction xs generalizing p p' with
  | nil => trivial
  | cons x xs ih =>
    obtain ⟨hx, nd⟩ := nodup_cons.mp nd
    obtain ⟨hpx, hnx, rest⟩ := h
    have hprevx : prev' x = p' := by simpa using hprev x (by simp)
    refine ⟨hprevx, ?_, ih rest nd (fun y hy => ?_) fun y hy => ?_⟩
    · have hn := hnext x (by simp)
      cases xs with
      | nil => simpa using hn
      | cons z zs =>
        have hne : (x :: z :: zs).getLast? ≠ some x := by
          intro hlast
          exact hx (mem_of_getLast? hlast)
        rw [hn, if_neg hne, hnx]
        simp
    · have hn := hnext y (mem_cons_of_mem _ hy)
      rwa [show (x :: xs).getLast? = xs.getLast? by
        cases xs with
        | nil => simp at hy
        | cons z zs => exact getLast?_cons_cons] at hn
    -- The new predecessor of the rest is `x` itself, as it was before.
    have hne : (x :: xs).head? ≠ some y := by
      intro heq
      have : x = y := by simpa using heq
      exact hx (this ▸ hy)
    have hpy := hprev y (mem_cons_of_mem _ hy)
    rw [if_neg hne] at hpy
    cases xs with
    | nil => simp at hy
    | cons z zs =>
      by_cases hz : z = y
      · subst hz
        rw [hpy]
        simpa using rest.1
      · rw [hpy]
        simp [hz]

theorem Segment.frame (hnext : ∀ y ∈ xs, next' y = next y) (hprev : ∀ y ∈ xs, prev' y = prev y) :
    Segment next' prev' p xs q := by
  induction xs generalizing p with
  | nil => trivial
  | cons x xs ih =>
    obtain ⟨hp, hn, rest⟩ := h
    refine ⟨?_, ?_, ih rest (fun y hy => ?_) fun y hy => ?_⟩
    · rw [hprev x (by simp), hp]
    · rw [hnext x (by simp), hn]
    · exact hnext y (mem_cons_of_mem _ hy)
    · exact hprev y (mem_cons_of_mem _ hy)

/-- The walk rule: what holds of the first node and passes along `next` holds of
every node. -/
theorem Segment.forall_of_walk {P : α → Prop} (head : ∀ x, xs.head? = some x → P x)
    (step : ∀ x y, P x → next x = some y → P y) : ∀ x ∈ xs, P x := by
  induction xs generalizing p with
  | nil => simp
  | cons x xs ih =>
    obtain ⟨-, hnext, hrest⟩ := h
    have hx : P x := head x rfl
    refine forall_mem_cons.mpr ⟨hx, ih hrest fun y hy => step x y hx ?_⟩
    simp [hnext, hy]

end

end Segments

namespace DList

variable {next prev next' prev' : α → Option α} {l r xs : List α} {x : α}

theorem nil : DList next prev [] := ⟨nodup_nil, trivial⟩

theorem frame (h : DList next prev xs) (hnext : ∀ y ∈ xs, next' y = next y)
    (hprev : ∀ y ∈ xs, prev' y = prev y) : DList next' prev' xs :=
  ⟨h.nodup, h.links.frame hnext hprev⟩

/-- A node's links are its neighbours. -/
theorem neighbours (h : DList next prev (l ++ x :: r)) :
    prev x = l.getLast? ∧ next x = r.head? := by
  obtain ⟨-, hprev, hnext, -⟩ := segment_append.mp h.links
  exact ⟨by simpa using hprev, by simpa using hnext⟩

section

variable (h : DList next prev xs) (hx : x ∈ xs)
include h hx

/-- No node is its own predecessor. -/
theorem prev_ne_self : prev x ≠ some x := by
  obtain ⟨l, r, rfl⟩ := append_of_mem hx
  intro he
  have hl : x ∈ l := mem_of_getLast? ((h.neighbours).1 ▸ he)
  exact (nodup_cons.mp (nodup_middle.mp h.nodup)).1 (mem_append_left _ hl)

theorem next_mem (hy : next x = some y) : y ∈ xs := by
  obtain ⟨l, r, rfl⟩ := append_of_mem hx
  rw [(h.neighbours).2] at hy
  exact mem_append_right _ (mem_cons_of_mem _ (mem_of_head? hy))

theorem prev_mem (hy : prev x = some y) : y ∈ xs := by
  obtain ⟨l, r, rfl⟩ := append_of_mem hx
  rw [(h.neighbours).1] at hy
  exact mem_append_left _ (mem_of_getLast? hy)

end

/-- A node linked in between `l` and `r`. -/
theorem insert [DecidableEq α] (h : DList next prev (l ++ r)) (hx : x ∉ l ++ r)
    (hpx : prev' x = l.getLast?) (hnx : next' x = r.head?)
    (hnext : ∀ y ∈ l ++ r, next' y = if l.getLast? = some y then some x else next y)
    (hprev : ∀ y ∈ l ++ r, prev' y = if r.head? = some y then some x else prev y) :
    DList next' prev' (l ++ x :: r) := by
  obtain ⟨hl, hr⟩ := segment_append.mp h.links
  obtain ⟨ndl, ndr, disj⟩ := nodup_append'.mp h.nodup
  refine ⟨?_, segment_append.mpr ⟨?_, ?_, ?_, ?_⟩⟩
  · exact nodup_middle.mpr (nodup_cons.mpr ⟨hx, h.nodup⟩)
  · refine hl.retarget ndl (fun y hy => by simpa using hnext y (mem_append_left _ hy))
      fun y hy => ?_
    have hnot : r.head? ≠ some y := fun he => disj hy (mem_of_head? he)
    rw [hprev y (mem_append_left _ hy), if_neg hnot]
    split
    · next hhead => exact hl.prev_head hhead
    · rfl
  · simpa using hpx
  · simpa using hnx
  refine hr.retarget ndr (fun y hy => ?_) fun y hy => by
    simpa using hprev y (mem_append_right _ hy)
  have hnot : l.getLast? ≠ some y := fun he => disj (mem_of_getLast? he) hy
  rw [hnext y (mem_append_right _ hy), if_neg hnot]
  split
  · next hlast => exact hr.next_last hlast
  · rfl

section

variable (h : DList next prev xs)
include h

theorem push [DecidableEq α] (hx : x ∉ xs) (hpx : prev' x = none) (hnx : next' x = xs.head?)
    (hnext : ∀ y ∈ xs, next' y = next y)
    (hprev : ∀ y ∈ xs, prev' y = if xs.head? = some y then some x else prev y) :
    DList next' prev' (x :: xs) :=
  insert (l := []) h hx hpx hnx (by simpa using hnext) hprev

/-- A node linked in at the end. -/
theorem append [DecidableEq α] (hx : x ∉ xs) (hpx : prev' x = xs.getLast?) (hnx : next' x = none)
    (hnext : ∀ y ∈ xs, next' y = if xs.getLast? = some y then some x else next y)
    (hprev : ∀ y ∈ xs, prev' y = prev y) : DList next' prev' (xs ++ [x]) := by
  rw [← append_nil xs] at h hx
  apply insert h hx hpx hnx <;> intro y hy <;> rw [append_nil] at hy
  · exact hnext y hy
  · simpa using hprev y hy

/-- A node unlinked: its neighbours point past it. -/
theorem remove [DecidableEq α] (hx : x ∈ xs)
    (hnext : ∀ y ∈ xs, y ≠ x → next' y = if prev x = some y then next x else next y)
    (hprev : ∀ y ∈ xs, y ≠ x → prev' y = if next x = some y then prev x else prev y) :
    DList next' prev' (xs.erase x) := by
  obtain ⟨l, r, rfl⟩ := append_of_mem hx
  obtain ⟨hpx, hnx⟩ := h.neighbours
  obtain ⟨hl, -, -, hr⟩ := segment_append.mp h.links
  obtain ⟨hxlr, ndlr⟩ := nodup_cons.mp (nodup_middle.mp h.nodup)
  obtain ⟨ndl, ndr, disj⟩ := nodup_append'.mp ndlr
  have hxl : x ∉ l := fun hm => hxlr (mem_append_left _ hm)
  have hxr : x ∉ r := fun hm => hxlr (mem_append_right _ hm)
  rw [erase_append_right _ hxl, erase_cons_head]
  rw [hpx, hnx] at hnext hprev
  refine ⟨ndlr, segment_append.mpr ⟨?_, ?_⟩⟩
  · refine hl.retarget ndl (fun y hy => ?_) fun y hy => ?_
    · have hne : y ≠ x := fun he => hxl (he ▸ hy)
      simpa using hnext y (by simp [hy]) hne
    have hne : y ≠ x := fun he => hxl (he ▸ hy)
    have hnot : r.head? ≠ some y := fun he => disj hy (mem_of_head? he)
    rw [hprev y (by simp [hy]) hne, if_neg hnot]
    split
    · next hhead => exact hl.prev_head hhead
    · rfl
  refine hr.retarget ndr (fun y hy => ?_) fun y hy => ?_ <;>
    have hne : y ≠ x := fun he => hxr (he ▸ hy)
  · have hnot : l.getLast? ≠ some y := fun he => disj (mem_of_getLast? he) hy
    rw [hnext y (by simp [hy]) hne, if_neg hnot]
    split
    · next hlast => exact hr.next_last hlast
    · rfl
  · simpa using hprev y (by simp [hy]) hne

/-- A node and its two sides. -/
theorem erase_eq [DecidableEq α] (hx : x ∈ xs) : ∃ l r, xs = l ++ x :: r ∧ prev x = l.getLast? ∧
    next x = r.head? ∧ (l ++ x :: r).erase x = l ++ r := by
  obtain ⟨l, r, rfl⟩ := append_of_mem hx
  obtain ⟨hpx, hnx⟩ := h.neighbours
  have hxl : x ∉ l := fun hm => (nodup_cons.mp (nodup_middle.mp h.nodup)).1 (mem_append_left _ hm)
  exact ⟨l, r, rfl, hpx, hnx, by rw [erase_append_right _ hxl, erase_cons_head]⟩

/-- The head pointer after an unlink. -/
theorem head?_erase [DecidableEq α] (hx : x ∈ xs) :
    (xs.erase x).head? = if prev x = none then next x else xs.head? := by
  obtain ⟨l, r, rfl, hpx, hnx, herase⟩ := h.erase_eq hx
  rw [herase, hpx, hnx]
  cases l with
  | nil => simp
  | cons z zs => simp

/-- The tail pointer after an unlink. -/
theorem getLast?_erase [DecidableEq α] (hx : x ∈ xs) :
    (xs.erase x).getLast? = if next x = none then prev x else xs.getLast? := by
  obtain ⟨l, r, rfl, hpx, hnx, herase⟩ := h.erase_eq hx
  rw [herase, hpx, hnx]
  cases r with
  | nil => simp
  | cons z zs => simp [getLast?_append, getLast?_cons_cons]

end

end DList

/-! ### Walks -/

section Walk

variable {β : Type} {next prev : α → Option α} {p : Option α} {xs : List α}

/-- `for (x = head; x; x = x->next)` with a body that may leave the loop with a
result. `none` means that the walk did not end within `fuel` nodes. -/
def walk (next : α → Option α) (visit : α → Option β) (done : β) :
    (fuel : Nat) → (curr : Option α) → Option β
  | _, none => some done
  | 0, some _ => none
  | n + 1, some x =>
    match visit x with
    | some result => some result
    | none => walk next visit done n (next x)

/-- `while (curr && cond(curr)) { prev = curr; curr = curr->next; }`: the node the
loop stops at and the one before it. -/
def walkWhile (next : α → Option α) (cond : α → Bool) :
    (fuel : Nat) → (before curr : Option α) → Option (Option α × Option α)
  | _, before, none => some (before, none)
  | 0, _, some _ => none
  | n + 1, before, some x =>
    if cond x then walkWhile next cond n (some x) (next x) else some (before, some x)

/-- The nodes that a loop along `next` visits. -/
def collect (next : α → Option α) : (fuel : Nat) → (curr : Option α) → Option (List α)
  | _, none => some []
  | 0, some _ => none
  | n + 1, some x => (collect next n (next x)).map (x :: ·)

section

variable (h : Segment next prev p xs none)
include h

theorem Segment.collect_eq (hfuel : xs.length ≤ fuel) : collect next fuel xs.head? = some xs := by
  induction xs generalizing p fuel with
  | nil => simp [collect]
  | cons x xs ih =>
    obtain _ | n := fuel
    · cases hfuel
    obtain ⟨-, hnext, hrest⟩ := h
    rw [head?_cons, collect, hnext, or_none, ih hrest (by simpa using hfuel)]
    rfl

/-- A walk over a list is a search in it. -/
theorem Segment.walk_eq (visit : α → Option β) (done : β) (hfuel : xs.length ≤ fuel) :
    walk next visit done fuel xs.head? = some ((xs.findSome? visit).getD done) := by
  induction xs generalizing p fuel with
  | nil => simp [walk]
  | cons x xs ih =>
    obtain _ | n := fuel
    · cases hfuel
    obtain ⟨-, hnext, hrest⟩ := h
    rw [head?_cons, findSome?_cons, walk]
    cases visit x with
    | some result => rfl
    | none =>
      rw [hnext, or_none]
      exact ih hrest (by simpa using hfuel)

/-- The search for an insertion point splits the list where the condition first fails. -/
theorem Segment.walkWhile_eq (cond : α → Bool) (before : Option α) (hfuel : xs.length ≤ fuel) :
    walkWhile next cond fuel before xs.head? =
      some ((xs.takeWhile cond).getLast?.or before, (xs.dropWhile cond).head?) := by
  induction xs generalizing p fuel before with
  | nil => simp [walkWhile]
  | cons x xs ih =>
    obtain _ | n := fuel
    · cases hfuel
    obtain ⟨-, hnext, hrest⟩ := h
    rw [head?_cons, walkWhile]
    cases hx : cond x with
    | false => simp [hx]
    | true =>
      rw [if_pos rfl, hnext, or_none, ih hrest (some x) (by simpa using hfuel),
        takeWhile_cons_of_pos hx, dropWhile_cons_of_pos hx]
      cases hlast : (xs.takeWhile cond).getLast? with
      | none => simp [getLast?_eq_none_iff.mp hlast]
      | some y => simp [getLast?_cons, hlast]

end

/-- A search that stops early, at a node after which there are no hits, finds the
first hit. -/
theorem findSome?_early (hit past : α → Prop) [DecidablePred hit] [DecidablePred past]
    (yes : α → β) (no : β) (h : xs.Pairwise fun x y => past x → ¬ hit y) :
    (xs.findSome? fun x => if hit x then some (yes x) else if past x then some no
      else none).getD no =
      ((xs.find? fun x => decide (hit x)).map yes).getD no := by
  induction xs with
  | nil => rfl
  | cons x xs ih =>
    obtain ⟨hx, hxs⟩ := pairwise_cons.mp h
    by_cases hhit : hit x
    · simp [hhit]
    by_cases hpast : past x
    · have hnone : xs.find? (fun y => decide (hit y)) = none := by
        rw [find?_eq_none]
        intro y hy
        simpa using hx y hy hpast
      simp [hhit, hpast, hnone]
    · simpa [hhit, hpast] using ih hxs

/-- A search for whether there is a hit. -/
theorem find?_decide {hit} [DecidablePred hit] :
    ((xs.find? fun x => decide (hit x)).map fun _ => true).getD false =
      decide (∃ x ∈ xs, hit x) := by
  induction xs with
  | nil => simp
  | cons x xs ih =>
    by_cases hx : hit x
    · simp [hx]
    · simpa [hx] using ih

theorem findSome?_mem [DecidableEq α] (x : α) :
    (xs.findSome? fun y => if y = x then some true else none).getD false = decide (x ∈ xs) := by
  induction xs with
  | nil => simp
  | cons y ys ih =>
    by_cases hy : y = x
    · simp [hy]
    · have hx : x ≠ y := Ne.symm hy
      simp [hy, hx, ih]

/-- Where the condition, once it fails, keeps failing, it fails on all that is dropped. -/
theorem not_of_mem_dropWhile {cond}
    (h : xs.Pairwise fun x y => cond x = false → cond y = false) (hy : y ∈ xs.dropWhile cond) :
    cond y = false := by
  induction xs with
  | nil => simp at hy
  | cons x xs ih =>
    obtain ⟨hx, hxs⟩ := pairwise_cons.mp h
    cases hc : cond x with
    | true => exact ih hxs (by simpa [hc] using hy)
    | false =>
      rw [dropWhile_cons_of_neg (by simp [hc])] at hy
      rcases mem_cons.mp hy with rfl | hy
      · exact hc
      · exact hx y hy hc

end Walk

/-! ### Singly linked lists -/

/-- From `head` on, `next` chains the nodes `xs` and then ends. -/
def Chain (next : α → Option α) : (head : Option α) → List α → Prop
  | head, [] => head = none
  | head, x :: xs => head = some x ∧ Chain next (next x) xs

namespace Chain

variable {next next' : α → Option α} {head : Option α} {x : α} {xs : List α}

theorem frame (h : Chain next head xs) (hnext : ∀ y ∈ xs, next' y = next y) :
    Chain next' head xs := by
  induction xs generalizing head with
  | nil => exact h
  | cons x xs ih =>
    obtain ⟨hhead, hrest⟩ := h
    obtain ⟨hx, hxs⟩ := forall_mem_cons.mp hnext
    exact ⟨hhead, hx ▸ ih hrest hxs⟩

/-- A node pushed in front. -/
theorem push (h : Chain next head xs) (hx : next' x = head) (hnext : ∀ y ∈ xs, next' y = next y) :
    Chain next' (some x) (x :: xs) :=
  ⟨rfl, hx ▸ h.frame hnext⟩

end Chain

end Kurios.Base
