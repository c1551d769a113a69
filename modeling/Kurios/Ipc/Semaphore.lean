import Kurios.Base.Loop

/-!
Waiting for a POSIX semaphore of `kernel/ipc/sem.c`.

The steps are the sections under `sem->lock`, `thread_block` and `sched_reschedule`, of any
number of threads in any order. A waiter registers, drops the lock and then blocks: a post
in between takes it off the list while it still runs, and the wake-up is lost
(`wakeup_lost`). Without such posts none is lost (`no_lost_wakeup`): while threads wait, the
value is at most the number of threads that are on their way to check it again. Whatever the
order, the value is what the posts and the waits have left of it (`semaphore_conserved`).
-/

namespace Kurios.Ipc

open Base Function List Option Finset

/-- Where a thread is in `sem_wait_syscall`. Only in `blocked` is it `THREAD_BLOCKED`. -/
inductive Phase where
  | outside
  | entered
  /-- On the list of waiters, before `thread_block`. -/
  | registered
  | blocked
  /-- Between its wake-up and its re-check. -/
  | woken
deriving DecidableEq, Repr

structure SemState (T : Type) where
  value : BitVec 32
  waiters : List T
  phase : T → Phase
  current : T

/-- What the current thread does, or the scheduler. -/
inductive SemStep (T : Type) where
  | call
  | check (memory : Bool)
  | block
  | post
  | reschedule (next : T)

namespace SemState

variable {T : Type} [DecidableEq T] {s s' : SemState T} {W W' : Finset T}

section

variable (s : SemState T)

def setPhase (t : T) (p : Phase) : SemState T :=
  { s with phase := update s.phase t p }

/-- The loop of `sem_wait_syscall` under the lock; `memory` says whether `sem_add_waiter` has
room for the thread. -/
def check (memory : Bool) : SemState T :=
  if s.value ≠ 0 then { s with value := s.value - 1 }.setPhase s.current .outside
  else if memory then
    { s with waiters := s.waiters ++ [s.current] }.setPhase s.current .registered
  else s.setPhase s.current .outside

/-- `thread_unblock`. -/
def unblock (t : T) : SemState T :=
  if s.phase t = .blocked then s.setPhase t .woken else s

/-- `sem_post_syscall` under the lock. -/
def post : SemState T :=
  match s.waiters with
  | [] => { s with value := s.value + 1 }
  | w :: ws => unblock { s with value := s.value + 1, waiters := ws } w

def step : SemStep T → Option (SemState T)
  | .call => if s.phase s.current = .outside then some (s.setPhase s.current .entered) else none
  | .check memory =>
    if s.phase s.current = .entered ∨ s.phase s.current = .woken then some (s.check memory)
    else none
  | .block => if s.phase s.current = .registered then some (s.setPhase s.current .blocked) else none
  | .post => if s.phase s.current = .outside then some s.post else none
  | .reschedule next => if s.phase next ≠ .blocked then some { s with current := next } else none

/-- The value is positive and nobody is on the way to take it, but a thread is blocked. -/
def Lost : Prop :=
  0 < s.value.toInt ∧ (∀ t, s.phase t ≠ .woken) ∧ ∃ t, s.phase t = .blocked

/-- No post takes a thread off the list before it is blocked. -/
def Prompt : SemStep T → Prop
  | .post => ∀ w ∈ s.waiters.head?, s.phase w = .blocked
  | _ => True

end

instance (s : SemState T) (e : SemStep T) : Decidable (s.Prompt e) := by
  cases e <;> unfold Prompt <;> infer_instance

/-- No thread waits yet. -/
def start (value : BitVec 32) (current : T) : SemState T := ⟨value, [], fun _ => .outside, current⟩

/-- `W` are the threads between wake-up and re-check. -/
structure Counts (s : SemState T) (W : Finset T) : Prop where
  nodup : s.waiters.Nodup
  waiting : ∀ t, t ∈ s.waiters ↔ s.phase t = .registered ∨ s.phase t = .blocked
  woken : ∀ t, t ∈ W ↔ s.phase t = .woken
  enough : s.waiters ≠ [] → s.value.toNat ≤ W.card

namespace Counts

variable (h : Counts s W)
include h

omit [DecidableEq T] in
theorem not_lost : ¬ s.Lost := by
  rintro ⟨hpos, hnone, t, ht⟩
  have hle := h.enough (ne_nil_of_mem ((h.waiting t).mpr (.inr ht)))
  have hemp : W = ∅ := eq_empty_of_forall_notMem fun u hu => hnone u ((h.woken u).mp hu)
  rw [hemp, card_empty] at hle
  rw [BitVec.toInt_eq_toNat_cond] at hpos
  split at hpos <;> omega

/-- One thread goes to another phase. -/
theorem move (t : T) (hphase : ∀ u, u ≠ t → s'.phase u = s.phase u) (hnd : s'.waiters.Nodup)
    (hwaiters : ∀ u, u ≠ t → (u ∈ s'.waiters ↔ u ∈ s.waiters))
    (hwoken : ∀ u, u ≠ t → (u ∈ W' ↔ u ∈ W))
    (ht : t ∈ s'.waiters ↔ s'.phase t = .registered ∨ s'.phase t = .blocked)
    (ht' : t ∈ W' ↔ s'.phase t = .woken) (henough : s'.waiters ≠ [] → s'.value.toNat ≤ W'.card) :
    Counts s' W' := by
  refine ⟨hnd, fun u => ?_, fun u => ?_, henough⟩
  · by_cases hu : u = t
    · exact hu ▸ ht
    · rw [hwaiters u hu, hphase u hu, h.waiting]
  · by_cases hu : u = t
    · exact hu ▸ ht'
    · rw [hwoken u hu, hphase u hu, h.woken]

/-- The current thread stays on the list or off it. -/
theorem stay {p} (hp : s.phase s.current = .registered ∨ s.phase s.current = .blocked ↔
    p = .registered ∨ p = .blocked) (hp' : s.phase s.current = .woken ↔ p = .woken) :
    Counts (s.setPhase s.current p) W :=
  h.move s.current (fun u hu => update_of_ne hu _ _) h.nodup (fun _ _ => Iff.rfl)
    (fun _ _ => Iff.rfl) (by simpa [setPhase, h.waiting] using hp)
    (by simpa [setPhase, h.woken] using hp') h.enough

theorem check (hphase : s.phase s.current = .entered ∨ s.phase s.current = .woken) (memory : Bool) :
    Counts (s.check memory) (W.erase s.current) := by
  have hnot : s.current ∉ s.waiters := by
    rw [h.waiting]
    rcases hphase with hphase | hphase <;> simp [hphase]
  have hcard := pred_card_le_card_erase (s := W) (a := s.current)
  have hoth : ∀ u, u ≠ s.current → (u ∈ W.erase s.current ↔ u ∈ W) := fun u hu => by simp [hu]
  unfold SemState.check
  split
  case isTrue hvalue =>
    refine h.move s.current (fun u hu => update_of_ne hu _ _) h.nodup (fun _ _ => Iff.rfl) hoth
      (by simp [setPhase, hnot]) (by simp [setPhase]) fun hne => ?_
    have hle := h.enough hne
    have hdec : (s.value - 1).toNat = s.value.toNat - 1 := by bv_omega
    change (s.value - 1).toNat ≤ _
    omega
  case isFalse hzero =>
  have hnonneg : s.value.toNat ≤ (W.erase s.current).card := by
    rw [not_not.mp hzero]
    exact zero_le
  split
  · refine h.move s.current (fun u hu => update_of_ne hu _ _) ?_
      (fun u hu => by simp [setPhase, hu])
      hoth (by simp [setPhase]) (by simp [setPhase]) fun _ => hnonneg
    exact nodup_append.mpr ⟨h.nodup, nodup_singleton _, fun u hu v hv heq =>
      hnot (List.mem_singleton.mp hv ▸ heq ▸ hu)⟩
  · exact h.move s.current (fun u hu => update_of_ne hu _ _) h.nodup (fun _ _ => Iff.rfl) hoth
      (by simp [setPhase, hnot]) (by simp [setPhase]) fun _ => hnonneg

/-- A post wakes the first waiter. -/
theorem post (hprompt : ∀ w ∈ s.waiters.head?, s.phase w = .blocked) : ∃ W', Counts s.post W' := by
  unfold SemState.post
  split
  case h_1 hnil => exact ⟨W, h.nodup, h.waiting, h.woken, absurd hnil⟩
  case h_2 w ws hcons =>
  have hphase : s.phase w = .blocked := hprompt w (by rw [hcons]; rfl)
  have hnd := h.nodup
  rw [hcons, nodup_cons] at hnd
  have hw : w ∉ W := by simp [h.woken, hphase]
  rw [unblock, if_pos hphase]
  refine ⟨insert w W, h.move w (fun u hu => update_of_ne hu _ _) hnd.2
    (fun u hu => by simp [setPhase, hcons, hu]) (fun u hu => by simp [hu])
    (by simp [setPhase, hnd.1]) (by simp [setPhase]) fun _ => ?_⟩
  have hle := h.enough (hcons ▸ cons_ne_nil w ws)
  have hinc : (s.value + 1).toNat ≤ s.value.toNat + 1 := by bv_omega
  rw [card_insert_of_notMem hw]
  exact hinc.trans (Nat.succ_le_succ hle)

theorem step {e} (hprompt : s.Prompt e) (hstep : s.step e = some s') : ∃ W', Counts s' W' := by
  cases e <;> obtain ⟨hcan, heq⟩ := ite_none_right_eq_some.mp hstep <;> cases heq
  case call => exact ⟨W, h.stay (by simp [hcan]) (by simp [hcan])⟩
  case check memory => exact ⟨_, h.check hcan memory⟩
  case block => exact ⟨W, h.stay (by simp [hcan]) (by simp [hcan])⟩
  case post => exact h.post hprompt
  case reschedule => exact ⟨W, h.nodup, h.waiting, h.woken, h.enough⟩

end Counts

/-- Without a post between registering and blocking, no wake-up is lost. -/
theorem no_lost_wakeup {value : BitVec 32} {current : T} {events : List (SemStep T)}
    (hrun : GuardedRun step Prompt (start value current) events s) : ¬ s.Lost := by
  obtain ⟨W, h⟩ := hrun.inv (fun s => ∃ W, Counts s W)
    (fun _ _ _ ⟨_, h⟩ hprompt hstep => h.step hprompt hstep)
    ⟨∅, nodup_nil, by simp [start], by simp [start], absurd rfl⟩
  exact h.not_lost

/-- Thread 1 posts when thread 0 is blocked. -/
theorem no_lost_wakeup_postLater : ∃ s, GuardedRun step Prompt (start 0 (0 : Fin 2))
    [.call, .check true, .block, .reschedule 1, .post] s ∧ s.phase 0 = .woken ∧ ¬ s.Lost := by
  apply exists_and_of (by decide +kernel)
  intro s hrun _
  exact no_lost_wakeup hrun

/-- Thread 1 posts after thread 0 has registered and before it blocks. -/
theorem wakeup_lost : ∃ s, run step (start 0 (0 : Fin 2))
    [.call, .check true, .reschedule 1, .post, .reschedule 0, .block] = some s ∧
      0 < s.value.toInt ∧ (∀ t, s.phase t ≠ .woken) ∧ ∃ t, s.phase t = .blocked := by
  decide +kernel

/-! ### How often the semaphore is taken -/

/-- `sem_trywait_syscall` under the lock. -/
def trywait (s : SemState T) : SemState T :=
  if s.value = 0 then s else { s with value := s.value - 1 }

end SemState

/-- A semaphore, the posts to it and the waits and tries that succeeded. -/
structure SemCount (T : Type) where
  sem : SemState T
  posts : Nat
  taken : Nat

inductive CountStep (T : Type) where
  | step (e : SemStep T)
  | trywait

namespace SemCount

open SemState

variable {T : Type} [DecidableEq T] {v : Nat} {c c' : SemCount T}

def step (c : SemCount T) : CountStep T → Option (SemCount T)
  | .step e => (c.sem.step e).map fun s =>
    match e with
    | .post => ⟨s, c.posts + 1, c.taken⟩
    | .check _ => ⟨s, c.posts, if c.sem.value ≠ 0 then c.taken + 1 else c.taken⟩
    | _ => ⟨s, c.posts, c.taken⟩
  | .trywait =>
    if c.sem.phase c.sem.current = .outside then
      some ⟨c.sem.trywait, c.posts, if c.sem.value ≠ 0 then c.taken + 1 else c.taken⟩
    else none

/-- `sem_open_syscall` with the value `v`. -/
def start (v : Nat) (current : T) : SemCount T := ⟨.start (BitVec.ofNat 32 v) current, 0, 0⟩

/-- As long as the posts fit, the semaphore is not taken too often and its value says how often
it still can be. -/
def Conserved (v : Nat) (c : SemCount T) : Prop :=
  v + c.posts < 2 ^ 32 →
    c.taken ≤ v + c.posts ∧ c.sem.value = BitVec.ofNat 32 (v + c.posts - c.taken)

namespace Conserved

variable (h : Conserved v c)
include h

omit [DecidableEq T] in
/-- A successful wait or try, or one that finds zero. -/
theorem take {s' : SemState T}
    (hvalue : s'.value = if c.sem.value ≠ 0 then c.sem.value - 1 else c.sem.value) :
    Conserved v ⟨s', c.posts, if c.sem.value ≠ 0 then c.taken + 1 else c.taken⟩ := by
  intro hfits
  obtain ⟨hle, heq⟩ := h hfits
  dsimp only
  rw [hvalue]
  split
  case isTrue hne =>
    have hpos : v + c.posts - c.taken ≠ 0 := fun hzero => hne (by rw [heq, hzero]; rfl)
    obtain ⟨n, hn⟩ := Nat.exists_eq_succ_of_ne_zero hpos
    refine ⟨by omega, ?_⟩
    rw [heq, hn, show v + c.posts - (c.taken + 1) = n by omega, sub_eq_iff_eq_add]
    exact BitVec.ofNat_add n 1
  · exact ⟨hle, heq⟩

theorem step {e : CountStep T} (hstep : c.step e = some c') : Conserved v c' := by
  cases e with
  | trywait =>
    obtain ⟨-, ⟨⟩⟩ := ite_none_right_eq_some.mp hstep
    refine h.take ?_
    unfold trywait
    split <;> simp_all
  | step e =>
    obtain ⟨s, hs, rfl⟩ := map_eq_some_iff.mp hstep
    cases e <;> obtain ⟨-, ⟨⟩⟩ := ite_none_right_eq_some.mp hs
    case check memory =>
      refine h.take ?_
      unfold SemState.check
      split
      · rfl
      · split <;> rfl
    case post =>
      intro hfits
      dsimp only at hfits
      obtain ⟨hle, heq⟩ := h (by omega)
      have hvalue : c.sem.post.value = c.sem.value + 1 := by
        unfold SemState.post unblock
        split
        · rfl
        · split <;> rfl
      refine ⟨by dsimp only; omega, ?_⟩
      dsimp only
      rw [hvalue, heq, show v + (c.posts + 1) - c.taken = v + c.posts - c.taken + 1 by omega]
      exact (BitVec.ofNat_add _ 1).symm
    all_goals exact h

end Conserved

/-- A semaphore is taken at most as often as its first value and the posts allow, and its value
is what is left. -/
theorem semaphore_conserved (current : T) {events : List (CountStep T)}
    (hrun : run step (start v current) events = some c) (hposts : v + c.posts < 2 ^ 32) :
    c.taken ≤ v + c.posts ∧ c.sem.value.toInt = (v + c.posts - c.taken : Int).bmod (2 ^ 32) := by
  have h : Conserved v c := run_inv (Conserved v) (fun _ _ _ h hstep => h.step hstep)
    (fun _ => ⟨zero_le, rfl⟩) hrun
  obtain ⟨hle, heq⟩ := h hposts
  refine ⟨hle, ?_⟩
  rw [heq, BitVec.toInt_ofNat', Nat.cast_sub hle, Nat.cast_add]

/-- From 2147483648 on, which the `int` holds as a negative number. -/
theorem semaphore_conserved_large :
    ∃ c, run step (start (2 ^ 31) (0 : Fin 2)) [.trywait, .step .call, .step (.check true),
      .step .post] = some c ∧ 2 ^ 31 + c.posts < 2 ^ 32 ∧ c.taken ≤ 2 ^ 31 + c.posts := by
  apply exists_and_of (by decide +kernel)
  intro c hrun hposts
  exact (semaphore_conserved 0 hrun hposts).1

end SemCount

end Kurios.Ipc
