import Kurios.Base.Loop

/-!
The NOOP scheduler of `kernel/drivers/io_sched.c`: `io_sched_add_request` and
`io_sched_dispatch`.

`noop_merge` adds a new request to any queued one of the same type that ends where it begins, or
begins where it ends. The buffer of the new request is dropped, and what is queued in between is
overtaken. So the disk gets other data than it was given (`merged_write_lost`), unless a merged
request continues the last of the queue in the buffer as well: `io_sched_transparent`.

The queue is a list, head first. The statistics, the callbacks and the lock are left out.
-/

namespace Kurios.Drivers

open Base Function Option List

/-- `block_req_type_t`. -/
inductive ReqType where
  | read
  | write
  | flush
deriving DecidableEq, Repr

/-- `block_request_t`. -/
structure Request where
  type : ReqType
  sector : UInt64
  count : UInt32
  buffer : UInt64
deriving DecidableEq, Repr

/-- A request of the queue. `parts` are the requests that were merged into it, in the order in
which they were added. -/
structure Entry where
  req : Request
  parts : List Request
deriving DecidableEq, Repr

/-- `noop_merge`: the queue afterwards, if a request was found to merge with. -/
def noopMerge : List Entry → Request → Option (List Entry)
  | [], _ => none
  | e :: queue, new =>
    if e.req.type ≠ new.type then (noopMerge queue new).map (e :: ·)
    else if e.req.sector + e.req.count.toUInt64 = new.sector then
      some (⟨{ e.req with count := e.req.count + new.count }, e.parts ++ [new]⟩ :: queue)
    else if new.sector + new.count.toUInt64 = e.req.sector then
      some (⟨{ e.req with sector := new.sector, count := e.req.count + new.count },
        e.parts ++ [new]⟩ :: queue)
    else (noopMerge queue new).map (e :: ·)

/-- `io_sched_add_request`. -/
def ioSchedAddRequest (queue : List Entry) (req : Request) : List Entry :=
  match noopMerge queue req with
  | some queue => queue
  | none => queue ++ [⟨req, [req]⟩]

/-- `io_sched_dispatch`. -/
def ioSchedDispatch : List Entry → Option Entry × List Entry
  | [] => (none, [])
  | e :: queue => (some e, queue)

/-! ### Executing requests -/

/-- The contents of a disk and of memory. -/
structure Machine where
  disk : UInt64 → Fin 512 → UInt8
  mem : UInt64 → UInt8

/-- The transfer of one sector to or from memory at `addr`. -/
def transferSector (type : ReqType) (sector addr : UInt64) (m : Machine) : Machine :=
  match type with
  | .read =>
    { m with
      mem := fun a =>
        if h : (a - addr).toNat < 512 then m.disk sector ⟨(a - addr).toNat, h⟩ else m.mem a }
  | .write => { m with disk := update m.disk sector fun i => m.mem (addr + .ofNat i) }
  | .flush => m

def Request.execute (r : Request) (m : Machine) : Machine :=
  forRange 0 r.count.toNat
    (fun i => transferSector r.type (r.sector + .ofNat i) (r.buffer + 512 * .ofNat i)) m

def executeAll (rs : List Request) (m : Machine) : Machine := rs.foldl (fun m r => r.execute m) m

/-! ### Runs -/

/-- The queue, what has been dispatched, and what was submitted, in order. -/
structure History where
  queue : List Entry
  dispatched : List Entry
  submitted : List Request

inductive Call where
  | add (req : Request)
  | dispatch
deriving DecidableEq

namespace History

def start : History := ⟨[], [], []⟩

variable (h : History)

def step : Call → Option History
  | .add req => some ⟨ioSchedAddRequest h.queue req, h.dispatched, h.submitted ++ [req]⟩
  | .dispatch =>
    let (e, queue) := ioSchedDispatch h.queue
    some ⟨queue, h.dispatched ++ e.toList, h.submitted⟩

/-- All that was taken in, in the order in which it is executed. -/
def taken : List Entry := h.dispatched ++ h.queue

/-- Each submitted request is in exactly one request that is or will be dispatched, and these
do together what the submitted ones do in their order. Some more dispatches empty the queue. -/
structure Transparent (h : History) : Prop where
  once : h.taken.flatMap Entry.parts = h.submitted
  same : ∀ m, executeAll (h.taken.map Entry.req) m = executeAll h.submitted m
  drains : ∃ h', run step h (replicate h.queue.length .dispatch) = some h' ∧ h'.queue = [] ∧
    h'.dispatched = h.taken

/-- The second request goes on where the first ends, on the disk and in memory. -/
def Continues (r new : Request) : Prop :=
  r.type = new.type ∧ r.sector + r.count.toUInt64 = new.sector ∧
    r.buffer + 512 * r.count.toUInt64 = new.buffer ∧ r.count.toNat + new.count.toNat < 2 ^ 32
deriving Decidable

/-- A request is merged with none, or with the last of the queue, which it continues. -/
def InOrder : Call → Prop
  | .add new =>
    (noopMerge h.queue new).isNone = true ∨ (noopMerge h.queue.dropLast new).isNone = true ∧
      h.queue.getLast?.any (fun e => decide (Continues e.req new)) = true
  | .dispatch => True

instance (h : History) (c : Call) : Decidable (h.InOrder c) := by
  cases c <;> unfold InOrder <;> infer_instance

end History

/-! ### Merging in order -/

theorem executeAll_append (rs qs : List Request) (m : Machine) :
    executeAll (rs ++ qs) m = executeAll qs (executeAll rs m) :=
  foldl_append

variable {new : Request}

/-- A request that continues another is the rest of the merged one. -/
theorem execute_merged {r} (h : History.Continues r new) (m : Machine) :
    ({ r with count := r.count + new.count } : Request).execute m = new.execute (r.execute m) := by
  obtain ⟨htype, hsector, hbuffer, hcnt⟩ := h
  have hsum : (r.count + new.count).toNat = r.count.toNat + new.count.toNat := by
    exact Nat.mod_eq_of_lt hcnt
  have hofNat : ∀ i, UInt64.ofNat (r.count.toNat + i) = r.count.toUInt64 + UInt64.ofNat i := by
    intro i
    rw [UInt64.ofNat_add, ← UInt32.toNat_toUInt64, UInt64.ofNat_toNat]
  unfold Request.execute
  rw [hsum, forRange_add]
  congr 1
  funext i
  rw [hofNat, ← hsector, ← hbuffer, htype, UInt64.add_assoc, UInt64.mul_add, UInt64.add_assoc]

theorem noopMerge_append {queue} (hnone : noopMerge queue new = none) (e : Entry) :
    noopMerge (queue ++ [e]) new = (noopMerge [e] new).map (queue ++ ·) := by
  induction queue with
  | nil => simp
  | cons x queue ih =>
    simp only [noopMerge, cons_append] at hnone ⊢
    split at hnone
    case isTrue htype =>
      rw [if_pos htype, ih (map_eq_none_iff.mp hnone)]
      simp [noopMerge, Option.map_map, comp_def]
    case isFalse htype =>
    split at hnone
    · cases hnone
    case isFalse hafter =>
    rw [if_neg hafter]
    split at hnone
    · cases hnone
    case isFalse hbef =>
    rw [if_neg hbef, ih (map_eq_none_iff.mp hnone)]
    simp [noopMerge, Option.map_map, comp_def]

namespace History

variable {h h' : History}

/-- What is taken in is what was submitted, piece by piece. -/
structure Ordered (h : History) : Prop where
  once : h.taken.flatMap Entry.parts = h.submitted
  whole : ∀ e ∈ h.taken, ∀ m, e.req.execute m = executeAll e.parts m

/-- What an addition in order does to the queue. -/
theorem add_cases (hin : h.InOrder (.add new)) :
    ioSchedAddRequest h.queue new = h.queue ++ [⟨new, [new]⟩] ∨
      ∃ queue e, h.queue = queue ++ [e] ∧ Continues e.req new ∧
        ioSchedAddRequest h.queue new =
          queue ++ [⟨{ e.req with count := e.req.count + new.count }, e.parts ++ [new]⟩] := by
  unfold ioSchedAddRequest
  obtain hnone | ⟨hrest, hlast⟩ := hin
  · left
    rw [isNone_iff_eq_none.mp hnone]
  right
  obtain ⟨e, he, hcont⟩ := (any_eq_true _ _).mp hlast
  have hqueue : h.queue = h.queue.dropLast ++ [e] := (dropLast_append_getLast? e he).symm
  have hcont := of_decide_eq_true hcont
  refine ⟨h.queue.dropLast, e, hqueue, hcont, ?_⟩
  rw [hqueue, dropLast_concat, noopMerge_append (isNone_iff_eq_none.mp hrest)]
  simp [noopMerge, hcont.1, hcont.2.1]

theorem step_dispatch (hstep : h.step .dispatch = some h') :
    h'.taken = h.taken ∧ h'.submitted = h.submitted := by
  rw [← some.inj hstep]
  unfold taken
  cases h.queue <;> simp

theorem Ordered.step {c} (hord : Ordered h) (hin : h.InOrder c)
    (hstep : h.step c = some h') : Ordered h' := by
  obtain ⟨honce, hwhole⟩ := hord
  cases c with
  | dispatch =>
    obtain ⟨htaken, hsubmitted⟩ := step_dispatch hstep
    exact ⟨htaken ▸ hsubmitted ▸ honce, htaken ▸ hwhole⟩
  | add new =>
    cases hstep
    obtain heq | ⟨queue, e, hqueue, hcont, heq⟩ := add_cases hin
    · constructor
      case once =>
        simp only [taken, heq, ← honce, flatMap_append, append_assoc]
        simp
      case whole =>
      intro x hx m
      simp only [taken, heq, ← append_assoc, mem_append, mem_singleton] at hx
      obtain hx | rfl := hx
      · exact hwhole x (mem_append.mpr hx) m
      · rfl
    have hlast : e ∈ h.taken := by simp [taken, hqueue]
    constructor
    case once =>
      rw [taken, hqueue] at honce
      simp only [taken, heq, ← honce, flatMap_append, append_assoc]
      simp
    case whole =>
    intro x hx m
    simp only [taken, heq, ← append_assoc, mem_append, mem_singleton] at hx
    obtain hx | rfl := hx
    · refine hwhole x ?_ m
      rw [taken, hqueue, mem_append, mem_append]
      exact hx.imp_right .inl
    · rw [execute_merged hcont, hwhole e hlast, executeAll_append]
      rfl

/-- Requests that do what their parts do, do it together. -/
theorem executeAll_flatMap {entries : List Entry}
    (hwhole : ∀ e ∈ entries, ∀ m, e.req.execute m = executeAll e.parts m) (m : Machine) :
    executeAll (entries.map Entry.req) m = executeAll (entries.flatMap Entry.parts) m := by
  induction entries generalizing m with
  | nil => rfl
  | cons e entries ih =>
    rw [flatMap_cons, executeAll_append, ← hwhole e mem_cons_self]
    exact ih (fun x hx => hwhole x (mem_cons_of_mem e hx)) _

theorem drains (h : History) :
    ∃ h', run step h (replicate h.queue.length .dispatch) = some h' ∧ h'.queue = [] ∧
      h'.dispatched = h.taken := by
  obtain ⟨queue, dispatched, submitted⟩ := h
  induction queue generalizing dispatched with
  | nil => exact ⟨_, rfl, rfl, by simp [taken]⟩
  | cons e queue ih =>
    obtain ⟨h', hrun, hemp, hall⟩ := ih (dispatched ++ [e])
    refine ⟨h', run_cons.mpr ⟨_, rfl, hrun⟩, hemp, ?_⟩
    rw [hall, taken, taken, append_assoc]
    rfl

/-- **Scheduler transparency.** As long as requests are only merged with the last of the queue, and
continue it in memory too, the requests that are dispatched do what the submitted ones would
have done. -/
theorem io_sched_transparent {calls : List Call} (hrun : GuardedRun step InOrder start calls h) :
    Transparent h := by
  have hord : Ordered h := hrun.inv Ordered (fun _ _ _ hord => hord.step)
    ⟨rfl, fun _ he => absurd he not_mem_nil⟩
  constructor
  case once => exact hord.once
  case same =>
    intro m
    rw [executeAll_flatMap hord.whole, hord.once]
  case drains => exact h.drains

/-- A read, and two writes of which the second continues the first. -/
def inOrderCalls : List Call :=
  [.add ⟨.read, 8, 2, 0x1000⟩, .add ⟨.write, 20, 1, 0x8000⟩, .add ⟨.write, 21, 2, 0x8200⟩,
    .dispatch]

theorem io_sched_transparent_inOrderCalls : ∃ h, GuardedRun step InOrder start inOrderCalls h ∧
      h.queue.map Entry.req = [⟨.write, 20, 3, 0x8000⟩] ∧ Transparent h := by
  apply exists_and_of (by decide +kernel)
  intro h hrun _
  exact io_sched_transparent hrun

/-- Two writes to neighbouring sectors from different buffers: the second sector is written with
what lies behind the first buffer. -/
theorem merged_write_lost :
    ∃ h, run step start [.add ⟨.write, 0, 1, 0x1000⟩, .add ⟨.write, 1, 1, 0x8000⟩, .dispatch] =
        some h ∧ h.queue = [] ∧ ∃ m, (executeAll (h.dispatched.map Entry.req) m).disk 1 0 ≠
        (executeAll h.submitted m).disk 1 0 := by
  refine ⟨_, rfl, rfl, ⟨fun _ _ => 0, fun a => if a = 0x8000 then 1 else 0⟩, ?_⟩
  decide +kernel

end History

end Kurios.Drivers
