import Kurios.Base.Loop
import Kurios.Base.Slots

/-!
The names of Unix domain sockets, `kernel/net/unix_socket.c`.

`bound_sockets` is searched for the first socket with a given path. `connect` writes the path
of the other socket into the same field, so a socket that has bound a name answers to another
one afterwards (`connect_renames`). If only sockets without a name connect and names fit
into the field, `unix_socket_find_by_path` finds the socket that bound the path and no other
(`found_iff_named`). Use of memory that is freed, and a lock that is taken twice, are steps
that are not defined.
-/

namespace Kurios.Net

open Base Function Option

variable {path : List UInt8}

/-- `MAX_UNIX_SOCKETS`, and the room for a path before its last zero, `UNIX_PATH_MAX - 1`. -/
def maxUnixSockets : Nat := 256
def unixPathMax : Nat := 107

/-- `unix_socket_t`, without the data that is sent. -/
structure UnixSocket where
  stream : Bool
  path : List UInt8
  bound : Bool
  listening : Bool
  connected : Bool
  peer : Option Nat
  connQueue : List Nat
  backlog : Int
deriving DecidableEq, Repr

/-- Sockets by address; `named` are the paths that sockets have bound. -/
structure UnixState where
  sock : Nat → Option UnixSocket
  boundSockets : Nat → Option Nat
  named : Nat → Option (List UInt8)

namespace UnixState

variable (s : UnixState)

/-- `unix_socket_find_by_path`. -/
def findByPath (path : List UInt8) : Option Nat :=
  findSlot maxUnixSockets s.boundSockets fun n => (s.sock n).any (·.path = path)

section

variable (n : Nat)

def set (k : UnixSocket) : UnixState :=
  { s with sock := update s.sock n (some k) }

/-- `unix_socket_create`, when there is memory. -/
def create (stream : Bool) : UnixState :=
  s.set n ⟨stream, [], false, false, false, none, [], 0⟩

/-- `unix_socket_bind`. -/
def bind (k : UnixSocket) (path : List UInt8) : Int × UnixState :=
  if k.bound then (-22, s)
  else if (s.findByPath path).isSome then (-98, s)
  else
    let k := { k with path := path.take unixPathMax }
    match freeSlot maxUnixSockets s.boundSockets with
    | none => (-23, s.set n k)
    | some i =>
      (0, { s.set n { k with bound := true } with
        boundSockets := update s.boundSockets i (some n)
        named := update s.named n (some path) })

/-- `unix_socket_connect`; `memory` says whether there is room for the entry of the queue. -/
def connect (k : UnixSocket) (path : List UInt8) (memory : Bool) : Option (Int × UnixState) :=
  match s.findByPath path with
  | none => some (-2, s)
  | some m =>
    (s.sock m).bind fun target =>
    let k := { k with connected := true, path := path.take unixPathMax }
    if !k.stream then some (0, s.set n k)
    else if !target.listening then some (-111, s)
    else if m = n then none
    else if target.backlog ≤ target.connQueue.length then some (-11, s)
    else if !memory then some (-12, s)
    else some (0, (s.set m { target with connQueue := target.connQueue ++ [n] }).set n k)

/-- `unix_socket_listen`. -/
def listen (k : UnixSocket) (backlog : Int) : Int × UnixState :=
  if !k.stream ∨ !k.bound then (-22, s)
  else (0, s.set n { k with listening := true, backlog := backlog })

/-- `unix_socket_accept`, where `new` is the address of the new socket if there is memory. -/
def accept (k : UnixSocket) (new : Option Nat) : Option UnixState :=
  if !k.stream ∨ !k.listening then some s
  else
    match k.connQueue, new with
    | [], _ => some s
    | _ :: queue, none => some (s.set n { k with connQueue := queue })
    | client :: queue, some new =>
      let s := s.set n { k with connQueue := queue }
      (s.sock client).map fun c =>
        (s.set new ⟨true, k.path.take unixPathMax, true, false, true, some client, [],
          0⟩).set client
          { c with peer := some new, connected := true }

/-- The socket is no longer found, if it is bound. -/
def unname (k : UnixSocket) : UnixState :=
  if k.bound then
    { s with
      boundSockets := clearSlot maxUnixSockets s.boundSockets n
      named := update s.named n none }
  else s

end

def disconnectPeer : Option Nat → Option UnixState
  | none => some s
  | some m => (s.sock m).map fun k => s.set m { k with peer := none, connected := false }

/-- `unix_socket_destroy`. -/
def destroy (n : Nat) (k : UnixSocket) : Option UnixState :=
  ((s.unname n k).disconnectPeer k.peer).map fun s => { s with sock := update s.sock n none }

inductive Call where
  | socket (n : Nat) (stream : Bool)
  | bind (n : Nat) (path : List UInt8)
  | listen (n : Nat) (backlog : Int)
  | connect (n : Nat) (path : List UInt8) (memory : Bool)
  | accept (n : Nat) (new : Option Nat)
  | sendto (n : Nat) (path : List UInt8)
  | destroy (n : Nat)

/-- A call on a socket that exists; new sockets get memory of their own. What is sent changes
no name. -/
def step : Call → Option UnixState
  | .socket n stream => if s.sock n = none then some (s.create n stream) else none
  | .bind n path => (s.sock n).map fun k => (s.bind n k path).2
  | .listen n backlog => (s.sock n).map fun k => (s.listen n k backlog).2
  | .connect n path memory => (s.sock n).bind fun k => (s.connect n k path memory).map Prod.snd
  | .accept n new =>
    if ∀ m ∈ new, s.sock m = none then (s.sock n).bind fun k => s.accept n k new else none
  | .sendto n _ => (s.sock n).map fun _ => s
  | .destroy n => (s.sock n).bind fun k => s.destroy n k

/-- A socket that has bound a name does not connect, and names fit into the field. -/
def Careful : Call → Prop
  | .bind _ path => path.length ≤ unixPathMax
  | .connect n _ _ => s.named n = none
  | _ => True

instance (s : UnixState) (c : Call) : Decidable (s.Careful c) := by
  cases c <;> unfold Careful <;> infer_instance

def start : UnixState := ⟨fun _ => none, fun _ => none, fun _ => none⟩

/-- The table holds the sockets with names, which have these names in their fields. -/
structure Named (s : UnixState) : Prop where
  table : Holds maxUnixSockets s.boundSockets fun n => s.named n ≠ none
  path : ∀ n p, s.named n = some p → ∃ k, s.sock n = some k ∧ k.path = p ∧ k.bound = true
  inj : ∀ n m p, s.named n = some p → s.named m = some p → n = m

namespace Named

variable {s s' : UnixState} {n : Nat} {k l : UnixSocket}

section

variable (h : Named s)
include h

theorem found_iff (p : List UInt8) (n : Nat) : s.findByPath p = some n ↔ s.named n = some p := by
  have hany : ∀ m q, s.named m = some q → ((s.sock m).any (·.path = p) = true ↔ q = p) := by
    intro m q hm
    obtain ⟨k, hk, rfl, -⟩ := h.path m q hm
    simp [hk]
  refine (h.table.find_iff (fun a b ha hb hfa hfb => ?_) n).trans
    ⟨fun ⟨hn, hfit⟩ => ?_, fun hn => ?_⟩
  · obtain ⟨q, hq⟩ := ne_none_iff_exists'.mp ha
    obtain ⟨r, hr⟩ := ne_none_iff_exists'.mp hb
    rw [(hany a q hq).mp hfa] at hq
    rw [(hany b r hr).mp hfb] at hr
    exact h.inj a b p hq hr
  · obtain ⟨q, hq⟩ := ne_none_iff_exists'.mp hn
    rw [hq, (hany n q hq).mp hfit]
  · exact ⟨by simp [hn], (hany n p hn).mpr rfl⟩

/-- A socket is written: one without a name, or one that keeps its path. -/
theorem set (hk : s.named n = none ∨ ∃ k, s.sock n = some k ∧ l.path = k.path ∧ l.bound = k.bound) :
    Named (s.set n l) := by
  refine ⟨h.table, fun m p hm => ?_, h.inj⟩
  obtain ⟨k, hk', hrest⟩ := h.path m p hm
  by_cases hmn : m = n
  · subst hmn
    rcases hk with hnone | ⟨k0, hk0, hpath, hbound⟩
    · cases hnone.symm.trans hm
    · cases hk'.symm.trans hk0
      exact ⟨l, update_self _ _ _, hpath ▸ hbound ▸ hrest⟩
  · exact ⟨k, (update_of_ne hmn _ _).trans hk', hrest⟩

/-- Only bound sockets have names. -/
theorem not_named (hn : ∀ k, s.sock n = some k → ¬ k.bound = true) : s.named n = none := by
  by_contra hne
  obtain ⟨p, hp⟩ := ne_none_iff_exists'.mp hne
  obtain ⟨k, hk, -, hbound⟩ := h.path n p hp
  exact hn k hk hbound

theorem bind (hk : s.sock n = some k) (hpath : path.length ≤ unixPathMax) :
    Named (s.bind n k path).2 := by
  unfold UnixState.bind
  split
  · exact h
  split
  · exact h
  case isFalse hbound hfree =>
  have hnone := h.not_named fun k' hk' => some.inj (hk.symm.trans hk') ▸ hbound
  have hnew : ∀ m, s.named m ≠ some path := fun m hm => by
    simp [(h.found_iff path m).mpr hm] at hfree
  split
  · exact h.set (.inl hnone)
  case h_2 i hi =>
  refine ⟨?_, fun m q hm => ?_, fun m m' q hm hm' => ?_⟩
  · convert h.table.put hi (by simpa using hnone) using 1
    funext m
    by_cases hmn : m = n <;> simp [hmn]
  · rcases update_cases hm with ⟨rfl, ⟨⟩⟩ | ⟨hmn, hold⟩
    · exact ⟨_, update_self _ _ _, List.take_of_length_le hpath, rfl⟩
    · obtain ⟨k0, hk0, hrest⟩ := h.path m q hold
      exact ⟨k0, (update_of_ne hmn _ _).trans hk0, hrest⟩
  rcases update_cases hm with ⟨rfl, ⟨⟩⟩ | ⟨-, hold⟩ <;>
    rcases update_cases hm' with ⟨rfl, hq⟩ | ⟨-, hold'⟩
  · rfl
  · exact absurd hold' (hnew m')
  · exact absurd (hold.trans hq.symm) (hnew m)
  · exact h.inj m m' q hold hold'

theorem connect (hn : s.named n = none) {memory r}
    (hconnect : s.connect n k path memory = some (r, s')) : Named s' := by
  unfold UnixState.connect at hconnect
  split at hconnect
  · cases hconnect
    exact h
  case h_2 m _ =>
  obtain ⟨target, htarget, hconnect⟩ := bind_eq_some_iff.mp hconnect
  dsimp only at hconnect
  have hqueued : Named (s.set m { target with connQueue := target.connQueue ++ [n] }) :=
    h.set (.inr ⟨target, htarget, rfl, rfl⟩)
  repeat' split at hconnect
  all_goals cases hconnect
  all_goals first | exact h | exact h.set (.inl hn) | exact hqueued.set (.inl hn)

theorem accept (hk : s.sock n = some k) {new} (hnew : ∀ m ∈ new, s.sock m = none)
    (haccept : s.accept n k new = some s') : Named s' := by
  unfold UnixState.accept at haccept
  iterate 2
    split at haccept
    · cases haccept
      exact h
  · cases haccept
    exact h.set (.inr ⟨k, hk, rfl, rfl⟩)
  case h_3 client queue m _ =>
  obtain ⟨c, hc, rfl⟩ := map_eq_some_iff.mp haccept
  have hnone := h.not_named (n := m) (by simp [hnew m rfl])
  have hset := (h.set (l := { k with connQueue := queue }) (.inr ⟨k, hk, rfl, rfl⟩)).set
    (l := ⟨true, k.path.take unixPathMax, true, false, true, some client, [], 0⟩) (.inl hnone)
  refine hset.set ?_
  by_cases hcm : client = m
  · exact .inl (hcm ▸ hnone)
  · exact .inr ⟨c, (update_of_ne hcm _ _).trans hc, rfl, rfl⟩

theorem destroy (hk : s.sock n = some k) (hdes : s.destroy n k = some s') : Named s' := by
  obtain ⟨s1, hpeer, rfl⟩ := map_eq_some_iff.mp hdes
  obtain ⟨hnamed, hgone⟩ : Named (s.unname n k) ∧ (s.unname n k).named n = none := by
    unfold unname
    split
    case isFalse hbound =>
      exact ⟨h, h.not_named fun k' hk' => some.inj (hk.symm.trans hk') ▸ hbound⟩
    case isTrue =>
    have hold : ∀ m q, update s.named n none m = some q → s.named m = some q := fun m q hm => by
      by_cases hmn : m = n <;> simp_all
    refine ⟨⟨?_, fun m q hm => h.path m q (hold m q hm), fun m m' q hm hm' =>
      h.inj m m' q (hold m q hm) (hold m' q hm')⟩, update_self _ _ _⟩
    convert h.table.clear n using 1
    funext m
    by_cases hmn : m = n <;> simp [hmn]
  obtain ⟨h1, hnone⟩ : Named s1 ∧ s1.named n = none := by
    cases hp : k.peer with
    | none =>
      rw [hp] at hpeer
      cases hpeer
      exact ⟨hnamed, hgone⟩
    | some m =>
      rw [hp] at hpeer
      obtain ⟨k', hk', rfl⟩ := map_eq_some_iff.mp hpeer
      exact ⟨hnamed.set (.inr ⟨k', hk', rfl, rfl⟩), hgone⟩
  refine ⟨h1.table, fun m q hm => ?_, h1.inj⟩
  obtain ⟨k0, hk0, hrest⟩ := h1.path m q hm
  refine ⟨k0, (update_of_ne ?_ _ _).trans hk0, hrest⟩
  rintro rfl
  cases hnone.symm.trans hm

theorem step {c} (hcare : s.Careful c) (hstep : s.step c = some s') : Named s' := by
  cases c with
  | socket n stream =>
    obtain ⟨hfresh, rfl⟩ := ite_eq_some hstep
    exact h.set (.inl (h.not_named (by simp [hfresh])))
  | bind n path =>
    obtain ⟨k, hk, rfl⟩ := map_eq_some_iff.mp hstep
    exact h.bind hk hcare
  | listen n backlog =>
    obtain ⟨k, hk, rfl⟩ := map_eq_some_iff.mp hstep
    unfold UnixState.listen
    split
    · exact h
    · exact h.set (.inr ⟨k, hk, rfl, rfl⟩)
  | connect n path memory =>
    obtain ⟨k, hk, hstep⟩ := bind_eq_some_iff.mp hstep
    obtain ⟨⟨r, s1⟩, hconnect, rfl⟩ := map_eq_some_iff.mp hstep
    exact h.connect hcare hconnect
  | accept n new =>
    obtain ⟨hnew, hstep⟩ := ite_none_right_eq_some.mp hstep
    obtain ⟨k, hk, haccept⟩ := bind_eq_some_iff.mp hstep
    exact h.accept hk hnew haccept
  | sendto =>
    obtain ⟨k, hk, rfl⟩ := map_eq_some_iff.mp hstep
    exact h
  | destroy n =>
    obtain ⟨k, hk, hdes⟩ := bind_eq_some_iff.mp hstep
    exact h.destroy hk hdes

end

end Named

/-- The socket that bound a path is the one that is found there, and no other. -/
theorem found_iff_named {s : UnixState} {calls : List Call}
    (hrun : GuardedRun step Careful start calls s) (p : List UInt8) (n : Nat) :
    s.findByPath p = some n ↔ s.named n = some p := by
  refine (hrun.inv Named (fun _ _ _ h => h.step) ?_).found_iff p n
  exact ⟨⟨nofun, by simp [start], nofun⟩, nofun, nofun⟩

/-- A client connects to a listening socket and is accepted; the new socket is destroyed. -/
theorem found_iff_named_accepted : ∃ s, GuardedRun step Careful start [.socket 1 true,
    .bind 1 [47], .listen 1 1, .socket 2 true, .connect 2 [47] true, .accept 1 (some 3),
    .destroy 3] s ∧ s.named 1 = some [47] ∧ s.findByPath [47] = some 1 := by
  apply exists_and_of (by decide +kernel)
  intro s hrun hnamed
  exact (found_iff_named hrun [47] 1).mpr hnamed

/-- Socket 1 has bound a path and connects to that of socket 2: then it answers there. -/
theorem connect_renames : ∃ s, run step start [.socket 1 false, .bind 1 [97], .socket 2 false,
    .bind 2 [98], .connect 1 [98] true] = some s ∧
      s.named 1 = some [97] ∧ s.named 2 = some [98] ∧
      s.findByPath [97] = none ∧ s.findByPath [98] = some 1 := by
  decide +kernel

end UnixState

end Kurios.Net
