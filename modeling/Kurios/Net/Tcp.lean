import Kurios.Base.Loop

/-!
Sequence numbers of a TCP connection.

Data are taken only at `rcv_nxt`, but a FIN is taken at any sequence number: the received
bytes are the stream up to `rcv_nxt` as long as no FIN comes early (`receives_in_order`). In
the established state an acknowledgement is compared with `snd_una` as a number and not with
`snd_nxt` at all; it is treated as it should be while neither has wrapped around and it is
for something that was sent (`acknowledges_in_window`).
-/

namespace Kurios.Net

open Base List BitVec

inductive TcpState where
  | closed | listen | synSent | synReceived | established | finWait1 | finWait2 | closeWait
  | closing | lastAck | timeWait
deriving DecidableEq

structure Connection where
  state : TcpState
  sndUna : BitVec 32
  sndNxt : BitVec 32
  rcvNxt : BitVec 32
  recvBuf : List UInt8
deriving DecidableEq

def tcpRecvBufSize : Nat := 16 * 1024

namespace Connection

/-- `tcp_send_packet`; `counted` says whether it is a SYN or a FIN, which take a number. -/
def sendPacket (c : Connection) (counted : Bool) (len : BitVec 32) (memory : Bool) : Connection :=
  if memory then { c with sndNxt := c.sndNxt + (len + if counted then 1 else 0) } else c

/-- The state when all that was sent is acknowledged. -/
def acked : TcpState → Option TcpState
  | .synSent | .synReceived => some .established
  | .finWait1 => some .finWait2
  | .closing => some .timeWait
  | .lastAck => some .closed
  | _ => none

section

variable (c : Connection)

/-- `tcp_process_ack` -/
def processAck (ack : BitVec 32) : Connection :=
  if c.state = .established then
    if ack > c.sndUna then { c with sndUna := ack } else c
  else
    match acked c.state with
    | some state => if ack = c.sndNxt then { c with state, sndUna := ack } else c
    | none => c

/-- `tcp_process_fin`; the packet that it sends takes no number. -/
def processFin (seq : BitVec 32) : Connection :=
  { c with
    rcvNxt := seq + 1
    state := match c.state with
      | .established => .closeWait
      | .finWait1 => .closing
      | .finWait2 => .timeWait
      | state => state }

def receives : Bool := c.state ∈ [.established, .finWait1, .finWait2]

/-- `tcp_process_data` -/
def processData (seq : BitVec 32) (data : List UInt8) : Connection :=
  if !c.receives ∨ seq ≠ c.rcvNxt then c
  else
    let copied := data.take (tcpRecvBufSize - c.recvBuf.length)
    { c with
      recvBuf := c.recvBuf ++ copied
      rcvNxt := c.rcvNxt + BitVec.ofNat 32 copied.length }

end

variable {c c' : Connection}

/-! ### What is received -/

/-- A segment with its sequence number. -/
inductive Segment where
  | data (seq : BitVec 32) (bytes : List UInt8)
  | fin (seq : BitVec 32)

def receive (c : Connection) : Segment → Option Connection
  | .data seq bytes => some (c.processData seq bytes)
  | .fin seq => some (c.processFin seq)

/-- `n` bytes of the stream that is sent, from a sequence number on. -/
def stream (S : BitVec 32 → UInt8) (seq : BitVec 32) : Nat → List UInt8
  | 0 => []
  | n + 1 => S seq :: stream S (seq + 1) n

/-- Data are of the stream, and a FIN does not come before them: it has the next number or, when
it comes again, the last one. -/
def OfStream (S : BitVec 32 → UInt8) (c : Connection) : Segment → Prop
  | .data seq bytes => bytes = stream S seq bytes.length
  | .fin seq => seq = if c.receives then c.rcvNxt else c.rcvNxt - 1

instance (S : BitVec 32 → UInt8) (c : Connection) (seg : Segment) :
    Decidable (c.OfStream S seg) := by
  cases seg <;> unfold OfStream <;> infer_instance

/-- The buffer holds the stream from `irs` on, up to `rcv_nxt` or to the FIN before it. -/
def InOrder (S : BitVec 32 → UInt8) (irs : BitVec 32) (c : Connection) : Prop :=
  c.recvBuf = stream S irs c.recvBuf.length ∧
    irs + BitVec.ofNat 32 c.recvBuf.length = if c.receives then c.rcvNxt else c.rcvNxt - 1

variable {S : BitVec 32 → UInt8} {irs seq : BitVec 32}

theorem stream_append (n m : Nat) : stream S seq n ++ stream S (seq + BitVec.ofNat 32 n) m =
    stream S seq (n + m) := by
  induction n generalizing seq with
  | zero => simp [stream]
  | succ n ih =>
    rw [Nat.add_right_comm, stream, stream, List.cons_append, ← ih, add_assoc, add_comm 1,
      ofNat_add]
    rfl

theorem take_stream (n k : Nat) :
    (stream S seq n).take k = stream S seq ((stream S seq n).take k).length := by
  induction n generalizing seq k with
  | zero => simp [stream]
  | succ n ih =>
    cases k with
    | zero => rfl
    | succ k =>
      rw [stream, take_succ_cons, length_cons, stream, ← ih]

theorem receives_processFin (c : Connection) (seq : BitVec 32) :
    (c.processFin seq).receives = false := by
  unfold receives processFin
  cases c.state <;> rfl

/-- A FIN is in order if it follows the stream. -/
theorem InOrder.processFin_iff (h : InOrder S irs c) (seq : BitVec 32) :
    InOrder S irs (c.processFin seq) ↔ seq = irs + BitVec.ofNat 32 c.recvBuf.length := by
  have hnxt : (c.processFin seq).rcvNxt - 1 = seq := add_sub_cancel seq 1
  rw [InOrder, receives_processFin, if_neg (by decide), hnxt]
  exact ⟨fun hfin => hfin.2.symm, fun hseq => ⟨h.1, hseq.symm⟩⟩

theorem InOrder.receive (h : InOrder S irs c) {seg} (hseg : c.OfStream S seg)
    (hstep : c.receive seg = some c') : InOrder S irs c' := by
  cases seg with
  | fin seq =>
    cases hstep
    exact (h.processFin_iff seq).mpr (hseg.trans h.2.symm)
  | data seq bytes =>
    cases hstep
    unfold processData
    split
    · exact h
    case isFalse hnot =>
    obtain ⟨hrec, rfl⟩ : c.receives = true ∧ seq = c.rcvNxt := by simpa using hnot
    obtain ⟨hbuf, hnxt⟩ := h
    rw [if_pos hrec] at hnxt
    have hcopied : ∀ k, bytes.take k = stream S c.rcvNxt (bytes.take k).length := fun k =>
      hseg ▸ take_stream bytes.length k
    refine ⟨?_, ?_⟩
    · dsimp only
      rw [length_append, ← stream_append, ← hbuf, hnxt, ← hcopied]
    · refine Eq.trans ?_ (if_pos hrec).symm
      rw [length_append, ofNat_add, ← add_assoc, hnxt]

/-- What is received is in order if no FIN comes early; one that does breaks the order. -/
theorem receives_in_order {c₀ : Connection} (hstart : c₀.state = .established)
    (hbuf : c₀.recvBuf = []) {segs : List Segment}
    (hrun : GuardedRun receive (OfStream S) c₀ segs c) :
    InOrder S c₀.rcvNxt c ∧ ∀ seq, InOrder S c₀.rcvNxt (c.processFin seq) ↔
      seq = c₀.rcvNxt + BitVec.ofNat 32 c.recvBuf.length := by
  have h : InOrder S c₀.rcvNxt c := by
    refine hrun.inv (InOrder S c₀.rcvNxt) (fun _ _ _ h hseg hstep => h.receive hseg hstep) ?_
    simp [InOrder, receives, hstart, hbuf, stream]
  exact ⟨h, h.processFin_iff⟩

/-- The stream of zeros. -/
theorem receives_in_order_data : ∃ c, GuardedRun receive (OfStream fun _ => 0)
    ⟨.established, 0, 0, 1, []⟩ [.data 3 [0, 0], .data 1 [0, 0], .fin 3] c ∧
      c.state = .closeWait ∧ InOrder (fun _ => 0) 1 c := by
  apply exists_and_of (by decide +kernel)
  intro c hrun _
  exact (receives_in_order rfl rfl hrun).1

/-- A FIN comes 99 bytes early. -/
theorem fin_taken_early : let c := (⟨.established, 0, 0, 1, []⟩ : Connection).processFin 100
    c.state = .closeWait ∧ ∀ S, ¬ InOrder S 1 c :=
  ⟨rfl, fun _ h => absurd h.2 (by decide)⟩

/-! ### What is acknowledged -/

/-- The acknowledgement is in `(sndUna, sndNxt]`, in the order of sequence numbers. -/
def InWindow (c : Connection) (ack : BitVec 32) : Prop :=
  ack ≠ c.sndUna ∧ ack - c.sndUna ≤ c.sndNxt - c.sndUna

/-- Nothing has wrapped around, and the acknowledgement is for something that was sent. -/
def Plain (c : Connection) (ack : BitVec 32) : Prop :=
  c.state = .established → c.sndUna ≤ c.sndNxt ∧ ack ≤ c.sndNxt
deriving Decidable

variable {ack : BitVec 32}

theorem inWindow_iff (hle : c.sndUna ≤ c.sndNxt) (hack : ack ≤ c.sndNxt) :
    c.InWindow ack ↔ c.sndUna < ack := by
  unfold InWindow
  bv_omega

/-- What a plain acknowledgement does. -/
theorem processAck_cases (h : c.Plain ack) : (c.processAck ack).sndNxt = c.sndNxt ∧
    ((c.processAck ack).sndUna = c.sndUna ∧ (c.state = .established → ¬ c.InWindow ack) ∨
      (c.processAck ack).sndUna = ack ∧ c.InWindow ack) := by
  unfold processAck
  split
  case isTrue hest =>
    rw [inWindow_iff (h hest).1 (h hest).2]
    split
    case isTrue hgt => exact ⟨rfl, .inr ⟨rfl, hgt⟩⟩
    case isFalse hle => exact ⟨rfl, .inl ⟨rfl, fun _ => hle⟩⟩
  case isFalse hest =>
    have hout : c.state = .established → ¬ c.InWindow ack := fun h => absurd h hest
    split
    · split
      · subst ack
        by_cases heq : c.sndNxt = c.sndUna
        · exact ⟨rfl, .inl ⟨heq, hout⟩⟩
        · exact ⟨rfl, .inr ⟨rfl, heq, BitVec.le_refl _⟩⟩
      · exact ⟨rfl, .inl ⟨rfl, hout⟩⟩
    · exact ⟨rfl, .inl ⟨rfl, hout⟩⟩

end Connection

/-- A connection with the sequence numbers that it has used and those that were acknowledged. -/
structure Flow where
  conn : Connection
  sent : Nat
  acked : Nat

inductive FlowStep where
  | send (counted : Bool) (len : BitVec 32) (memory : Bool)
  | ack (ack : BitVec 32)
  /-- Another function changes the state. -/
  | enter (state : TcpState)

namespace Flow

def step (f : Flow) : FlowStep → Option Flow
  | .send counted len memory => some
    { f with
      conn := f.conn.sendPacket counted len memory
      sent := if memory then f.sent + len.toNat + counted.toNat else f.sent }
  | .ack ack => some
    { f with
      conn := f.conn.processAck ack
      acked := f.acked + ((f.conn.processAck ack).sndUna - f.conn.sndUna).toNat }
  | .enter state => some { f with conn := { f.conn with state := state } }

/-- Less than 2^32 numbers are waiting for an acknowledgement, and acknowledgements are plain. -/
def Plain (f : Flow) : FlowStep → Prop
  | .send counted len memory =>
    memory = true → f.sent + len.toNat + counted.toNat < f.acked + 2 ^ 32
  | .ack ack => f.conn.Plain ack
  | .enter _ => True

instance (f : Flow) (e : FlowStep) : Decidable (f.Plain e) := by
  cases e <;> unfold Plain <;> infer_instance

/-- The numbers between `sndUna` and `sndNxt` are those that are waiting. -/
def Consistent (f : Flow) : Prop :=
  f.acked ≤ f.sent ∧ (f.conn.sndNxt - f.conn.sndUna).toNat = f.sent - f.acked

theorem Consistent.step {f f' : Flow} (h : f.Consistent) {e : FlowStep} (hplain : f.Plain e)
    (hstep : f.step e = some f') : f'.Consistent := by
  obtain ⟨hle, hwaiting⟩ := h
  cases e with
  | enter state =>
    cases hstep
    exact ⟨hle, hwaiting⟩
  | send counted len memory =>
    cases hstep
    cases memory with
    | false => exact ⟨hle, hwaiting⟩
    | true =>
      have hfits := hplain rfl
      have hcount : (if counted then 1 else 0 : BitVec 32).toNat = counted.toNat := by
        cases counted <;> rfl
      simp only [Consistent, Connection.sendPacket, if_true]
      generalize (if counted then 1 else 0 : BitVec 32) = one at *
      constructor
      · omega
      · bv_omega
  | ack ack =>
    cases hstep
    obtain ⟨hnxt, ⟨huna, -⟩ | ⟨huna, hack, hwindow⟩⟩ := Connection.processAck_cases hplain
    · simpa [Consistent, hnxt, huna] using ⟨hle, hwaiting⟩
    · simp only [Consistent, hnxt, huna]
      bv_omega

/-- Plain acknowledgements move `sndUna` exactly if they are in the window, and so it never
passes `sndNxt`. -/
theorem acknowledges_in_window {conn : Connection} (hstart : conn.sndUna = conn.sndNxt)
    {steps : List FlowStep} {f : Flow} (hrun : GuardedRun step Plain ⟨conn, 0, 0⟩ steps f) :
    f.Consistent ∧ ∀ ack, f.conn.Plain ack →
      ((f.conn.processAck ack).sndUna ≠ f.conn.sndUna →
        (f.conn.processAck ack).sndUna = ack ∧ f.conn.InWindow ack) ∧
      (f.conn.state = .established → f.conn.InWindow ack →
        (f.conn.processAck ack).sndUna = ack) := by
  constructor
  · refine hrun.inv Consistent (fun _ _ _ h hplain hstep => h.step hplain hstep) ?_
    simp [Consistent, hstart]
  intro ack hplain
  obtain ⟨-, ⟨huna, hout⟩ | ⟨huna, hin⟩⟩ := Connection.processAck_cases hplain
  · exact ⟨fun hne => absurd huna hne, fun hest hin => absurd hin (hout hest)⟩
  · exact ⟨fun _ => ⟨huna, hin⟩, fun _ _ => huna⟩

/-- Three of five bytes are acknowledged. -/
theorem acknowledges_in_window_part : ∃ f, GuardedRun step Plain
    ⟨⟨.established, 7, 7, 0, []⟩, 0, 0⟩ [.send false 5 true, .ack 10] f ∧
      f.conn.sndUna = 10 ∧ f.Consistent := by
  apply exists_and_of (by decide +kernel)
  intro f hrun _
  exact (acknowledges_in_window rfl hrun).1

/-- Across the wrap-around an acknowledgement in the window is not taken, and one for what was
never sent is taken. -/
theorem acks_misjudged : let wrapped : Connection := ⟨.established, 2 ^ 32 - 1, 1, 0, []⟩
    let idle : Connection := ⟨.established, 0, 0, 0, []⟩
    wrapped.InWindow 0 ∧ (wrapped.processAck 0).sndUna = 2 ^ 32 - 1 ∧
      ¬ idle.InWindow 5 ∧ (idle.processAck 5).sndUna = 5 := by
  unfold Connection.InWindow
  decide

end Flow

end Kurios.Net
