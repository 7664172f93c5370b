import Vpp.Tcp.Scoreboard

namespace Vpp.Tcp
open Vpp.Lib

def tcpConnRecovery : BitVec 16 := 32
def tcpConnFastRecovery : BitVec 16 := 64
def tcpDupackThreshold : BitVec 8 := 3
def tcpWndMax : BitVec 32 := 65535
def tcpRtoMax : BitVec 32 := 6000
def tcpRttMax : BitVec 32 := 3000

/-- What a call gets from outside of the connection: the clock, the bytes of the transmit fifo from an offset
on, the room in the receive fifo and its size, and the number of free buffers. -/
structure Env where
  timeNow : BitVec 32
  peekBytes : (offset maxBytes : BitVec 32) → BitVec 32
  maxEnqueue : BitVec 32
  fifoSize : BitVec 32
  buffers : Nat

/-- The fields of a segment that the processing of its ack reads. The timestamp is the only option. -/
structure Segment where
  seqNumber : Seq
  seqEnd : Seq
  ackNumber : Seq
  window : BitVec 16
  tstamp : Option (BitVec 32 × BitVec 32)
  deriving DecidableEq

/-- Zero from `tcp_rcv_ack`, or its error. -/
inductive AckResult where
  | ok
  | ackInvalid
  | ackOld
  | ackDup
  deriving DecidableEq

def TcpConnection.mss (tc : TcpConnection) : BitVec 32 := tc.sndMss.setWidth 32

def tcpFlightSize (tc : TcpConnection) : BitVec 32 :=
  tc.sndUnaMax - tc.sndUna - tc.sackSb.sackedBytes + tc.rtxBytes

def tcpAvailableWnd (tc : TcpConnection) : BitVec 32 := if tc.cwnd < tc.sndWnd then tc.cwnd else tc.sndWnd

def tcpAvailableSndSpace (tc : TcpConnection) : BitVec 32 :=
  if tcpAvailableWnd tc ≤ tcpFlightSize tc then 0 else tcpAvailableWnd tc - tcpFlightSize tc

def availableSpace (env : Env) (tc : TcpConnection) : BitVec 32 :=
  if env.maxEnqueue < tc.opt.mss.setWidth 32 ∧ env.maxEnqueue < env.fifoSize / 8 then 0 else env.maxEnqueue

def tcpWindowToAdvertise (env : Env) (tc : TcpConnection) : TcpConnection :=
  let maxWnd := tcpWndMax <<< tc.rcvWscale
  let rcvWnd := if availableSpace env tc < maxWnd then availableSpace env tc else maxWnd
  { tc with rcvWnd, flags := if rcvWnd = 0 then tc.flags ||| tcpConnSentRcvWnd0 else tc.flags }

/-- A segment to retransmit and the number of its bytes. The buffer has been reset, so that `snd_nxt` stays. -/
def tcpPrepareRetransmitSegment (env : Env) (tc : TcpConnection) (maxBytes : BitVec 32) :
    Option (TcpConnection × BitVec 32) :=
  if tc.opt.has tcpOptsFlagSackPermitted then
    match tc.sackSb.head with
    | none => some (tc, 0)
    | some h => do
      let hole ← tc.sackSb.holeAt h
      let holeSize := hole.stop - hole.start
      let nBytes := env.peekBytes (hole.start - tc.sndUna) (if holeSize < maxBytes then holeSize else maxBytes)
      some (tcpWindowToAdvertise env tc, nBytes)
  else if seqGeq tc.sndNxt tc.sndUnaMax then some (tc, 0)
  else some (tcpWindowToAdvertise env tc, env.peekBytes 0 maxBytes)

def tcpRetransmitFirstUnacked (env : Env) (tc : TcpConnection) : Option TcpConnection :=
  let sndNxt := tc.sndNxt
  let tc := { tc with sndNxt := tc.sndUna }
  if env.buffers = 0 then some tc
  else do
    let (tc, _) ← tcpPrepareRetransmitSegment env tc tc.mss
    some { tc with sndNxt, rtxBytes := tc.rtxBytes + tc.mss }

/-- The loop of `tcp_fast_retransmit`. A segment takes at least a byte of the space and no more than it, so that
there are no more passes than the space at the start. -/
def fastRetransmitLoop (env : Env) : (fuel buffers : Nat) → TcpConnection → (sndSpace : BitVec 32) →
    Option TcpConnection
  | 0, _, tc, _ => some { tc with sndNxt := tc.sndUnaMax }
  | fuel + 1, buffers, tc, sndSpace =>
    if sndSpace = 0 then some { tc with sndNxt := tc.sndUnaMax }
    else if buffers = 0 then some tc
    else do
      let maxBytes := if tc.mss < sndSpace then tc.mss else sndSpace
      let (tc, nBytes) ← tcpPrepareRetransmitSegment env tc maxBytes
      if nBytes = 0 then some tc else fastRetransmitLoop env fuel (buffers - 1) tc (sndSpace - nBytes)

def tcpFastRetransmit (env : Env) (tc : TcpConnection) : Option TcpConnection :=
  let tc := { tc with sndNxt := tc.sndUna }
  let sndSpace := tcpAvailableSndSpace tc
  fastRetransmitLoop env sndSpace.toNat env.buffers tc sndSpace

def newrenoCongestion (tc : TcpConnection) : TcpConnection :=
  let half := tcpFlightSize tc / 2
  { tc with
    prevSsthresh := tc.ssthresh
    ssthresh := if half > 2 * tc.mss then half else 2 * tc.mss }

def newrenoRecovered (tc : TcpConnection) : TcpConnection := { tc with cwnd := tc.ssthresh }

/-- Nothing where the source divides by zero. -/
def newrenoRcvAck (tc : TcpConnection) : Option TcpConnection :=
  if tc.cwnd < tc.ssthresh then
    some { tc with cwnd := tc.cwnd + if tc.mss < tc.bytesAcked then tc.mss else tc.bytesAcked }
  else if tc.cwnd = 0 then none
  else
    let share := tc.mss * tc.mss / tc.cwnd
    some { tc with cwnd := tc.cwnd + if share > 1 then share else 1 }

def newrenoRcvDupack (tc : TcpConnection) : TcpConnection := { tc with cwnd := tc.cwnd + tc.mss }

def newrenoRcvPartialAck (tc : TcpConnection) : TcpConnection :=
  { tc with
    cwnd := tc.cwnd - tc.bytesAcked
    bytesAcked := if tc.bytesAcked > tc.mss then tc.bytesAcked + tc.mss else tc.bytesAcked }

def tcpInFastrecovery (tc : TcpConnection) : Bool := tc.flags &&& tcpConnFastRecovery != 0
def tcpInRecovery (tc : TcpConnection) : Bool := tc.flags &&& (tcpConnFastRecovery ||| tcpConnRecovery) != 0
def tcpFastrecoveryOn (tc : TcpConnection) : TcpConnection := { tc with flags := tc.flags ||| tcpConnFastRecovery }

def tcpRecoveryOff (tc : TcpConnection) : TcpConnection :=
  { tc with flags := tc.flags &&& ~~~(tcpConnFastRecovery ||| tcpConnRecovery) }

def tcpCcRecover (tc : TcpConnection) : TcpConnection :=
  if tcpInFastrecovery tc then tcpRecoveryOff (newrenoRecovered tc)
  else if tcpInRecovery tc then { tcpRecoveryOff tc with cwnd := tc.mss }
  else tc

def tcpCcRcvAck (env : Env) (tc : TcpConnection) : Option TcpConnection := do
  let tc ←
    if tcpInRecovery tc then
      let partialAck := seqLt tc.sndUna tc.sndUnaMax
      let tc := { tc with rtxBytes := 0 }
      if partialAck then tcpRetransmitFirstUnacked env (newrenoRcvPartialAck tc)
      else some (tcpCcRecover tc)
    else newrenoRcvAck tc
  some { tc with rcvDupacks := 0, tsecrLastAck := tc.opt.tsecr }

def tcpCcRcvDupack (env : Env) (tc : TcpConnection) : Option TcpConnection :=
  let tc := { tc with rcvDupacks := tc.rcvDupacks + 1 }
  if tc.rcvDupacks = tcpDupackThreshold then
    if tc.opt.tsecr ≠ tc.tsecrLastAck then some { tc with rcvDupacks := 0 }
    else do
      let tc := newrenoRcvDupack (newrenoCongestion (tcpFastrecoveryOn tc))
      let tc ← tcpFastRetransmit env tc
      some { tc with cwnd := tc.ssthresh + 3 * tc.mss }
  else if tc.rcvDupacks > tcpDupackThreshold then some (newrenoRcvDupack tc)
  else some tc

def tcpEstimateRtt (tc : TcpConnection) (mrtt : BitVec 32) : TcpConnection :=
  if tc.srtt ≠ 0 then
    let err := mrtt - tc.srtt
    let abs := if err.toInt < 0 then -err else err
    { tc with srtt := tc.srtt + err.sshiftRight 3, rttvar := tc.rttvar + ((abs - tc.rttvar) >>> 2) }
  else { tc with srtt := mrtt, rttvar := mrtt <<< 1 }

/-- The measurement from the echoed timestamp. Zero stands for none. -/
def tstampRtt (env : Env) (tc : TcpConnection) : BitVec 32 :=
  if tc.opt.has tcpOptsFlagTstamp ∧ tc.opt.tsecr ≠ 0 ∧ tc.bytesAcked ≠ 0 then env.timeNow - tc.opt.tsecr else 0

/-- The measurement, and whether it comes from the tracked segment. -/
def measuredRtt (env : Env) (tc : TcpConnection) (ack : Seq) : BitVec 32 × Bool :=
  if tc.rttSeq ≠ 0 ∧ seqGt ack tc.rttSeq ∧ tc.rtoBoff = 0 then (env.timeNow - tc.rttTs, true)
  else (tstampRtt env tc, false)

def tcpUpdateRtt (env : Env) (tc : TcpConnection) (ack : Seq) : TcpConnection × Bool :=
  let (mrtt, tracked) := measuredRtt env tc ack
  let tc := if tracked then { tc with rttSeq := 0 } else tc
  if mrtt = 0 ∨ mrtt > tcpRttMax then (tc, false)
  else
    let tc := tcpEstimateRtt tc mrtt
    let rto := tc.srtt + tc.rttvar <<< 2
    ({ tc with rto := if rto < tcpRtoMax then rto else tcpRtoMax }, true)

def tcpDequeueAcked (env : Env) (tc : TcpConnection) (ack : Seq) : TcpConnection :=
  let (tc, valid) := tcpUpdateRtt env tc ack
  if valid then { tc with rtoBoff := 0 } else tc

/-- The test of `tcp_update_snd_wnd`, with the comparisons of C. -/
def windowIsNewer (tc : TcpConnection) (seq ack : Seq) : Bool :=
  tc.sndWl1.ult seq || (tc.sndWl1 == seq && tc.sndWl2.ule ack)

def tcpUpdateSndWnd (tc : TcpConnection) (seq ack : Seq) (sndWnd : BitVec 32) : TcpConnection :=
  if windowIsNewer tc seq ack then { tc with sndWnd, sndWl1 := seq, sndWl2 := ack } else tc

def tcpAckIsDupack (tc : TcpConnection) (seg : Segment) (newSndWnd : BitVec 32) : Bool :=
  seg.ackNumber == tc.sndUna && seqGt tc.sndUnaMax tc.sndUna && seg.seqEnd == seg.seqNumber && newSndWnd == tc.sndWnd

def newSndWnd (tc : TcpConnection) (seg : Segment) : BitVec 32 := seg.window.setWidth 32 <<< tc.sndWscale

/-- The part of `tcp_rcv_ack` that an ack in the window gets to, after the blocks. -/
def rcvAckInWindow (env : Env) (tc : TcpConnection) (seg : Segment) : Option (TcpConnection × AckResult) :=
  let wnd := newSndWnd tc seg
  if tcpAckIsDupack tc seg wnd then do
    let tc ← tcpCcRcvDupack env tc
    some (tc, .ackDup)
  else do
    let tc := { tc with bytesAcked := seg.ackNumber - tc.sndUna, sndUna := seg.ackNumber }
    let tc := tcpDequeueAcked env tc seg.ackNumber
    let tc := tcpUpdateSndWnd tc seg.seqNumber seg.ackNumber wnd
    let tc ← tcpCcRcvAck env tc
    some (tc, .ok)

/-- The connection after the call and the result, or nothing where the source goes through a null pointer or
divides by zero. -/
def tcpRcvAck (env : Env) (tc : TcpConnection) (seg : Segment) : Option (TcpConnection × AckResult) :=
  if seqGt seg.ackNumber tc.sndNxt then some (tcpWindowToAdvertise env tc, .ackInvalid)
  else if seqLt seg.ackNumber tc.sndUna then some (tc, .ackOld)
  else if tc.opt.has tcpOptsFlagSackPermitted then do
    let tc ← tcpRcvSacks tc seg.ackNumber
    rcvAckInWindow env tc seg
  else rcvAckInWindow env tc seg

/-- The options of a segment that is no SYN and has no blocks. The blocks of earlier segments stay. -/
def TcpOptions.withTstamp (opt : TcpOptions) : Option (BitVec 32 × BitVec 32) → TcpOptions
  | none => { opt with flags := opt.flags &&& tcpOptsKept }
  | some (tsval, tsecr) => { opt with flags := opt.flags &&& tcpOptsKept ||| tcpOptsFlagTstamp, tsval, tsecr }

def TcpConnection.receive (tc : TcpConnection) (env : Env) (seg : Segment) : Option (TcpConnection × AckResult) :=
  tcpRcvAck env { tc with opt := tc.opt.withTstamp seg.tstamp } seg

structure Observation where
  result : AckResult
  bytesAcked : BitVec 32
  sndWnd : BitVec 32
  rcvDupacks : BitVec 8
  cwnd : BitVec 32
  deriving DecidableEq

def TcpConnection.trace : TcpConnection → List (Env × Segment) → List (Option Observation)
  | _, [] => []
  | tc, (env, seg) :: segs =>
    match tc.receive env seg with
    | none => [none]
    | some (tc, result) => some ⟨result, tc.bytesAcked, tc.sndWnd, tc.rcvDupacks, tc.cwnd⟩ :: tc.trace segs

variable {ack : Seq}

structure RttEstimate where
  srtt : Int
  rttvar : Int
  deriving DecidableEq, Repr

def RttEstimate.update (s : RttEstimate) (mrtt : Int) : RttEstimate :=
  if s.srtt ≠ 0 then
    let err := mrtt - s.srtt
    ⟨s.srtt + err >>> (3 : Nat), s.rttvar + (|err| - s.rttvar) >>> (2 : Nat)⟩
  else ⟨mrtt, 2 * mrtt⟩

def rttEstimate (samples : List (BitVec 32)) : RttEstimate :=
  samples.foldl (fun s mrtt => s.update mrtt.toNat) ⟨0, 0⟩

/-- A sample that `tcp_update_rtt` does not ignore. -/
def ValidRtt (mrtt : BitVec 32) : Prop := 0 < mrtt.toNat ∧ mrtt.toNat ≤ tcpRttMax.toNat

theorem floor_shift (x : Int) (n : Nat) : x >>> n = x / (2 ^ n : Nat) := Int.shiftRight_eq_div_pow x n

/-- The estimates after at least one sample. -/
structure RttEstimate.InRange (s : RttEstimate) : Prop where
  srtt_pos : 1 ≤ s.srtt
  srtt_le : s.srtt ≤ 3000
  rttvar_nonneg : 0 ≤ s.rttvar
  rttvar_le : s.rttvar ≤ 6000

theorem RttEstimate.InRange.update {s : RttEstimate} (h : s = ⟨0, 0⟩ ∨ s.InRange) (hm : ValidRtt m) :
    (s.update m.toNat).InRange := by
  have h0 : 0 < m.toNat := hm.1
  have h1 : m.toNat ≤ 3000 := hm.2
  rcases h with rfl | ⟨ha, hb, hc, hd⟩
  · exact ⟨by simp [RttEstimate.update]; omega, by simp [RttEstimate.update]; omega,
      by simp [RttEstimate.update], by simp [RttEstimate.update]; omega⟩
  · have hne : s.srtt ≠ 0 := by omega
    have habs := abs_le (a := (m.toNat : Int) - s.srtt) (b := 2999)
    have habs' := habs.mpr ⟨by omega, by omega⟩
    have hpos := abs_nonneg ((m.toNat : Int) - s.srtt)
    simp only [RttEstimate.update, hne, ne_eq, not_false_eq_true, ↓reduceIte, floor_shift]
    exact ⟨by dsimp only; omega, by dsimp only; omega, by dsimp only; omega, by dsimp only; omega⟩

theorem err_toInt {srtt m : BitVec 32} (hs : srtt.toNat ≤ 3000) (hm : m.toNat ≤ 3000) :
    (m - srtt).toInt = m.toNat - srtt.toNat := by
  rw [BitVec.toInt_eq_toNat_cond, BitVec.toNat_sub]
  split <;> omega

theorem srtt_update {srtt m : BitVec 32} (hs : srtt.toNat ≤ 3000) (hm : m.toNat ≤ 3000) :
    ((srtt + (m - srtt).sshiftRight 3).toNat : Int) = srtt.toNat + ((m.toNat : Int) - srtt.toNat) >>> (3 : Nat) := by
  have herr := err_toInt hs hm
  have hshift : ((m - srtt).sshiftRight 3).toInt = ((m.toNat : Int) - srtt.toNat) / 8 := by
    rw [BitVec.toInt_sshiftRight, herr, floor_shift]
    rfl
  rw [BitVec.toInt_eq_toNat_cond] at hshift
  rw [BitVec.toNat_add, floor_shift]
  have hlt := ((m - srtt).sshiftRight 3).isLt
  split at hshift <;> omega

theorem abs_err {srtt m : BitVec 32} (hs : srtt.toNat ≤ 3000) (hm : m.toNat ≤ 3000) :
    ((if (m - srtt).toInt < 0 then -(m - srtt) else m - srtt).toNat : Int) = |(m.toNat : Int) - srtt.toNat| := by
  have herr := err_toInt hs hm
  rw [herr]
  split
  · next hneg =>
    rw [abs_of_neg hneg, BitVec.toNat_neg, BitVec.toNat_sub]
    omega
  · next hpos =>
    rw [abs_of_nonneg (by omega), BitVec.toNat_sub]
    omega

theorem rttvar_update {rttvar dev : BitVec 32} (hv : rttvar.toNat ≤ 6000) (hd : dev.toNat ≤ 3000) :
    ((rttvar + (dev - rttvar) >>> 2).toNat : Int) = rttvar.toNat + ((dev.toNat : Int) - rttvar.toNat) >>> (2 : Nat) +
      if rttvar.toNat ≤ dev.toNat then 0 else 2 ^ 30 := by
  rw [BitVec.toNat_add, BitVec.toNat_ushiftRight, BitVec.toNat_sub, Nat.shiftRight_eq_div_pow, floor_shift]
  split <;> omega

structure RttAgrees (tc : TcpConnection) (s : RttEstimate) : Prop where
  srtt_eq : (tc.srtt.toNat : Int) = s.srtt
  rttvar_eq : (tc.rttvar.toNat : Int) = s.rttvar

theorem RttAgrees.first {tc : TcpConnection} (h : RttAgrees tc ⟨0, 0⟩) (hm : ValidRtt m) :
    RttAgrees (tcpEstimateRtt tc m) (RttEstimate.update ⟨0, 0⟩ m.toNat) := by
  have hle : m.toNat ≤ 3000 := hm.2
  have hz : tc.srtt = 0 := BitVec.eq_of_toNat_eq (Int.ofNat_inj.mp h.srtt_eq)
  simp only [tcpEstimateRtt, hz, RttEstimate.update, ne_eq, not_true_eq_false, ↓reduceIte]
  refine ⟨rfl, ?_⟩
  dsimp only
  rw [BitVec.toNat_shiftLeft, Nat.shiftLeft_eq]
  omega

/-- A later sample keeps the agreement exactly where the deviation reaches the variance. -/
theorem RttAgrees.later {tc : TcpConnection} {s : RttEstimate} (h : RttAgrees tc s) (hr : s.InRange) (hm : ValidRtt m) :
    RttAgrees (tcpEstimateRtt tc m) (s.update m.toNat) ↔ s.rttvar ≤ |(m.toNat : Int) - s.srtt| := by
  obtain ⟨ha, hb, hc, hd⟩ := hr
  have hle : m.toNat ≤ 3000 := hm.2
  have hsrtt : tc.srtt.toNat ≤ 3000 := by have := h.srtt_eq; omega
  have hvar : tc.rttvar.toNat ≤ 6000 := by have := h.rttvar_eq; omega
  have hne : s.srtt ≠ 0 := by omega
  have hne' : tc.srtt ≠ 0 := by
    intro hz
    have he := h.srtt_eq
    rw [hz] at he
    exact hne he.symm
  have habs := abs_err hsrtt hle
  have hdev : |(m.toNat : Int) - s.srtt| ≤ 3000 := abs_le.mpr ⟨by have := hm.1; omega, by omega⟩
  have hs := srtt_update hsrtt hle
  rw [h.srtt_eq] at habs
  have hv := @rttvar_update _ (if (m - tc.srtt).toInt < 0 then -(m - tc.srtt) else m - tc.srtt) hvar (by omega)
  rw [habs, h.rttvar_eq] at hv
  rw [h.srtt_eq] at hs
  have hreach : tc.rttvar.toNat ≤ (if (m - tc.srtt).toInt < 0 then -(m - tc.srtt) else m - tc.srtt).toNat ↔
      s.rttvar ≤ |(m.toNat : Int) - s.srtt| := by
    rw [← habs, ← h.rttvar_eq, Int.ofNat_le]
  rw [if_congr hreach rfl rfl] at hv
  simp only [tcpEstimateRtt, hne', RttEstimate.update, hne, ne_eq, not_false_eq_true, ↓reduceIte]
  constructor
  · intro hagree
    by_contra hlow
    rw [if_neg hlow] at hv
    have he := hv.symm.trans hagree.rttvar_eq
    dsimp only at he
    omega
  · intro hhigh
    rw [if_pos hhigh, Int.add_zero] at hv
    exact ⟨hs, hv⟩

theorem rttEstimate_concat (p : List (BitVec 32)) (m : BitVec 32) :
    rttEstimate (p ++ [m]) = (rttEstimate p).update m.toNat := by
  simp [rttEstimate]

theorem rttEstimate_inRange (p : List (BitVec 32)) (hp : ∀ m ∈ p, ValidRtt m) :
    rttEstimate p = ⟨0, 0⟩ ∧ p = [] ∨ (rttEstimate p).InRange ∧ p ≠ [] := by
  induction p using List.reverseRecOn with
  | nil => exact .inl ⟨rfl, rfl⟩
  | append_singleton p m ih =>
    obtain ⟨hp', hm⟩ := List.forall_mem_append.mp hp
    rw [rttEstimate_concat]
    exact .inr ⟨.update ((ih hp').imp And.left And.left) (hm m (by simp)), by simp⟩

/-- After the samples the 32-bit estimates are the unbounded ones, in range, and so is every timeout computed from
them. -/
structure RttExact (tc : TcpConnection) (samples : List (BitVec 32)) : Prop where
  agrees : RttAgrees (samples.foldl tcpEstimateRtt tc) (rttEstimate samples)
  srtt_range : samples ≠ [] → 1 ≤ (samples.foldl tcpEstimateRtt tc).srtt.toNat ∧
    (samples.foldl tcpEstimateRtt tc).srtt.toNat ≤ tcpRttMax.toNat
  rttvar_le : (samples.foldl tcpEstimateRtt tc).rttvar.toNat ≤ 2 * tcpRttMax.toNat
  rto_eq : ∀ env before ack after, tcpUpdateRtt env before ack = (after, true) →
    after.srtt = (samples.foldl tcpEstimateRtt tc).srtt → after.rttvar = (samples.foldl tcpEstimateRtt tc).rttvar →
      (after.rto.toNat : Int) = min ((rttEstimate samples).srtt + 4 * (rttEstimate samples).rttvar) tcpRtoMax.toNat

theorem tcpUpdateRtt_rto (h : tcpUpdateRtt env before ack = (after, true)) :
    after.rto = if after.srtt + after.rttvar <<< 2 < tcpRtoMax then after.srtt + after.rttvar <<< 2 else tcpRtoMax := by
  unfold tcpUpdateRtt at h
  dsimp only at h
  split at h
  · cases h
  · obtain rfl := (Prod.mk.inj h).1
    rfl

theorem rttExact_iff (tc : TcpConnection) (p : List (BitVec 32)) (hp : ∀ m ∈ p, ValidRtt m) :
    RttExact tc p ↔ RttAgrees (p.foldl tcpEstimateRtt tc) (rttEstimate p) := by
  refine ⟨RttExact.agrees, ?_⟩
  intro h
  have hmax : tcpRttMax.toNat = 3000 := rfl
  have hbounds : 0 ≤ (rttEstimate p).srtt ∧ (rttEstimate p).srtt ≤ 3000 ∧ 0 ≤ (rttEstimate p).rttvar ∧
      (rttEstimate p).rttvar ≤ 6000 := by
    rcases rttEstimate_inRange p hp with ⟨he, _⟩ | ⟨hr, _⟩
    · rw [he]
      decide
    · exact ⟨by have := hr.srtt_pos; omega, hr.srtt_le, hr.rttvar_nonneg, hr.rttvar_le⟩
  obtain ⟨h1, h2, h3, h4⟩ := hbounds
  have hs := h.srtt_eq
  have hv := h.rttvar_eq
  refine ⟨h, ?_, by omega, ?_⟩
  · intro hne
    rcases rttEstimate_inRange p hp with ⟨_, hnil⟩ | ⟨hr, _⟩
    · exact absurd hnil hne
    · have := hr.srtt_pos
      omega
  · intro env before ack after hupdate hsrtt hrttvar
    have hrto := tcpUpdateRtt_rto hupdate
    rw [hsrtt, hrttvar] at hrto
    have hsum : ((p.foldl tcpEstimateRtt tc).srtt + (p.foldl tcpEstimateRtt tc).rttvar <<< 2).toNat =
        (p.foldl tcpEstimateRtt tc).srtt.toNat + 4 * (p.foldl tcpEstimateRtt tc).rttvar.toNat := by
      rw [BitVec.toNat_add, BitVec.toNat_shiftLeft, Nat.shiftLeft_eq]
      omega
    have hlt : tcpRtoMax.toNat = 6000 := rfl
    rw [hrto, ← hs, ← hv]
    split
    · next hbelow =>
      rw [BitVec.lt_def, hsum] at hbelow
      rw [hsum]
      omega
    · next habove =>
      rw [BitVec.lt_def, hsum] at habove
      omega

/-- The estimates stay exact all along a run exactly where every sample but the first is off the smoothed value by at
least the variance. -/
theorem tcp_rtt_exact (tc : TcpConnection) (hsrtt : tc.srtt = 0) (hrttvar : tc.rttvar = 0)
    (samples : List (BitVec 32)) (hvalid : ∀ m ∈ samples, ValidRtt m) :
    (∀ p, p <+: samples → RttExact tc p) ↔ ∀ p m, p ++ [m] <+: samples → p ≠ [] →
      (rttEstimate p).rttvar ≤ |(m.toNat : Int) - (rttEstimate p).srtt| := by
  have hv {p : List (BitVec 32)} (hp : p <+: samples) : ∀ m ∈ p, ValidRtt m := fun m hm => hvalid m (hp.subset hm)
  constructor
  · intro hexact p m hpm hne
    have hp : p <+: samples := (List.prefix_append p [m]).trans hpm
    have hlast := (hexact _ hpm).agrees
    rw [rttEstimate_concat, List.foldl_concat] at hlast
    rcases rttEstimate_inRange p (hv hp) with ⟨_, hnil⟩ | ⟨hr, _⟩
    · exact absurd hnil hne
    · exact ((hexact p hp).agrees.later hr (hv hpm m (by simp))).mp hlast
  · intro hdev p
    induction p using List.reverseRecOn with
    | nil =>
      intro hp
      refine (rttExact_iff tc [] (hv hp)).mpr ⟨?_, ?_⟩
      · exact congrArg (fun x : BitVec 32 => (x.toNat : Int)) hsrtt
      · exact congrArg (fun x : BitVec 32 => (x.toNat : Int)) hrttvar
    | append_singleton p m ih =>
      intro hpm
      have hp : p <+: samples := (List.prefix_append p [m]).trans hpm
      have hagrees := (ih hp).agrees
      have hm : ValidRtt m := hv hpm m (by simp)
      rw [rttExact_iff tc _ (hv hpm), rttEstimate_concat, List.foldl_concat]
      rcases rttEstimate_inRange p (hv hp) with ⟨he, _⟩ | ⟨hr, hne⟩
      · rw [he] at hagrees ⊢
        exact hagrees.first hm
      · exact (hagrees.later hr hm).mpr (hdev p m hpm hne)

def freshConnection : TcpConnection := .sending 0 0 ⟨.empty, none, 0, []⟩

theorem tcp_rtt_exact_apart : RttExact freshConnection [100, 400] := by
  refine (tcp_rtt_exact freshConnection rfl rfl [100, 400] (by simp [ValidRtt, tcpRttMax])).mpr ?_ _
      (List.prefix_refl _)
  intro p m hpm hne
  cases p with
  | nil => exact absurd rfl hne
  | cons a p =>
    obtain ⟨rfl, htail⟩ := List.cons_prefix_cons.mp hpm
    cases p with
    | nil =>
      obtain ⟨rfl, _⟩ := List.cons_prefix_cons.mp htail
      decide
    | cons b p =>
      obtain ⟨_, hnil⟩ := List.cons_prefix_cons.mp htail
      simp at hnil

/-- Two equal samples: the variance becomes 2^30 + 150. -/
theorem tcp_rtt_wraps : ¬ ∀ tc : TcpConnection, tc.srtt = 0 → tc.rttvar = 0 → ∀ samples : List (BitVec 32),
    (∀ m ∈ samples, ValidRtt m) → ∀ p, p <+: samples → RttExact tc p := by
  intro hall
  have hexact := hall freshConnection rfl rfl [100, 100] (by simp [ValidRtt, tcpRttMax]) _ (List.prefix_refl _)
  exact absurd hexact.rttvar_le (by decide)

end Vpp.Tcp
