import Vpp.Tcp.RcvAck

namespace Vpp.Tcp
open BitVec

def tcpInitialCwnd (tc : TcpConnection) : BitVec 32 :=
  if tc.mss > 2190 then 2 * tc.mss else if tc.mss > 1095 then 3 * tc.mss else 4 * tc.mss

def newrenoConnInit (tc : TcpConnection) : TcpConnection := { tc with ssthresh := tc.sndWnd, cwnd := tcpInitialCwnd tc }

structure Flight where
  sndUna : Seq
  sndUnaMax : Seq
  sackedBytes : BitVec 32
  rtxBytes : BitVec 32

def TcpConnection.withFlight (tc : TcpConnection) (f : Flight) : TcpConnection :=
  { tc with
    sndUna := f.sndUna
    sndUnaMax := f.sndUnaMax
    sackSb := { tc.sackSb with sackedBytes := f.sackedBytes }
    rtxBytes := f.rtxBytes }

/-- The calls of the algorithm, with what is new at the time, and the two writes of its caller: the window after a fast
retransmit and after a recovery from a timeout. -/
inductive NewrenoEvent where
  | init (sndWnd : BitVec 32)
  | rcvAck (bytesAcked : BitVec 32)
  | congestion (flight : Flight)
  | recovered
  | dupack
  | partialAck (bytesAcked : BitVec 32)
  | fastRetransmitted
  | lossRecovered

/-- Nothing where the source divides by zero. -/
def NewrenoEvent.step (tc : TcpConnection) : NewrenoEvent → Option TcpConnection
  | init sndWnd => some (newrenoConnInit { tc with sndWnd })
  | rcvAck bytesAcked => newrenoRcvAck { tc with bytesAcked }
  | congestion flight => some (newrenoCongestion (tc.withFlight flight))
  | recovered => some (newrenoRecovered tc)
  | dupack => some (newrenoRcvDupack tc)
  | partialAck bytesAcked => some (newrenoRcvPartialAck { tc with bytesAcked })
  | fastRetransmitted => some { tc with cwnd := tc.ssthresh + 3 * tc.mss }
  | lossRecovered => some { tc with cwnd := tc.mss }

def NewrenoRun (P : TcpConnection → NewrenoEvent → Prop) : TcpConnection → List NewrenoEvent → Prop
  | _, [] => True
  | tc, e :: es => P tc e ∧ ∀ tc' ∈ e.step tc, NewrenoRun P tc' es

/-- The window does not go below zero, and is not zero afterwards. -/
structure NewrenoEvent.Safe (tc : TcpConnection) (e : NewrenoEvent) : Prop where
  noWrap : ∀ n, e = partialAck n → n.toNat ≤ tc.cwnd.toNat
  runs : (e.step tc).isSome
  nonzero : ∀ tc' ∈ e.step tc, tc'.cwnd ≠ 0

def ackIncrement (tc : TcpConnection) (bytesAcked : BitVec 32) : BitVec 32 :=
  if tc.cwnd < tc.ssthresh then (if tc.mss < bytesAcked then tc.mss else bytesAcked)
  else if tc.mss * tc.mss / tc.cwnd > 1 then tc.mss * tc.mss / tc.cwnd else 1

/-- A partial ack is for less than the window, no addition ends at `2 ^ 32`, and there is a threshold to recover to. -/
def NewrenoEvent.Fits (tc : TcpConnection) : NewrenoEvent → Prop
  | rcvAck n => tc.cwnd.toNat + (ackIncrement tc n).toNat ≠ 2 ^ 32
  | dupack => tc.cwnd.toNat + tc.mss.toNat ≠ 2 ^ 32
  | partialAck n => n.toNat < tc.cwnd.toNat
  | recovered => tc.ssthresh ≠ 0
  | fastRetransmitted => tc.ssthresh.toNat + 3 * tc.mss.toNat ≠ 2 ^ 32
  | _ => True

variable {tc tc' : TcpConnection} {e : NewrenoEvent}

theorem ne_zero_iff_toNat (x : BitVec 32) : x ≠ 0 ↔ x.toNat ≠ 0 :=
  not_congr ⟨fun h => by rw [h]; rfl, fun h => eq_of_toNat_eq h⟩

theorem add_ne_zero_iff {x y : BitVec 32} (hx : x ≠ 0) : x + y ≠ 0 ↔ x.toNat + y.toNat ≠ 2 ^ 32 := by
  rw [ne_zero_iff_toNat] at hx ⊢
  have hxlt := x.isLt
  have hylt := y.isLt
  rw [toNat_add]
  omega

theorem mss_toNat_lt (tc : TcpConnection) : tc.mss.toNat < 2 ^ 16 := by
  have hlt := tc.sndMss.isLt
  rw [TcpConnection.mss, toNat_setWidth, Nat.mod_eq_of_lt (by omega)]
  exact hlt

theorem mul_mss_toNat (tc : TcpConnection) {k : BitVec 32} (hk : k.toNat ≤ 4) :
    (k * tc.mss).toNat = k.toNat * tc.mss.toNat := by
  have hlt := mss_toNat_lt tc
  rw [toNat_mul, Nat.mod_eq_of_lt]
  calc k.toNat * tc.mss.toNat ≤ 4 * tc.mss.toNat := Nat.mul_le_mul_right _ hk
    _ < 2 ^ 32 := by omega

theorem mul_mss_ne_zero (hmss : tc.mss ≠ 0) {k : BitVec 32} (hk : k.toNat ≤ 4) (hpos : 0 < k.toNat) :
    k * tc.mss ≠ 0 := by
  rw [ne_zero_iff_toNat] at hmss ⊢
  rw [mul_mss_toNat tc hk]
  exact Nat.mul_ne_zero (Nat.ne_of_gt hpos) hmss

theorem tcpInitialCwnd_ne_zero (hmss : tc.mss ≠ 0) : tcpInitialCwnd tc ≠ 0 := by
  rw [tcpInitialCwnd]
  split
  · exact mul_mss_ne_zero hmss (by decide) (by decide)
  · split
    · exact mul_mss_ne_zero hmss (by decide) (by decide)
    · exact mul_mss_ne_zero hmss (by decide) (by decide)

theorem newrenoRcvAck_eq (hcwnd : tc.cwnd ≠ 0) (n : BitVec 32) :
    (NewrenoEvent.rcvAck n).step tc = some { tc with bytesAcked := n, cwnd := tc.cwnd + ackIncrement tc n } := by
  rw [NewrenoEvent.step, newrenoRcvAck, ackIncrement]
  by_cases hslow : tc.cwnd < tc.ssthresh
  · rw [if_pos hslow, if_pos hslow]
    rfl
  · rw [if_neg hslow, if_neg hslow, if_neg hcwnd]
    rfl

theorem sub_ne_zero_iff {x n : BitVec 32} (hle : n.toNat ≤ x.toNat) : x - n ≠ 0 ↔ n.toNat < x.toNat := by
  rw [ne_zero_iff_toNat, toNat_sub_of_le hle]
  omega

structure Positive (tc : TcpConnection) : Prop where
  cwnd : tc.cwnd ≠ 0
  mss : tc.mss ≠ 0

theorem safe_iff_of_step (hstep : e.step tc = some tc') (hno : ∀ n, e ≠ .partialAck n) : e.Safe tc ↔ tc'.cwnd ≠ 0 := by
  constructor
  · exact fun h => h.nonzero tc' hstep
  · intro h
    refine ⟨fun n he => absurd he (hno n), ?_, ?_⟩
    · rw [hstep]
      rfl
    · intro tc₁ h₁
      obtain rfl : tc' = tc₁ := Option.some.inj (hstep.symm.trans h₁)
      exact h

theorem Positive.safe_iff (h : Positive tc) : e.Safe tc ↔ e.Fits tc := by
  cases e with
  | init sndWnd =>
    rw [safe_iff_of_step (e := .init sndWnd) rfl fun _ => NewrenoEvent.noConfusion]
    exact iff_of_true (tcpInitialCwnd_ne_zero h.mss) trivial
  | rcvAck n =>
    rw [safe_iff_of_step (newrenoRcvAck_eq h.cwnd n) fun _ => NewrenoEvent.noConfusion]
    exact add_ne_zero_iff h.cwnd
  | congestion flight =>
    rw [safe_iff_of_step (e := .congestion flight) rfl fun _ => NewrenoEvent.noConfusion]
    exact iff_of_true h.cwnd trivial
  | recovered => exact safe_iff_of_step (e := .recovered) rfl fun _ => NewrenoEvent.noConfusion
  | dupack =>
    rw [safe_iff_of_step (e := .dupack) rfl fun _ => NewrenoEvent.noConfusion]
    exact add_ne_zero_iff h.cwnd
  | partialAck n =>
    constructor
    · intro hsafe
      exact (sub_ne_zero_iff (hsafe.noWrap n rfl)).mp (hsafe.nonzero _ rfl)
    · intro hlt
      refine ⟨?_, rfl, ?_⟩
      · intro k hk
        cases hk
        exact Nat.le_of_lt hlt
      · intro tc' hstep
        cases hstep
        exact (sub_ne_zero_iff (Nat.le_of_lt hlt)).mpr hlt
  | fastRetransmitted =>
    have hthree : 3 * tc.mss ≠ 0 := mul_mss_ne_zero h.mss (by decide) (by decide)
    rw [safe_iff_of_step (e := .fastRetransmitted) rfl fun _ => NewrenoEvent.noConfusion]
    have hsum := add_ne_zero_iff (y := tc.ssthresh) hthree
    rw [add_comm, mul_mss_toNat tc (by decide), Nat.add_comm] at hsum
    exact hsum
  | lossRecovered =>
    rw [safe_iff_of_step (e := .lossRecovered) rfl fun _ => NewrenoEvent.noConfusion]
    exact iff_of_true h.mss trivial

theorem NewrenoEvent.step_mss (hstep : e.step tc = some tc') : tc'.mss = tc.mss := by
  cases e with
  | rcvAck n =>
    rw [NewrenoEvent.step, newrenoRcvAck] at hstep
    split at hstep
    · cases hstep
      rfl
    · split at hstep
      · cases hstep
      · cases hstep
        rfl
  | _ =>
    cases hstep
    rfl

theorem Positive.step (h : Positive tc) (hsafe : e.Safe tc) (hstep : e.step tc = some tc') : Positive tc' := by
  refine ⟨hsafe.nonzero tc' hstep, ?_⟩
  rw [NewrenoEvent.step_mss hstep]
  exact h.mss

theorem Positive.run_iff (h : Positive tc) :
    NewrenoRun (fun tc e => e.Safe tc) tc es ↔ NewrenoRun (fun tc e => e.Fits tc) tc es := by
  induction es generalizing tc with
  | nil => exact Iff.rfl
  | cons e es ih =>
    have hsafe : e.Safe tc ↔ e.Fits tc := h.safe_iff
    constructor
    · intro ⟨hs, hrest⟩
      exact ⟨hsafe.mp hs, fun tc' hstep => (ih (h.step hs hstep)).mp (hrest tc' hstep)⟩
    · intro ⟨hf, hrest⟩
      have hs := hsafe.mpr hf
      exact ⟨hs, fun tc' hstep => (ih (h.step hs hstep)).mpr (hrest tc' hstep)⟩

/-- From the initial state of the algorithm. -/
theorem newreno_cwnd_safe (hmss : tc.mss ≠ 0) :
    (newrenoConnInit tc).cwnd ≠ 0 ∧
      (NewrenoRun (fun tc e => e.Safe tc) (newrenoConnInit tc) es ↔
        NewrenoRun (fun tc e => e.Fits tc) (newrenoConnInit tc) es) := by
  have hcwnd : (newrenoConnInit tc).cwnd ≠ 0 := tcpInitialCwnd_ne_zero hmss
  have hpos : Positive (newrenoConnInit tc) := ⟨hcwnd, hmss⟩
  exact ⟨hcwnd, hpos.run_iff⟩

/-- A connection with segments of 1460 bytes. -/
def newrenoStart : TcpConnection := .sending 1000 1000 ⟨.empty, none, 0, []⟩

/-- A segment is lost, and a partial ack is for another one. -/
theorem newreno_cwnd_safe_partial :
    NewrenoRun (fun tc e => e.Safe tc) (newrenoConnInit newrenoStart)
        [.congestion ⟨1000, 9000, 0, 0⟩, .partialAck 1460] := by
  have hmss : newrenoStart.mss ≠ 0 := by decide
  refine (newreno_cwnd_safe hmss).2.mpr ⟨trivial, ?_⟩
  intro tc hstep
  cases hstep
  refine ⟨?_, fun _ _ => trivial⟩
  have hlt : (1460 : BitVec 32).toNat < (tcpInitialCwnd newrenoStart).toNat := by decide
  exact hlt

/-- A partial ack is for three segments more than the window. -/
theorem newreno_cwnd_safe_fails :
    newrenoStart.mss ≠ 0 ∧
      ¬ NewrenoRun (fun tc e => e.Safe tc) (newrenoConnInit newrenoStart) [.partialAck 8760] := by
  refine ⟨by decide, ?_⟩
  intro ⟨hsafe, _⟩
  exact absurd (hsafe.noWrap 8760 rfl) (by decide)

end Vpp.Tcp
