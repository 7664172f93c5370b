import Vpp.Bfd.Handshake

namespace Vpp.Bfd
open Vpp.Lib

def bfdSessionStart (bs : BfdSession) : BfdSession :=
  bfdRecalcTxInterval (bfdSetEffectiveRequiredMinRx bs bs.configRequiredMinRxClocks)

def bfdSessionSetParams (bm : BfdMain) (bs : BfdSession) (desiredMinTxUsec requiredMinRxUsec : BitVec 32)
    (detectMult : BitVec 8) : BfdSession :=
  if bs.localDetectMult ≠ detectMult ∨ bs.configDesiredMinTxUsec ≠ desiredMinTxUsec ∨
      bs.configRequiredMinRxUsec ≠ requiredMinRxUsec then
    let poll : BfdPollState :=
      -- a poll sequence is not needed for a change of the detect multiplier
      if bs.configDesiredMinTxUsec ≠ desiredMinTxUsec ∨ bs.configRequiredMinRxUsec ≠ requiredMinRxUsec then
        match bs.pollState with
        | .notNeeded => if bs.localState = .up ∨ bs.localState = .init then .needed else .notNeeded
        | .needed => .needed
        | .inProgress => .inProgressAndQueued
        | .inProgressAndQueued => .inProgressAndQueued
      else bs.pollState
    { bfdSetPollState bs poll with
      localDetectMult := detectMult
      configDesiredMinTxUsec := desiredMinTxUsec
      configDesiredMinTxClocks := bm.usecToClocks (desiredMinTxUsec.setWidth 64)
      configRequiredMinRxUsec := requiredMinRxUsec
      configRequiredMinRxClocks := bm.usecToClocks (requiredMinRxUsec.setWidth 64) }
  else bs

def bfdOnConfigChange (bm : BfdMain) (bs : BfdSession) (now : BitVec 64) : BfdSession :=
  let bs := if bs.remoteDemand = true ∧ bs.pollState = .needed ∧ bs.pollStateStartOrTimeoutClocks < now then
      { bs with txTimeoutClocks := now }
    else bs
  bfdSetTimer bm (bfdRecalcDetectionTime bs) now

inductive SessionOp where
  | start
  | newSession (w : Wakeup)
  | setParams (desiredMinTxUsec requiredMinRxUsec : BitVec 32) (detectMult : BitVec 8)
  | configChange (now : BitVec 64)
  | consumePkt (pkt : BfdPkt) (tick stateTick : Tick)
  | timeout (w : Wakeup)
  | setFlags (adminUpDown : Bool) (tick stateTick : Tick)
  | setState (newState : BfdState) (tick : Tick)
  | finalFrame (keys : PoolAt BfdAuthKey) (now : BitVec 64)

def BfdSession.step (bm : BfdMain) (bs : BfdSession) : SessionOp → BfdSession
  | .start => bfdSessionStart bs
  | .newSession w => bfdSetTimer bm (bfdSendPeriodic bm w.keys bs w.tick w.txBuffer w.tick.now).2 w.tick.now
  | .setParams desiredMinTxUsec requiredMinRxUsec detectMult =>
    bfdSessionSetParams bm bs desiredMinTxUsec requiredMinRxUsec detectMult
  | .configChange now => bfdOnConfigChange bm bs now
  | .consumePkt pkt tick stateTick => bfdConsumePkt bm pkt bs tick stateTick
  | .timeout w => bfdSetTimer bm (bfdOnTimeout bm bs w).2 w.tick.now
  | .setFlags adminUpDown tick stateTick => bfdSessionSetFlags bm bs adminUpDown tick stateTick
  | .setState newState tick => bfdSetState bm bs newState tick
  | .finalFrame keys now => (bfdInitFinalControlFrame bm keys bs now).2

def BfdSession.run (bm : BfdMain) (bs : BfdSession) (ops : List SessionOp) : BfdSession := ops.foldl (·.step bm ·) bs

structure TxRates where
  localState : BfdState
  config : BitVec 64
  effective : BitVec 64
  remote : BitVec 64
  transmit : BitVec 64

def BfdSession.txRates (bs : BfdSession) : TxRates :=
  ⟨bs.localState, bs.configDesiredMinTxClocks, bs.effectiveDesiredMinTxClocks, bs.remoteMinRxClocks,
    bs.transmitIntervalClocks⟩

/-- In Up the session transmits at the rate in force, which is no slower than the configured one. -/
def TxRates.Ok (r : TxRates) : Prop :=
  r.localState = .up → r.transmit = clibMax r.effective r.remote ∧ r.effective ≤ r.config

@[simp] theorem bfdSetDiag_txRates (bs : BfdSession) (code : BfdDiagCode) :
    (bfdSetDiag bs code).txRates = bs.txRates := by
  rw [bfdSetDiag]
  split <;> rfl

@[simp] theorem bfdSetPollState_txRates (bs : BfdSession) (state : BfdPollState) :
    (bfdSetPollState bs state).txRates = bs.txRates := by
  rw [bfdSetPollState]
  split <;> rfl

@[simp] theorem bfdRecalcDetectionTime_txRates (bs : BfdSession) :
    (bfdRecalcDetectionTime bs).txRates = bs.txRates := by
  rw [bfdRecalcDetectionTime]
  split <;> rfl

@[simp] theorem bfdSetTimer_txRates (bm : BfdMain) (bs : BfdSession) (now : BitVec 64) :
    (bfdSetTimer bm bs now).txRates = bs.txRates := by
  simp only [bfdSetTimer]
  split <;> rfl

@[simp] theorem bfdCalcNextTx_txRates (bs : BfdSession) (tick : Tick) (now : BitVec 64) :
    (bfdCalcNextTx bs tick now).txRates = bs.txRates := rfl

@[simp] theorem bfdSetEffectiveRequiredMinRx_txRates (bs : BfdSession) (clocks : BitVec 64) :
    (bfdSetEffectiveRequiredMinRx bs clocks).txRates = bs.txRates :=
  bfdRecalcDetectionTime_txRates { bs with effectiveRequiredMinRxClocks := clocks }

theorem bfdRecalcTxInterval_txRates (bs : BfdSession) : (bfdRecalcTxInterval bs).txRates =
    { bs.txRates with transmit := clibMax bs.txRates.effective bs.txRates.remote } := rfl

@[simp] theorem bfdSetEffectiveDesiredMinTx_txRates (bs : BfdSession) (tick : Tick) (now clocks : BitVec 64) :
    (bfdSetEffectiveDesiredMinTx bs tick now clocks).txRates =
      { bs.txRates with effective := clocks, transmit := clibMax clocks bs.txRates.remote } := by
  have h := bfdRecalcTxInterval_txRates (bfdRecalcDetectionTime { bs with effectiveDesiredMinTxClocks := clocks })
  rw [bfdRecalcDetectionTime_txRates] at h
  exact h

@[simp] theorem bfdSetRemoteRequiredMinEchoRx_txRates (bm : BfdMain) (bs : BfdSession) (usec : BitVec 32) :
    (bfdSetRemoteRequiredMinEchoRx bm bs usec).txRates = bs.txRates := by
  rw [bfdSetRemoteRequiredMinEchoRx]
  split <;> rfl

@[simp] theorem bfdAddAuthSection_txRates (bm : BfdMain) (keys : PoolAt BfdAuthKey) (pkt : BfdPkt) (bs : BfdSession) :
    (bfdAddAuthSection bm keys pkt bs).2.txRates = bs.txRates := by
  simp only [bfdAddAuthSection]
  split
  · split <;> rfl
  · rfl

@[simp] theorem bfdPollPeriodic_txRates (pkt : BfdPkt) (bs : BfdSession) (now : BitVec 64) :
    (bfdPollPeriodic pkt bs now).2.txRates = bs.txRates := by
  rw [bfdPollPeriodic]
  split
  · split
    · rfl
    · exact bfdSetPollState_txRates _ _
  · rfl
  · rfl
  · rfl

@[simp] theorem bfdSendPeriodic_txRates (bm : BfdMain) (keys : PoolAt BfdAuthKey) (bs : BfdSession) (tick : Tick)
    (buffer : Bool) (now : BitVec 64) : (bfdSendPeriodic bm keys bs tick buffer now).2.txRates = bs.txRates := by
  rw [bfdSendPeriodic]
  split_ifs
  · rfl
  · rfl
  · exact (bfdAddAuthSection_txRates _ _ _ _).trans (bfdPollPeriodic_txRates _ _ _)
  · rfl
  · rfl

@[simp] theorem bfdSendEcho_txRates (bm : BfdMain) (bs : BfdSession) (buffer sent : Bool) (now : BitVec 64) :
    (bfdSendEcho bm bs buffer sent now).txRates = bs.txRates := by
  rw [bfdSendEcho]
  split_ifs <;> rfl

@[simp] theorem bfdSwitchOnEcho_txRates (bm : BfdMain) (bs : BfdSession) (now : BitVec 64) :
    (bfdSwitchOnEcho bm bs now).txRates = bs.txRates := by
  rw [bfdSwitchOnEcho]
  split
  · exact (bfdSetPollState_txRates _ _).trans (bfdSetEffectiveRequiredMinRx_txRates _ _)
  · rfl

@[simp] theorem bfdConsumeFinal_txRates (bm : BfdMain) (pkt : BfdPkt) (bs : BfdSession) (now : BitVec 64) :
    (bfdConsumeFinal bm pkt bs now).txRates = bs.txRates := by
  simp only [bfdConsumeFinal]
  split_ifs
  · exact (bfdSetEffectiveRequiredMinRx_txRates _ _).trans (bfdSetPollState_txRates _ _)
  · exact (bfdSetEffectiveRequiredMinRx_txRates _ _).trans (bfdSetPollState_txRates _ _)
  · exact bfdSetPollState_txRates _ _
  · exact bfdSetPollState_txRates _ _
  · rfl
  · rfl

theorem TxRates.Ok.setRemoteRequiredMinRx (h : bs.txRates.Ok) (bm : BfdMain) (usec : BitVec 32) :
    (bfdSetRemoteRequiredMinRx bm bs usec).txRates.Ok := by
  rw [bfdSetRemoteRequiredMinRx]
  split
  · rw [bfdRecalcTxInterval_txRates, bfdRecalcDetectionTime_txRates]
    intro hup
    exact ⟨rfl, (h hup).2⟩
  · exact h

theorem bfdOnStateChange_txRates_ok (bm : BfdMain) (bs : BfdSession) (tick : Tick) :
    (bfdOnStateChange bm bs tick).txRates.Ok := by
  intro hup
  have hstate : bs.localState = .up := (bfdOnStateChange_localState bm bs tick).symm.trans hup
  have hrates : (bfdOnStateChange bm bs tick).txRates =
      { bs.txRates with
        effective := bs.configDesiredMinTxClocks
        transmit := clibMax bs.configDesiredMinTxClocks bs.txRates.remote } := by
    simp only [bfdOnStateChange, hstate, bfdSetTimer_txRates]
    split <;> simp
  rw [hrates]
  exact ⟨rfl, BitVec.le_refl _⟩

theorem TxRates.Ok.setState (h : bs.txRates.Ok) (bm : BfdMain) (newState : BfdState) (tick : Tick) :
    (bfdSetState bm bs newState tick).txRates.Ok := by
  rw [bfdSetState]
  split
  · exact bfdOnStateChange_txRates_ok bm _ tick
  · exact h

theorem TxRates.Ok.checkRxTimeout (h : bs.txRates.Ok) (bm : BfdMain) (now : BitVec 64) (stateTick : Tick) :
    (bfdCheckRxTimeout bm bs now stateTick).txRates.Ok := by
  have hdiag (code : BfdDiagCode) : (bfdSetDiag bs code).txRates.Ok := by rwa [bfdSetDiag_txRates]
  rw [bfdCheckRxTimeout]
  split_ifs
  · exact ((hdiag _).setState bm _ _).setRemoteRequiredMinRx bm 1
  · exact (hdiag _).setState bm _ _
  · exact h

theorem TxRates.Ok.onTimeout (h : bs.txRates.Ok) (bm : BfdMain) (w : Wakeup) : (bfdOnTimeout bm bs w).2.txRates.Ok := by
  have hecho (bs' : BfdSession) : (if bs'.echo = true then
      bfdSendEcho bm bs' w.echoBuffer w.echoSent w.tick.now else bs').txRates = bs'.txRates := by
    split
    · exact bfdSendEcho_txRates _ _ _ _ _
    · rfl
  simp only [bfdOnTimeout]
  cases bs.localState with
  | adminDown => rwa [bfdSendPeriodic_txRates]
  | down => rwa [bfdSendPeriodic_txRates]
  | init =>
    rw [bfdSendPeriodic_txRates]
    exact h.checkRxTimeout bm _ _
  | up =>
    simp only [hecho, bfdSendPeriodic_txRates, bfdSwitchOnEcho_txRates]
    exact h.checkRxTimeout bm _ _

theorem TxRates.Ok.consumeFields (h : bs.txRates.Ok) (bm : BfdMain) (pkt : BfdPkt) (now : BitVec 64) :
    (bfdConsumeFields bm pkt bs now).txRates.Ok := by
  simp only [bfdConsumeFields, bfdSetRemoteRequiredMinEchoRx_txRates]
  apply TxRates.Ok.setRemoteRequiredMinRx
  split
  · exact h
  · exact h

theorem TxRates.Ok.consumeState (h : bs.txRates.Ok) (bm : BfdMain) (stateTick : Tick) :
    (bfdConsumeState bm bs stateTick).txRates.Ok := by
  have hset (code : BfdDiagCode) (newState : BfdState) :
      (bfdSetState bm (bfdSetDiag bs code) newState stateTick).txRates.Ok := by
    apply TxRates.Ok.setState
    rwa [bfdSetDiag_txRates]
  rw [bfdConsumeState]
  split_ifs
  · exact h
  · exact hset _ _
  · exact hset _ _
  · exact hset _ _
  · exact h
  · exact hset _ _
  · exact h
  · exact hset _ _
  · exact h

theorem TxRates.Ok.consumePkt (h : bs.txRates.Ok) (bm : BfdMain) (pkt : BfdPkt) (tick stateTick : Tick) :
    (bfdConsumePkt bm pkt bs tick stateTick).txRates.Ok := by
  rw [bfdConsumePkt]
  split
  · exact h
  · apply TxRates.Ok.consumeState
    rw [bfdSetTimer_txRates, bfdCalcNextTx_txRates, bfdConsumeFinal_txRates]
    exact h.consumeFields bm pkt _

theorem TxRates.Ok.setFlags (h : bs.txRates.Ok) (bm : BfdMain) (adminUpDown : Bool) (tick stateTick : Tick) :
    (bfdSessionSetFlags bm bs adminUpDown tick stateTick).txRates.Ok := by
  rw [bfdSessionSetFlags]
  split
  · rw [bfdSetTimer_txRates, bfdCalcNextTx_txRates, bfdSetDiag_txRates]
    exact h.setState bm _ _
  · rw [bfdSetTimer_txRates, bfdCalcNextTx_txRates]
    apply TxRates.Ok.setState
    rwa [bfdSetDiag_txRates]

theorem bfdSessionSetParams_txRates (bm : BfdMain) (bs : BfdSession) (desiredMinTxUsec requiredMinRxUsec : BitVec 32)
    (detectMult : BitVec 8) :
    (bfdSessionSetParams bm bs desiredMinTxUsec requiredMinRxUsec detectMult).txRates = bs.txRates ∨
      (bfdSessionSetParams bm bs desiredMinTxUsec requiredMinRxUsec detectMult).txRates =
        { bs.txRates with config := bm.usecToClocks (desiredMinTxUsec.setWidth 64) } := by
  rw [bfdSessionSetParams]
  split
  · right
    exact congrArg (fun r : TxRates => { r with config := bm.usecToClocks (desiredMinTxUsec.setWidth 64) })
      (bfdSetPollState_txRates bs _)
  · exact .inl rfl

/-- The interval is not set below the one in force while the session is in Up. -/
def SessionOp.KeepsRate (bm : BfdMain) (bs : BfdSession) : SessionOp → Prop
  | .setParams desiredMinTxUsec _ _ => bs.localState = .up →
    bs.effectiveDesiredMinTxClocks ≤ bm.usecToClocks (desiredMinTxUsec.setWidth 64)
  | _ => True

def RunKeepsRate (bm : BfdMain) (bs : BfdSession) : List SessionOp → Prop
  | [] => True
  | op :: ops => op.KeepsRate bm bs ∧ RunKeepsRate bm (bs.step bm op) ops

theorem TxRates.Ok.setParams (h : bs.txRates.Ok) {bm : BfdMain} {desiredMinTxUsec requiredMinRxUsec : BitVec 32}
    {detectMult : BitVec 8}
    (hkeeps : (SessionOp.setParams desiredMinTxUsec requiredMinRxUsec detectMult).KeepsRate bm bs) :
    (bfdSessionSetParams bm bs desiredMinTxUsec requiredMinRxUsec detectMult).txRates.Ok := by
  obtain he | he := bfdSessionSetParams_txRates bm bs desiredMinTxUsec requiredMinRxUsec detectMult
  · rwa [he]
  · rw [he]
    intro hup
    exact ⟨(h hup).1, hkeeps hup⟩

theorem TxRates.Ok.step (h : bs.txRates.Ok) {op : SessionOp} (hkeeps : op.KeepsRate bm bs) :
    (bs.step bm op).txRates.Ok := by
  cases op with
  | start =>
    rw [BfdSession.step, bfdSessionStart, bfdRecalcTxInterval_txRates, bfdSetEffectiveRequiredMinRx_txRates]
    exact fun hup => ⟨rfl, (h hup).2⟩
  | newSession w => rwa [BfdSession.step, bfdSetTimer_txRates, bfdSendPeriodic_txRates]
  | setParams desiredMinTxUsec requiredMinRxUsec detectMult => exact h.setParams hkeeps
  | configChange now =>
    rw [BfdSession.step, bfdOnConfigChange, bfdSetTimer_txRates, bfdRecalcDetectionTime_txRates]
    split
    · exact h
    · exact h
  | consumePkt pkt tick stateTick => exact h.consumePkt bm pkt tick stateTick
  | timeout w =>
    rw [BfdSession.step, bfdSetTimer_txRates]
    exact h.onTimeout bm w
  | setFlags adminUpDown tick stateTick => exact h.setFlags bm adminUpDown tick stateTick
  | setState newState tick => exact h.setState bm newState tick
  | finalFrame keys now =>
    have hframe : (bfdInitFinalControlFrame bm keys bs now).2.txRates = bs.txRates :=
      (bfdSetPollState_txRates _ _).trans (bfdAddAuthSection_txRates bm keys _ bs)
    rwa [BfdSession.step, hframe]

theorem TxRates.Ok.run (h : bs.txRates.Ok) {ops : List SessionOp} (hkeeps : RunKeepsRate bm bs ops) {p : List SessionOp}
    (hp : p <+: ops) : (bs.run bm p).txRates.Ok := by
  induction p generalizing bs ops with
  | nil => exact h
  | cons op p ih =>
    cases ops with
    | nil => exact absurd (List.prefix_nil.mp hp) (List.cons_ne_nil _ _)
    | cons op' ops =>
      obtain ⟨rfl, hp'⟩ := List.cons_prefix_cons.mp hp
      exact ih (h.step hkeeps.1) hkeeps.2 hp'

theorem clibMax_le_clibMax (h : x ≤ y) (z : BitVec 64) : clibMax x z ≤ clibMax y z := by
  rw [BitVec.le_def] at h
  rw [clibMax, clibMax, BitVec.le_def]
  simp only [BitVec.lt_def]
  split_ifs <;> omega

/-- In Up a session transmits no slower than it says and the peer wants, in runs where the interval is not set below the
one in force while the session is in Up. -/
theorem bfd_transmit_interval (bm : BfdMain) (localSeq secret : BitVec 32) (bs : BfdSession) (ops : List SessionOp)
    (hkeeps : RunKeepsRate bm (bfdSetDefaults bm localSeq secret bs) ops) (p : List SessionOp) (hp : p <+: ops)
    (hup : ((bfdSetDefaults bm localSeq secret bs).run bm p).localState = .up) :
    ((bfdSetDefaults bm localSeq secret bs).run bm p).transmitIntervalClocks ≤
      clibMax ((bfdSetDefaults bm localSeq secret bs).run bm p).configDesiredMinTxClocks
        ((bfdSetDefaults bm localSeq secret bs).run bm p).remoteMinRxClocks := by
  have hdown : (bfdSetDefaults bm localSeq secret bs).txRates.Ok := by
    intro h
    cases h
  obtain ⟨htransmit, hle⟩ := hdown.run hkeeps hp hup
  exact htransmit.trans_le (clibMax_le_clibMax hle _)

/-- A packet of a peer in Init that wants no more than one packet in 100 microseconds. -/
def initPkt : BfdPkt := ⟨0x20, 0x80, 3, 24, 7, 0, 100, 100, 0, default⟩

/-- A session that comes up with an interval of 200 microseconds and then gets another one. -/
def upAndChanged (desiredMinTxUsec : BitVec 32) : List SessionOp :=
  [.setParams 200 100 3, .start, .consumePkt initPkt idleTick idleTick, .setParams desiredMinTxUsec 100 3,
      .configChange 0]

theorem bfd_transmit_interval_longer :
    ((bfdSetDefaults idleMain 0 0 default).run idleMain (upAndChanged 300)).transmitIntervalClocks ≤
      clibMax ((bfdSetDefaults idleMain 0 0 default).run idleMain (upAndChanged 300)).configDesiredMinTxClocks
        ((bfdSetDefaults idleMain 0 0 default).run idleMain (upAndChanged 300)).remoteMinRxClocks :=
  bfd_transmit_interval idleMain 0 0 default (upAndChanged 300)
    ⟨fun h => absurd h (by decide), trivial, trivial, fun _ => by decide, trivial, trivial⟩ (upAndChanged 300)
        (List.prefix_refl _) (by decide)

/-- Set to 100 microseconds in Up, the session says 100 and transmits every 200. -/
theorem bfd_transmit_interval_shorter : ¬ ∀ (bm : BfdMain) (localSeq secret : BitVec 32) (bs : BfdSession)
    (ops : List SessionOp), ((bfdSetDefaults bm localSeq secret bs).run bm ops).localState = .up →
      ((bfdSetDefaults bm localSeq secret bs).run bm ops).transmitIntervalClocks ≤
        clibMax ((bfdSetDefaults bm localSeq secret bs).run bm ops).configDesiredMinTxClocks
          ((bfdSetDefaults bm localSeq secret bs).run bm ops).remoteMinRxClocks := by
  intro hall
  exact absurd (hall idleMain 0 0 default (upAndChanged 100) (by decide)) (by decide)

end Vpp.Bfd
