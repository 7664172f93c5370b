import Vpp.Bfd.Session

namespace Vpp.Bfd
open Vpp.Lib

variable (bs : BfdSession)

@[simp] theorem bfdSetDiag_localState (code : BfdDiagCode) :
    (bfdSetDiag bs code).localState = bs.localState := by
  unfold bfdSetDiag
  split <;> rfl

@[simp] theorem bfdSetPollState_localState (state : BfdPollState) :
    (bfdSetPollState bs state).localState = bs.localState := by
  unfold bfdSetPollState
  split <;> rfl

@[simp] theorem bfdRecalcTxInterval_localState :
    (bfdRecalcTxInterval bs).localState = bs.localState := rfl

@[simp] theorem bfdRecalcEchoTxInterval_localState :
    (bfdRecalcEchoTxInterval bs).localState = bs.localState := rfl

@[simp] theorem bfdCalcNextTx_localState (tick : Tick) (now : BitVec 64) :
    (bfdCalcNextTx bs tick now).localState = bs.localState := rfl

@[simp] theorem bfdCalcNextEchoTx_localState (now : BitVec 64) :
    (bfdCalcNextEchoTx bs now).localState = bs.localState := rfl

@[simp] theorem bfdRecalcDetectionTime_localState :
    (bfdRecalcDetectionTime bs).localState = bs.localState := by
  unfold bfdRecalcDetectionTime
  split <;> rfl

@[simp] theorem bfdSetTimer_localState (bm : BfdMain) (bs : BfdSession) (now : BitVec 64) :
    (bfdSetTimer bm bs now).localState = bs.localState := by
  simp only [bfdSetTimer]
  split <;> rfl

@[simp] theorem bfdSetEffectiveDesiredMinTx_localState (tick : Tick)
    (now clocks : BitVec 64) :
    (bfdSetEffectiveDesiredMinTx bs tick now clocks).localState = bs.localState := by
  simp [bfdSetEffectiveDesiredMinTx]

@[simp] theorem bfdSetEffectiveRequiredMinRx_localState (clocks : BitVec 64) :
    (bfdSetEffectiveRequiredMinRx bs clocks).localState = bs.localState := by
  simp [bfdSetEffectiveRequiredMinRx]

@[simp] theorem bfdSetRemoteRequiredMinRx_localState (bm : BfdMain) (bs : BfdSession)
    (usec : BitVec 32) : (bfdSetRemoteRequiredMinRx bm bs usec).localState = bs.localState := by
  unfold bfdSetRemoteRequiredMinRx
  split <;> simp

@[simp] theorem bfdSetRemoteRequiredMinEchoRx_localState (bm : BfdMain) (bs : BfdSession)
    (usec : BitVec 32) : (bfdSetRemoteRequiredMinEchoRx bm bs usec).localState = bs.localState := by
  unfold bfdSetRemoteRequiredMinEchoRx
  split <;> simp

@[simp] theorem bfdOnStateChange_localState (bm : BfdMain) (bs : BfdSession) (tick : Tick) :
    (bfdOnStateChange bm bs tick).localState = bs.localState := by
  simp only [bfdOnStateChange]
  split
  · simp
  · simp
  · simp
  · split <;> simp

@[simp] theorem bfdSetState_localState (bm : BfdMain) (bs : BfdSession) (s : BfdState) (tick : Tick) :
    (bfdSetState bm bs s tick).localState = s := by
  unfold bfdSetState
  split
  · simp
  · next h => exact not_not.mp h

theorem bfdSessionSetFlags_localState (bm : BfdMain) (bs : BfdSession) (adminUpDown : Bool)
    (tick stateTick : Tick) :
    (bfdSessionSetFlags bm bs adminUpDown tick stateTick).localState =
      if adminUpDown then .down else .adminDown := by
  simp only [bfdSessionSetFlags]
  split <;> simp

@[simp] theorem bfdAddAuthSection_localState (bm : BfdMain) (keys : PoolAt BfdAuthKey) (pkt : BfdPkt)
    (bs : BfdSession) : (bfdAddAuthSection bm keys pkt bs).2.localState = bs.localState := by
  simp only [bfdAddAuthSection]
  split
  · split <;> rfl
  · rfl

@[simp] theorem bfdAddAuthSection_state (bm : BfdMain) (keys : PoolAt BfdAuthKey) (pkt : BfdPkt)
    (bs : BfdSession) : (bfdAddAuthSection bm keys pkt bs).1.state = pkt.state := by
  simp only [bfdAddAuthSection]
  split
  · split
    · exact BfdPkt.state_setFlag (by decide)
    · rfl
  · rfl

@[simp] theorem bfdPollPeriodic_localState (pkt : BfdPkt) (bs : BfdSession) (now : BitVec 64) :
    (bfdPollPeriodic pkt bs now).2.localState = bs.localState := by
  simp only [bfdPollPeriodic]
  split
  · split <;> simp
  all_goals rfl

@[simp] theorem bfdPollPeriodic_state (pkt : BfdPkt) (bs : BfdSession) (now : BitVec 64) :
    (bfdPollPeriodic pkt bs now).1.state = pkt.state := by
  simp only [bfdPollPeriodic]
  split
  · split
    · rfl
    · exact BfdPkt.state_setFlag (by decide)
  · exact BfdPkt.state_setFlag (by decide)
  · exact BfdPkt.state_setFlag (by decide)
  · rfl

@[simp] theorem bfdInitControlFrame_state (bm : BfdMain) (bs : BfdSession) :
    (bfdInitControlFrame bm bs).state = bs.localState := BfdPkt.state_setState _ bs.localState

theorem bfdSendPeriodic_spec (bm : BfdMain) (keys : PoolAt BfdAuthKey) (bs : BfdSession) (tick : Tick)
    (buffer : Bool) (now : BitVec 64) :
    (bfdSendPeriodic bm keys bs tick buffer now).2.localState = bs.localState ∧
      ∀ pkt, (bfdSendPeriodic bm keys bs tick buffer now).1 = some pkt → pkt.state = bs.localState := by
  simp only [bfdSendPeriodic]
  split_ifs
  · simp
  · simp
  · refine ⟨by simp, ?_⟩
    rintro pkt ⟨⟩
    simp
  · simp
  · simp

theorem bfdInitFinalControlFrame_spec (bm : BfdMain) (keys : PoolAt BfdAuthKey) (bs : BfdSession)
    (now : BitVec 64) :
    (bfdInitFinalControlFrame bm keys bs now).2.localState = bs.localState ∧
      (bfdInitFinalControlFrame bm keys bs now).1.state = bs.localState := by
  refine ⟨by simp [bfdInitFinalControlFrame], ?_⟩
  have hf : (bfdPktSetFinal (bfdInitControlFrame bm bs)).state = (bfdInitControlFrame bm bs).state :=
    BfdPkt.state_setFlag (by decide)
  simp [bfdInitFinalControlFrame, hf]

@[simp] theorem bfdSendEcho_localState (bm : BfdMain) (bs : BfdSession) (buffer sent : Bool)
    (now : BitVec 64) : (bfdSendEcho bm bs buffer sent now).localState = bs.localState := by
  unfold bfdSendEcho
  split_ifs <;> simp

@[simp] theorem bfdSwitchOnEcho_localState (bm : BfdMain) (bs : BfdSession) (now : BitVec 64) :
    (bfdSwitchOnEcho bm bs now).localState = bs.localState := by
  simp only [bfdSwitchOnEcho]
  split <;> simp

theorem bfdCheckRxTimeout_localState (bm : BfdMain) (bs : BfdSession) (now : BitVec 64)
    (stateTick : Tick) :
    (bfdCheckRxTimeout bm bs now stateTick).localState = bs.localState ∨
      (bfdCheckRxTimeout bm bs now stateTick).localState = .down := by
  unfold bfdCheckRxTimeout
  split_ifs <;> simp

/-- A wake-up keeps the state or takes a session in Init or Up down; the frame it sends reports the
state it leaves behind. -/
theorem bfdOnTimeout_spec (bm : BfdMain) (bs : BfdSession) (w : Wakeup) :
    ((bfdOnTimeout bm bs w).2.localState = bs.localState ∨
        (bfdOnTimeout bm bs w).2.localState = .down ∧ bs.localState ≠ .adminDown) ∧
      ∀ pkt, (bfdOnTimeout bm bs w).1 = some pkt →
        pkt.state = (bfdOnTimeout bm bs w).2.localState := by
  have hc := bfdCheckRxTimeout_localState bm bs w.tick.now w.stateTick
  simp only [bfdOnTimeout]
  cases hs : bs.localState with
  | adminDown =>
    obtain ⟨hl, hp⟩ := bfdSendPeriodic_spec bm w.keys bs w.tick w.txBuffer w.tick.now
    exact ⟨.inl (hl.trans hs), fun pkt he => (hp pkt he).trans hl.symm⟩
  | down =>
    obtain ⟨hl, hp⟩ := bfdSendPeriodic_spec bm w.keys bs w.tick w.txBuffer w.tick.now
    exact ⟨.inl (hl.trans hs), fun pkt he => (hp pkt he).trans hl.symm⟩
  | init =>
    obtain ⟨hl, hp⟩ := bfdSendPeriodic_spec bm w.keys
      (bfdCheckRxTimeout bm bs w.tick.now w.stateTick) w.tick w.txBuffer w.tick.now
    refine ⟨?_, fun pkt he => (hp pkt he).trans hl.symm⟩
    rcases hc with he | he
    · exact .inl (hl.trans (he.trans hs))
    · exact .inr ⟨hl.trans he, by decide⟩
  | up =>
    obtain ⟨hl, hp⟩ := bfdSendPeriodic_spec bm w.keys (bfdSwitchOnEcho bm
      (bfdCheckRxTimeout bm bs w.tick.now w.stateTick) w.tick.now) w.tick w.txBuffer w.tick.now
    rw [bfdSwitchOnEcho_localState] at hl hp
    have hfinal : ∀ bs' : BfdSession, (if bs'.echo = true then
        bfdSendEcho bm bs' w.echoBuffer w.echoSent w.tick.now else bs').localState =
          bs'.localState := by
      intro bs'
      split <;> simp
    simp only [hfinal, hl]
    refine ⟨?_, hp⟩
    rcases hc with he | he
    · exact .inl (he.trans hs)
    · exact .inr ⟨he, by decide⟩

@[simp] theorem bfdConsumeFields_localState (bm : BfdMain) (pkt : BfdPkt) (bs : BfdSession)
    (now : BitVec 64) : (bfdConsumeFields bm pkt bs now).localState = bs.localState := by
  simp only [bfdConsumeFields, bfdSetRemoteRequiredMinEchoRx_localState,
    bfdSetRemoteRequiredMinRx_localState]
  split <;> rfl

theorem bfdRecalcDetectionTime_remoteState :
    (bfdRecalcDetectionTime bs).remoteState = bs.remoteState := by
  unfold bfdRecalcDetectionTime
  split <;> rfl

@[simp] theorem bfdConsumeFields_remoteState (bm : BfdMain) (pkt : BfdPkt) (bs : BfdSession)
    (now : BitVec 64) : (bfdConsumeFields bm pkt bs now).remoteState = pkt.state := by
  simp only [bfdConsumeFields, bfdSetRemoteRequiredMinEchoRx, bfdSetRemoteRequiredMinRx,
    bfdRecalcEchoTxInterval, bfdRecalcTxInterval]
  split_ifs <;> simp [bfdRecalcDetectionTime_remoteState]

@[simp] theorem bfdConsumeFinal_localState (bm : BfdMain) (pkt : BfdPkt) (bs : BfdSession)
    (now : BitVec 64) : (bfdConsumeFinal bm pkt bs now).localState = bs.localState := by
  simp only [bfdConsumeFinal]
  split_ifs <;> simp

@[simp] theorem bfdConsumeFinal_remoteState (bm : BfdMain) (pkt : BfdPkt) (bs : BfdSession)
    (now : BitVec 64) : (bfdConsumeFinal bm pkt bs now).remoteState = bs.remoteState := by
  simp only [bfdConsumeFinal, bfdSetEffectiveRequiredMinRx, bfdSetPollState]
  split_ifs <;> simp [bfdRecalcDetectionTime_remoteState]

@[simp] theorem bfdSetTimer_remoteState (bm : BfdMain) (bs : BfdSession) (now : BitVec 64) :
    (bfdSetTimer bm bs now).remoteState = bs.remoteState := by
  simp only [bfdSetTimer]
  split <;> rfl

theorem bfdConsumeState_spec (bm : BfdMain) (bs : BfdSession) (stateTick : Tick) :
    (bfdConsumeState bm bs stateTick).localState = bs.localState ∨
      bs.localState ≠ .adminDown ∧
        ((bfdConsumeState bm bs stateTick).localState = .down ∨
          (bfdConsumeState bm bs stateTick).localState = .init ∨
          (bfdConsumeState bm bs stateTick).localState = .up ∧
            (bs.remoteState = .init ∨ bs.remoteState = .up)) := by
  unfold bfdConsumeState
  split_ifs with h1 h2 h3 h4 h5 h6 h7 h8
  · exact .inl rfl
  · exact .inr ⟨h1, .inl (bfdSetState_localState ..)⟩
  · exact .inr ⟨h1, .inr (.inl (bfdSetState_localState ..))⟩
  · exact .inr ⟨h1, .inr (.inr ⟨bfdSetState_localState .., .inl h5⟩)⟩
  · exact .inl rfl
  · exact .inr ⟨h1, .inr (.inr ⟨bfdSetState_localState .., h7.symm⟩)⟩
  · exact .inl rfl
  · exact .inr ⟨h1, .inl (bfdSetState_localState ..)⟩
  · exact .inl rfl

theorem bfdConsumePkt_spec (bm : BfdMain) (pkt : BfdPkt) (bs : BfdSession) (tick stateTick : Tick) :
    (bfdConsumePkt bm pkt bs tick stateTick).localState = bs.localState ∨
      bs.localState ≠ .adminDown ∧
        ((bfdConsumePkt bm pkt bs tick stateTick).localState = .down ∨
          (bfdConsumePkt bm pkt bs tick stateTick).localState = .init ∨
          (bfdConsumePkt bm pkt bs tick stateTick).localState = .up ∧
            (pkt.state = .init ∨ pkt.state = .up)) := by
  simp only [bfdConsumePkt]
  split
  · exact .inl rfl
  · have hl := bfdConsumeState_spec bm (bfdSetTimer bm (bfdCalcNextTx (bfdConsumeFinal bm pkt
      (bfdConsumeFields bm pkt bs tick.now) tick.now) tick tick.now) tick.now) stateTick
    have hr : (bfdCalcNextTx (bfdConsumeFinal bm pkt (bfdConsumeFields bm pkt bs tick.now) tick.now)
        tick tick.now).remoteState = pkt.state := by
      simp [bfdCalcNextTx]
    simpa only [bfdSetTimer_localState, bfdCalcNextTx_localState, bfdConsumeFinal_localState,
      bfdConsumeFields_localState, bfdSetTimer_remoteState, hr] using hl

end Vpp.Bfd
