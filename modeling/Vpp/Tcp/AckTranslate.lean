import Vpp.Tcp.Translate

namespace Vpp.Tcp
open Vpp.Lib Option

variable {ack : Seq}
variable (c d : Seq) (env : Env) (tc : TcpConnection)

theorem tcpFlightSize_translate : tcpFlightSize (tc.translate c d) = tcpFlightSize tc := by
  unfold tcpFlightSize
  change tc.sndUnaMax + c - (tc.sndUna + c) - _ + _ = _
  rw [add_sub_add_right_eq_sub]
  rfl

theorem tcpAvailableSndSpace_translate : tcpAvailableSndSpace (tc.translate c d) = tcpAvailableSndSpace tc := by
  unfold tcpAvailableSndSpace
  rw [tcpFlightSize_translate]
  rfl

theorem tcpWindowToAdvertise_translate :
    tcpWindowToAdvertise env (tc.translate c d) = (tcpWindowToAdvertise env tc).translate c d := rfl

theorem tcpPrepareRetransmitSegment_translate (maxBytes : BitVec 32) :
    tcpPrepareRetransmitSegment env (tc.translate c d) maxBytes =
      (tcpPrepareRetransmitSegment env tc maxBytes).map (Prod.map (TcpConnection.translate c d) id) := by
  have hhas : (tc.translate c d).opt.has tcpOptsFlagSackPermitted = tc.opt.has tcpOptsFlagSackPermitted := rfl
  have hge : seqGeq (tc.translate c d).sndNxt (tc.translate c d).sndUnaMax = seqGeq tc.sndNxt tc.sndUnaMax :=
    seqGeq_add_right _ _ _
  have hhead : (tc.translate c d).sackSb.head = tc.sackSb.head := rfl
  have hhole : ∀ h, (tc.translate c d).sackSb.holeAt h = (tc.sackSb.holeAt h).map (Hole.translate c) :=
    tc.sackSb.holeAt_translate c
  have huna : (tc.translate c d).sndUna = tc.sndUna + c := rfl
  simp only [tcpPrepareRetransmitSegment, hhas, hge, hhead, hhole, huna, tcpWindowToAdvertise_translate]
  split
  · cases tc.sackSb.head with
    | none => rfl
    | some h =>
      simp only
      cases tc.sackSb.holeAt h with
      | none => rfl
      | some hole =>
        simp only [map_some, bind_eq_bind, bind_some, Hole.start_translate, Hole.stop_translate,
          add_sub_add_right_eq_sub, Prod.map_apply, id]
  · split
    · rfl
    · rfl

theorem fastRetransmitLoop_translate (fuel buffers : Nat) (sndSpace : BitVec 32) :
    fastRetransmitLoop env fuel buffers (tc.translate c d) sndSpace =
      (fastRetransmitLoop env fuel buffers tc sndSpace).map (TcpConnection.translate c d) := by
  induction fuel generalizing buffers tc sndSpace with
  | zero => rfl
  | succ fuel ih =>
    have hmss : (tc.translate c d).mss = tc.mss := rfl
    rw [fastRetransmitLoop, fastRetransmitLoop]
    simp only [hmss, tcpPrepareRetransmitSegment_translate]
    split
    · rfl
    · split
      · rfl
      · cases tcpPrepareRetransmitSegment env tc (if tc.mss < sndSpace then tc.mss else sndSpace) with
        | none => rfl
        | some res =>
          obtain ⟨tc', nBytes⟩ := res
          simp only [map_some, bind_eq_bind, bind_some, Prod.map_apply, id]
          split
          · rfl
          · exact ih tc' (buffers - 1) (sndSpace - nBytes)

theorem tcpFastRetransmit_translate :
    tcpFastRetransmit env (tc.translate c d) = (tcpFastRetransmit env tc).map (TcpConnection.translate c d) := by
  have hspace := tcpAvailableSndSpace_translate c d { tc with sndNxt := tc.sndUna }
  unfold tcpFastRetransmit
  change fastRetransmitLoop env
      (tcpAvailableSndSpace (TcpConnection.translate c d { tc with sndNxt := tc.sndUna })).toNat
    env.buffers (TcpConnection.translate c d { tc with sndNxt := tc.sndUna })
    (tcpAvailableSndSpace (TcpConnection.translate c d { tc with sndNxt := tc.sndUna })) = _
  rw [hspace]
  exact fastRetransmitLoop_translate c d env { tc with sndNxt := tc.sndUna } _ _ _

theorem tcpRetransmitFirstUnacked_translate :
    tcpRetransmitFirstUnacked env (tc.translate c d) =
      (tcpRetransmitFirstUnacked env tc).map (TcpConnection.translate c d) := by
  have hprep := tcpPrepareRetransmitSegment_translate c d env { tc with sndNxt := tc.sndUna } tc.mss
  unfold tcpRetransmitFirstUnacked
  by_cases hb : env.buffers = 0
  · simp only [if_pos hb]
    rfl
  · simp only [if_neg hb]
    change (tcpPrepareRetransmitSegment env (TcpConnection.translate c d { tc with sndNxt := tc.sndUna })
        tc.mss).bind _ = _
    rw [hprep]
    change _ = Option.map _ ((tcpPrepareRetransmitSegment env { tc with sndNxt := tc.sndUna } tc.mss).bind _)
    cases tcpPrepareRetransmitSegment env { tc with sndNxt := tc.sndUna } tc.mss with
    | none => rfl
    | some res => rfl

theorem newrenoCongestion_translate : newrenoCongestion (tc.translate c d) = (newrenoCongestion tc).translate c d := by
  unfold newrenoCongestion
  rw [tcpFlightSize_translate]
  rfl

theorem newrenoRcvAck_translate :
    newrenoRcvAck (tc.translate c d) = (newrenoRcvAck tc).map (TcpConnection.translate c d) := by
  have hcwnd : (tc.translate c d).cwnd = tc.cwnd := rfl
  have hss : (tc.translate c d).ssthresh = tc.ssthresh := rfl
  simp only [newrenoRcvAck, hcwnd, hss]
  split
  · rfl
  · split
    · rfl
    · rfl

theorem tcpCcRecover_translate : tcpCcRecover (tc.translate c d) = (tcpCcRecover tc).translate c d := by
  have hfast : tcpInFastrecovery (tc.translate c d) = tcpInFastrecovery tc := rfl
  have hrec : tcpInRecovery (tc.translate c d) = tcpInRecovery tc := rfl
  simp only [tcpCcRecover, hfast, hrec]
  split
  · rfl
  · split
    · rfl
    · rfl

theorem tcpCcRcvDupack_translate :
    tcpCcRcvDupack env (tc.translate c d) = (tcpCcRcvDupack env tc).map (TcpConnection.translate c d) := by
  have hdup : (tc.translate c d).rcvDupacks = tc.rcvDupacks := rfl
  have htsecr : (tc.translate c d).opt.tsecr = tc.opt.tsecr := rfl
  have hlast : (tc.translate c d).tsecrLastAck = tc.tsecrLastAck := rfl
  simp only [tcpCcRcvDupack, hdup, htsecr, hlast]
  split
  · split
    · rfl
    · let tc' := tcpFastrecoveryOn { tc with rcvDupacks := tc.rcvDupacks + 1 }
      have hcong := newrenoCongestion_translate c d tc'
      have hfast := tcpFastRetransmit_translate c d env (newrenoRcvDupack (newrenoCongestion tc'))
      change (tcpFastRetransmit env (newrenoRcvDupack (newrenoCongestion (tc'.translate c d)))).bind _ = _
      rw [hcong]
      change (tcpFastRetransmit env (TcpConnection.translate c d (newrenoRcvDupack (newrenoCongestion tc')))).bind _ = _
      rw [hfast]
      change _ = Option.map _ ((tcpFastRetransmit env (newrenoRcvDupack (newrenoCongestion tc'))).bind _)
      cases tcpFastRetransmit env (newrenoRcvDupack (newrenoCongestion tc')) with
      | none => rfl
      | some tc'' => rfl
  · split
    · rfl
    · rfl

theorem tcpCcRcvAck_translate :
    tcpCcRcvAck env (tc.translate c d) = (tcpCcRcvAck env tc).map (TcpConnection.translate c d) := by
  have hrec : tcpInRecovery (tc.translate c d) = tcpInRecovery tc := rfl
  have hlt : seqLt (tc.translate c d).sndUna (tc.translate c d).sndUnaMax = seqLt tc.sndUna tc.sndUnaMax :=
    seqLt_add_right _ _ _
  simp only [tcpCcRcvAck, hrec, hlt]
  split
  · split
    · have hrtx := tcpRetransmitFirstUnacked_translate c d env (newrenoRcvPartialAck { tc with rtxBytes := 0 })
      change (tcpRetransmitFirstUnacked env
        (TcpConnection.translate c d (newrenoRcvPartialAck { tc with rtxBytes := 0 }))).bind _ = _
      rw [hrtx]
      change _ = Option.map _ ((tcpRetransmitFirstUnacked env (newrenoRcvPartialAck { tc with rtxBytes := 0 })).bind _)
      cases tcpRetransmitFirstUnacked env (newrenoRcvPartialAck { tc with rtxBytes := 0 }) with
      | none => rfl
      | some tc' => rfl
    · have hrecover := tcpCcRecover_translate c d { tc with rtxBytes := 0 }
      change (some (tcpCcRecover (TcpConnection.translate c d { tc with rtxBytes := 0 }))).bind _ = _
      rw [hrecover]
      rfl
  · rw [newrenoRcvAck_translate]
    cases newrenoRcvAck tc with
    | none => rfl
    | some tc' => rfl

variable {env tc}

theorem tcpRcvSacks_frame (h : tcpRcvSacks tc ack = some tc') : ∃ sackSb opt, tc' = { tc with sackSb, opt } := by
  simp only [tcpRcvSacks, bind_eq_bind] at h
  by_cases hret : (!tcpOptsSack tc.flags && tc.sackSb.head.isNone) = true
  · rw [if_pos hret] at h
    cases h
    exact ⟨_, _, rfl⟩
  rw [if_neg hret] at h
  by_cases hnil : (ackedBlocks tc ack).length = 0
  · rw [if_pos hnil] at h
    cases h
    exact ⟨_, _, rfl⟩
  rw [if_neg hnil] at h
  by_cases hnone : tc.sackSb.head.isNone = true
  · rw [if_pos hnone] at h
    obtain ⟨sb, -, h⟩ := bind_eq_some_iff.mp h
    obtain ⟨sb', -, h⟩ := bind_eq_some_iff.mp h
    cases h
    exact ⟨_, _, rfl⟩
  · rw [if_neg hnone, bind_some] at h
    obtain ⟨sb', -, h⟩ := bind_eq_some_iff.mp h
    cases h
    exact ⟨_, _, rfl⟩

theorem tcpPrepareRetransmitSegment_rttSeq (h : tcpPrepareRetransmitSegment env tc maxBytes = some (tc', nBytes)) :
    tc'.rttSeq = tc.rttSeq := by
  rw [tcpPrepareRetransmitSegment] at h
  split at h
  · split at h
    · cases h
      rfl
    · obtain ⟨hole, -, h⟩ := bind_eq_some_iff.mp h
      cases h
      rfl
  · split at h
    · cases h
      rfl
    · cases h
      rfl

theorem fastRetransmitLoop_rttSeq (h : fastRetransmitLoop env fuel buffers tc sndSpace = some tc') :
    tc'.rttSeq = tc.rttSeq := by
  induction fuel generalizing buffers tc sndSpace with
  | zero =>
    cases h
    rfl
  | succ fuel ih =>
    rw [fastRetransmitLoop] at h
    split at h
    · cases h
      rfl
    · split at h
      · cases h
        rfl
      · obtain ⟨⟨tc₁, nBytes⟩, hprep, h⟩ := bind_eq_some_iff.mp h
        have hkeep := tcpPrepareRetransmitSegment_rttSeq hprep
        simp only at h
        by_cases hz : nBytes = 0
        · rw [if_pos hz] at h
          cases h
          exact hkeep
        · rw [if_neg hz] at h
          exact (ih h).trans hkeep

theorem tcpCcRcvDupack_rttSeq (h : tcpCcRcvDupack env tc = some tc') : tc'.rttSeq = tc.rttSeq := by
  rw [tcpCcRcvDupack] at h
  simp only at h
  split at h
  · split at h
    · cases h
      rfl
    · obtain ⟨tc₁, hloop, h⟩ := bind_eq_some_iff.mp h
      have hkeep := fastRetransmitLoop_rttSeq hloop
      cases h
      exact hkeep
  · split at h
    · cases h
      rfl
    · cases h
      rfl

theorem tcpRetransmitFirstUnacked_rttSeq (h : tcpRetransmitFirstUnacked env tc = some tc') :
    tc'.rttSeq = tc.rttSeq := by
  simp only [tcpRetransmitFirstUnacked] at h
  split at h
  · cases h
    rfl
  · obtain ⟨⟨tc₁, nBytes⟩, hprep, h⟩ := bind_eq_some_iff.mp h
    have hkeep := tcpPrepareRetransmitSegment_rttSeq hprep
    cases h
    exact hkeep

theorem newrenoRcvAck_rttSeq (h : newrenoRcvAck tc = some tc') : tc'.rttSeq = tc.rttSeq := by
  rw [newrenoRcvAck] at h
  split at h
  · cases h
    rfl
  · split at h
    · cases h
    · cases h
      rfl

theorem tcpCcRecover_rttSeq (tc : TcpConnection) : (tcpCcRecover tc).rttSeq = tc.rttSeq := by
  rw [tcpCcRecover]
  split
  · rfl
  · split
    · rfl
    · rfl

theorem tcpCcRcvAck_rttSeq (h : tcpCcRcvAck env tc = some tc') : tc'.rttSeq = tc.rttSeq := by
  simp only [tcpCcRcvAck, bind_eq_bind] at h
  split at h
  · split at h
    · obtain ⟨tc₁, hrtx, h⟩ := bind_eq_some_iff.mp h
      have hkeep := tcpRetransmitFirstUnacked_rttSeq hrtx
      cases h
      exact hkeep
    · cases h
      exact tcpCcRecover_rttSeq { tc with rtxBytes := 0 }
  · obtain ⟨tc₁, hrcv, h⟩ := bind_eq_some_iff.mp h
    have hkeep := newrenoRcvAck_rttSeq hrcv
    cases h
    exact hkeep

theorem tcpDequeueAcked_untracked (env : Env) (tc : TcpConnection) (h : tc.rttSeq = 0) (ack : Seq) :
    tcpDequeueAcked env tc ack =
      if tstampRtt env tc = 0 ∨ tstampRtt env tc > tcpRttMax then tc
      else
        let tc := tcpEstimateRtt tc (tstampRtt env tc)
        let rto := tc.srtt + tc.rttvar <<< 2
        { tc with rto := if rto < tcpRtoMax then rto else tcpRtoMax, rtoBoff := 0 } := by
  have hm : measuredRtt env tc ack = (tstampRtt env tc, false) := by
    rw [measuredRtt, if_neg fun htracked => htracked.1 h]
  unfold tcpDequeueAcked tcpUpdateRtt
  rw [hm]
  by_cases hz : tstampRtt env tc = 0 ∨ tstampRtt env tc > tcpRttMax
  · simp only [Bool.false_eq_true, if_false, if_pos hz]
  · simp only [Bool.false_eq_true, if_false, if_neg hz, if_true]

theorem tcpEstimateRtt_frame (tc : TcpConnection) (mrtt : BitVec 32) :
    ∃ srtt rttvar, tcpEstimateRtt tc mrtt = { tc with srtt, rttvar } := by
  rw [tcpEstimateRtt]
  split
  · exact ⟨_, _, rfl⟩
  · exact ⟨_, _, rfl⟩

theorem tcpDequeueAcked_frame (env : Env) (tc : TcpConnection) (h : tc.rttSeq = 0) (ack : Seq) :
    ∃ rto rtoBoff srtt rttvar, tcpDequeueAcked env tc ack = { tc with rto, rtoBoff, srtt, rttvar } := by
  rw [tcpDequeueAcked_untracked env tc h]
  split
  · exact ⟨_, _, _, _, rfl⟩
  · obtain ⟨srtt, rttvar, hest⟩ := tcpEstimateRtt_frame tc (tstampRtt env tc)
    rw [hest]
    exact ⟨_, _, _, _, rfl⟩

theorem tcpUpdateSndWnd_rttSeq (tc : TcpConnection) (seq ack : Seq) (wnd : BitVec 32) :
    (tcpUpdateSndWnd tc seq ack wnd).rttSeq = tc.rttSeq := by
  rw [tcpUpdateSndWnd]
  split
  · rfl
  · rfl

variable (env tc)

theorem tcpEstimateRtt_translate (mrtt : BitVec 32) :
    tcpEstimateRtt (tc.translate c d) mrtt = (tcpEstimateRtt tc mrtt).translate c d := by
  have hsrtt : (tc.translate c d).srtt = tc.srtt := rfl
  simp only [tcpEstimateRtt, hsrtt]
  split
  · rfl
  · rfl

theorem tcpDequeueAcked_translate (h : tc.rttSeq = 0) (ack : Seq) :
    tcpDequeueAcked env (tc.translate c d) (ack + c) = (tcpDequeueAcked env tc ack).translate c d := by
  have h' : (tc.translate c d).rttSeq = 0 := h
  have hm : tstampRtt env (tc.translate c d) = tstampRtt env tc := rfl
  rw [tcpDequeueAcked_untracked env tc h, tcpDequeueAcked_untracked env _ h', hm, tcpEstimateRtt_translate]
  split
  · rfl
  · rfl

theorem tcpAckIsDupack_translate (seg : Segment) (wnd : BitVec 32) :
    tcpAckIsDupack (tc.translate c d) (seg.translate c d) wnd = tcpAckIsDupack tc seg wnd := by
  simp only [tcpAckIsDupack, TcpConnection.translate, Segment.translate, Seq.beq_add_right, seqGt_add_right]

/-- The plain comparisons of the window update give the same for the numbers and their translations. -/
def WindowAgrees (c d : Seq) (tc : TcpConnection) (seg : Segment) : Prop :=
  if tc.sndWl1 = seg.seqNumber then
    tc.sndWl2 = seg.ackNumber ∨ (tc.sndWl2.toNat + c.toNat < 2 ^ 32 ↔ seg.ackNumber.toNat + c.toNat < 2 ^ 32)
  else tc.sndWl1.toNat + d.toNat < 2 ^ 32 ↔ seg.seqNumber.toNat + d.toNat < 2 ^ 32

theorem windowIsNewer_translate (seg : Segment) :
    windowIsNewer (tc.translate c d) (seg.seqNumber + d) (seg.ackNumber + c) =
      windowIsNewer tc seg.seqNumber seg.ackNumber ↔ WindowAgrees c d tc seg := by
  change ((tc.sndWl1 + d).ult (seg.seqNumber + d) ||
    (tc.sndWl1 + d == seg.seqNumber + d && (tc.sndWl2 + c).ule (seg.ackNumber + c))) = _ ↔ _
  rw [windowIsNewer, WindowAgrees, Seq.beq_add_right]
  by_cases heq : tc.sndWl1 = seg.seqNumber
  · have hself : ∀ a : Seq, a.ult a = false := fun a => by simp [BitVec.ult]
    rw [if_pos heq, heq, hself, hself, Bool.false_or, Bool.false_or, beq_self_eq_true, Bool.true_and, Bool.true_and,
      BitVec.ule_eq_not_ult, BitVec.ule_eq_not_ult, Bool.not_inj_iff]
    by_cases hack : tc.sndWl2 = seg.ackNumber
    · simp [hack, hself]
    · rw [Seq.ult_add_right _ _ _ (Ne.symm hack)]
      simp only [hack, false_or]
      exact Iff.comm
  · rw [if_neg heq, beq_false_of_ne heq, Bool.false_and, Bool.false_and, Bool.or_false, Bool.or_false]
    exact Seq.ult_add_right _ _ _ heq

theorem tcpUpdateSndWnd_translate (seg : Segment) (wnd : BitVec 32) (h : WindowAgrees c d tc seg) :
    tcpUpdateSndWnd (tc.translate c d) (seg.seqNumber + d) (seg.ackNumber + c) wnd =
      (tcpUpdateSndWnd tc seg.seqNumber seg.ackNumber wnd).translate c d := by
  rw [tcpUpdateSndWnd, tcpUpdateSndWnd, (windowIsNewer_translate c d tc seg).mpr h]
  split
  · rfl
  · rfl

def SegmentAgrees (c d : Seq) (tc : TcpConnection) (seg : Segment) : Prop :=
  seqGt seg.ackNumber tc.sndNxt = false → seqLt seg.ackNumber tc.sndUna = false →
    tcpAckIsDupack tc seg (newSndWnd tc seg) = false → WindowAgrees c d tc seg

theorem rcvAckInWindow_translate (seg : Segment) (h : tc.rttSeq = 0)
    (hagree : tcpAckIsDupack tc seg (newSndWnd tc seg) = false → WindowAgrees c d tc seg) :
    rcvAckInWindow env (tc.translate c d) (seg.translate c d) =
      (rcvAckInWindow env tc seg).map (Prod.map (TcpConnection.translate c d) id) := by
  have hwnd : newSndWnd (tc.translate c d) (seg.translate c d) = newSndWnd tc seg := rfl
  simp only [rcvAckInWindow, hwnd, tcpAckIsDupack_translate]
  cases hdup : tcpAckIsDupack tc seg (newSndWnd tc seg) with
  | true =>
    simp only [if_true, tcpCcRcvDupack_translate]
    cases tcpCcRcvDupack env tc with
    | none => rfl
    | some tc' => rfl
  | false =>
    let tc₀ : TcpConnection := { tc with bytesAcked := seg.ackNumber - tc.sndUna, sndUna := seg.ackNumber }
    have htc₀ : { tc.translate c d with
        bytesAcked := seg.ackNumber + c - (tc.sndUna + c), sndUna := seg.ackNumber + c } = tc₀.translate c d := by
      rw [add_sub_add_right_eq_sub]
      rfl
    have hdeq := tcpDequeueAcked_translate c d env tc₀ h seg.ackNumber
    have hagree' : WindowAgrees c d (tcpDequeueAcked env tc₀ seg.ackNumber) seg := by
      obtain ⟨rto, rtoBoff, srtt, rttvar, hframe⟩ := tcpDequeueAcked_frame env tc₀ h seg.ackNumber
      rw [hframe]
      exact hagree hdup
    have hwin := tcpUpdateSndWnd_translate c d (tcpDequeueAcked env tc₀ seg.ackNumber) seg (newSndWnd tc seg) hagree'
    have hack := tcpCcRcvAck_translate c d env
      (tcpUpdateSndWnd (tcpDequeueAcked env tc₀ seg.ackNumber) seg.seqNumber seg.ackNumber (newSndWnd tc seg))
    simp only [Bool.false_eq_true, if_false]
    change (tcpCcRcvAck env (tcpUpdateSndWnd (tcpDequeueAcked env { tc.translate c d with
      bytesAcked := seg.ackNumber + c - (tc.sndUna + c), sndUna := seg.ackNumber + c } (seg.ackNumber + c))
      (seg.seqNumber + d) (seg.ackNumber + c) (newSndWnd tc seg))).bind _ = _
    rw [htc₀, hdeq, hwin, hack]
    change _ = Option.map _ ((tcpCcRcvAck env (tcpUpdateSndWnd (tcpDequeueAcked env tc₀ seg.ackNumber) seg.seqNumber
      seg.ackNumber (newSndWnd tc seg))).bind _)
    cases tcpCcRcvAck env (tcpUpdateSndWnd (tcpDequeueAcked env tc₀ seg.ackNumber) seg.seqNumber seg.ackNumber
      (newSndWnd tc seg)) with
    | none => rfl
    | some tc' => rfl

theorem tcpRcvAck_translate (seg : Segment) (h : tc.rttSeq = 0) (hagree : SegmentAgrees c d tc seg) :
    tcpRcvAck env (tc.translate c d) (seg.translate c d) =
      (tcpRcvAck env tc seg).map (Prod.map (TcpConnection.translate c d) id) := by
  have hgt : seqGt (seg.translate c d).ackNumber (tc.translate c d).sndNxt = seqGt seg.ackNumber tc.sndNxt :=
    seqGt_add_right _ _ _
  have hlt : seqLt (seg.translate c d).ackNumber (tc.translate c d).sndUna = seqLt seg.ackNumber tc.sndUna :=
    seqLt_add_right _ _ _
  have hhas : (tc.translate c d).opt.has tcpOptsFlagSackPermitted = tc.opt.has tcpOptsFlagSackPermitted := rfl
  simp only [tcpRcvAck, hgt, hlt, hhas]
  cases hout : seqGt seg.ackNumber tc.sndNxt with
  | true => rfl
  | false =>
    cases hold : seqLt seg.ackNumber tc.sndUna with
    | true => rfl
    | false =>
      simp only [Bool.false_eq_true, if_false]
      split
      · have hsacks := tcpRcvSacks_translate c d tc seg.ackNumber
        change (tcpRcvSacks (tc.translate c d) (seg.ackNumber + c)).bind _ = _
        rw [hsacks]
        change _ = Option.map _ ((tcpRcvSacks tc seg.ackNumber).bind _)
        cases hrcv : tcpRcvSacks tc seg.ackNumber with
        | none => rfl
        | some tc' =>
          obtain ⟨sackSb, opt, rfl⟩ := tcpRcvSacks_frame hrcv
          exact rcvAckInWindow_translate c d env _ seg h (hagree hout hold)
      · exact rcvAckInWindow_translate c d env tc seg h (hagree hout hold)

theorem rcvAckInWindow_rttSeq (h : tc.rttSeq = 0) (hrcv : rcvAckInWindow env tc seg = some (tc', result)) :
    tc'.rttSeq = 0 := by
  simp only [rcvAckInWindow] at hrcv
  split at hrcv
  · obtain ⟨tc₁, hdup, hrcv⟩ := bind_eq_some_iff.mp hrcv
    cases hrcv
    exact (tcpCcRcvDupack_rttSeq hdup).trans h
  · obtain ⟨tc₁, hack, hrcv⟩ := bind_eq_some_iff.mp hrcv
    have hkeep := tcpCcRcvAck_rttSeq hack
    obtain ⟨rto, rtoBoff, srtt, rttvar, hframe⟩ := tcpDequeueAcked_frame env
      { tc with bytesAcked := seg.ackNumber - tc.sndUna, sndUna := seg.ackNumber } h seg.ackNumber
    rw [tcpUpdateSndWnd_rttSeq, hframe] at hkeep
    cases hrcv
    exact hkeep.trans h

theorem tcpRcvAck_rttSeq (h : tc.rttSeq = 0) (hrcv : tcpRcvAck env tc seg = some (tc', result)) : tc'.rttSeq = 0 := by
  rw [tcpRcvAck] at hrcv
  split at hrcv
  · cases hrcv
    exact h
  · split at hrcv
    · cases hrcv
      exact h
    · split at hrcv
      · obtain ⟨tc₁, hsacks, hrcv⟩ := bind_eq_some_iff.mp hrcv
        obtain ⟨sackSb, opt, rfl⟩ := tcpRcvSacks_frame hsacks
        exact rcvAckInWindow_rttSeq env { tc with sackSb, opt } h hrcv
      · exact rcvAckInWindow_rttSeq env tc h hrcv

theorem receive_translate (seg : Segment) (h : tc.rttSeq = 0) (hagree : SegmentAgrees c d tc seg) :
    (tc.translate c d).receive env (seg.translate c d) =
      (tc.receive env seg).map (Prod.map (TcpConnection.translate c d) id) := by
  have hopt : { tc.translate c d with opt := (tc.translate c d).opt.withTstamp seg.tstamp } =
      TcpConnection.translate c d { tc with opt := tc.opt.withTstamp seg.tstamp } := by
    cases seg.tstamp with
    | none => rfl
    | some ts => rfl
  unfold TcpConnection.receive
  change tcpRcvAck env { tc.translate c d with opt := (tc.translate c d).opt.withTstamp seg.tstamp } _ = _
  rw [hopt]
  exact tcpRcvAck_translate c d env { tc with opt := tc.opt.withTstamp seg.tstamp } seg h hagree

def SegmentsAgree (c d : Seq) : TcpConnection → List (Env × Segment) → Prop
  | _, [] => True
  | tc, (env, seg) :: segs =>
    SegmentAgrees c d tc seg ∧ ∀ tc' result, tc.receive env seg = some (tc', result) → SegmentsAgree c d tc' segs

/-- Nothing that is seen of a connection depends on where its sequence numbers start, as long as each window
update compares numbers that both wrap around or both do not. -/
theorem tcp_rcv_ack_translates (c d : Seq) (tc : TcpConnection) (segs : List (Env × Segment)) (h : tc.rttSeq = 0)
    (hagree : SegmentsAgree c d tc segs) :
    (tc.translate c d).trace (segs.map fun (env, seg) => (env, seg.translate c d)) = tc.trace segs := by
  induction segs generalizing tc with
  | nil => rfl
  | cons x segs ih =>
    obtain ⟨env, seg⟩ := x
    obtain ⟨hseg, hrest⟩ := hagree
    rw [List.map_cons, TcpConnection.trace, TcpConnection.trace, receive_translate c d env tc seg h hseg]
    cases hrcv : tc.receive env seg with
    | none => rfl
    | some res =>
      obtain ⟨tc', result⟩ := res
      have h' : tc'.rttSeq = 0 := tcpRcvAck_rttSeq env { tc with opt := tc.opt.withTstamp seg.tstamp } h hrcv
      exact congrArg _ (ih tc' h' (hrest tc' result hrcv))

def Env.ample : Env := ⟨0, fun _ maxBytes => maxBytes, 65535, 65536, 32⟩

/-- Half of the bytes are acked with a smaller window, across the end of the sequence numbers. -/
theorem tcp_rcv_ack_translates_wrapped :
    ((TcpConnection.sending 0 1000 ⟨.empty, none, 0, []⟩).translate 0xFFFFFF00 7).trace
        [(.ample, Segment.translate 0xFFFFFF00 7 ⟨240, 240, 500, 1000, none⟩)] =
      (TcpConnection.sending 0 1000 ⟨.empty, none, 0, []⟩).trace [(.ample, ⟨240, 240, 500, 1000, none⟩)] := by
  apply tcp_rcv_ack_translates 0xFFFFFF00 7 (.sending 0 1000 ⟨.empty, none, 0, []⟩)
    [(.ample, ⟨240, 240, 500, 1000, none⟩)]
  · rfl
  · refine ⟨fun _ _ _ => ?_, fun _ _ _ => trivial⟩
    unfold WindowAgrees
    decide

/-- The sequence numbers of the peer wrap around after the translation, and its window is not taken. -/
theorem tcp_rcv_ack_freezes_window :
    ¬ ∀ (c d : Seq) (tc : TcpConnection) (segs : List (Env × Segment)), tc.rttSeq = 0 →
      seqLeq tc.sndUna tc.sndNxt → seqLeq tc.sndNxt tc.sndUnaMax → (tc.sndUnaMax - tc.sndUna).toNat < 2 ^ 31 →
      tc.sndWnd.toNat < 2 ^ 31 →
      (tc.translate c d).trace (segs.map fun (env, seg) => (env, seg.translate c d)) = tc.trace segs := by
  intro h
  have hsame := h 0 0x80 { TcpConnection.sending 0 1000 ⟨.empty, none, 0, []⟩ with sndWl1 := 0xFFFFFF00 }
    [(.ample, ⟨0xFFFFFFF0, 0xFFFFFFF0, 500, 1000, none⟩)] rfl (by decide) (by decide) (by decide) (by decide)
  exact absurd hsame (by decide)

end Vpp.Tcp
