import Vpp.Tcp.AckTranslate

namespace Vpp.Tcp
open Vpp.Lib

def tcpConnDelack : BitVec 16 := 1
def tcpConnSndack : BitVec 16 := 2
def tcpConnBurstack : BitVec 16 := 4
def tcpRtoSynRetries : BitVec 32 := 3

/-- A header is pushed to a buffer of `dataLen` bytes. -/
def tcpPushHdrI (env : Env) (tc : TcpConnection) (dataLen : BitVec 32) : TcpConnection :=
  let tc := tcpWindowToAdvertise env tc
  { tc with sndNxt := tc.sndNxt + dataLen }

/-- New data is sent; without a segment that is tracked, this one is. -/
def trackSent (env : Env) (tc : TcpConnection) : TcpConnection :=
  if seqLt tc.sndUnaMax tc.sndNxt then
    { tc with
      sndUnaMax := tc.sndNxt
      rttTs := if tc.rttTs = 0 then env.timeNow else tc.rttTs
      rttSeq := if tc.rttTs = 0 then tc.sndNxt else tc.rttSeq }
  else tc

/-- The output node, for a segment that is no pure ack. -/
def tcpOutput (env : Env) (timerIsActive : Bool) (tc : TcpConnection) : TcpConnection :=
  let tc := trackSent env { tc with flags := tc.flags &&& ~~~(tcpConnSndack ||| tcpConnDelack ||| tcpConnBurstack) }
  if !timerIsActive ∧ tc.sndNxt ≠ tc.sndUna then { tc with rtoBoff := 0 } else tc

/-- Remove the holes one by one. Nothing when there are more steps than holes in the pool. -/
def scoreboardClear : Nat → Scoreboard → Option Scoreboard
  | fuel, sb =>
    match sb.head with
    | none => some sb
    | some h =>
      match fuel with
      | 0 => none
      | fuel + 1 => (scoreboardRemoveHole sb h).bind (scoreboardClear fuel)

def tcpFastrecoveryOff (tc : TcpConnection) : TcpConnection := { tc with flags := tc.flags &&& ~~~tcpConnFastRecovery }

def tcpBackoff (tc : TcpConnection) : TcpConnection :=
  { tc with rto := if tc.rto <<< 1 < tcpRtoMax then tc.rto <<< 1 else tcpRtoMax }

/-- What may be sent again at once. -/
def retransmitBytes (tc : TcpConnection) : BitVec 32 :=
  if tc.mss < tcpAvailableSndSpace tc then tc.mss else tcpAvailableSndSpace tc

def retransmitSegment (env : Env) (tc : TcpConnection) : Option TcpConnection :=
  let maxBytes := retransmitBytes tc
  if maxBytes = 0 then some tc
  else do
    let (tc, _) ← tcpPrepareRetransmitSegment env tc maxBytes
    let tc := { tc with rtxBytes := tc.rtxBytes + maxBytes }
    let sackSb ← scoreboardClear tc.sackSb.holes.elts.length tc.sackSb
    some { tc with sackSb }

/-- The handler of the retransmit timer, in an established state or in one of those before. Without a buffer it returns
at once. -/
def tcpTimerRetransmitHandlerI (env : Env) (established : Bool) (tc : TcpConnection) : Option TcpConnection :=
  let tc := { tc with rtoBoff := tc.rtoBoff + 1, sndNxt := tc.sndUna }
  if env.buffers = 0 then some tc
  else if established then retransmitSegment env (tcpBackoff (tcpFastrecoveryOff tc))
  else
    let tc := if tc.rtoBoff > tcpRtoSynRetries then tcpBackoff tc else tc
    let tc := tcpPushHdrI env tc 0
    some { tc with sndNxt := tc.sndNxt + 1 }

/-- What happens to an established connection. The options of a segment are parsed before its ack is processed. -/
inductive SendEvent where
  | transmit (env : Env) (timerIsActive : Bool) (dataLen : BitVec 32)
  | timeout (env : Env)
  | fastRetransmit (env : Env)
  | rcvAck (env : Env) (opt : TcpOptions) (seg : Segment)

/-- Nothing where the source goes through a null pointer, divides by zero or does not end. -/
def SendEvent.step (tc : TcpConnection) : SendEvent → Option TcpConnection
  | transmit env timerIsActive dataLen => some (tcpOutput env timerIsActive (tcpPushHdrI env tc dataLen))
  | timeout env => tcpTimerRetransmitHandlerI env true tc
  | fastRetransmit env => tcpFastRetransmit env tc
  | rcvAck env opt seg => (tcpRcvAck env { tc with opt } seg).map Prod.fst

def SendRun (P : TcpConnection → SendEvent → Prop) : TcpConnection → List SendEvent → Prop
  | _, [] => True
  | tc, e :: es => P tc e ∧ ∀ tc' ∈ e.step tc, SendRun P tc' es

/-- `snd_una <= snd_nxt <= snd_una_max` in sequence order. -/
def SndOrdered (tc : TcpConnection) : Prop :=
  seqLeq tc.sndUna tc.sndNxt = true ∧ seqLeq tc.sndNxt tc.sndUnaMax = true ∧ seqLeq tc.sndUna tc.sndUnaMax = true

/-- The ack is for data that was sent and has not been acked. -/
def AckOfSent (tc : TcpConnection) (ack : Seq) : Prop :=
  seqLeq tc.sndUna ack = true ∧ seqLeq ack tc.sndUnaMax = true

/-- An ack of data that was sent is not taken for an invalid one. -/
def SendEvent.Taken (tc : TcpConnection) : SendEvent → Prop
  | rcvAck env opt seg => AckOfSent tc seg.ackNumber → ∀ out ∈ tcpRcvAck env { tc with opt } seg, out.2 ≠ .ackInvalid
  | _ => True

def SendEvent.Accepts (tc : TcpConnection) (e : SendEvent) : Prop := e.Taken tc ∧ ∀ tc' ∈ e.step tc, SndOrdered tc'

def SendEvent.Legal (tc : TcpConnection) : SendEvent → Prop
  | transmit _ _ dataLen => (tc.sndNxt - tc.sndUna).toNat + dataLen.toNat < 2 ^ 31
  | _ => True

/-- The ack is not for data that is behind `snd_nxt`, since `snd_nxt` was moved back. -/
def SendEvent.NotBehind (tc : TcpConnection) : SendEvent → Prop
  | rcvAck _ _ seg => AckOfSent tc seg.ackNumber → seqLeq seg.ackNumber tc.sndNxt = true
  | _ => True

/-- `snd_nxt` stays or goes to one of the other pointers, which stay. -/
structure Rewinds (tc tc' : TcpConnection) : Prop where
  una : tc'.sndUna = tc.sndUna
  unaMax : tc'.sndUnaMax = tc.sndUnaMax
  nxt : tc'.sndNxt = tc.sndNxt ∨ tc'.sndNxt = tc.sndUna ∨ tc'.sndNxt = tc.sndUnaMax

theorem Rewinds.refl (tc : TcpConnection) : Rewinds tc tc := ⟨rfl, rfl, .inl rfl⟩

theorem Rewinds.trans (h : Rewinds tc tc') (h' : Rewinds tc' tc'') : Rewinds tc tc'' := by
  refine ⟨h'.una.trans h.una, h'.unaMax.trans h.unaMax, ?_⟩
  obtain he | he | he := h'.nxt
  · rw [he]
    exact h.nxt
  · exact .inr (.inl (he.trans h.una))
  · exact .inr (.inr (he.trans h.unaMax))

theorem Rewinds.of_eq (hu : tc'.sndUna = tc.sndUna) (hm : tc'.sndUnaMax = tc.sndUnaMax) (hn : tc'.sndNxt = tc.sndNxt) :
    Rewinds tc tc' := ⟨hu, hm, .inl hn⟩

variable {env : Env} {tc tc' : TcpConnection} {e : SendEvent}

theorem tcpPrepareRetransmitSegment_rewinds (h : tcpPrepareRetransmitSegment env tc n = some (tc', k)) :
    Rewinds tc tc' := by
  rw [tcpPrepareRetransmitSegment] at h
  split at h
  · split at h
    · cases h
      exact .refl _
    · obtain ⟨hole, _, h⟩ := Option.bind_eq_some_iff.mp h
      cases h
      exact .of_eq rfl rfl rfl
  · split at h
    · cases h
      exact .refl _
    · cases h
      exact .of_eq rfl rfl rfl

theorem tcpRetransmitFirstUnacked_rewinds (h : tcpRetransmitFirstUnacked env tc = some tc') : Rewinds tc tc' := by
  rw [tcpRetransmitFirstUnacked] at h
  dsimp only at h
  split at h
  · cases h
    exact ⟨rfl, rfl, .inr (.inl rfl)⟩
  · obtain ⟨⟨tc₁, k⟩, hprep, h⟩ := Option.bind_eq_some_iff.mp h
    have hrew := tcpPrepareRetransmitSegment_rewinds hprep
    cases h
    exact ⟨hrew.una, hrew.unaMax, .inl rfl⟩

theorem fastRetransmitLoop_rewinds (h : fastRetransmitLoop env fuel buffers tc space = some tc') : Rewinds tc tc' := by
  induction fuel generalizing buffers tc space with
  | zero =>
    cases h
    exact ⟨rfl, rfl, .inr (.inr rfl)⟩
  | succ fuel ih =>
    rw [fastRetransmitLoop] at h
    split at h
    · cases h
      exact ⟨rfl, rfl, .inr (.inr rfl)⟩
    · split at h
      · cases h
        exact .refl _
      · obtain ⟨⟨tc₁, k⟩, hprep, h⟩ := Option.bind_eq_some_iff.mp h
        have hrew := tcpPrepareRetransmitSegment_rewinds hprep
        dsimp only at h
        split at h
        · cases h
          exact hrew
        · exact hrew.trans (ih h)

theorem tcpFastRetransmit_rewinds (h : tcpFastRetransmit env tc = some tc') : Rewinds tc tc' := by
  have hstart : Rewinds tc { tc with sndNxt := tc.sndUna } := ⟨rfl, rfl, .inr (.inl rfl)⟩
  exact hstart.trans (fastRetransmitLoop_rewinds h)

theorem retransmitSegment_rewinds (h : retransmitSegment env tc = some tc') : Rewinds tc tc' := by
  rw [retransmitSegment] at h
  dsimp only at h
  split at h
  · cases h
    exact .refl _
  · obtain ⟨⟨tc₁, k⟩, hprep, h⟩ := Option.bind_eq_some_iff.mp h
    obtain ⟨sb, _, h⟩ := Option.bind_eq_some_iff.mp h
    have hrew := tcpPrepareRetransmitSegment_rewinds hprep
    cases h
    exact ⟨hrew.una, hrew.unaMax, hrew.nxt⟩

theorem tcpTimerRetransmitHandlerI_rewinds (h : tcpTimerRetransmitHandlerI env true tc = some tc') :
    Rewinds tc tc' := by
  rw [tcpTimerRetransmitHandlerI] at h
  dsimp only at h
  split at h
  · cases h
    exact ⟨rfl, rfl, .inr (.inl rfl)⟩
  · rw [if_pos rfl] at h
    have hstart : Rewinds tc
        (tcpBackoff (tcpFastrecoveryOff { tc with rtoBoff := tc.rtoBoff + 1, sndNxt := tc.sndUna })) :=
      ⟨rfl, rfl, .inr (.inl rfl)⟩
    exact hstart.trans (retransmitSegment_rewinds h)

theorem tcpCcRecover_rewinds (tc : TcpConnection) : Rewinds tc (tcpCcRecover tc) := by
  rw [tcpCcRecover]
  split
  · exact .of_eq rfl rfl rfl
  · split
    · exact .of_eq rfl rfl rfl
    · exact .refl tc

theorem newrenoRcvAck_rewinds (h : newrenoRcvAck tc = some tc') : Rewinds tc tc' := by
  rw [newrenoRcvAck] at h
  split at h
  · cases h
    exact .of_eq rfl rfl rfl
  · split at h
    · cases h
    · cases h
      exact .of_eq rfl rfl rfl

theorem tcpCcRcvAck_rewinds (h : tcpCcRcvAck env tc = some tc') : Rewinds tc tc' := by
  simp only [tcpCcRcvAck, Option.bind_eq_bind] at h
  split at h
  · split at h
    · obtain ⟨tc₁, hrtx, h⟩ := Option.bind_eq_some_iff.mp h
      have hpartial : Rewinds tc (newrenoRcvPartialAck { tc with rtxBytes := 0 }) := .of_eq rfl rfl rfl
      have hrew := hpartial.trans (tcpRetransmitFirstUnacked_rewinds hrtx)
      cases h
      exact ⟨hrew.una, hrew.unaMax, hrew.nxt⟩
    · have hcleared : Rewinds tc { tc with rtxBytes := 0 } := .of_eq rfl rfl rfl
      have hrew := hcleared.trans (tcpCcRecover_rewinds _)
      cases h
      exact ⟨hrew.una, hrew.unaMax, hrew.nxt⟩
  · obtain ⟨tc₁, hrcv, h⟩ := Option.bind_eq_some_iff.mp h
    have hrew := newrenoRcvAck_rewinds hrcv
    cases h
    exact ⟨hrew.una, hrew.unaMax, hrew.nxt⟩

theorem tcpCcRcvDupack_rewinds (h : tcpCcRcvDupack env tc = some tc') : Rewinds tc tc' := by
  rw [tcpCcRcvDupack] at h
  dsimp only at h
  split at h
  · split at h
    · cases h
      exact .of_eq rfl rfl rfl
    · obtain ⟨tc₁, hfast, h⟩ := Option.bind_eq_some_iff.mp h
      cases h
      have hrew := tcpFastRetransmit_rewinds hfast
      exact ⟨hrew.una, hrew.unaMax, hrew.nxt⟩
  · split at h
    · cases h
      exact .of_eq rfl rfl rfl
    · cases h
      exact .of_eq rfl rfl rfl

theorem tcpEstimateRtt_rewinds (tc : TcpConnection) (mrtt : BitVec 32) : Rewinds tc (tcpEstimateRtt tc mrtt) := by
  rw [tcpEstimateRtt]
  split
  · exact .of_eq rfl rfl rfl
  · exact .of_eq rfl rfl rfl

theorem tcpUpdateRtt_rewinds (env : Env) (tc : TcpConnection) (ack : Seq) : Rewinds tc (tcpUpdateRtt env tc ack).1 := by
  rw [tcpUpdateRtt]
  obtain ⟨mrtt, tracked⟩ := measuredRtt env tc ack
  have htracked : Rewinds tc (if tracked then { tc with rttSeq := 0 } else tc) := by
    split
    · exact .of_eq rfl rfl rfl
    · exact .refl tc
  dsimp only
  split
  · exact htracked
  · have hrew := htracked.trans (tcpEstimateRtt_rewinds _ mrtt)
    exact ⟨hrew.una, hrew.unaMax, hrew.nxt⟩

theorem tcpDequeueAcked_rewinds (env : Env) (tc : TcpConnection) (ack : Seq) :
    Rewinds tc (tcpDequeueAcked env tc ack) := by
  have hrtt := tcpUpdateRtt_rewinds env tc ack
  rw [tcpDequeueAcked]
  dsimp only
  split
  · exact ⟨hrtt.una, hrtt.unaMax, hrtt.nxt⟩
  · exact hrtt

theorem tcpUpdateSndWnd_rewinds (tc : TcpConnection) (seq ack : Seq) (wnd : BitVec 32) :
    Rewinds tc (tcpUpdateSndWnd tc seq ack wnd) := by
  rw [tcpUpdateSndWnd]
  split
  · exact .of_eq rfl rfl rfl
  · exact .refl tc

def TcpConnection.advance (tc : TcpConnection) (ack : Seq) : TcpConnection := { tc with sndUna := ack }

theorem rcvAckInWindow_rewinds (h : rcvAckInWindow env tc seg = some (tc', r)) :
    r ≠ .ackInvalid ∧ (Rewinds tc tc' ∨ Rewinds (tc.advance seg.ackNumber) tc') := by
  rw [rcvAckInWindow] at h
  dsimp only at h
  split at h
  · obtain ⟨tc₁, hdup, h⟩ := Option.bind_eq_some_iff.mp h
    cases h
    exact ⟨AckResult.noConfusion, .inl (tcpCcRcvDupack_rewinds hdup)⟩
  · obtain ⟨tc₁, hack, h⟩ := Option.bind_eq_some_iff.mp h
    cases h
    refine ⟨AckResult.noConfusion, .inr ?_⟩
    have hstart : Rewinds (tc.advance seg.ackNumber)
        { tc with bytesAcked := seg.ackNumber - tc.sndUna, sndUna := seg.ackNumber } := .of_eq rfl rfl rfl
    exact ((hstart.trans (tcpDequeueAcked_rewinds _ _ _)).trans (tcpUpdateSndWnd_rewinds _ _ _ _)).trans
      (tcpCcRcvAck_rewinds hack)

inductive AckMoves (tc : TcpConnection) (ack : Seq) : TcpConnection → AckResult → Prop where
  | invalid {tc' : TcpConnection} (hgt : seqGt ack tc.sndNxt = true)
      (hrew : Rewinds tc tc') : AckMoves tc ack tc' .ackInvalid
  | old {tc' : TcpConnection} (hrew : Rewinds tc tc') (hgt : seqGt ack tc.sndNxt = false) : AckMoves tc ack tc' .ackOld
  | inWindow {tc' : TcpConnection} (hgt : seqGt ack tc.sndNxt = false) (hlt : seqLt ack tc.sndUna = false)
      (hr : r ≠ .ackInvalid)
      (hrew : Rewinds tc tc' ∨ Rewinds (tc.advance ack) tc') : AckMoves tc ack tc' r

theorem tcpRcvAck_moves (h : tcpRcvAck env tc seg = some (tc', r)) : AckMoves tc seg.ackNumber tc' r := by
  rw [tcpRcvAck] at h
  split at h
  · rename_i hgt
    cases h
    exact .invalid hgt (.of_eq rfl rfl rfl)
  · rename_i hgt
    rw [Bool.not_eq_true] at hgt
    split at h
    · cases h
      exact .old (.refl _) hgt
    · rename_i hlt
      rw [Bool.not_eq_true] at hlt
      split at h
      · obtain ⟨tc₁, hsacks, h⟩ := Option.bind_eq_some_iff.mp h
        obtain ⟨sackSb, opt, rfl⟩ := tcpRcvSacks_frame hsacks
        obtain ⟨hr, hrew⟩ := rcvAckInWindow_rewinds h
        refine .inWindow hgt hlt hr (hrew.imp ?_ ?_)
        · exact fun h => ⟨h.una, h.unaMax, h.nxt⟩
        · exact fun h => ⟨h.una, h.unaMax, h.nxt⟩
      · obtain ⟨hr, hrew⟩ := rcvAckInWindow_rewinds h
        exact .inWindow hgt hlt hr hrew

/-- `snd_nxt` is in flight, and less than half of the sequence numbers are. -/
structure InFlight (tc : TcpConnection) : Prop where
  nxt : (tc.sndNxt - tc.sndUna).toNat ≤ (tc.sndUnaMax - tc.sndUna).toNat
  half : (tc.sndUnaMax - tc.sndUna).toNat < 2 ^ 31

theorem Seq.at_toNat_sub (una x : Seq) : Seq.at una (x - una).toNat = x := by
  rw [Seq.at, BitVec.ofNat_toNat, BitVec.setWidth_eq, add_sub_cancel]

theorem InFlight.ordered (h : InFlight tc) : SndOrdered tc := by
  have hnxt := h.nxt
  have hhalf := h.half
  have huna : Seq.at tc.sndUna 0 = tc.sndUna := by rw [Seq.at]; exact add_zero _
  have h₁ := seqLeq_at (m := 0) (n := (tc.sndNxt - tc.sndUna).toNat) tc.sndUna (by omega) (by omega)
  have h₂ := seqLeq_at (m := (tc.sndNxt - tc.sndUna).toNat) (n := (tc.sndUnaMax - tc.sndUna).toNat) tc.sndUna
    (by omega) (by omega)
  have h₃ := seqLeq_at (m := 0) (n := (tc.sndUnaMax - tc.sndUna).toNat) tc.sndUna (by omega) (by omega)
  rw [huna, Seq.at_toNat_sub] at h₁ h₃
  rw [Seq.at_toNat_sub, Seq.at_toNat_sub] at h₂
  refine ⟨h₁.trans ?_, h₂.trans ?_, h₃.trans ?_⟩
  · exact decide_eq_true (Nat.zero_le _)
  · exact decide_eq_true hnxt
  · exact decide_eq_true (Nat.zero_le _)

theorem InFlight.rewinds (h : InFlight tc) (hrew : Rewinds tc tc') : InFlight tc' := by
  constructor
  · rw [hrew.una, hrew.unaMax]
    obtain he | he | he := hrew.nxt
    · rw [he]
      exact h.nxt
    · rw [he, sub_self]
      exact Nat.zero_le _
    · rw [he]
  · rw [hrew.una, hrew.unaMax]
    exact h.half

theorem InFlight.advance {ack : Seq} (h : InFlight tc) (hgt : seqGt ack tc.sndNxt = false)
    (hlt : seqLt ack tc.sndUna = false) :
    InFlight (tc.advance ack) := by
  have hnxt := h.nxt
  have hhalf := h.half
  have hd := toNat_lt_of_not_seqLt hlt
  have hcmp := seqGt_at (m := (ack - tc.sndUna).toNat) (n := (tc.sndNxt - tc.sndUna).toNat) tc.sndUna
    (by omega) (by omega)
  rw [Seq.at_toNat_sub, Seq.at_toNat_sub, hgt] at hcmp
  have hle := of_decide_eq_false hcmp.symm
  have hsub (x : Seq) (hx : (ack - tc.sndUna).toNat ≤ (x - tc.sndUna).toNat) :
      (x - ack).toNat = (x - tc.sndUna).toNat - (ack - tc.sndUna).toNat := by
    rw [← sub_sub_sub_cancel_right x ack tc.sndUna, BitVec.toNat_sub_of_le hx]
  constructor
  · calc (tc.sndNxt - ack).toNat = _ := hsub tc.sndNxt (by omega)
      _ ≤ _ := by omega
      _ = (tc.sndUnaMax - ack).toNat := (hsub tc.sndUnaMax (by omega)).symm
  · calc (tc.sndUnaMax - ack).toNat = _ := hsub tc.sndUnaMax (by omega)
      _ < 2 ^ 31 := by omega

theorem trackSent_pointers (env : Env) (tc : TcpConnection) :
    (trackSent env tc).sndUna = tc.sndUna ∧ (trackSent env tc).sndNxt = tc.sndNxt ∧
      (trackSent env tc).sndUnaMax = if seqLt tc.sndUnaMax tc.sndNxt then tc.sndNxt else tc.sndUnaMax := by
  rw [trackSent]
  split
  · exact ⟨rfl, rfl, rfl⟩
  · exact ⟨rfl, rfl, rfl⟩

theorem tcpOutput_pointers (env : Env) (a : Bool) (tc : TcpConnection) :
    (tcpOutput env a tc).sndUna = tc.sndUna ∧ (tcpOutput env a tc).sndNxt = tc.sndNxt ∧
      (tcpOutput env a tc).sndUnaMax = if seqLt tc.sndUnaMax tc.sndNxt then tc.sndNxt else tc.sndUnaMax := by
  have htrack := trackSent_pointers env
    { tc with flags := tc.flags &&& ~~~(tcpConnSndack ||| tcpConnDelack ||| tcpConnBurstack) }
  rw [tcpOutput]
  split
  · exact htrack
  · exact htrack

theorem InFlight.transmit (h : InFlight tc) (hlen : (tc.sndNxt - tc.sndUna).toNat + n.toNat < 2 ^ 31) (env : Env)
    (a : Bool) :
    InFlight (tcpOutput env a (tcpPushHdrI env tc n)) := by
  obtain ⟨huna, hnxt, hmax⟩ := tcpOutput_pointers env a (tcpPushHdrI env tc n)
  have hnew : (tc.sndNxt + n - tc.sndUna).toNat = (tc.sndNxt - tc.sndUna).toNat + n.toNat := by
    rw [add_sub_right_comm, BitVec.toNat_add, Nat.mod_eq_of_lt (by omega)]
  have hhalf := h.half
  have hcmp := seqLt_at (m := (tc.sndUnaMax - tc.sndUna).toNat) (n := (tc.sndNxt + n - tc.sndUna).toNat) tc.sndUna
    (by omega) (by omega)
  rw [Seq.at_toNat_sub, Seq.at_toNat_sub] at hcmp
  have hmax' : (tcpOutput env a (tcpPushHdrI env tc n)).sndUnaMax =
      if seqLt tc.sndUnaMax (tc.sndNxt + n) then tc.sndNxt + n else tc.sndUnaMax := hmax
  have hnxt' : (tcpOutput env a (tcpPushHdrI env tc n)).sndNxt = tc.sndNxt + n := hnxt
  have huna' : (tcpOutput env a (tcpPushHdrI env tc n)).sndUna = tc.sndUna := huna
  rw [hcmp] at hmax'
  constructor
  · rw [huna', hnxt', hmax']
    split
    · exact le_rfl
    · rename_i hge
      exact Nat.le_of_not_lt fun hlt => hge (decide_eq_true hlt)
  · rw [huna', hmax']
    split
    · omega
    · exact hhalf

theorem AckMoves.inFlight {ack : Seq} (hm : AckMoves tc ack tc' r) (h : InFlight tc) : InFlight tc' := by
  cases hm with
  | invalid _ hrew => exact h.rewinds hrew
  | old hrew _ => exact h.rewinds hrew
  | inWindow hgt hlt _ hrew =>
    cases hrew with
    | inl hrew => exact h.rewinds hrew
    | inr hrew => exact (h.advance hgt hlt).rewinds hrew

theorem InFlight.step (h : InFlight tc) (hlegal : e.Legal tc) (hstep : SendEvent.step tc e = some tc') :
    InFlight tc' := by
  cases e with
  | transmit env a n =>
    cases hstep
    exact h.transmit hlegal env a
  | timeout env => exact h.rewinds (tcpTimerRetransmitHandlerI_rewinds hstep)
  | fastRetransmit env => exact h.rewinds (tcpFastRetransmit_rewinds hstep)
  | rcvAck env opt seg =>
    obtain ⟨⟨tc₁, r⟩, hrcv, rfl⟩ := Option.map_eq_some_iff.mp hstep
    have hopt : InFlight { tc with opt } := ⟨h.nxt, h.half⟩
    exact (tcpRcvAck_moves hrcv).inFlight hopt

theorem seqLeq_eq_not_seqGt (a b : Seq) : seqLeq a b = !seqGt a b := by
  rw [seqLeq, seqGt, ← decide_not]
  exact decide_eq_decide.mpr (by omega)

theorem tcpRcvAck_invalid_iff (env : Env) (tc : TcpConnection) (seg : Segment) :
    (∀ out ∈ tcpRcvAck env tc seg, out.2 ≠ .ackInvalid) ↔ seqLeq seg.ackNumber tc.sndNxt = true := by
  rw [seqLeq_eq_not_seqGt, Bool.not_eq_true']
  constructor
  · intro hout
    apply Bool.eq_false_of_not_eq_true
    intro hgt
    have hrun : tcpRcvAck env tc seg = some (tcpWindowToAdvertise env tc, .ackInvalid) := by
      rw [tcpRcvAck, if_pos hgt]
    exact hout _ hrun rfl
  · intro hgt out hrun
    obtain ⟨tc', r⟩ := out
    cases tcpRcvAck_moves hrun with
    | invalid hgt' => exact absurd (hgt'.symm.trans hgt) Bool.noConfusion
    | old => exact AckResult.noConfusion
    | inWindow _ _ hr => exact hr

theorem InFlight.accepts_iff (h : InFlight tc) (hlegal : e.Legal tc) : e.Accepts tc ↔ e.NotBehind tc := by
  have hnext : ∀ tc' ∈ e.step tc, SndOrdered tc' := fun tc' hstep => (h.step hlegal hstep).ordered
  rw [SendEvent.Accepts, and_iff_left hnext]
  cases e with
  | transmit env a n => exact Iff.rfl
  | timeout env => exact Iff.rfl
  | fastRetransmit env => exact Iff.rfl
  | rcvAck env opt seg => exact imp_congr_right fun _ => tcpRcvAck_invalid_iff env { tc with opt } seg

/-- The pointers are in order on every run; an ack of data that was sent is refused just when `snd_nxt` is behind it. -/
theorem tcp_rcv_ack_accepts (h : InFlight tc) (hlegal : SendRun (fun tc e => e.Legal tc) tc es) :
    SendRun (fun tc e => e.Accepts tc) tc es ↔ SendRun (fun tc e => e.NotBehind tc) tc es := by
  induction es generalizing tc with
  | nil => exact Iff.rfl
  | cons e es ih =>
    obtain ⟨hlegal, hrest⟩ := hlegal
    refine and_congr (h.accepts_iff hlegal) (forall₂_congr fun tc' hstep => ?_)
    exact ih (h.step hlegal hstep) (hrest tc' hstep)

/-- A full receive window, an empty receive fifo and a transmit fifo with all bytes that are asked for. -/
def idleEnv : Env := ⟨0, fun _ n => n, 65535, 65535, 32⟩

/-- The bytes from 1000 to 1999 have been sent. -/
def sentThousand : TcpConnection := .sending 1000 2000 ⟨.empty, none, 0, []⟩

def ackThousand : SendEvent := .rcvAck idleEnv sentThousand.opt ⟨0, 0, 2000, 65535, none⟩

theorem sentThousand_inFlight : InFlight sentThousand := ⟨by decide, by decide⟩

theorem tcp_rcv_ack_accepts_all :
    SendRun (fun tc e => e.Accepts tc) sentThousand [.transmit idleEnv true 100, ackThousand] := by
  have hlegal : SendRun (fun tc e => e.Legal tc) sentThousand [.transmit idleEnv true 100, ackThousand] := by
    refine ⟨?_, fun _ _ => ⟨trivial, fun _ _ => trivial⟩⟩
    exact Nat.lt_of_le_of_lt (m := 1100) (by decide) (by decide)
  refine (tcp_rcv_ack_accepts sentThousand_inFlight hlegal).mpr ⟨trivial, ?_⟩
  intro tc' hstep
  cases hstep
  exact ⟨fun _ => by decide, fun _ _ => trivial⟩

/-- The retransmission timer runs out before the ack gets there. -/
theorem tcp_rcv_ack_accepts_fails :
    InFlight sentThousand ∧ SendRun (fun tc e => e.Legal tc) sentThousand [.timeout idleEnv, ackThousand] ∧
      ¬ SendRun (fun tc e => e.Accepts tc) sentThousand [.timeout idleEnv, ackThousand] := by
  refine ⟨sentThousand_inFlight, ⟨trivial, fun _ _ => ⟨trivial, fun _ _ => trivial⟩⟩, ?_⟩
  intro ⟨_, hrest⟩
  obtain ⟨⟨haccepts, _⟩, _⟩ := hrest _ rfl
  exact haccepts ⟨by decide, by decide⟩ _ rfl rfl

end Vpp.Tcp
