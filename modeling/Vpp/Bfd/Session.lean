import Vpp.Bfd.Protocol
import Vpp.Lib.PoolAt

namespace Vpp.Bfd
open Vpp.Lib

inductive BfdPollState where
  | notNeeded
  | needed
  | inProgress
  | inProgressAndQueued
  deriving DecidableEq, Repr, Inhabited

inductive BfdTransport where
  | udp4
  | udp6
  deriving DecidableEq, Repr, Inhabited

structure BfdAuthKey where
  confKeyId : BitVec 32
  useCount : Nat
  key : List (BitVec 8)
  authType : BfdAuthType
  deriving DecidableEq, Repr, Inhabited

/-- Authentication information of a session. A key pointer is the address of a key. -/
structure BfdAuth where
  currKey : Option Nat
  nextKey : Option Nat
  localSeqNumber : BitVec 32
  remoteSeqNumber : BitVec 32
  remoteSeqNumberKnown : Bool
  currBfdKeyId : BitVec 8
  nextBfdKeyId : BitVec 8
  isDelayed : Bool
  deriving DecidableEq, Repr, Inhabited

structure BfdSession where
  bsIdx : Nat
  localState : BfdState
  remoteState : BfdState
  localDiag : BfdDiagCode
  remoteDiag : BitVec 8
  localDiscr : BitVec 32
  remoteDiscr : BitVec 32
  configDesiredMinTxUsec : BitVec 32
  configDesiredMinTxClocks : BitVec 64
  effectiveDesiredMinTxClocks : BitVec 64
  configRequiredMinRxUsec : BitVec 32
  configRequiredMinRxClocks : BitVec 64
  effectiveRequiredMinRxClocks : BitVec 64
  remoteMinRxUsec : BitVec 64
  remoteMinRxClocks : BitVec 64
  remoteMinEchoRxUsec : BitVec 64
  remoteMinEchoRxClocks : BitVec 64
  remoteDesiredMinTxClocks : BitVec 64
  localDetectMult : BitVec 8
  remoteDemand : Bool
  remoteDetectMult : BitVec 8
  echo : Bool
  wheelTimeClocks : BitVec 64
  transmitIntervalClocks : BitVec 64
  txTimeoutClocks : BitVec 64
  lastTxClocks : BitVec 64
  lastRxClocks : BitVec 64
  echoTransmitIntervalClocks : BitVec 64
  echoTxTimeoutClocks : BitVec 64
  echoLastTxClocks : BitVec 64
  echoLastRxClocks : BitVec 64
  echoSecret : BitVec 32
  detectionTimeClocks : BitVec 64
  pollState : BfdPollState
  pollStateStartOrTimeoutClocks : BitVec 64
  auth : BfdAuth
  transport : BfdTransport
  deriving DecidableEq, Repr, Inhabited

/-- Configuration of the BFD process, with its floating-point conversions and the digest that
the authentication section carries. -/
structure BfdMain where
  wheelInaccuracy : BitVec 64
  defaultDesiredMinTxClocks : BitVec 64
  minRequiredMinRxWhileEchoClocks : BitVec 64
  usecToClocks : BitVec 64 → BitVec 64
  clocksToUsec : BitVec 64 → BitVec 32
  echoAvailable : BfdTransport → Bool
  sha1 : BfdPkt → List (BitVec 8) → List (BitVec 8)

/-- One reading of the clock and of the random jitter. `nextTx common lastTx interval` is the
floating-point sum of `lastTx` and the drawn share of `interval`. -/
structure Tick where
  now : BitVec 64
  nextTx : Bool → BitVec 64 → BitVec 64 → BitVec 64

def clibMax (x y : BitVec 64) : BitVec 64 := if y < x then x else y
def clibMin (x y : BitVec 64) : BitVec 64 := if x < y then x else y

def bfdDefaultDesiredMinTxUsec : BitVec 32 := 1000000

/-- `localSeq` and `secret` are the two numbers drawn at random. -/
def bfdSetDefaults (bm : BfdMain) (localSeq secret : BitVec 32) (bs : BfdSession) : BfdSession :=
  { bs with
    localState := .down
    localDiag := .noDiag
    remoteState := .down
    remoteDiscr := 0
    configDesiredMinTxUsec := bfdDefaultDesiredMinTxUsec
    configDesiredMinTxClocks := bm.defaultDesiredMinTxClocks
    effectiveDesiredMinTxClocks := bm.defaultDesiredMinTxClocks
    remoteMinRxUsec := 1
    remoteMinRxClocks := bm.usecToClocks 1
    remoteMinEchoRxUsec := 0
    remoteMinEchoRxClocks := 0
    remoteDemand := false
    auth := { bs.auth with
      remoteSeqNumber := 0
      remoteSeqNumberKnown := false
      localSeqNumber := localSeq }
    echoSecret := secret }

def bfdSetDiag (bs : BfdSession) (code : BfdDiagCode) : BfdSession :=
  if bs.localDiag ≠ code then { bs with localDiag := code } else bs

def bfdSetPollState (bs : BfdSession) (state : BfdPollState) : BfdSession :=
  if bs.pollState ≠ state then { bs with pollState := state } else bs

def bfdRecalcTxInterval (bs : BfdSession) : BfdSession :=
  { bs with transmitIntervalClocks := clibMax bs.effectiveDesiredMinTxClocks bs.remoteMinRxClocks }

def bfdRecalcEchoTxInterval (bs : BfdSession) : BfdSession :=
  { bs with
    echoTransmitIntervalClocks :=
      clibMax bs.effectiveDesiredMinTxClocks bs.remoteMinEchoRxClocks }

def bfdCalcNextTx (bs : BfdSession) (tick : Tick) (now : BitVec 64) : BfdSession :=
  let timeout := tick.nextTx (decide (1 < bs.localDetectMult)) bs.lastTxClocks
    bs.transmitIntervalClocks
  { bs with txTimeoutClocks := if timeout < now then now else timeout }

def bfdCalcNextEchoTx (bs : BfdSession) (now : BitVec 64) : BfdSession :=
  let timeout := bs.echoLastTxClocks + bs.echoTransmitIntervalClocks
  { bs with echoTxTimeoutClocks := if timeout < now then now else timeout }

def bfdRecalcDetectionTime (bs : BfdSession) : BfdSession :=
  if bs.localState = .init ∨ bs.localState = .up then
    { bs with
      detectionTimeClocks := bs.remoteDetectMult.setWidth 64 *
        clibMax bs.effectiveRequiredMinRxClocks bs.remoteDesiredMinTxClocks }
  else bs

/-- When the session next has to wake up; zero if there is nothing to wait for. -/
def bfdNextTimeout (bs : BfdSession) : BitVec 64 :=
  let rxTimeout := if bs.localState = .up then bs.lastRxClocks + bs.detectionTimeClocks else 0
  let txTimeout := if bs.localState ≠ .up ∨ (bs.remoteDemand = false ∧ bs.remoteMinRxUsec ≠ 0) ∨
      bs.pollState ≠ .notNeeded then bs.txTimeoutClocks else 0
  let next := if txTimeout ≠ 0 ∧ rxTimeout ≠ 0 then clibMin txTimeout rxTimeout
    else if txTimeout ≠ 0 then txTimeout
    else if rxTimeout ≠ 0 then rxTimeout
    else 0
  if bs.echo = true ∧ bs.echoTxTimeoutClocks < next then bs.echoTxTimeoutClocks else next

/-- The wheel entry itself is left out: a session may wake up at any time. -/
def bfdSetTimer (bm : BfdMain) (bs : BfdSession) (now : BitVec 64) : BfdSession :=
  let next := bfdNextTimeout bs
  if next ≠ 0 ∧ (bs.wheelTimeClocks < now + bm.wheelInaccuracy ∨ next < bs.wheelTimeClocks ∨
      bs.wheelTimeClocks = 0) then
    { bs with wheelTimeClocks := next }
  else bs

def bfdSetEffectiveDesiredMinTx (bs : BfdSession) (tick : Tick) (now clocks : BitVec 64) :
    BfdSession :=
  bfdCalcNextTx (bfdRecalcEchoTxInterval (bfdRecalcTxInterval (bfdRecalcDetectionTime
    { bs with effectiveDesiredMinTxClocks := clocks }))) tick now

def bfdSetEffectiveRequiredMinRx (bs : BfdSession) (clocks : BitVec 64) : BfdSession :=
  bfdRecalcDetectionTime { bs with effectiveRequiredMinRxClocks := clocks }

def bfdSetRemoteRequiredMinRx (bm : BfdMain) (bs : BfdSession) (usec : BitVec 32) : BfdSession :=
  if bs.remoteMinRxUsec ≠ usec.setWidth 64 then
    bfdRecalcTxInterval (bfdRecalcDetectionTime
      { bs with
        remoteMinRxUsec := usec.setWidth 64
        remoteMinRxClocks := bm.usecToClocks (usec.setWidth 64) })
  else bs

def bfdSetRemoteRequiredMinEchoRx (bm : BfdMain) (bs : BfdSession) (usec : BitVec 32) : BfdSession :=
  if bs.remoteMinEchoRxUsec ≠ usec.setWidth 64 then
    bfdRecalcEchoTxInterval
      { bs with
        remoteMinEchoRxUsec := usec.setWidth 64
        remoteMinEchoRxClocks := bm.usecToClocks (usec.setWidth 64) }
  else bs

def bfdOnStateChange (bm : BfdMain) (bs : BfdSession) (tick : Tick) : BfdSession :=
  let now := tick.now
  match bs.localState with
  | .adminDown | .down =>
    let bs := bfdSetEffectiveDesiredMinTx { bs with echo := false } tick now
      (clibMax bs.configDesiredMinTxClocks bm.defaultDesiredMinTxClocks)
    bfdSetTimer bm (bfdSetEffectiveRequiredMinRx bs bs.configRequiredMinRxClocks) now
  | .init =>
    bfdSetTimer bm (bfdSetEffectiveDesiredMinTx { bs with echo := false } tick now
      bs.configDesiredMinTxClocks) now
  | .up =>
    let bs := bfdSetEffectiveDesiredMinTx bs tick now bs.configDesiredMinTxClocks
    let bs := if bs.pollState = .notNeeded then
        bfdSetEffectiveRequiredMinRx bs bs.configRequiredMinRxClocks
      else bs
    bfdSetTimer bm bs now

/-- `tick` is the clock reading taken when the state does change. -/
def bfdSetState (bm : BfdMain) (bs : BfdSession) (newState : BfdState) (tick : Tick) : BfdSession :=
  if bs.localState ≠ newState then bfdOnStateChange bm { bs with localState := newState } tick
  else bs

def bfdSessionSetFlags (bm : BfdMain) (bs : BfdSession) (adminUpDown : Bool) (tick stateTick : Tick) :
    BfdSession :=
  let now := tick.now
  if adminUpDown then
    let bs := bfdSetDiag (bfdSetState bm bs .down stateTick) .noDiag
    bfdSetTimer bm (bfdCalcNextTx bs tick now) now
  else
    let bs := bfdSetState bm (bfdSetDiag bs .adminDown) .adminDown stateTick
    bfdSetTimer bm (bfdCalcNextTx bs tick now) now

def bfdIsEchoPossible (bm : BfdMain) (bs : BfdSession) : Bool :=
  if bs.localState = .up ∧ bs.remoteState = .up ∧ 0 < bs.remoteMinEchoRxUsec then
    bm.echoAvailable bs.transport
  else false

def bfdInitControlFrame (bm : BfdMain) (bs : BfdSession) : BfdPkt :=
  let pkt : BfdPkt := ⟨0, 0, 0, 0, 0, 0, 0, 0, 0, default⟩
  let pkt := bfdPktSetState (bfdPktSetDiagCode (bfdPktSetVersion pkt 1) bs.localDiag.toBits)
    bs.localState.toBits
  { pkt with
    detectMult := bs.localDetectMult
    length := BitVec.ofNat 8 bfdPktSize
    myDisc := bs.localDiscr
    yourDisc := bs.remoteDiscr
    desMinTx := bs.configDesiredMinTxUsec
    reqMinRx := if bs.echo then bm.clocksToUsec bs.effectiveRequiredMinRxClocks
      else bs.configRequiredMinRxUsec
    reqMinEchoRx := 1 }

def bfdDigest (bm : BfdMain) (pkt : BfdPkt) (key : List (BitVec 8)) : List (BitVec 8) :=
  bm.sha1 { pkt with auth := { pkt.auth with hash := [] } } key

def bfdAddSha1AuthSection (bm : BfdMain) (key : BfdAuthKey) (pkt : BfdPkt) (bs : BfdSession) :
    BfdPkt × BfdSession :=
  let seq := bs.auth.localSeqNumber + 1
  let pkt := bfdPktSetAuthPresent { pkt with length := pkt.length + BitVec.ofNat 8 bfdAuthSha1Size }
  let auth : BfdAuthSha1 := ⟨key.authType.toBits, BitVec.ofNat 8 bfdAuthSha1Size,
    bs.auth.currBfdKeyId, seq, []⟩
  -- while the hash is calculated the password stands in its place
  let hash := bfdDigest bm { pkt with auth } key.key
  ({ pkt with auth := { auth with hash } }, { bs with auth := { bs.auth with localSeqNumber := seq } })

def bfdAddAuthSection (bm : BfdMain) (keys : PoolAt BfdAuthKey) (pkt : BfdPkt) (bs : BfdSession) :
    BfdPkt × BfdSession :=
  match bs.auth.currKey with
  | some p =>
    let key := keys.read p
    if bfdAuthTypeSupported key.authType then bfdAddSha1AuthSection bm key pkt bs else (pkt, bs)
  | none => (pkt, bs)

def bfdPollPeriodic (pkt : BfdPkt) (bs : BfdSession) (now : BitVec 64) : BfdPkt × BfdSession :=
  match bs.pollState with
  | .needed =>
    if now < bs.pollStateStartOrTimeoutClocks then (pkt, bs)
    else (bfdPktSetPoll pkt,
      bfdSetPollState { bs with pollStateStartOrTimeoutClocks := now } .inProgress)
  | .inProgress | .inProgressAndQueued => (bfdPktSetPoll pkt, bs)
  | .notNeeded => (pkt, bs)

/-- The frame handed to the transport, if one is sent, and the session afterwards.
`buffer` tells whether a buffer could be allocated. -/
def bfdSendPeriodic (bm : BfdMain) (keys : PoolAt BfdAuthKey) (bs : BfdSession) (tick : Tick)
    (buffer : Bool) (now : BitVec 64) : Option BfdPkt × BfdSession :=
  if bs.remoteMinRxUsec = 0 ∧ bs.pollState = .notNeeded then (none, bs)
  else if bs.pollState = .notNeeded ∧ bs.remoteDemand = true ∧ bs.localState = .up ∧
      bs.remoteState = .up then (none, bs)
  else if bs.txTimeoutClocks ≤ now + bm.wheelInaccuracy then
    if buffer then
      let (pkt, bs) := bfdPollPeriodic (bfdInitControlFrame bm bs) bs now
      let (pkt, bs) := bfdAddAuthSection bm keys pkt bs
      (some pkt, bfdCalcNextTx { bs with lastTxClocks := now } tick now)
    else (none, bs)
  else (none, bs)

def bfdInitFinalControlFrame (bm : BfdMain) (keys : PoolAt BfdAuthKey) (bs : BfdSession)
    (now : BitVec 64) : BfdPkt × BfdSession :=
  let (pkt, bs) := bfdAddAuthSection bm keys (bfdPktSetFinal (bfdInitControlFrame bm bs)) bs
  (pkt, bfdSetPollState { bs with lastTxClocks := now } .notNeeded)

/-- `sent` tells whether a buffer was there and the transport took the echo packet. -/
def bfdSendEcho (bm : BfdMain) (bs : BfdSession) (buffer sent : Bool) (now : BitVec 64) : BfdSession :=
  if bfdIsEchoPossible bm bs = false then { bs with echo := false }
  else if bs.echoTxTimeoutClocks ≤ now + bm.wheelInaccuracy then
    if buffer = false then bs
    else if sent = false then { bs with echo := false }
    else bfdCalcNextEchoTx { bs with echoLastTxClocks := now } now
  else bs

def bfdCheckRxTimeout (bm : BfdMain) (bs : BfdSession) (now : BitVec 64) (stateTick : Tick) :
    BfdSession :=
  if bs.lastRxClocks + bs.detectionTimeClocks ≤ now + bm.wheelInaccuracy then
    bfdSetRemoteRequiredMinRx bm
      (bfdSetState bm (bfdSetDiag bs .detTimeExp) .down stateTick) 1
  else if bs.echo = true ∧ bs.echoLastRxClocks +
      bs.echoTransmitIntervalClocks * bs.localDetectMult.setWidth 64 ≤ now + bm.wheelInaccuracy then
    bfdSetState bm (bfdSetDiag bs .echoFailed) .down stateTick
  else bs

structure Wakeup where
  keys : PoolAt BfdAuthKey
  tick : Tick
  stateTick : Tick
  txBuffer : Bool
  echoBuffer : Bool
  echoSent : Bool

def bfdSwitchOnEcho (bm : BfdMain) (bs : BfdSession) (now : BitVec 64) : BfdSession :=
  if bs.pollState = .notNeeded ∧ bs.echo = false ∧ bfdIsEchoPossible bm bs = true then
    let bs := { bs with echo := true, echoLastRxClocks := now, echoTxTimeoutClocks := now }
    bfdSetPollState (bfdSetEffectiveRequiredMinRx bs
      (clibMax bm.minRequiredMinRxWhileEchoClocks bs.configRequiredMinRxClocks)) .needed
  else bs

def bfdOnTimeout (bm : BfdMain) (bs : BfdSession) (w : Wakeup) : Option BfdPkt × BfdSession :=
  let now := w.tick.now
  match bs.localState with
  | .adminDown | .down => bfdSendPeriodic bm w.keys bs w.tick w.txBuffer now
  | .init =>
    bfdSendPeriodic bm w.keys (bfdCheckRxTimeout bm bs now w.stateTick) w.tick w.txBuffer now
  | .up =>
    let bs := bfdSwitchOnEcho bm (bfdCheckRxTimeout bm bs now w.stateTick) now
    let (pkt, bs) := bfdSendPeriodic bm w.keys bs w.tick w.txBuffer now
    (pkt, if bs.echo then bfdSendEcho bm bs w.echoBuffer w.echoSent now else bs)

/-- The part of `bfd_consume_pkt` that copies the packet into the session. -/
def bfdConsumeFields (bm : BfdMain) (pkt : BfdPkt) (bs : BfdSession) (now : BitVec 64) : BfdSession :=
  let bs := { bs with
    remoteDiscr := pkt.myDisc
    remoteState := pkt.state
    remoteDemand := bfdPktGetDemand pkt
    remoteDiag := bfdPktGetDiagCode pkt
    lastRxClocks := now }
  let bs := if bfdPktGetAuthPresent pkt = true ∧ (pkt.auth.type = BfdAuthType.keyedSha1.toBits ∨
      pkt.auth.type = BfdAuthType.meticulousKeyedSha1.toBits) then
      { bs with auth := { bs.auth with
        remoteSeqNumber := pkt.auth.seqNum
        remoteSeqNumberKnown := true } }
    else bs
  let bs := { bs with
    remoteDesiredMinTxClocks := bm.usecToClocks (pkt.desMinTx.setWidth 64)
    remoteDetectMult := pkt.detectMult }
  bfdSetRemoteRequiredMinEchoRx bm (bfdSetRemoteRequiredMinRx bm bs pkt.reqMinRx) pkt.reqMinEchoRx

def bfdConsumeFinal (bm : BfdMain) (pkt : BfdPkt) (bs : BfdSession) (now : BitVec 64) : BfdSession :=
  if bfdPktGetFinal pkt then
    if bs.pollState = .inProgress then
      let bs := bfdSetPollState bs .notNeeded
      if bs.localState = .up then
        bfdSetEffectiveRequiredMinRx bs (clibMax
          (if bs.echo then bm.minRequiredMinRxWhileEchoClocks else 0) bs.configRequiredMinRxClocks)
      else bs
    else if bs.pollState = .inProgressAndQueued then
      bfdSetPollState { bs with
        pollStateStartOrTimeoutClocks := now + (now - bs.pollStateStartOrTimeoutClocks) } .needed
    else bs
  else bs

/-- The state machine of `bfd_consume_pkt`. -/
def bfdConsumeState (bm : BfdMain) (bs : BfdSession) (stateTick : Tick) : BfdSession :=
  if bs.localState = .adminDown then bs
  else if bs.remoteState = .adminDown then
    bfdSetState bm (bfdSetDiag bs .neighborSigDown) .down stateTick
  else if bs.localState = .down then
    if bs.remoteState = .down then bfdSetState bm (bfdSetDiag bs .noDiag) .init stateTick
    else if bs.remoteState = .init then bfdSetState bm (bfdSetDiag bs .noDiag) .up stateTick
    else bs
  else if bs.localState = .init then
    if bs.remoteState = .up ∨ bs.remoteState = .init then
      bfdSetState bm (bfdSetDiag bs .noDiag) .up stateTick
    else bs
  else if bs.remoteState = .down then
    bfdSetState bm (bfdSetDiag bs .neighborSigDown) .down stateTick
  else bs

def bfdConsumePkt (bm : BfdMain) (pkt : BfdPkt) (bs : BfdSession) (tick stateTick : Tick) :
    BfdSession :=
  if pkt.yourDisc ≠ 0 ∧ pkt.yourDisc ≠ bs.localDiscr then bs
  else
    let now := tick.now
    let bs := bfdConsumeFinal bm pkt (bfdConsumeFields bm pkt bs now) now
    bfdConsumeState bm (bfdSetTimer bm (bfdCalcNextTx bs tick now) now) stateTick

end Vpp.Bfd
