import Mathlib.Data.BitVec

namespace Vpp.Bfd

inductive BfdState where
  | adminDown
  | down
  | init
  | up
  deriving DecidableEq, Repr, Inhabited

def BfdState.toBits : BfdState → BitVec 8
  | .adminDown => 0
  | .down => 1
  | .init => 2
  | .up => 3

def BfdState.ofBits (b : BitVec 8) : BfdState :=
  if b = 0 then .adminDown else if b = 1 then .down else if b = 2 then .init else .up

inductive BfdDiagCode where
  | noDiag
  | detTimeExp
  | echoFailed
  | neighborSigDown
  | fwdPlainReset
  | pathDown
  | concatPathDown
  | adminDown
  | reverseConcatPathDown
  deriving DecidableEq, Repr, Inhabited

def BfdDiagCode.toBits : BfdDiagCode → BitVec 8
  | .noDiag => 0
  | .detTimeExp => 1
  | .echoFailed => 2
  | .neighborSigDown => 3
  | .fwdPlainReset => 4
  | .pathDown => 5
  | .concatPathDown => 6
  | .adminDown => 7
  | .reverseConcatPathDown => 8

inductive BfdAuthType where
  | reserved
  | simplePassword
  | keyedMd5
  | meticulousKeyedMd5
  | keyedSha1
  | meticulousKeyedSha1
  deriving DecidableEq, Repr, Inhabited

def BfdAuthType.toBits : BfdAuthType → BitVec 8
  | .reserved => 0
  | .simplePassword => 1
  | .keyedMd5 => 2
  | .meticulousKeyedMd5 => 3
  | .keyedSha1 => 4
  | .meticulousKeyedSha1 => 5

def bfdMaxKeyLenForAuthType : BfdAuthType → Nat
  | .reserved => 0
  | .simplePassword => 16
  | .keyedMd5 => 16
  | .meticulousKeyedMd5 => 16
  | .keyedSha1 => 20
  | .meticulousKeyedSha1 => 20

def bfdAuthTypeSupported (authType : BfdAuthType) : Bool :=
  decide (authType = .keyedSha1 ∨ authType = .meticulousKeyedSha1)

def bfdAuthTypeIsMeticulous (authType : BfdAuthType) : Bool :=
  decide (authType = .meticulousKeyedMd5 ∨ authType = .meticulousKeyedSha1)

structure BfdAuthSha1 where
  type : BitVec 8
  len : BitVec 8
  keyId : BitVec 8
  seqNum : BitVec 32
  hash : List (BitVec 8)
  deriving DecidableEq, Repr, Inhabited

/-- A control packet. `auth` is what follows the mandatory section. -/
structure BfdPkt where
  versDiag : BitVec 8
  staFlags : BitVec 8
  detectMult : BitVec 8
  length : BitVec 8
  myDisc : BitVec 32
  yourDisc : BitVec 32
  desMinTx : BitVec 32
  reqMinRx : BitVec 32
  reqMinEchoRx : BitVec 32
  auth : BfdAuthSha1
  deriving DecidableEq, Repr, Inhabited

def bfdPktSize : Nat := 24
def bfdAuthSha1Size : Nat := 28

def bfdPktSetVersion (pkt : BfdPkt) (version : BitVec 8) : BfdPkt :=
  { pkt with versDiag := (version <<< 5) ||| (pkt.versDiag &&& 0x1f) }

def bfdPktGetDiagCode (pkt : BfdPkt) : BitVec 8 := pkt.versDiag &&& 0x1f

def bfdPktSetDiagCode (pkt : BfdPkt) (value : BitVec 8) : BfdPkt :=
  { pkt with versDiag := (pkt.versDiag &&& ~~~0x1f) ||| (value &&& 0x1f) }

def bfdPktGetState (pkt : BfdPkt) : BitVec 8 := pkt.staFlags >>> 6

def bfdPktSetState (pkt : BfdPkt) (value : BitVec 8) : BfdPkt :=
  { pkt with staFlags := (value <<< 6) ||| (pkt.staFlags &&& 0x3f) }
def bfdPktGetFinal (pkt : BfdPkt) : Bool := pkt.staFlags.getLsbD 4
def bfdPktGetAuthPresent (pkt : BfdPkt) : Bool := pkt.staFlags.getLsbD 2
def bfdPktGetDemand (pkt : BfdPkt) : Bool := pkt.staFlags.getLsbD 1

def bfdPktSetPoll (pkt : BfdPkt) : BfdPkt := { pkt with staFlags := pkt.staFlags ||| 0x20 }
def bfdPktSetFinal (pkt : BfdPkt) : BfdPkt := { pkt with staFlags := pkt.staFlags ||| 0x10 }
def bfdPktSetAuthPresent (pkt : BfdPkt) : BfdPkt := { pkt with staFlags := pkt.staFlags ||| 0x04 }

def BfdPkt.state (pkt : BfdPkt) : BfdState := .ofBits (bfdPktGetState pkt)

theorem BfdPkt.state_setState (pkt : BfdPkt) (s : BfdState) :
    (bfdPktSetState pkt s.toBits).state = s := by
  have hall : ∀ flags : BitVec 8, BfdState.ofBits (((s.toBits <<< 6) ||| (flags &&& 0x3f)) >>> 6) = s := by
    cases s <;> decide
  exact hall pkt.staFlags

theorem BfdPkt.state_setFlag {pkt : BfdPkt} (h : flag &&& 0xc0 = 0) :
    BfdState.ofBits ((pkt.staFlags ||| flag) >>> 6) = pkt.state := by
  have hz : flag >>> 6 = 0#8 := by
    revert flag
    decide
  rw [BitVec.ushiftRight_or_distrib, hz, BitVec.or_zero]
  rfl

end Vpp.Bfd
