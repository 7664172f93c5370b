import Vpp.Infra.Dlist
import Vpp.Snat.Det

namespace Vpp.Snat
open Vpp.Lib Vpp.Infra

inductive SnatProtocol where
  | udp
  | tcp
  | icmp
deriving DecidableEq, Inhabited

structure SnatSessionKey where
  addr : Ip4Address
  port : BitVec 16
  protocol : SnatProtocol
  fibIndex : BitVec 13
deriving DecidableEq, Inhabited

structure SnatUserKey where
  addr : Ip4Address
  fibIndex : BitVec 32
deriving DecidableEq

structure SnatSession where
  out2in : SnatSessionKey
  in2out : SnatSessionKey
  isStatic : Bool
  perUserIndex : Nat
  perUserListHeadIndex : Nat
  outsideAddressIndex : Nat
deriving DecidableEq, Inhabited

structure SnatUser where
  addr : Ip4Address
  fibIndex : BitVec 32
  sessionsPerUserListHeadIndex : Nat
  nsessions : Nat
  nstaticsessions : Nat
deriving DecidableEq, Inhabited

structure SnatAddress where
  addr : Ip4Address
  fibIndex : BitVec 32
  busyPorts : SnatProtocol → Nat
  busyPortBitmap : SnatProtocol → BitVec 16 → Bool

structure SnatStaticMapping where
  localAddr : Ip4Address
  externalAddr : Ip4Address
  localPort : BitVec 16
  externalPort : BitVec 16
  addrOnly : Bool
  fibIndex : BitVec 32
  proto : SnatProtocol
deriving DecidableEq, Inhabited

structure SnatMain where
  out2in : SnatSessionKey → Option Nat
  in2out : SnatSessionKey → Option Nat
  userHash : SnatUserKey → Option Nat
  users : Pool SnatUser
  sessions : Pool SnatSession
  listPool : Pool DlistElt
  staticMappingByLocal : SnatSessionKey → Option Nat
  staticMappings : Pool SnatStaticMapping
  addresses : List SnatAddress
  maxTranslationsPerUser : Nat
  outsideVrfId : BitVec 32
  fibIndexByTableId : BitVec 32 → Option (BitVec 32)
  vrfMode : Bool

def none32 : BitVec 32 := BitVec.allOnes 32

def pred32 (n : Nat) : Nat := (n + (2 ^ 32 - 1)) % 2 ^ 32

end Vpp.Snat
