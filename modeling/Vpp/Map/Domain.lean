import Vpp.Lib.BitFields

namespace Vpp.Map
open Vpp.Lib BitVec

structure Ip6Words where
  hi : BitVec 64
  lo : BitVec 64
deriving DecidableEq

def mapDomainPrefix : BitVec 8 := 1

def mapDomainTranslation : BitVec 8 := 2

structure MapDomain where
  ip4Prefix : BitVec 32
  ip4PrefixLen : BitVec 8
  ip6Prefix : Ip6Words
  ip6PrefixLen : BitVec 8
  rules : Option (BitVec 16 → Ip6Words)
  flags : BitVec 8
  eaBitsLen : BitVec 8
  psidOffset : BitVec 8
  psidLength : BitVec 8
  suffixMask : BitVec 32
  suffixShift : BitVec 8
  psidMask : BitVec 16
  psidShift : BitVec 8
  eaShift : BitVec 8

structure DomainArgs where
  ip4Prefix : BitVec 32
  ip4PrefixLen : BitVec 8
  ip6Prefix : Ip6Words
  ip6PrefixLen : BitVec 8
  ip6SrcLen : BitVec 8
  eaBitsLen : BitVec 8
  psidOffset : BitVec 8
  psidLength : BitVec 8
  flags : BitVec 8

/-- MAP-T takes a source of 96 bits, MAP-E an address. -/
def DomainArgs.SrcOk (c : DomainArgs) : Prop :=
  if c.flags &&& mapDomainTranslation ≠ 0 then c.ip6SrcLen = 96 else c.ip6SrcLen = 128

instance (c : DomainArgs) : Decidable c.SrcOk := inferInstanceAs (Decidable (ite _ _ _))

/-- The embedded bits do not reach the end of the address. -/
def DomainArgs.IsPrefix (c : DomainArgs) : Prop := c.ip4PrefixLen.toNat + c.eaBitsLen.toNat < 32

instance (c : DomainArgs) : Decidable c.IsPrefix := Nat.decLt _ _

def DomainArgs.suffixShift (c : DomainArgs) : BitVec 8 := if c.IsPrefix then 32 - c.ip4PrefixLen - c.eaBitsLen else 0

def DomainArgs.suffixLen (c : DomainArgs) : BitVec 8 := if c.IsPrefix then c.eaBitsLen else 32 - c.ip4PrefixLen

def mapCreateDomain (c : DomainArgs) : Option MapDomain :=
  if ¬ c.SrcOk then none
  else if 0 < c.eaBitsLen.toNat ∧ (64 < c.ip6PrefixLen.toNat + c.eaBitsLen.toNat ∨
      64 < c.ip6PrefixLen.toNat + c.suffixLen.toNat + c.psidLength.toNat) then none
  else
    some
      { ip4Prefix := c.ip4Prefix, ip4PrefixLen := c.ip4PrefixLen, ip6Prefix := c.ip6Prefix
        ip6PrefixLen := c.ip6PrefixLen, rules := none
        flags := if c.IsPrefix then c.flags ||| mapDomainPrefix else c.flags
        eaBitsLen := c.eaBitsLen, psidOffset := c.psidOffset, psidLength := c.psidLength
        suffixShift := c.suffixShift
        suffixMask := (1#32 <<< c.suffixLen.toNat) - 1#32
        psidShift := 16 - c.psidLength - c.psidOffset
        psidMask := ((1#32 <<< c.psidLength.toNat) - 1#32).setWidth 16
        eaShift := 64 - c.ip6PrefixLen - c.suffixLen - c.psidLength }

def MapDomain.psid (d : MapDomain) (port : BitVec 16) : BitVec 16 := port >>> d.psidShift.toNat &&& d.psidMask

def MapDomain.suffix (d : MapDomain) (addr : BitVec 32) : BitVec 32 := addr >>> d.suffixShift.toNat &&& d.suffixMask

def MapDomain.ea (d : MapDomain) (addr : BitVec 32) (port : BitVec 16) : BitVec 64 :=
  if d.eaBitsLen = 0 then 0
  else (d.suffix addr).setWidth 64 <<< d.psidLength.toNat ||| (d.psid port).setWidth 64

/-- The rules of a domain, which only one without embedded bits uses. -/
def MapDomain.ruleOf (d : MapDomain) (port : BitVec 16) : Option Ip6Words :=
  if d.eaBitsLen = 0 then d.rules.map fun rules => rules (d.psid port) else none

def mapGetPfx (d : MapDomain) (addr : BitVec 32) (port : BitVec 16) : BitVec 64 :=
  match d.ruleOf port with
  | some rule => rule.hi
  | none => d.ip6Prefix.hi ||| d.ea addr port <<< d.eaShift.toNat

def mapGetSfx (d : MapDomain) (addr : BitVec 32) (port : BitVec 16) : BitVec 64 :=
  match d.ruleOf port with
  | some rule => rule.lo
  | none =>
    if d.ip6PrefixLen = 128 then d.ip6Prefix.lo
    else if d.flags &&& mapDomainPrefix ≠ 0 then
      (addr &&& (0xffffffff#32 <<< d.suffixShift.toNat)).setWidth 64 <<< 16
    else addr.setWidth 64 <<< 16 ||| (d.psid port).setWidth 64

/-- The source of a packet is the one that its inner source and port give. -/
def ip6MapSecCheck (d : MapDomain) (port : BitVec 16) (ip4Src : BitVec 32) (ip6Src : Ip6Words) : Bool :=
  !(mapGetPfx d ip4Src port != ip6Src.hi || mapGetSfx d ip4Src port != ip6Src.lo)

def DomainArgs.embeddedLen (c : DomainArgs) : Nat := min c.eaBitsLen.toNat (32 - c.ip4PrefixLen.toNat)

def DomainArgs.embedded (c : DomainArgs) (addr : BitVec 32) : Nat :=
  addr.toNat % 2 ^ (32 - c.ip4PrefixLen.toNat) / 2 ^ (32 - c.ip4PrefixLen.toNat - c.embeddedLen)

def DomainArgs.portSet (c : DomainArgs) (port : BitVec 16) : Nat :=
  port.toNat % 2 ^ (16 - c.psidOffset.toNat) / 2 ^ (16 - c.psidOffset.toNat - c.psidLength.toNat)

/-- The length of the prefix of a customer: the rule prefix, the embedded bits and the port set. -/
def DomainArgs.customerLen (c : DomainArgs) : Nat := c.ip6PrefixLen.toNat + c.embeddedLen + c.psidLength.toNat

def DomainArgs.Within (c : DomainArgs) (addr : BitVec 32) : Prop :=
  addr.toNat / 2 ^ (32 - c.ip4PrefixLen.toNat) = c.ip4Prefix.toNat / 2 ^ (32 - c.ip4PrefixLen.toNat)

/-- A domain that embeds bits, with nothing after its prefix. -/
structure DomainArgs.Algorithmic (c : DomainArgs) : Prop where
  ea_pos : 0 < c.eaBitsLen.toNat
  ip4_pos : 1 ≤ c.ip4PrefixLen.toNat
  ip4_le : c.ip4PrefixLen.toNat ≤ 32
  psid_le : c.psidOffset.toNat + c.psidLength.toNat ≤ 16
  hi_zero : c.ip6Prefix.hi.toNat % 2 ^ (64 - c.ip6PrefixLen.toNat) = 0
  lo_zero : c.ip6Prefix.lo = 0

structure Derived (c : DomainArgs) (d : MapDomain) : Prop where
  ip6Prefix : d.ip6Prefix = c.ip6Prefix
  eaBitsLen : d.eaBitsLen = c.eaBitsLen
  psidLength : d.psidLength = c.psidLength
  suffixShift : d.suffixShift.toNat = 32 - c.ip4PrefixLen.toNat - c.embeddedLen
  suffixMask : d.suffixMask.toNat = 2 ^ c.embeddedLen - 1
  psidShift : d.psidShift.toNat = 16 - c.psidOffset.toNat - c.psidLength.toNat
  psidMask : d.psidMask.toNat = 2 ^ c.psidLength.toNat - 1
  eaShift : d.eaShift.toNat = 64 - c.customerLen
  customer_le : c.customerLen ≤ 64

variable {c : DomainArgs}

theorem DomainArgs.suffixLen_eq (h : c.Algorithmic) : c.suffixLen.toNat = c.embeddedLen := by
  have hpos := h.ip4_pos
  have hle := h.ip4_le
  rw [suffixLen, embeddedLen]
  by_cases hp : c.IsPrefix
  · have hlt : c.ip4PrefixLen.toNat + c.eaBitsLen.toNat < 32 := hp
    rw [if_pos hp]
    omega
  · have hge : ¬ c.ip4PrefixLen.toNat + c.eaBitsLen.toNat < 32 := hp
    rw [if_neg hp, toNat_sub]
    have h32 : (32 : BitVec 8).toNat = 32 := rfl
    rw [h32]
    omega

theorem DomainArgs.suffixShift_eq (h : c.Algorithmic) :
    c.suffixShift.toNat = 32 - c.ip4PrefixLen.toNat - c.embeddedLen := by
  have hpos := h.ip4_pos
  have hle := h.ip4_le
  rw [suffixShift, embeddedLen]
  by_cases hp : c.IsPrefix
  · have hlt : c.ip4PrefixLen.toNat + c.eaBitsLen.toNat < 32 := hp
    have h32 : (32 : BitVec 8).toNat = 32 := rfl
    rw [if_pos hp, toNat_sub, toNat_sub, h32]
    omega
  · have hge : ¬ c.ip4PrefixLen.toNat + c.eaBitsLen.toNat < 32 := hp
    have h0 : (0 : BitVec 8).toNat = 0 := rfl
    rw [if_neg hp, h0]
    omega

theorem derived_of_create (h : c.Algorithmic) (hd : mapCreateDomain c = some d) : Derived c d := by
  rw [mapCreateDomain] at hd
  split at hd
  · cases hd
  · split at hd
    · cases hd
    · rename_i hfits
      cases hd
      have hsuffix := DomainArgs.suffixLen_eq h
      have hpsid := h.psid_le
      have hip4 := h.ip4_pos
      have hsmall : c.embeddedLen ≤ 32 - c.ip4PrefixLen.toNat := Nat.min_le_right _ _
      have hcustomer : c.customerLen ≤ 64 := by
        apply Nat.le_of_not_lt
        intro hlt
        apply hfits
        rw [hsuffix]
        exact ⟨h.ea_pos, .inr hlt⟩
      have hsum : c.customerLen = c.ip6PrefixLen.toNat + c.embeddedLen + c.psidLength.toNat := rfl
      refine ⟨rfl, rfl, rfl, DomainArgs.suffixShift_eq h, ?_, ?_, ?_, ?_, hcustomer⟩
      · dsimp only
        rw [hsuffix]
        exact toNat_mask (by omega)
      · have h16 : (16 : BitVec 8).toNat = 16 := rfl
        dsimp only
        rw [toNat_sub, toNat_sub, h16]
        omega
      · have hlt : 2 ^ c.psidLength.toNat ≤ 2 ^ 16 := Nat.pow_le_pow_right (by decide) (by omega)
        dsimp only
        rw [toNat_setWidth, toNat_mask (by omega)]
        omega
      · have h64 : (64 : BitVec 8).toNat = 64 := rfl
        dsimp only
        rw [toNat_sub, toNat_sub, toNat_sub, h64, hsuffix]
        omega

theorem field_low {x k n : Nat} (h : n ≤ k) : x % 2 ^ k / 2 ^ (k - n) = x / 2 ^ (k - n) % 2 ^ n := by
  have hpow : 2 ^ k = 2 ^ (k - n) * 2 ^ n := by
    rw [← Nat.pow_add]
    congr 1
    omega
  rw [hpow, Nat.mod_mul_right_div_self]

theorem DomainArgs.embeddedLen_le (c : DomainArgs) : c.embeddedLen ≤ 32 - c.ip4PrefixLen.toNat := Nat.min_le_right _ _

section Fields
variable {c : DomainArgs} {d : MapDomain} (h : c.Algorithmic) (hd : Derived c d)
include hd

theorem suffix_toNat (addr : BitVec 32) : (d.suffix addr).toNat = c.embedded addr := by
  rw [MapDomain.suffix, toNat_field hd.suffixMask, hd.suffixShift, DomainArgs.embedded, field_low c.embeddedLen_le]

theorem suffix_lt (addr : BitVec 32) : (d.suffix addr).toNat < 2 ^ c.embeddedLen := by
  rw [MapDomain.suffix, toNat_field hd.suffixMask]
  exact Nat.mod_lt _ (Nat.two_pow_pos _)

theorem psid_lt (port : BitVec 16) : (d.psid port).toNat < 2 ^ c.psidLength.toNat := by
  rw [MapDomain.psid, toNat_field hd.psidMask]
  exact Nat.mod_lt _ (Nat.two_pow_pos _)

include h

theorem psid_toNat (port : BitVec 16) : (d.psid port).toNat = c.portSet port := by
  have hle := h.psid_le
  rw [MapDomain.psid, toNat_field hd.psidMask, hd.psidShift, DomainArgs.portSet, field_low (by omega)]

theorem ea_toNat (addr : BitVec 32) (port : BitVec 16) :
    (d.ea addr port).toNat = (d.suffix addr).toNat * 2 ^ c.psidLength.toNat + (d.psid port).toNat := by
  have hea : d.eaBitsLen ≠ 0 := by
    intro h0
    have hpos := h.ea_pos
    rw [← hd.eaBitsLen, h0] at hpos
    exact absurd hpos (by decide)
  have hs := suffix_lt hd addr
  have hp := psid_lt hd port
  have hsmall := c.embeddedLen_le
  have hpsid := h.psid_le
  have hws : ((d.suffix addr).setWidth 64).toNat = (d.suffix addr).toNat := by
    rw [toNat_setWidth]
    omega
  have hwp : ((d.psid port).setWidth 64).toNat = (d.psid port).toNat := by
    rw [toNat_setWidth]
    omega
  have hroom : (d.suffix addr).toNat * 2 ^ c.psidLength.toNat < 2 ^ 64 := by
    have hlt := pack_lt hs hp
    have hpow : 2 ^ (c.embeddedLen + c.psidLength.toNat) ≤ 2 ^ 64 := Nat.pow_le_pow_right (by decide) (by omega)
    omega
  rw [MapDomain.ea, if_neg hea, hd.psidLength, toNat_pack (by rw [hws]; exact hroom) (by rw [hwp]; exact hp), hws, hwp]

theorem ea_lt (addr : BitVec 32) (port : BitVec 16) :
    (d.ea addr port).toNat < 2 ^ (c.embeddedLen + c.psidLength.toNat) := by
  rw [ea_toNat h hd]
  exact pack_lt (suffix_lt hd addr) (psid_lt hd port)

def DomainArgs.common (c : DomainArgs) : Nat := c.ip6Prefix.hi.toNat / 2 ^ (64 - c.ip6PrefixLen.toNat)

omit h in
theorem split_lens : 64 - c.ip6PrefixLen.toNat = c.embeddedLen + c.psidLength.toNat + (64 - c.customerLen) := by
  have hcustomer := hd.customer_le
  have hsum : c.customerLen = c.ip6PrefixLen.toNat + c.embeddedLen + c.psidLength.toNat := rfl
  omega

theorem mapGetPfx_toNat (addr : BitVec 32) (port : BitVec 16) :
    (mapGetPfx d addr port).toNat =
      (c.common * 2 ^ (c.embeddedLen + c.psidLength.toNat) + (d.ea addr port).toNat) * 2 ^ (64 - c.customerLen) := by
  have hrule : d.ruleOf port = none := by
    apply if_neg
    intro h0
    have hpos := h.ea_pos
    rw [← hd.eaBitsLen, h0] at hpos
    exact absurd hpos (by decide)
  have hsplit := split_lens hd
  have hlt : (d.ea addr port).toNat * 2 ^ (64 - c.customerLen) < 2 ^ (64 - c.ip6PrefixLen.toNat) := by
    rw [hsplit, Nat.pow_add _ _ (64 - c.customerLen)]
    exact Nat.mul_lt_mul_of_pos_right (ea_lt h hd addr port) (Nat.two_pow_pos _)
  have hle64 : 2 ^ (64 - c.ip6PrefixLen.toNat) ≤ 2 ^ 64 := Nat.pow_le_pow_right (by decide) (by omega)
  have hshift : (d.ea addr port <<< (64 - c.customerLen)).toNat = (d.ea addr port).toNat * 2 ^ (64 - c.customerLen) :=
    toNat_shiftLeft_of_lt (by omega)
  have hhi : c.ip6Prefix.hi.toNat = c.common <<< (64 - c.ip6PrefixLen.toNat) := by
    rw [Nat.shiftLeft_eq]
    exact (Nat.div_mul_cancel (Nat.dvd_of_mod_eq_zero h.hi_zero)).symm
  rw [mapGetPfx, hrule, hd.eaShift, hd.ip6Prefix]
  dsimp only
  rw [toNat_or, hshift, hhi, ← Nat.shiftLeft_add_eq_or_of_lt hlt, Nat.shiftLeft_eq, Nat.add_mul, Nat.mul_assoc,
    ← Nat.pow_add, ← hsplit]

end Fields

/-- The first `n` bits. -/
def firstBits (n : Nat) (x : BitVec 64) : Nat := x.toNat / 2 ^ (64 - n)

/-- The customer of address `b` and port `q` has the address `a` and the port `p`. -/
structure DomainArgs.Owns (c : DomainArgs) (b : BitVec 32) (q : BitVec 16) (a : BitVec 32) (p : BitVec 16) : Prop where
  embedded : c.embedded a = c.embedded b
  portSet : c.portSet p = c.portSet q
  addr : ¬ c.IsPrefix → a = b

theorem DomainArgs.Within.ext (ha : c.Within a) (hb : c.Within b) (hp : ¬ c.IsPrefix)
    (heq : c.embedded a = c.embedded b) : a = b := by
  have hge : ¬ c.ip4PrefixLen.toNat + c.eaBitsLen.toNat < 32 := hp
  have hall : c.embeddedLen = 32 - c.ip4PrefixLen.toNat := Nat.min_eq_right (by omega)
  rw [embedded, embedded, hall, Nat.sub_self, Nat.pow_zero, Nat.div_one, Nat.div_one] at heq
  apply eq_of_toNat_eq
  rw [← Nat.div_add_mod a.toNat (2 ^ (32 - c.ip4PrefixLen.toNat)), heq, ha, ← hb, Nat.div_add_mod]

section Customers
variable {c : DomainArgs} {d : MapDomain} (h : c.Algorithmic) (hd : Derived c d)
include h hd

theorem firstBits_customer (addr : BitVec 32) (port : BitVec 16) :
    firstBits c.customerLen (mapGetPfx d addr port) =
      c.common * 2 ^ (c.embeddedLen + c.psidLength.toNat) + (d.ea addr port).toNat := by
  rw [firstBits, mapGetPfx_toNat h hd, Nat.mul_div_cancel _ (Nat.two_pow_pos _)]

theorem firstBits_rule (addr : BitVec 32) (port : BitVec 16) :
    firstBits c.ip6PrefixLen.toNat (mapGetPfx d addr port) = firstBits c.ip6PrefixLen.toNat c.ip6Prefix.hi := by
  have hea := ea_lt h hd addr port
  rw [firstBits, split_lens hd, Nat.pow_add _ _ (64 - c.customerLen), Nat.mul_comm _ (2 ^ (64 - c.customerLen)),
    ← Nat.div_div_eq_div_mul]
  have hcustomer := firstBits_customer h hd addr port
  rw [firstBits] at hcustomer
  rw [hcustomer, Nat.mul_comm, Nat.mul_add_div (Nat.two_pow_pos _), Nat.div_eq_of_lt hea]
  rfl

theorem firstBits_eq_iff (a b : BitVec 32) (p q : BitVec 16) :
    firstBits c.customerLen (mapGetPfx d a p) = firstBits c.customerLen (mapGetPfx d b q) ↔
      c.embedded a = c.embedded b ∧ c.portSet p = c.portSet q := by
  rw [firstBits_customer h hd, firstBits_customer h hd, pack_inj (ea_lt h hd a p) (ea_lt h hd b q), ea_toNat h hd,
    ea_toNat h hd, pack_inj (psid_lt hd p) (psid_lt hd q), suffix_toNat hd, suffix_toNat hd, psid_toNat h hd,
    psid_toNat h hd, and_iff_right rfl]

theorem mapGetPfx_eq_iff (a b : BitVec 32) (p q : BitVec 16) :
    mapGetPfx d a p = mapGetPfx d b q ↔
      firstBits c.customerLen (mapGetPfx d a p) = firstBits c.customerLen (mapGetPfx d b q) := by
  constructor
  · exact congrArg _
  · intro heq
    rw [firstBits_customer h hd, firstBits_customer h hd] at heq
    apply eq_of_toNat_eq
    rw [mapGetPfx_toNat h hd, mapGetPfx_toNat h hd, heq]

end Customers

theorem of_ip6MapSecCheck (h : ip6MapSecCheck d port ip4Src ip6Src = true) :
    mapGetPfx d ip4Src port = ip6Src.hi ∧ mapGetSfx d ip4Src port = ip6Src.lo := by
  simpa [ip6MapSecCheck] using h

/-- A shared address: 8 bits of it and 6 bits of the port in a prefix of 40 bits. -/
def sharedArgs : DomainArgs where
  ip4Prefix := 0xc0000200
  ip4PrefixLen := 24
  ip6Prefix := ⟨0x20010db800000000, 0⟩
  ip6PrefixLen := 40
  ip6SrcLen := 128
  eaBitsLen := 14
  psidOffset := 6
  psidLength := 6
  flags := 0

theorem sharedArgs_algorithmic : sharedArgs.Algorithmic := by
  constructor
  all_goals decide

end Vpp.Map
