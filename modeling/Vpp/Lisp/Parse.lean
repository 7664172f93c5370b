import Vpp.Lisp.RoundTrip

namespace Vpp.Lisp
open Vpp.Lib BitVec

inductive LcafFct where
  | noAddr
  | vni
  | sd
  deriving DecidableEq

def noAddrParse (g : GidAddress) : BitVec 16 × GidAddress := (0, g)

def LcafFct.parse (m : Memory) (p : Nat) (g : GidAddress) : LcafFct → BitVec 16 × GidAddress
  | .noAddr => noAddrParse g
  | .vni => vniParse m p g
  | .sd => sdParse m p g

/-- One entry for each type from `lcafNullBody` to `lcafSourceDest`. -/
def lcafParseFcts : List (Option LcafFct) :=
  [some .noAddr, none, some .vni, none, none, none, none, none, none, none, none, none, some .sd]

/-- As `lcafParse`, with the read of the table: nothing when the index is after its end. -/
def lcafParseByTable (m : Memory) (offset : Nat) (addr : GidAddress) : Option (BitVec 32 × GidAddress) :=
  let offset := offset + sizeofU16.toNat
  let (size, lcaf) := lcafHdrParse m offset
  let addr := { addr with lcaf := lcaf }
  match lcafParseFcts[lcaf.type.toNat]? with
  | none => none
  | some none => some (BitVec.allOnes 32, addr)
  | some (some fct) =>
    let (len, addr) := fct.parse m (offset + size.toNat) addr
    some (sizeofU16.setWidth 32 + (size + len.setWidth 32), addr)

def gidAddressParseByTable (m : Memory) (offset : Nat) (a : GidAddress) : Option (BitVec 32 × GidAddress) :=
  if afiAt m offset = lispAfiLcaf then lcafParseByTable m offset { a with type := .lcaf }
  else some (gidAddressParse m offset a)

def lcafTypeAt (m : Memory) (p : Nat) : BitVec 8 := m (p + 4)

/-- The bytes of an address that has no parts. -/
def flatSize (afi : BitVec 16) : Option Nat :=
  if afi = lispAfiIp then some 6
  else if afi = lispAfiIp6 then some 18
  else if afi = lispAfiMac then some 8
  else none

inductive SdAt (m : Memory) (p : Nat) : Nat → Prop
  | mk (hsrc : flatSize (afiAt m (p + 4)) = some n) (hdst : flatSize (afiAt m (p + 4 + n)) = some n') :
    SdAt m p (4 + n + n')

inductive VniAt (m : Memory) (p : Nat) : Nat → Prop
  | noAddr (hafi : afiAt m (p + 4) = lispAfiNoAddr) : VniAt m p 6
  | flat (hflat : flatSize (afiAt m (p + 4)) = some n) : VniAt m p (4 + n)
  | srcDst (hafi : afiAt m (p + 4) = lispAfiLcaf) (htype : lcafTypeAt m (p + 4) = lcafSourceDest)
    (hsd : SdAt m (p + 12) n) : VniAt m p (12 + n)

def LcafFct.BodyAt (m : Memory) (p : Nat) : LcafFct → Nat → Prop
  | .noAddr => (· = 0)
  | .vni => VniAt m p
  | .sd => SdAt m p

inductive AddressAt (m : Memory) (p : Nat) : Nat → Prop
  | noAddr (hafi : afiAt m p = lispAfiNoAddr) : AddressAt m p 2
  | flat (hflat : flatSize (afiAt m p) = some n) : AddressAt m p n
  | lcaf (hafi : afiAt m p = lispAfiLcaf) (hfct : lcafParseFcts[(lcafTypeAt m p).toNat]? = some (some fct))
    (hbody : fct.BodyAt m (p + 8) n) : AddressAt m p (8 + n)

def Returns (At : Nat → Prop) (r : BitVec w) : Prop := r = BitVec.allOnes w ∨ At r.toNat

/-- The parsers of bodies that are called for an address, and where. -/
inductive Called (m : Memory) (p : Nat) : LcafFct → Nat → Prop
  | direct (hafi : afiAt m p = lispAfiLcaf) (hfct : lcafParseFcts[(lcafTypeAt m p).toNat]? = some (some fct)) :
    Called m p fct (p + 8)
  | nested (hvni : Called m p .vni q) (hafi : afiAt m (q + 4) = lispAfiLcaf)
    (htype : lcafTypeAt m (q + 4) = lcafSourceDest) : Called m p .sd (q + 12)

/-- The table is read inside, and every parser returns an error or what it consumed. -/
structure Total (m : Memory) (p : Nat) (a : GidAddress) : Prop where
  address : ∃ r, gidAddressParseByTable m p a = some r ∧ Returns (AddressAt m p) r.1
  called : ∀ fct q, Called m p fct q → ∀ g, Returns (fct.BodyAt m q) (fct.parse m q g).1

/-- The type of an LCAF is in the table, and an instance ID or a source and destination has its body. -/
def LcafRight (m : Memory) (p : Nat) : Prop :=
  afiAt m p = lispAfiLcaf → (lcafTypeAt m p).toNat < lcafParseFcts.length ∧
    (lcafTypeAt m p = lcafInstanceId → ∃ n, VniAt m (p + 8) n) ∧
    (lcafTypeAt m p = lcafSourceDest → ∃ n, SdAt m (p + 8) n)

variable {m : Memory}

theorem flatSize_le (h : flatSize afi = some n) : n ≤ 18 := by
  rw [flatSize] at h
  split_ifs at h <;> cases h <;> decide

theorem flatSize_lcaf (h : afi = lispAfiLcaf) : flatSize afi = none := by
  rw [h]
  rfl

theorem fidAddrParse_size (m : Memory) (p : Nat) (a : FidAddress) :
    (fidAddrParse m p a).1 = ((flatSize (afiAt m p)).map (BitVec.ofNat 16)).getD (BitVec.allOnes 16) := by
  simp only [fidAddrParse, ianaAfiToFidAddrType, flatSize]
  by_cases hip : afiAt m p = lispAfiIp
  · simp only [hip, true_or, if_true]
    rfl
  by_cases hip6 : afiAt m p = lispAfiIp6
  · simp only [hip6, or_true, if_true]
    rfl
  by_cases hmac : afiAt m p = lispAfiMac
  · simp only [hmac]
    rfl
  · simp only [hip, hip6, hmac, or_false, if_false]
    rfl

theorem fidAddrParse_flat (h : flatSize (afiAt m p) = some n) (a : FidAddress) :
    (fidAddrParse m p a).1 = BitVec.ofNat 16 n := by
  rw [fidAddrParse_size, h]
  rfl

theorem sdParse_size (m : Memory) (p : Nat) (g : GidAddress) :
    (sdParse m p g).1 = 4 + (fidAddrParse m (p + 4) g.sd.src).1 +
      (fidAddrParse m (p + (4 + (fidAddrParse m (p + 4) g.sd.src).1).toNat) g.sd.dst).1 := rfl

theorem sdParse_at (h : SdAt m p n) (g : GidAddress) : (sdParse m p g).1.toNat = n := by
  cases h with
  | @mk n n' hsrc hdst =>
    have hn := flatSize_le hsrc
    have hn' := flatSize_le hdst
    have hfour : (4 : BitVec 16).toNat = 4 := rfl
    have hsize : ((4 : BitVec 16) + BitVec.ofNat 16 n).toNat = 4 + n := toNat_add_ofNat (by omega)
    rw [sdParse_size, fidAddrParse_flat hsrc, hsize, ← Nat.add_assoc, fidAddrParse_flat hdst,
      toNat_add_ofNat (by omega), hsize]

theorem SdAt.le (h : SdAt m p n) : n ≤ 40 := by
  cases h with
  | mk hsrc hdst =>
    have := flatSize_le hsrc
    have := flatSize_le hdst
    omega

theorem gidAddressParse_noAddr (h : afiAt m p = lispAfiNoAddr) (a : GidAddress) : (gidAddressParse m p a).1 = 2 := by
  rw [gidAddressParse]
  simp only [h, if_true]
  rfl

theorem gidAddressParse_flat (h : flatSize (afiAt m p) = some n) (a : GidAddress) :
    (gidAddressParse m p a).1 = BitVec.ofNat 32 n := by
  rw [flatSize] at h
  rw [gidAddressParse]
  split_ifs at h with hip hip6 hmac
  · cases h
    simp only [hip]
    rfl
  · cases h
    simp only [hip6]
    rfl
  · cases h
    simp only [hmac]
    rfl

theorem gidAddressParse_unknown (hno : afiAt m p ≠ lispAfiNoAddr) (hflat : flatSize (afiAt m p) = none)
    (hlcaf : afiAt m p ≠ lispAfiLcaf) (a : GidAddress) : (gidAddressParse m p a).1 = BitVec.allOnes 32 := by
  rw [flatSize] at hflat
  rw [gidAddressParse]
  split_ifs at hflat with hip hip6 hmac
  simp only [hno, hip, hip6, hmac, hlcaf, if_false, dif_neg, not_false_eq_true]

theorem tryParseSrcDstLcaf_size (htype : lcafTypeAt m p = lcafSourceDest) (a : GidAddress) :
    (tryParseSrcDstLcaf m p a).1 = 8 + (sdParse m (p + 8) a).1 := by
  have htype : m (p + sizeofU16.toNat + 2) = lcafSourceDest := htype
  simp only [tryParseSrcDstLcaf, lcafHdrParse, htype, ne_eq, not_true_eq_false, if_false]
  rfl

theorem vniParse_other (h : afiAt m (p + 4) ≠ lispAfiLcaf) (g : GidAddress) :
    ∃ a, (vniParse m p g).1 = 4 + (gidAddressParse m (p + 4) a).1.setWidth 16 := by
  have h : afiAt m (p + sizeofU32.toNat) ≠ lispAfiLcaf := h
  rw [vniParse]
  simp only [dif_neg h]
  exact ⟨_, rfl⟩

theorem vniParse_lcaf (h : afiAt m (p + 4) = lispAfiLcaf) (g : GidAddress) :
    ∃ a, (vniParse m p g).1 = if (tryParseSrcDstLcaf m (p + 4) a).1 = BitVec.allOnes 16 then BitVec.allOnes 16
      else 4 + (tryParseSrcDstLcaf m (p + 4) a).1 := by
  have h : afiAt m (p + sizeofU32.toNat) = lispAfiLcaf := h
  rw [vniParse]
  simp only [dif_pos h]
  use { g with vni := m.word 4 p, vniMask := g.lcaf.vniMaskLen }
  split_ifs with hlen hlen' hlen'
  · rfl
  · exact absurd hlen hlen'
  · exact absurd hlen' hlen
  · rfl

theorem vniParse_at (h : VniAt m p n) (g : GidAddress) : (vniParse m p g).1.toNat = n := by
  have hfour : (4 : BitVec 16).toNat = 4 := rfl
  cases h with
  | noAddr hafi =>
    obtain ⟨a, hsize⟩ := vniParse_other (ne_of_eq_of_ne hafi (by decide)) g
    rw [hsize, gidAddressParse_noAddr hafi]
    rfl
  | @flat n hflat =>
    have hn := flatSize_le hflat
    have hne : afiAt m (p + 4) ≠ lispAfiLcaf := by
      intro hafi
      cases hflat.symm.trans (flatSize_lcaf hafi)
    obtain ⟨a, hsize⟩ := vniParse_other hne g
    rw [hsize, gidAddressParse_flat hflat, setWidth_ofNat_of_le (by decide), toNat_add_ofNat (by omega), hfour]
  | @srcDst n hafi htype hsd =>
    have hn := hsd.le
    obtain ⟨a, hsize⟩ := vniParse_lcaf hafi g
    have htry : (tryParseSrcDstLcaf m (p + 4) a).1.toNat = 8 + n := by
      have height : (8 : BitVec 16).toNat = 8 := rfl
      rw [tryParseSrcDstLcaf_size htype, toNat_add, sdParse_at hsd, height]
      omega
    have hne : (tryParseSrcDstLcaf m (p + 4) a).1 ≠ BitVec.allOnes 16 := by
      intro hall
      rw [hall, toNat_allOnes] at htry
      omega
    rw [hsize, if_neg hne, toNat_add, htry, hfour]
    omega

theorem fct_vni_iff : ∀ type : BitVec 8, lcafParseFcts[type.toNat]? = some (some .vni) ↔ type = lcafInstanceId := by
  decide

theorem fct_sd_iff : ∀ type : BitVec 8, lcafParseFcts[type.toNat]? = some (some .sd) ↔ type = lcafSourceDest := by
  decide

theorem lcafParseByTable_past (h : ¬ (lcafTypeAt m p).toNat < lcafParseFcts.length) (a : GidAddress) :
    lcafParseByTable m p a = none := by
  have htype : m (p + sizeofU16.toNat + 2) = lcafTypeAt m p := rfl
  simp only [lcafParseByTable, lcafHdrParse, htype, List.getElem?_eq_none_iff.mpr (Nat.not_lt.mp h)]

theorem lcafParseByTable_fct (h : lcafParseFcts[(lcafTypeAt m p).toNat]? = some (some fct)) (a : GidAddress) :
    ∃ g r, lcafParseByTable m p a = some r ∧ r.1 = 2 + (6 + (fct.parse m (p + 8) g).1.setWidth 32) := by
  have htype : m (p + sizeofU16.toNat + 2) = lcafTypeAt m p := rfl
  simp only [lcafParseByTable, lcafHdrParse, htype, h]
  exact ⟨_, _, rfl, rfl⟩

theorem LcafFct.parse_at {fct : LcafFct} (h : fct.BodyAt m p n) (g : GidAddress) : (fct.parse m p g).1.toNat = n := by
  cases fct with
  | noAddr => exact (show n = 0 from h).symm
  | vni => exact vniParse_at h g
  | sd => exact sdParse_at h g

/-- An LCAF with its body. -/
theorem address_lcaf_iff {fct : LcafFct} (hafi : afiAt m p = lispAfiLcaf)
    (hfct : lcafParseFcts[(lcafTypeAt m p).toNat]? = some (some fct)) (a : GidAddress) :
    (∃ r, lcafParseByTable m p a = some r ∧ Returns (AddressAt m p) r.1) ↔ ∃ n, fct.BodyAt m (p + 8) n := by
  obtain ⟨g, r, hparse, hsize⟩ := lcafParseByTable_fct hfct a
  have hlen := (fct.parse m (p + 8) g).1.isLt
  have hnat : r.1.toNat = 8 + (fct.parse m (p + 8) g).1.toNat := by
    have htwo : (2 : BitVec 32).toNat = 2 := rfl
    have hsix : (6 : BitVec 32).toNat = 6 := rfl
    rw [hsize, toNat_add, toNat_add, toNat_setWidth, htwo, hsix]
    omega
  constructor
  · intro ⟨r', hparse', hreturns⟩
    rw [hparse, Option.some_inj] at hparse'
    subst hparse'
    cases hreturns with
    | inl hall =>
      rw [hall, toNat_allOnes] at hnat
      omega
    | inr hat =>
      generalize r.1.toNat = len at hat
      cases hat with
      | noAddr hno => cases hno.symm.trans hafi
      | flat hflat => cases hflat.symm.trans (flatSize_lcaf hafi)
      | lcaf _ hfct' hbody =>
        rw [hfct, Option.some_inj, Option.some_inj] at hfct'
        subst hfct'
        exact ⟨_, hbody⟩
  · intro ⟨n, hbody⟩
    rw [LcafFct.parse_at hbody] at hnat
    use r, hparse
    apply Or.inr
    rw [hnat]
    exact .lcaf hafi hfct hbody

theorem address_noBody (hfct : lcafParseFcts[(lcafTypeAt m p).toNat]? = some none) (a : GidAddress) :
    ∃ r, lcafParseByTable m p a = some r ∧ Returns (AddressAt m p) r.1 := by
  have htype : m (p + sizeofU16.toNat + 2) = lcafTypeAt m p := rfl
  simp only [lcafParseByTable, lcafHdrParse, htype, hfct]
  exact ⟨_, rfl, .inl rfl⟩

theorem address_other (hafi : afiAt m p ≠ lispAfiLcaf) (a : GidAddress) :
    Returns (AddressAt m p) (gidAddressParse m p a).1 := by
  by_cases hno : afiAt m p = lispAfiNoAddr
  · rw [gidAddressParse_noAddr hno]
    exact .inr (.noAddr hno)
  cases hflat : flatSize (afiAt m p) with
  | none => exact .inl (gidAddressParse_unknown hno hflat hafi a)
  | some n =>
    have hn := flatSize_le hflat
    have hnat : (BitVec.ofNat 32 n).toNat = n := by
      rw [toNat_ofNat]
      omega
    rw [gidAddressParse_flat hflat]
    apply Or.inr
    rw [hnat]
    exact .flat hflat

theorem LcafRight.body (h : LcafRight m p) (hafi : afiAt m p = lispAfiLcaf)
    (hfct : lcafParseFcts[(lcafTypeAt m p).toNat]? = some (some fct)) : ∃ n, fct.BodyAt m (p + 8) n := by
  cases fct with
  | noAddr => exact ⟨0, rfl⟩
  | vni => exact (h hafi).2.1 ((fct_vni_iff _).mp hfct)
  | sd => exact (h hafi).2.2 ((fct_sd_iff _).mp hfct)

theorem LcafRight.called (h : LcafRight m p) (hc : Called m p fct q) : ∃ n, fct.BodyAt m q n := by
  induction hc with
  | direct hafi hfct => exact h.body hafi hfct
  | nested hvni hafi htype ih =>
    obtain ⟨n, hbody⟩ := ih
    cases hbody with
    | noAddr hno => cases hno.symm.trans hafi
    | flat hflat => cases hflat.symm.trans (flatSize_lcaf hafi)
    | srcDst _ _ hsd => exact ⟨_, hsd⟩

/-- Parsing is total exactly where an LCAF has a type of the table and the body of that type. -/
theorem gid_address_parse_total (m : Memory) (p : Nat) (a : GidAddress) : Total m p a ↔ LcafRight m p := by
  constructor
  · intro h hafi
    have haddress := h.address
    rw [gidAddressParseByTable, if_pos hafi] at haddress
    apply And.intro
    · by_contra hpast
      obtain ⟨r, hparse, -⟩ := haddress
      rw [lcafParseByTable_past hpast] at hparse
      cases hparse
    apply And.intro
    · intro htype
      exact (address_lcaf_iff hafi ((fct_vni_iff _).mpr htype) _).mp haddress
    · intro htype
      exact (address_lcaf_iff hafi ((fct_sd_iff _).mpr htype) _).mp haddress
  · intro h
    apply Total.mk
    · rw [gidAddressParseByTable]
      split_ifs with hafi
      · cases hget : lcafParseFcts[(lcafTypeAt m p).toNat]? with
        | none => exact absurd (h hafi).1 (Nat.not_lt.mpr (List.getElem?_eq_none_iff.mp hget))
        | some fct =>
          cases fct with
          | none => exact address_noBody hget _
          | some fct => exact (address_lcaf_iff hafi hget _).mpr (h.body hafi hget)
      · exact ⟨_, rfl, address_other hafi a⟩
    · intro fct q hc g
      obtain ⟨n, hbody⟩ := h.called hc
      apply Or.inr
      rw [LcafFct.parse_at hbody]
      exact hbody

def unknownLcaf : Memory := fun i => [0x40, 0x03, 0, 0, 255, 0, 0, 0].getD i 0

def zeroAddress : GidAddress :=
  ⟨⟨⟨0, 0, .ip4⟩, 0⟩, ⟨0, 0⟩, 0, ⟨⟨⟨⟨0, 0, .ip4⟩, 0⟩, 0, .ipPref⟩, ⟨⟨⟨0, 0, .ip4⟩, 0⟩, 0, .ipPref⟩⟩, .ipPrefix, 0, 0⟩

theorem gid_address_parse_total_fails : ¬ ∀ (m : Memory) (p : Nat) (a : GidAddress), Total m p a := by
  intro hall
  obtain ⟨r, hparse, -⟩ := (hall unknownLcaf 0 zeroAddress).address
  have hpast : gidAddressParseByTable unknownLcaf 0 zeroAddress = none := rfl
  rw [hpast] at hparse
  cases hparse

end Vpp.Lisp
