import Vpp.Ipsec.Ikev2Payload

namespace Vpp.Ipsec
open Vpp.Lib List

structure SaTransform where
  type : BitVec 8
  transformId : BitVec 16
  attrs : List (BitVec 8)
  deriving DecidableEq

structure SaProposal where
  proposalNum : BitVec 8
  protocolId : BitVec 8
  spi : BitVec 32
  transforms : List SaTransform
  deriving DecidableEq

def protocolIke : BitVec 8 := 1

def protocolEsp : BitVec 8 := 3

def payloadSa : BitVec 8 := 33

def SaTransform.bytes (t : SaTransform) (lastOrMore : BitVec 8) : List (BitVec 8) :=
  [lastOrMore, 0] ++ (netBytes 2 (8 + t.attrs.length) ++
    ([t.type, 0] ++ (netBytes 2 t.transformId.toNat ++ t.attrs)))

def transformBytes (mark : Nat → BitVec 8) (transforms : List SaTransform) : List (BitVec 8) :=
  (transforms.mapIdx fun i t => t.bytes (mark i)).flatten

def SaProposal.trData (p : SaProposal) : List (BitVec 8) :=
  transformBytes (fun i => if i + 1 < p.transforms.length then 3 else 0) p.transforms

def SaProposal.spiSize (p : SaProposal) : Nat := if p.protocolId = protocolEsp then 4 else 0

def SaProposal.prData (p : SaProposal) (lastOrMore : BitVec 8) : List (BitVec 8) :=
  [lastOrMore, 0] ++ (netBytes 2 (p.trData.length + (8 + p.spiSize)) ++
    ([p.proposalNum, p.protocolId, BitVec.ofNat 8 p.spiSize, BitVec.ofNat 8 p.transforms.length] ++
      if p.spiSize ≠ 0 then netBytes 4 p.spi.toNat else []))

/-- The marker of the `i`-th of `n` proposals. The pointers are subtracted the wrong way round. -/
def proposalMark (n i : Nat) : BitVec 8 := if -(i : Int) + 1 < n then 2 else 0

def ikev2PayloadAddSa (c : PayloadChain) (proposals : List SaProposal) : PayloadChain :=
  let added := proposals.mapIdx fun i p => (p.prData (proposalMark proposals.length i), p.trData)
  added.foldl (fun c x => (c.ikev2PayloadAddData x.1).ikev2PayloadAddData x.2)
    (c.ikev2PayloadAddHdr payloadSa 4)

/-- The transforms, unless one is shorter than its header. -/
def parseTransforms (m : Memory) (payload : Nat) : (n transformPtr : Nat) → Option (List SaTransform)
  | 0, _ => some []
  | n + 1, transformPtr =>
    let tr := payload + transformPtr
    let tlen := (m.word 2 (tr + 2)).toNat
    if tlen < 8 then none
    else do
      let rest ← parseTransforms m payload n (transformPtr + tlen)
      some ({ type := m (tr + 4), transformId := m.word 2 (tr + 6), attrs := m.readBytes (tr + 8) (tlen - 8) } :: rest)

def parseProposal (m : Memory) (payload proposalPtr : Nat) : Option (SaProposal × BitVec 8 × Nat) :=
  let sap := payload + proposalPtr
  let lastOrMore := m sap
  let proposalLen := (m.word 2 (sap + 2)).toNat
  let proposalNum := m (sap + 4)
  let protocolId := m (sap + 5)
  let spiSize := m (sap + 6)
  let numTransforms := m (sap + 7)
  if protocolId = protocolIke ∧ spiSize ≠ 0 then none
  else if protocolId = protocolEsp ∧ spiSize ≠ 4 then none
  else do
    let transforms ← parseTransforms m payload numTransforms.toNat (proposalPtr + 8 + spiSize.toNat)
    let spi := if spiSize = 4 then m.word 4 (sap + 8) else 0
    some ({ proposalNum, protocolId, spi, transforms }, lastOrMore, proposalPtr + proposalLen)

/-- The loop from a proposal on. `bound` is the length of the payload without its header, an unsigned word;
corrupted data is the inner `none`. -/
def parseProposals (m : Memory) (payload bound : Nat) : (fuel proposalPtr : Nat) → Option (Option (List SaProposal))
  | 0, _ => none
  | fuel + 1, proposalPtr =>
    match parseProposal m payload proposalPtr with
    | none => some none
    | some (proposal, lastOrMore, proposalPtr) =>
      if proposalPtr < bound ∧ lastOrMore = 2 then
        (parseProposals m payload bound fuel proposalPtr).map (Option.map (proposal :: ·))
      else if proposalPtr ≠ bound ∨ lastOrMore ≠ 0 then some none
      else some (some [proposal])

def ikev2ParseSaPayload (m : Memory) (ikep fuel : Nat) : Option (Option (List SaProposal)) :=
  let plen := (m.word 2 (ikep + 2)).toNat
  parseProposals m (ikep + 4) ((2 ^ 64 + plen - 4) % 2 ^ 64) fuel 0

def proposalBytes (mark : Nat → BitVec 8) (proposals : List SaProposal) : List (BitVec 8) :=
  (proposals.mapIdx fun i p => p.prData (mark i) ++ p.trData).flatten

variable (mark : Nat → BitVec 8)

theorem transformBytes_cons (t : SaTransform) (ts : List SaTransform) :
    transformBytes mark (t :: ts) = t.bytes (mark 0) ++ transformBytes (fun i => mark (i + 1)) ts := by
  rw [transformBytes, mapIdx_cons, flatten_cons]
  rfl

theorem proposalBytes_cons (p : SaProposal) (ps : List SaProposal) :
    proposalBytes mark (p :: ps)
      = (p.prData (mark 0) ++ p.trData) ++ proposalBytes (fun i => mark (i + 1)) ps := by
  rw [proposalBytes, mapIdx_cons, flatten_cons]
  rfl

@[simp] theorem SaTransform.length_bytes (t : SaTransform) (mk : BitVec 8) :
    (t.bytes mk).length = 8 + t.attrs.length := by
  simp only [SaTransform.bytes, length_append, length_cons, length_nil, length_netBytes]
  omega

@[simp] theorem SaProposal.length_prData (p : SaProposal) (mk : BitVec 8) :
    (p.prData mk).length = 8 + p.spiSize := by
  simp only [SaProposal.prData, length_append, length_cons, length_nil, length_netBytes,
    SaProposal.spiSize]
  split <;> simp

theorem PayloadChain.Ends.addAll {c : PayloadChain} {before rest : List (BitVec 8)} {len : Nat}
    (h : c.Ends before len rest) (added : List (List (BitVec 8) × List (BitVec 8))) :
    (added.foldl (fun c x => (c.ikev2PayloadAddData x.1).ikev2PayloadAddData x.2) c).Ends before
      (len + (added.map fun x => x.1 ++ x.2).flatten.length) (rest ++ (added.map fun x => x.1 ++ x.2).flatten) := by
  induction added generalizing c len rest with
  | nil =>
    rw [map_nil, flatten_nil, append_nil]
    exact h
  | cons x added ih =>
    have hstep := ih ((h.addData x.1).addData x.2)
    rw [List.append_assoc, List.append_assoc] at hstep
    rw [foldl_cons, map_cons, flatten_cons, length_append, length_append,
      List.append_assoc, ← Nat.add_assoc, ← Nat.add_assoc]
    exact hstep

theorem addSa_ends (c : PayloadChain) (proposals : List SaProposal) (short : c.data.length < 2 ^ 16) :
    ∃ before, before.length = c.data.length ∧
      (ikev2PayloadAddSa c proposals).Ends before
        (4 + (proposalBytes (proposalMark proposals.length) proposals).length)
        (proposalBytes (proposalMark proposals.length) proposals) := by
  obtain ⟨before, hlen, hhdr⟩ := c.addHdr_ends payloadSa 4 short
  have hall := hhdr.addAll (proposals.mapIdx fun i p => (p.prData (proposalMark proposals.length i), p.trData))
  have hmap : (proposals.mapIdx fun i p => (p.prData (proposalMark proposals.length i), p.trData)).map
      (fun x => x.1 ++ x.2) = proposals.mapIdx fun i p => p.prData (proposalMark proposals.length i) ++ p.trData := by
    rw [mapIdx_eq_zipIdx_map, List.map_map, mapIdx_eq_zipIdx_map]
    rfl
  rw [hmap] at hall
  exact ⟨before, hlen, hall⟩

variable {m : Memory}

theorem parseTransforms_bytes {payload ptr : Nat} {ts : List SaTransform} {mark : Nat → BitVec 8}
    (h : m.Holds (payload + ptr) (transformBytes mark ts)) (fits : ∀ t ∈ ts, 8 + t.attrs.length < 2 ^ 16) :
    parseTransforms m payload ts.length ptr = some ts := by
  induction ts generalizing ptr mark with
  | nil => rfl
  | cons t ts ih =>
    have hfits := fits t mem_cons_self
    rw [transformBytes_cons, Memory.holds_append, SaTransform.length_bytes, Nat.add_assoc] at h
    obtain ⟨ht, hrest⟩ := h
    have hnext := ih hrest fun t' ht' => fits t' (mem_cons_of_mem _ ht')
    rw [SaTransform.bytes, Memory.holds_append, Memory.holds_append, Memory.holds_append,
      Memory.holds_append] at ht
    obtain ⟨_, hlen, htype, hid, hattrs⟩ := ht
    have htlen : (m.word 2 (payload + ptr + 2)).toNat = 8 + t.attrs.length :=
      hlen.toNat_word.trans (Nat.mod_eq_of_lt hfits)
    have htype' : m (payload + ptr + 4) = t.type := htype.byte
    have hid' : m.word 2 (payload + ptr + 6) = t.transformId := hid.word
    have hattrs' : m.readBytes (payload + ptr + 8) t.attrs.length = t.attrs := hattrs.readBytes
    have hshort : ¬ 8 + t.attrs.length < 8 := by omega
    simp only [length_cons, parseTransforms, htlen, if_neg hshort, hnext, htype', hid',
      Nat.add_sub_cancel_left, hattrs']
    rfl

/-- What is left of a proposal on the way: only the security parameter index of ESP is sent. -/
def SaProposal.sent (p : SaProposal) : SaProposal :=
  { p with spi := if p.protocolId = protocolEsp then p.spi else 0 }

structure SaProposal.Sendable (p : SaProposal) : Prop where
  protocol : p.protocolId = protocolIke ∨ p.protocolId = protocolEsp
  count : p.transforms.length ≤ 255
  size : p.trData.length + (8 + p.spiSize) < 2 ^ 16

theorem attrs_le_bytes {ts : List SaTransform} {t : SaTransform} (h : t ∈ ts) :
    8 + t.attrs.length ≤ (transformBytes mark ts).length := by
  induction ts generalizing mark with
  | nil => cases h
  | cons u ts ih =>
    rw [transformBytes_cons, length_append, SaTransform.length_bytes]
    rcases mem_cons.1 h with rfl | h
    · omega
    · have hrest : 8 + t.attrs.length ≤ (transformBytes (fun i => mark (i + 1)) ts).length := ih _ h
      omega

theorem SaProposal.Sendable.spiFits {p : SaProposal} (h : p.Sendable) :
    ¬ (p.protocolId = protocolIke ∧ BitVec.ofNat 8 p.spiSize ≠ 0) ∧
      ¬ (p.protocolId = protocolEsp ∧ BitVec.ofNat 8 p.spiSize ≠ 4) ∧
      (BitVec.ofNat 8 p.spiSize).toNat = p.spiSize := by
  rw [SaProposal.spiSize]
  rcases h.protocol with hp | hp
  · rw [hp]
    decide
  · rw [hp]
    decide

theorem sent_spi {a : Nat} {p : SaProposal} (hp : p.Sendable)
    (h : m.Holds a (if p.spiSize ≠ 0 then netBytes 4 p.spi.toNat else [])) :
    (if BitVec.ofNat 8 p.spiSize = 4 then m.word 4 a else 0) = p.sent.spi := by
  rw [SaProposal.sent]
  rcases hp.protocol with hike | hesp
  · have hne : p.protocolId ≠ protocolEsp := by
      rw [hike]
      decide
    have hsize : p.spiSize = 0 := if_neg hne
    rw [hsize, if_neg (by decide), if_neg hne]
  · have hsize : p.spiSize = 4 := if_pos hesp
    rw [hsize, if_pos (by decide)] at h
    rw [hsize, if_pos (by decide), if_pos hesp]
    exact h.word

theorem parseProposal_bytes {payload ptr : Nat} {p : SaProposal} {mk : BitVec 8} (hp : p.Sendable)
    (h : m.Holds (payload + ptr) (p.prData mk ++ p.trData)) :
    parseProposal m payload ptr = some (p.sent, mk, ptr + (p.prData mk ++ p.trData).length) := by
  have hsize := hp.size
  have hcount := hp.count
  rw [Memory.holds_append, SaProposal.length_prData, Nat.add_assoc, ← Nat.add_assoc ptr] at h
  obtain ⟨hpr, htr⟩ := h
  rw [SaProposal.prData, Memory.holds_append, Memory.holds_append, Memory.holds_append] at hpr
  obtain ⟨hmark, hlen, hfields, hspi⟩ := hpr
  have hmark' : m (payload + ptr) = mk := hmark.byte
  have hlen' : (m.word 2 (payload + ptr + 2)).toNat = p.trData.length + (8 + p.spiSize) :=
    hlen.toNat_word.trans (Nat.mod_eq_of_lt hsize)
  have hnum : m (payload + ptr + 4) = p.proposalNum := hfields 0 (by simp)
  have hprotocol : m (payload + ptr + 5) = p.protocolId := hfields 1 (by simp)
  have hspiSize : m (payload + ptr + 6) = BitVec.ofNat 8 p.spiSize := hfields 2 (by simp)
  have hnumTr : m (payload + ptr + 7) = BitVec.ofNat 8 p.transforms.length := hfields 3 (by simp)
  have hts := parseTransforms_bytes htr fun t ht => by
    have hle : 8 + t.attrs.length ≤ p.trData.length := attrs_le_bytes _ ht
    omega
  have hcount' : (BitVec.ofNat 8 p.transforms.length).toNat = p.transforms.length :=
    Nat.mod_eq_of_lt (by omega)
  obtain ⟨hike, hesp, hspiNat⟩ := hp.spiFits
  have hspi' : (if BitVec.ofNat 8 p.spiSize = 4 then m.word 4 (payload + ptr + 8) else 0) = p.sent.spi :=
    sent_spi hp hspi
  have hend : ptr + (p.prData mk ++ p.trData).length = ptr + (p.trData.length + (8 + p.spiSize)) := by
    rw [length_append, SaProposal.length_prData, Nat.add_comm p.trData.length]
  rw [parseProposal]
  simp only [hmark', hlen', hnum, hprotocol, hspiSize, hnumTr, hcount', if_neg hike, if_neg hesp, hspiNat, hts,
    hend, hspi']
  rfl

theorem proposalMark_more {n : Nat} (h : 1 < n) : proposalMark n = fun _ => 2 := by
  funext i
  rw [proposalMark, if_pos (by omega)]

theorem parseProposals_one {payload bound fuel ptr : Nat} {p : SaProposal} (hp : p.Sendable)
    (h : m.Holds (payload + ptr) (p.prData 0 ++ p.trData))
    (hend : ptr + (p.prData 0 ++ p.trData).length = bound) :
    parseProposals m payload bound (fuel + 1) ptr = some (some [p.sent]) := by
  rw [parseProposals, parseProposal_bytes hp h, hend]
  dsimp only
  rw [if_neg (fun h => Nat.lt_irrefl _ h.1), if_neg (by simp)]

/-- Proposals that all announce another one: the loop ends at the end of the payload, with an error. -/
theorem parseProposals_more {payload bound : Nat} {ps : List SaProposal} (fuel ptr : Nat)
    (hne : ps ≠ []) (send : ∀ p ∈ ps, p.Sendable)
    (h : m.Holds (payload + ptr) (proposalBytes (fun _ => 2) ps))
    (hend : ptr + (proposalBytes (fun _ => 2) ps).length = bound) :
    parseProposals m payload bound fuel ptr = if fuel < ps.length then none else some none := by
  induction ps generalizing fuel ptr with
  | nil => exact absurd rfl hne
  | cons p ps ih =>
    cases fuel with
    | zero =>
      have hpos : 0 < (p :: ps).length := Nat.succ_pos _
      rw [parseProposals, if_pos hpos]
    | succ fuel =>
      rw [proposalBytes_cons] at h hend
      rw [length_append, ← Nat.add_assoc] at hend
      rw [Memory.holds_append, Nat.add_assoc] at h
      obtain ⟨hp, hrest⟩ := h
      rw [parseProposals, parseProposal_bytes (send p mem_cons_self) hp]
      dsimp only
      cases ps with
      | nil =>
        rw [proposalBytes, mapIdx_nil, flatten_nil, length_nil, Nat.add_zero] at hend
        rw [hend, if_neg (fun h => Nat.lt_irrefl _ h.1), if_pos (by simp), if_neg (by simp)]
      | cons q ps =>
        have hmore : 0 < (proposalBytes (fun _ => 2) (q :: ps)).length := by
          rw [proposalBytes_cons, length_append, length_append, SaProposal.length_prData]
          omega
        rw [if_pos ⟨by omega, rfl⟩, ih fuel _ (cons_ne_nil q ps)
          (fun p' hp' => send p' (mem_cons_of_mem p hp')) hrest hend]
        simp only [length_cons, Nat.add_lt_add_iff_right]
        split <;> rfl

def SaRoundTrip (m : Memory) (base : Nat) (c : PayloadChain) (proposals : List SaProposal) : Prop :=
  ∃ fuel, ikev2ParseSaPayload (m.store base (ikev2PayloadAddSa c proposals).data) (base + c.data.length) fuel
    = some (some (proposals.map SaProposal.sent))

theorem proposal_le_bytes {ps : List SaProposal} {p : SaProposal} (h : p ∈ ps) :
    p.trData.length + (8 + p.spiSize) ≤ (proposalBytes mark ps).length := by
  induction ps generalizing mark with
  | nil => cases h
  | cons q ps ih =>
    rw [proposalBytes_cons, length_append, length_append, SaProposal.length_prData]
    rcases mem_cons.1 h with rfl | h
    · omega
    · have hrest : p.trData.length + (8 + p.spiSize)
          ≤ (proposalBytes (fun i => mark (i + 1)) ps).length := ih _ h
      omega

theorem parseSaPayload_eq (m : Memory) (base : Nat) {c : PayloadChain} {proposals : List SaProposal}
    (short : c.data.length < 2 ^ 16)
    (fits : 4 + (proposalBytes (proposalMark proposals.length) proposals).length < 2 ^ 16) (fuel : Nat) :
    let m' := m.store base (ikev2PayloadAddSa c proposals).data
    m'.Holds (base + c.data.length + 4 + 0) (proposalBytes (proposalMark proposals.length) proposals) ∧
      ikev2ParseSaPayload m' (base + c.data.length) fuel
        = parseProposals m' (base + c.data.length + 4)
            (proposalBytes (proposalMark proposals.length) proposals).length fuel 0 := by
  intro m'
  obtain ⟨before, hbefore, hends⟩ := addSa_ends c proposals short
  obtain ⟨hlen, hbytes⟩ := hends.inMemory m base
  rw [hbefore] at hlen hbytes
  constructor
  · exact hbytes
  · have hplen : (m'.word 2 (base + c.data.length + 2)).toNat
        = 4 + (proposalBytes (proposalMark proposals.length) proposals).length :=
      hlen.trans (Nat.mod_eq_of_lt fits)
    have hbound : (2 ^ 64 + (4 + (proposalBytes (proposalMark proposals.length) proposals).length) - 4) % 2 ^ 64
        = (proposalBytes (proposalMark proposals.length) proposals).length := by
      omega
    rw [ikev2ParseSaPayload, hplen, hbound]

theorem sa_error (m : Memory) (base : Nat) {c : PayloadChain} {proposals : List SaProposal}
    (more : 1 < proposals.length) (send : ∀ p ∈ proposals, p.Sendable) (short : c.data.length < 2 ^ 16)
    (fits : 4 + (proposalBytes (proposalMark proposals.length) proposals).length < 2 ^ 16) (fuel : Nat) :
    ikev2ParseSaPayload (m.store base (ikev2PayloadAddSa c proposals).data) (base + c.data.length) fuel
      = if fuel < proposals.length then none else some none := by
  obtain ⟨hbytes, heq⟩ := parseSaPayload_eq m base short fits fuel
  have hne : proposals ≠ [] := by
    intro hnil
    rw [hnil] at more
    cases more
  rw [proposalMark_more more] at hbytes heq
  rw [heq]
  exact parseProposals_more fuel 0 hne send hbytes (Nat.zero_add _)

/-- The proposals come back exactly when there is one of them. With more, the parser reports an error. -/
theorem saRoundTrip_iff (m : Memory) (base : Nat) (c : PayloadChain) (proposals : List SaProposal)
    (hne : proposals ≠ []) (protocols : ∀ p ∈ proposals, p.protocolId = protocolIke ∨ p.protocolId = protocolEsp)
    (counts : ∀ p ∈ proposals, p.transforms.length ≤ 255)
    (fits : 4 + (proposalBytes (proposalMark proposals.length) proposals).length ≤ 65535)
    (short : c.data.length < 2 ^ 16) :
    SaRoundTrip m base c proposals ↔ proposals.length = 1 := by
  have hlt : 4 + (proposalBytes (proposalMark proposals.length) proposals).length < 2 ^ 16 := by omega
  have send : ∀ p ∈ proposals, p.Sendable := by
    intro p hp
    have hle := proposal_le_bytes (proposalMark proposals.length) hp
    exact ⟨protocols p hp, counts p hp, by omega⟩
  constructor
  · rintro ⟨fuel, hfuel⟩
    by_contra hone
    have hpos := length_pos_iff.2 hne
    rw [sa_error m base (by omega) send short hlt] at hfuel
    split at hfuel
    case isTrue => cases hfuel
    case isFalse => cases Option.some.inj hfuel
  · intro hone
    obtain ⟨p, rfl⟩ := length_eq_one_iff.1 hone
    use 1
    obtain ⟨hbytes, heq⟩ := parseSaPayload_eq m base short hlt 1
    rw [heq]
    have hlist : proposalBytes (proposalMark [p].length) [p] = p.prData 0 ++ p.trData := append_nil _
    rw [hlist] at hbytes
    rw [hlist]
    exact parseProposals_one (send p mem_cons_self) hbytes (Nat.zero_add _)

theorem saRoundTrip_single :
    SaRoundTrip (fun _ => 0) 0 ⟨0, 0, []⟩ [⟨1, 3, 5, [⟨1, 12, [128, 14]⟩]⟩] ↔ 1 = 1 :=
  saRoundTrip_iff _ 0 ⟨0, 0, []⟩ [⟨1, 3, 5, [⟨1, 12, [128, 14]⟩]⟩] (by simp) (by decide) (by decide) (by decide)
    (by decide)

/-- Two proposals without transforms do not come back. -/
theorem saRoundTrip_fails :
    ¬ ∀ (m : Memory) (base : Nat) (c : PayloadChain) (proposals : List SaProposal), proposals ≠ [] →
      (∀ p ∈ proposals, p.protocolId = protocolIke ∨ p.protocolId = protocolEsp) →
      (∀ p ∈ proposals, p.transforms.length ≤ 255) →
      4 + (proposalBytes (proposalMark proposals.length) proposals).length ≤ 65535 →
      c.data.length < 2 ^ 16 → SaRoundTrip m base c proposals := by
  intro h
  obtain ⟨fuel, hfuel⟩ := h (fun _ => 0) 0 ⟨0, 0, []⟩ [⟨1, 1, 0, []⟩, ⟨2, 1, 0, []⟩] (by simp) (by decide)
    (by decide) (by decide) (by decide)
  have hsend : ∀ p ∈ [SaProposal.mk 1 1 0 [], ⟨2, 1, 0, []⟩], p.Sendable := by
    intro p hp
    simp only [mem_cons, not_mem_nil, or_false] at hp
    rcases hp with rfl | rfl
    · exact ⟨.inl rfl, by decide, by decide⟩
    · exact ⟨.inl rfl, by decide, by decide⟩
  rw [sa_error (fun _ => 0) 0 (by decide) hsend (by decide) (by decide)] at hfuel
  split at hfuel
  case isTrue => cases hfuel
  case isFalse => cases Option.some.inj hfuel

end Vpp.Ipsec
