import Vpp.Ipsec.Ikev2Notify
import Vpp.Lib.Reading

namespace Vpp.Ipsec
open Vpp.Lib Option

/-- The transforms, each with what the message about it prints. -/
def transformsRead (m : Memory) (payload : Nat) : (n transformPtr : Nat) → Reading (Option (List SaTransform))
  | 0, _ => pure (some [])
  | n + 1, transformPtr => do
    let tlen ← m.readWord 2 (payload + transformPtr + 2)
    if tlen.toNat < 8 then pure none
    else do
      let type ← m.read (payload + transformPtr + 4)
      let transformId ← m.readWord 2 (payload + transformPtr + 6)
      let attrs ← m.readBlock (payload + transformPtr + 8) (tlen.toNat - 8)
      let _lastOrMore ← m.read (payload + transformPtr)
      let rest ← transformsRead m payload n (transformPtr + tlen.toNat)
      pure (rest.map ({ type, transformId, attrs } :: ·))

/-- An index is only there when its size is 4. -/
def spiRead (m : Memory) (spiSize : BitVec 8) (p : Nat) : Reading (BitVec 32) :=
  if spiSize = 4 then m.readWord 4 p else pure 0

def proposalRead (m : Memory) (payload proposalPtr : Nat) : Reading (Option (SaProposal × BitVec 8 × Nat)) := do
  let lastOrMore ← m.read (payload + proposalPtr)
  let proposalLen ← m.readWord 2 (payload + proposalPtr + 2)
  let proposalNum ← m.read (payload + proposalPtr + 4)
  let protocolId ← m.read (payload + proposalPtr + 5)
  let spiSize ← m.read (payload + proposalPtr + 6)
  let numTransforms ← m.read (payload + proposalPtr + 7)
  if protocolId = protocolIke ∧ spiSize ≠ 0 then pure none
  else if protocolId = protocolEsp ∧ spiSize ≠ 4 then pure none
  else do
    let spi ← spiRead m spiSize (payload + proposalPtr + 8)
    let transforms ← transformsRead m payload numTransforms.toNat (proposalPtr + 8 + spiSize.toNat)
    pure (transforms.map fun transforms =>
      ({ proposalNum, protocolId, spi, transforms }, lastOrMore, proposalPtr + proposalLen.toNat))

def proposalsRead (m : Memory) (payload bound : Nat) :
    (fuel proposalPtr : Nat) → Reading (Option (Option (List SaProposal)))
  | 0, _ => pure none
  | fuel + 1, proposalPtr => do
    let round ← proposalRead m payload proposalPtr
    match round with
    | none => pure (some none)
    | some (proposal, lastOrMore, proposalPtr) =>
      if proposalPtr < bound ∧ lastOrMore = 2 then do
        let rest ← proposalsRead m payload bound fuel proposalPtr
        pure (rest.map (Option.map (proposal :: ·)))
      else if proposalPtr ≠ bound ∨ lastOrMore ≠ 0 then pure (some none)
      else pure (some (some [proposal]))

def ikev2SaRead (m : Memory) (ikep fuel : Nat) : Reading (Option (Option (List SaProposal))) := do
  let plen ← m.readWord 2 (ikep + 2)
  proposalsRead m (ikep + 4) ((2 ^ 64 + plen.toNat - 4) % 2 ^ 64) fuel 0

def hostWordRead (m : Memory) (p : Nat) : Reading (BitVec 16) := do
  let low ← m.read p
  let high ← m.read (p + 1)
  pure (high ++ low)

def selectorRead (m : Memory) (ts : Nat) : Reading (Option Ikev2Ts) := do
  let tsType ← m.read ts
  if tsType ≠ 7 then pure none
  else do
    let protocolId ← m.read (ts + 1)
    let startPort ← hostWordRead m (ts + 4)
    let endPort ← hostWordRead m (ts + 6)
    let startAddr ← m.readWord 4 (ts + 8)
    let endAddr ← m.readWord 4 (ts + 12)
    pure (some { tsType, protocolId, startPort, endPort, startAddr, endAddr })

def ikev2TsRead (m : Memory) (ikep : Nat) : Reading (List Ikev2Ts) := do
  let numTs ← m.read (ikep + 4)
  let entries ← Reading.each (fun i => selectorRead m (ikep + 8 + 16 * i)) (List.range numTs.toNat)
  pure (entries.filterMap id)

def notifyDataRead (m : Memory) (ikep plen spiSize : Nat) : Reading (List (BitVec 8)) :=
  if plen > 8 + spiSize then m.readBlock (ikep + 8 + spiSize) (plen - 8 - spiSize) else pure []

def ikev2NotifyRead (m : Memory) (ikep : Nat) : Reading Ikev2Notify := do
  let plen ← m.readWord 2 (ikep + 2)
  let _printed ← m.readBlock (ikep + 8) (plen.toNat - 8)
  let msgType ← m.readWord 2 (ikep + 6)
  let protocolId ← m.read (ikep + 4)
  let spiSize ← m.read (ikep + 5)
  let spi ← spiRead m spiSize (ikep + 8)
  let data ← notifyDataRead m ikep plen.toNat spiSize.toNat
  pure { msgType, protocolId, spi, data }

def deletedRead (m : Memory) (ikep : Nat) (protocolId : BitVec 8) (i : Nat) : Reading Ikev2Delete := do
  let spi ← m.readWord 4 (ikep + 8 + 4 * i)
  pure { protocolId, spi }

def ikev2DeleteRead (m : Memory) (ikep : Nat) : Reading (List Ikev2Delete) := do
  let plen ← m.readWord 2 (ikep + 2)
  let numOfSpi ← m.readWord 2 (ikep + 6)
  let protocolId ← m.read (ikep + 4)
  let _spiSize ← m.read (ikep + 5)
  let _printed ← m.readBlock (ikep + 8) (plen.toNat - 8)
  if protocolId = protocolIke then pure [{ protocolId := 1, spi := 0 }]
  else Reading.each (deletedRead m ikep protocolId) (List.range numOfSpi.toNat)

variable (m : Memory)

theorem transformsRead_value (payload n ptr : Nat) :
    (transformsRead m payload n ptr).value = parseTransforms m payload n ptr := by
  induction n generalizing ptr with
  | zero => rfl
  | succ n ih =>
    rw [transformsRead, parseTransforms, Reading.bind_value, Memory.readWord_value]
    split
    · rfl
    · simp only [Reading.bind_value, Memory.read_value, Memory.readWord_value, Memory.readBlock_value, ih,
        Reading.pure_value]
      cases parseTransforms m payload n (ptr + (m.word 2 (payload + ptr + 2)).toNat) <;> rfl

theorem spiRead_value (spiSize : BitVec 8) (p : Nat) :
    (spiRead m spiSize p).value = if spiSize = 4 then m.word 4 p else 0 := by
  rw [spiRead]
  split <;> rfl

theorem proposalRead_value (payload ptr : Nat) :
    (proposalRead m payload ptr).value = parseProposal m payload ptr := by
  rw [proposalRead, parseProposal]
  iterate 6 rw [Reading.bind_value]
  iterate 5 rw [Memory.read_value]
  rw [Memory.readWord_value]
  by_cases hike : m (payload + ptr + 5) = protocolIke ∧ m (payload + ptr + 6) ≠ 0
  · rw [if_pos hike, if_pos hike]
    rfl
  · rw [if_neg hike, if_neg hike]
    by_cases hesp : m (payload + ptr + 5) = protocolEsp ∧ m (payload + ptr + 6) ≠ 4
    · rw [if_pos hesp, if_pos hesp]
      rfl
    · rw [if_neg hesp, if_neg hesp]
      simp only [Reading.bind_value, transformsRead_value, spiRead_value, Reading.pure_value]
      cases parseTransforms m payload (m (payload + ptr + 7)).toNat (ptr + 8 + (m (payload + ptr + 6)).toNat) <;> rfl

theorem proposalsRead_value (payload bound fuel ptr : Nat) :
    (proposalsRead m payload bound fuel ptr).value = parseProposals m payload bound fuel ptr := by
  induction fuel generalizing ptr with
  | zero => rfl
  | succ fuel ih =>
    rw [proposalsRead, parseProposals, Reading.bind_value, proposalRead_value]
    cases parseProposal m payload ptr with
    | none => rfl
    | some round =>
      obtain ⟨proposal, lastOrMore, next⟩ := round
      dsimp only
      split
      · rw [Reading.bind_value, ih]
        rfl
      · split <;> rfl

theorem ikev2SaRead_value (ikep fuel : Nat) :
    (ikev2SaRead m ikep fuel).value = ikev2ParseSaPayload m ikep fuel := proposalsRead_value m (ikep + 4) _ fuel 0

theorem selectorRead_value (ts : Nat) :
    (selectorRead m ts).value = if m ts ≠ 7 then none
      else some { tsType := m ts, protocolId := m (ts + 1), startPort := hostWord m (ts + 4),
                  endPort := hostWord m (ts + 6), startAddr := m.word 4 (ts + 8), endAddr := m.word 4 (ts + 12) } := by
  rw [selectorRead, Reading.bind_value, Memory.read_value]
  split <;> rfl

theorem ikev2TsRead_value (ikep : Nat) : (ikev2TsRead m ikep).value = ikev2ParseTsPayload m ikep := by
  rw [ikev2TsRead, ikev2ParseTsPayload]
  simp only [Reading.bind_value, Memory.read_value, Reading.each_value, Reading.pure_value, List.filterMap_map]
  apply List.filterMap_congr
  intro i _
  exact selectorRead_value m (ikep + 8 + 16 * i)

theorem ikev2NotifyRead_value (ikep : Nat) :
    (ikev2NotifyRead m ikep).value = ikev2ParseNotifyPayload m ikep := by
  have hdata (plen spiSize : Nat) : (notifyDataRead m ikep plen spiSize).value
      = if plen > 8 + spiSize then m.readBytes (ikep + 8 + spiSize) (plen - 8 - spiSize) else [] := by
    rw [notifyDataRead]
    split <;> rfl
  simp only [ikev2NotifyRead, ikev2ParseNotifyPayload, Reading.bind_value, Memory.read_value, Memory.readWord_value,
    spiRead_value, hdata, Reading.pure_value]

theorem ikev2DeleteRead_value (ikep : Nat) :
    (ikev2DeleteRead m ikep).value = ikev2ParseDeletePayload m ikep := by
  rw [ikev2DeleteRead, ikev2ParseDeletePayload]
  iterate 5 rw [Reading.bind_value]
  rw [Memory.readWord_value, Memory.read_value]
  by_cases hike : m (ikep + 4) = protocolIke
  · rw [if_pos hike, if_pos hike]
    rfl
  · rw [if_neg hike, if_neg hike]
    exact Reading.each_value _ _

/-- The transforms follow each other inside of `bound` bytes, up to one that is shorter than its header. -/
def TransformsFit (m : Memory) (payload bound : Nat) : (n ptr : Nat) → Prop
  | 0, _ => True
  | n + 1, ptr =>
    if (m.word 2 (payload + ptr + 2)).toNat < 8 then ptr + 4 ≤ bound
    else ptr + (m.word 2 (payload + ptr + 2)).toNat ≤ bound ∧
      TransformsFit m payload bound n (ptr + (m.word 2 (payload + ptr + 2)).toNat)

instance decidableTransformsFit (m : Memory) (payload bound : Nat) :
    (n ptr : Nat) → Decidable (TransformsFit m payload bound n ptr)
  | 0, _ => .isTrue trivial
  | n + 1, ptr =>
    have := decidableTransformsFit m payload bound n
    decidable_of_iff
      (if (m.word 2 (payload + ptr + 2)).toNat < 8 then ptr + 4 ≤ bound
        else ptr + (m.word 2 (payload + ptr + 2)).toNat ≤ bound ∧
          TransformsFit m payload bound n (ptr + (m.word 2 (payload + ptr + 2)).toNat)) Iff.rfl

def SpiAccepted (m : Memory) (sap : Nat) : Prop :=
  ¬ (m (sap + 5) = protocolIke ∧ m (sap + 6) ≠ 0) ∧ ¬ (m (sap + 5) = protocolEsp ∧ m (sap + 6) ≠ 4)
deriving Decidable

/-- A proposal's header is inside and, unless the size of its index ends the parse, so are its index and transforms. -/
def ProposalFits (m : Memory) (payload bound ptr : Nat) : Prop :=
  ptr + 8 ≤ bound ∧ (SpiAccepted m (payload + ptr) →
    (m (payload + ptr + 6) = 4 → ptr + 12 ≤ bound) ∧
      TransformsFit m payload bound (m (payload + ptr + 7)).toNat (ptr + 8 + (m (payload + ptr + 6)).toNat))
deriving Decidable

/-- The proposals from one on that are reached by their lengths and markers fit, and there is a last one. -/
inductive ProposalsFit (m : Memory) (payload bound : Nat) : Nat → Prop where
  | last (fits : ProposalFits m payload bound ptr)
      (ends : ∀ proposal next, parseProposal m payload ptr = some (proposal, 2, next) → bound ≤ next) :
      ProposalsFit m payload bound ptr
  | more (fits : ProposalFits m payload bound ptr) (goesOn : parseProposal m payload ptr = some (proposal, 2, next))
      (inside : next < bound) (rest : ProposalsFit m payload bound next) : ProposalsFit m payload bound ptr

theorem transformsRead_within {payload bound lo n ptr : Nat} (hlo : lo ≤ payload) :
    (transformsRead m payload n ptr).Within lo (payload + bound) ↔ TransformsFit m payload bound n ptr := by
  induction n generalizing ptr with
  | zero => exact iff_of_true (Reading.within_pure _ _ _) trivial
  | succ n ih =>
    rw [transformsRead, TransformsFit, Reading.within_bind, m.readWord_within_iff (by decide), Memory.readWord_value]
    by_cases hshort : (m.word 2 (payload + ptr + 2)).toNat < 8
    · rw [if_pos hshort, if_pos hshort, Reading.within_pure_iff, and_true]
      omega
    · rw [if_neg hshort, if_neg hshort]
      simp only [Reading.within_bind, Memory.read_within, m.readWord_within_iff (show 0 < 2 by decide),
        Memory.readBlock_within, ih, Reading.within_pure_iff]
      constructor
      · rintro ⟨_, htype, hid, hattrs, _, hrest, _⟩
        exact ⟨by omega, hrest⟩
      · rintro ⟨hlen, hrest⟩
        exact ⟨by omega, by omega, by omega, fun _ => by omega, by omega, hrest, trivial⟩

theorem spiRead_within {spiSize : BitVec 8} {p lo hi : Nat} :
    (spiRead m spiSize p).Within lo hi ↔ (spiSize = 4 → lo ≤ p ∧ p + 4 ≤ hi) := by
  rw [spiRead]
  by_cases h : spiSize = 4
  · rw [if_pos h, m.readWord_within_iff (by decide)]
    simp [h]
  · rw [if_neg h, Reading.within_pure_iff]
    exact iff_of_true trivial fun h4 => absurd h4 h

/-- What follows the header is only read when the size of the index is accepted. -/
theorem proposalRead_rest {payload bound lo ptr : Nat} (hlo : lo ≤ payload)
    (f : BitVec 32 → Option (List SaTransform) → Option (SaProposal × BitVec 8 × Nat)) :
    (if m (payload + ptr + 5) = protocolIke ∧ m (payload + ptr + 6) ≠ 0 then pure none
      else if m (payload + ptr + 5) = protocolEsp ∧ m (payload + ptr + 6) ≠ 4 then pure none
      else do
        let spi ← spiRead m (m (payload + ptr + 6)) (payload + ptr + 8)
        let transforms ←
          transformsRead m payload (m (payload + ptr + 7)).toNat (ptr + 8 + (m (payload + ptr + 6)).toNat)
        pure (f spi transforms) : Reading (Option (SaProposal × BitVec 8 × Nat))).Within lo (payload + bound) ↔
      (SpiAccepted m (payload + ptr) → (m (payload + ptr + 6) = 4 → ptr + 12 ≤ bound) ∧
        TransformsFit m payload bound (m (payload + ptr + 7)).toNat (ptr + 8 + (m (payload + ptr + 6)).toNat)) := by
  rw [SpiAccepted]
  by_cases hike : m (payload + ptr + 5) = protocolIke ∧ m (payload + ptr + 6) ≠ 0
  · rw [if_pos hike, Reading.within_pure_iff]
    exact iff_of_true trivial fun h => absurd hike h.1
  · rw [if_neg hike]
    by_cases hesp : m (payload + ptr + 5) = protocolEsp ∧ m (payload + ptr + 6) ≠ 4
    · rw [if_pos hesp, Reading.within_pure_iff]
      exact iff_of_true trivial fun h => absurd hesp h.2
    · have haccepted : ¬ (m (payload + ptr + 5) = protocolIke ∧ m (payload + ptr + 6) ≠ 0) ∧
          ¬ (m (payload + ptr + 5) = protocolEsp ∧ m (payload + ptr + 6) ≠ 4) := ⟨hike, hesp⟩
      rw [if_neg hesp, Reading.within_bind, Reading.within_bind, spiRead_within, transformsRead_within m hlo,
        Reading.within_pure_iff, and_true, imp_iff_right haccepted]
      apply and_congr_left'
      apply imp_congr_right
      intro _
      omega

theorem proposalRead_within {payload bound lo ptr : Nat} (hlo : lo ≤ payload) :
    (proposalRead m payload ptr).Within lo (payload + bound) ↔ ProposalFits m payload bound ptr := by
  rw [proposalRead, ProposalFits, SpiAccepted]
  iterate 6 rw [Reading.within_bind]
  iterate 5 rw [Memory.read_value]
  iterate 5 rw [Memory.read_within]
  rw [Memory.readWord_value, m.readWord_within_iff (by decide), proposalRead_rest m hlo, SpiAccepted]
  constructor
  · rintro ⟨_, _, _, _, _, hlast, hrest⟩
    exact ⟨by omega, hrest⟩
  · rintro ⟨hheader, hrest⟩
    exact ⟨by omega, by omega, by omega, by omega, by omega, by omega, hrest⟩

theorem proposals_round {m : Memory} {payload lo ptr next : Nat} {proposal : SaProposal}
    {lastOrMore : BitVec 8} (bound fuel : Nat) (hlo : lo ≤ payload)
    (hround : parseProposal m payload ptr = some (proposal, lastOrMore, next)) :
    (next < bound ∧ lastOrMore = 2 →
      (parseProposals m payload bound (fuel + 1) ptr ≠ none ↔ parseProposals m payload bound fuel next ≠ none) ∧
      ((proposalsRead m payload bound (fuel + 1) ptr).Within lo (payload + bound) ↔
        ProposalFits m payload bound ptr ∧ (proposalsRead m payload bound fuel next).Within lo (payload + bound))) ∧
    (¬ (next < bound ∧ lastOrMore = 2) →
      parseProposals m payload bound (fuel + 1) ptr ≠ none ∧
      ((proposalsRead m payload bound (fuel + 1) ptr).Within lo (payload + bound) ↔
          ProposalFits m payload bound ptr)) := by
  rw [parseProposals, proposalsRead, Reading.within_bind, proposalRead_within m hlo, proposalRead_value, hround]
  dsimp only
  constructor
  · intro hmore
    rw [if_pos hmore, if_pos hmore, Reading.within_bind, Reading.within_pure_iff, and_true, ne_eq,
      map_eq_none_iff]
    exact ⟨Iff.rfl, Iff.rfl⟩
  · intro hmore
    rw [if_neg hmore, if_neg hmore]
    split
    · exact ⟨some_ne_none _, and_iff_left (Reading.within_pure _ _ _)⟩
    · exact ⟨some_ne_none _, and_iff_left (Reading.within_pure _ _ _)⟩

theorem proposals_end {m : Memory} {payload lo ptr : Nat} (bound fuel : Nat) (hlo : lo ≤ payload)
    (hround : parseProposal m payload ptr = none) :
    parseProposals m payload bound (fuel + 1) ptr ≠ none ∧
      ((proposalsRead m payload bound (fuel + 1) ptr).Within lo (payload + bound) ↔
          ProposalFits m payload bound ptr) := by
  rw [parseProposals, proposalsRead, Reading.within_bind, proposalRead_within m hlo, proposalRead_value, hround]
  exact ⟨some_ne_none _, and_iff_left (Reading.within_pure _ _ _)⟩

theorem proposalsFit_of_within {m : Memory} {payload bound lo fuel ptr : Nat} (hlo : lo ≤ payload)
    (hstop : parseProposals m payload bound fuel ptr ≠ none)
    (hin : (proposalsRead m payload bound fuel ptr).Within lo (payload + bound)) :
    ProposalsFit m payload bound ptr := by
  induction fuel generalizing ptr with
  | zero => exact absurd rfl hstop
  | succ fuel ih =>
    cases hround : parseProposal m payload ptr with
    | none =>
      apply ProposalsFit.last ((proposals_end bound fuel hlo hround).2.1 hin)
      intro proposal next h
      exact absurd (h.symm.trans hround) (some_ne_none _)
    | some round =>
      obtain ⟨proposal, lastOrMore, next⟩ := round
      obtain ⟨hgoes, hends⟩ := proposals_round bound fuel hlo hround
      by_cases hmore : next < bound ∧ lastOrMore = 2
      · obtain ⟨hstop', hin'⟩ := hgoes hmore
        obtain ⟨hfits, hrest⟩ := hin'.1 hin
        rw [hmore.2] at hround
        exact .more hfits hround hmore.1 (ih (hstop'.1 hstop) hrest)
      · apply ProposalsFit.last ((hends hmore).2.1 hin)
        intro proposal' next' h
        cases hround.symm.trans h
        exact Nat.le_of_not_lt fun hlt => hmore ⟨hlt, rfl⟩

theorem within_of_proposalsFit {m : Memory} {payload bound lo ptr : Nat} (hlo : lo ≤ payload)
    (h : ProposalsFit m payload bound ptr) :
    ∃ fuel, parseProposals m payload bound fuel ptr ≠ none ∧
      (proposalsRead m payload bound fuel ptr).Within lo (payload + bound) := by
  induction h with
  | @last ptr fits ends =>
    apply Exists.intro 1
    cases hround : parseProposal m payload ptr with
    | none =>
      obtain ⟨hstop, hin⟩ := proposals_end bound 0 hlo hround
      exact ⟨hstop, hin.2 fits⟩
    | some round =>
      obtain ⟨proposal, lastOrMore, next⟩ := round
      have hnot : ¬ (next < bound ∧ lastOrMore = 2) := by
        rintro ⟨hlt, rfl⟩
        exact absurd (ends proposal next hround) (Nat.not_le_of_lt hlt)
      obtain ⟨hstop, hin⟩ := (proposals_round bound 0 hlo hround).2 hnot
      exact ⟨hstop, hin.2 fits⟩
  | @more ptr proposal next fits goesOn inside rest ih =>
    obtain ⟨fuel, hstop, hin⟩ := ih
    obtain ⟨hstop', hin'⟩ := (proposals_round bound fuel hlo goesOn).1 ⟨inside, rfl⟩
    exact ⟨fuel + 1, hstop'.2 hstop, hin'.2 ⟨fits, hin⟩⟩

theorem proposalsFit_iff {payload lo : Nat} (bound ptr : Nat) (hlo : lo ≤ payload) :
    (∃ fuel, parseProposals m payload bound fuel ptr ≠ none ∧
      (proposalsRead m payload bound fuel ptr).Within lo (payload + bound)) ↔ ProposalsFit m payload bound ptr := by
  constructor
  · rintro ⟨fuel, hstop, hin⟩
    exact proposalsFit_of_within hlo hstop hin
  · exact within_of_proposalsFit hlo

theorem selectorRead_within {ts lo hi : Nat} (hlo : lo ≤ ts) :
    (selectorRead m ts).Within lo hi ↔ if m ts = 7 then ts + 16 ≤ hi else ts < hi := by
  rw [selectorRead, Reading.within_bind, Memory.read_within, Memory.read_value]
  by_cases h7 : m ts = 7
  · rw [if_neg (not_not.2 h7), if_pos h7]
    simp only [hostWordRead, Reading.within_bind, Memory.read_within, m.readWord_within_iff (show 0 < 4 by decide),
      Reading.within_pure_iff, and_true]
    omega
  · rw [if_pos h7, if_neg h7, Reading.within_pure_iff, and_true]
    omega

theorem ikev2TsRead_within {ikep plen : Nat} (hlen : 8 ≤ plen) :
    (ikev2TsRead m ikep).Within ikep (ikep + plen) ↔
      ∀ i < (m (ikep + 4)).toNat, if m (ikep + 8 + 16 * i) = 7 then 24 + 16 * i ≤ plen else 8 + 16 * i < plen := by
  rw [ikev2TsRead, Reading.within_bind, Reading.within_bind, Memory.read_within, Memory.read_value, Reading.each_within,
    Reading.within_pure_iff, and_true, and_iff_right (by omega)]
  have hentry (i : Nat) : (selectorRead m (ikep + 8 + 16 * i)).Within ikep (ikep + plen) ↔
      if m (ikep + 8 + 16 * i) = 7 then 24 + 16 * i ≤ plen else 8 + 16 * i < plen := by
    rw [selectorRead_within m (by omega)]
    split <;> omega
  constructor
  · exact fun h i hi => (hentry i).1 (h i (List.mem_range.2 hi))
  · exact fun h i hi => (hentry i).2 (h i (List.mem_range.1 hi))

theorem ikev2NotifyRead_within {ikep plen : Nat} (hplen : (m.word 2 (ikep + 2)).toNat = plen)
    (hlen : 8 ≤ plen) : (ikev2NotifyRead m ikep).Within ikep (ikep + plen) ↔ (m (ikep + 5) = 4 → 12 ≤ plen) := by
  have hdata (spiSize : Nat) : (notifyDataRead m ikep plen spiSize).Within ikep (ikep + plen) := by
    rw [notifyDataRead]
    split
    · rw [Memory.readBlock_within]
      omega
    · exact Reading.within_pure _ _ _
  simp only [ikev2NotifyRead, Reading.within_bind, Memory.read_within, m.readWord_within_iff (show 0 < 2 by decide),
    Memory.readBlock_within, Memory.readWord_value, Memory.read_value, hplen, spiRead_within, hdata,
    Reading.within_pure_iff, and_true]
  constructor
  · rintro ⟨_, _, _, _, _, hspi⟩ h4
    have := hspi h4
    omega
  · intro h
    refine ⟨by omega, fun _ => by omega, by omega, by omega, by omega, fun h4 => ?_⟩
    have := h h4
    omega

theorem ikev2DeleteRead_within {ikep plen : Nat} (hplen : (m.word 2 (ikep + 2)).toNat = plen)
    (hlen : 8 ≤ plen) : (ikev2DeleteRead m ikep).Within ikep (ikep + plen) ↔
      (m (ikep + 4) ≠ protocolIke → 8 + 4 * (m.word 2 (ikep + 6)).toNat ≤ plen) := by
  have hheader : ikep ≤ ikep + 2 ∧ ikep + 2 + 2 ≤ ikep + plen := by omega
  have hcount : ikep ≤ ikep + 6 ∧ ikep + 6 + 2 ≤ ikep + plen := by omega
  have hprotocol : ikep ≤ ikep + 4 ∧ ikep + 4 < ikep + plen := by omega
  have hsize : ikep ≤ ikep + 5 ∧ ikep + 5 < ikep + plen := by omega
  have hprinted : 0 < plen - 8 → ikep ≤ ikep + 8 ∧ ikep + 8 + (plen - 8) ≤ ikep + plen := by omega
  rw [ikev2DeleteRead]
  iterate 5 rw [Reading.within_bind]
  rw [m.readWord_within_iff (by decide), m.readWord_within_iff (by decide), Memory.read_within, Memory.read_within,
    Memory.readBlock_within, Memory.readWord_value, Memory.readWord_value, Memory.read_value, hplen,
    and_iff_right hheader, and_iff_right hcount, and_iff_right hprotocol, and_iff_right hsize, and_iff_right hprinted]
  by_cases hike : m (ikep + 4) = protocolIke
  · rw [if_pos hike, Reading.within_pure_iff]
    exact iff_of_true trivial fun h => absurd hike h
  · rw [if_neg hike, Reading.each_within, imp_iff_right hike]
    have hspi (i : Nat) : (deletedRead m ikep (m (ikep + 4)) i).Within ikep (ikep + plen) ↔ 12 + 4 * i ≤ plen := by
      rw [deletedRead, Reading.within_bind, m.readWord_within_iff (by decide), Reading.within_pure_iff, and_true]
      omega
    constructor
    · intro h
      rcases Nat.eq_zero_or_pos (m.word 2 (ikep + 6)).toNat with h0 | hpos
      · omega
      · have hlast := (hspi _).1 (h ((m.word 2 (ikep + 6)).toNat - 1) (List.mem_range.2 (by omega)))
        omega
    · intro h i hi
      have hlt := List.mem_range.1 hi
      exact (hspi i).2 (by omega)

/-- **What the parsers rely on**: exactly when the inner lengths, counts and markers of a payload fit in its
length does the parser of each kind end and read nothing outside of the payload. -/
theorem ikev2Parse_inside_iff (m : Memory) (ikep plen : Nat) (hplen : (m.word 2 (ikep + 2)).toNat = plen) :
    (4 ≤ plen →
      ((∃ fuel, ikev2ParseSaPayload m ikep fuel ≠ none ∧ (ikev2SaRead m ikep fuel).Within ikep (ikep + plen)) ↔
        ProposalsFit m (ikep + 4) (plen - 4) 0)) ∧
    (8 ≤ plen →
      ((ikev2TsRead m ikep).Within ikep (ikep + plen) ↔
        ∀ i < (m (ikep + 4)).toNat,
          if m (ikep + 8 + 16 * i) = 7 then 24 + 16 * i ≤ plen else 8 + 16 * i < plen) ∧
      ((ikev2NotifyRead m ikep).Within ikep (ikep + plen) ↔ (m (ikep + 5) = 4 → 12 ≤ plen)) ∧
      ((ikev2DeleteRead m ikep).Within ikep (ikep + plen) ↔
        (m (ikep + 4) ≠ protocolIke → 8 + 4 * (m.word 2 (ikep + 6)).toNat ≤ plen))) := by
  constructor
  · intro hlen
    have hlt : plen < 2 ^ 16 := hplen ▸ (m.word 2 (ikep + 2)).isLt
    have hbound : (2 ^ 64 + plen - 4) % 2 ^ 64 = plen - 4 := by omega
    have hend : ikep + 4 + (plen - 4) = ikep + plen := by omega
    have hheader : ikep ≤ ikep + 2 ∧ ikep + 2 + 2 ≤ ikep + plen := by omega
    have hwalk := proposalsFit_iff m (plen - 4) 0 (Nat.le_add_right ikep 4)
    rw [hend] at hwalk
    rw [← hwalk]
    simp only [ikev2ParseSaPayload, ikev2SaRead, Reading.within_bind, m.readWord_within_iff (show 0 < 2 by decide),
      Memory.readWord_value, hplen, hbound, and_iff_right hheader]
  · exact fun hlen =>
      ⟨ikev2TsRead_within m hlen, ikev2NotifyRead_within m hplen hlen, ikev2DeleteRead_within m hplen hlen⟩

/-- A payload of selectors that says it has one and ends there. -/
def shortTs : Memory := Memory.store (fun _ => 0) 0 [0, 0, 0, 8, 1, 0, 0, 0]

/-- An SA payload whose first proposal has length 0 and says that more follow. -/
def endlessSa : Memory := Memory.store (fun _ => 0) 0 [0, 0, 0, 12, 2, 0, 0, 0, 1, 0, 0, 0]

/-- An SA payload with an ESP proposal, which says that more follow, and an IKE proposal, each with one transform. -/
def twoProposals : Memory :=
  Memory.store (fun _ => 0) 0
    [0, 0, 0, 40,
     2, 0, 0, 20, 1, 3, 4, 1, 10, 20, 30, 40, 0, 0, 0, 8, 1, 0, 0, 12,
     0, 0, 0, 16, 2, 1, 0, 1, 0, 0, 0, 8, 1, 0, 0, 12]

theorem twoProposals_fit : ProposalsFit twoProposals 4 36 0 := by
  have hesp : parseProposal twoProposals 4 0
      = some (⟨1, 3, 169090600, [⟨1, 12, []⟩]⟩, 2, 20) := by decide
  have hike : parseProposal twoProposals 4 20 = some (⟨2, 1, 0, [⟨1, 12, []⟩]⟩, 0, 36) := by decide
  apply ProposalsFit.more (by decide) hesp (by decide)
  apply ProposalsFit.last (by decide)
  intro proposal next hnext
  rw [hike] at hnext
  cases hnext

theorem ikev2Parse_inside_iff_two_proposals :
    (∃ fuel, ikev2ParseSaPayload twoProposals 0 fuel ≠ none ∧ (ikev2SaRead twoProposals 0 fuel).Within 0 40)
      ∧ ((ikev2TsRead shortTs 0).Within 0 8 ↔
        ∀ i < (shortTs 4).toNat, if shortTs (0 + 8 + 16 * i) = 7 then 24 + 16 * i ≤ 8 else 8 + 16 * i < 8) :=
  ⟨((ikev2Parse_inside_iff twoProposals 0 40 (by decide)).1 (by decide)).2 twoProposals_fit,
    ((ikev2Parse_inside_iff shortTs 0 8 (by decide)).2 (by decide)).1⟩

theorem parseProposals_endless (fuel : Nat) : parseProposals endlessSa 4 8 fuel 0 = none := by
  have hround : parseProposal endlessSa 4 0 = some (⟨1, 0, 0, []⟩, 2, 0) := by decide
  induction fuel with
  | zero => rfl
  | succ fuel ih =>
    rw [parseProposals, hround]
    exact (congrArg (Option.map (Option.map (SaProposal.mk 1 0 0 [] :: ·))) ih).trans rfl

/-- Both payloads lie in the bytes that were received: the selector is read behind the end, and the parse of the
proposals does not end. -/
theorem ikev2Parse_outside :
    (shortTs.word 2 2).toNat = 8 ∧ ¬ (ikev2TsRead shortTs 0).Within 0 8 ∧
      (endlessSa.word 2 2).toNat = 12 ∧ ∀ fuel, ikev2ParseSaPayload endlessSa 0 fuel = none := by
  have hsa : (endlessSa.word 2 2).toNat = 12 := by decide
  refine ⟨by decide, by decide, hsa, ?_⟩
  intro fuel
  have hbound : (2 ^ 64 + 12 - 4) % 2 ^ 64 = 8 := by decide
  rw [ikev2ParseSaPayload, Nat.zero_add, hsa, hbound]
  exact parseProposals_endless fuel

end Vpp.Ipsec
