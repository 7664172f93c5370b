import Mathlib.Data.List.Forall2
import Vpp.Ipsec.Ikev2Sa

namespace Vpp.Ipsec
open Vpp.Lib List BitVec

/-- A traffic selector. The addresses are the words that network order spells, as they lie in memory. -/
structure Ikev2Ts where
  tsType : BitVec 8
  protocolId : BitVec 8
  startPort : BitVec 16
  endPort : BitVec 16
  startAddr : BitVec 32
  endAddr : BitVec 32
  deriving DecidableEq

structure Ikev2Notify where
  msgType : BitVec 16
  protocolId : BitVec 8
  spi : BitVec 32
  data : List (BitVec 8)
  deriving DecidableEq

structure Ikev2Delete where
  protocolId : BitVec 8
  spi : BitVec 32
  deriving DecidableEq

def Ikev2Ts.entry (ts : Ikev2Ts) : List (BitVec 8) :=
  [ts.tsType, ts.protocolId] ++ (netBytes 2 16 ++ (netBytes 2 ts.startPort.toNat ++
    (netBytes 2 ts.endPort.toNat ++ (netBytes 4 ts.startAddr.toNat ++ netBytes 4 ts.endAddr.toNat))))

def ikev2PayloadAddTs (c : PayloadChain) (ts : List Ikev2Ts) (type : BitVec 8) : PayloadChain :=
  let tsh := c.data.length
  let c := c.ikev2PayloadAddHdr type 8
  let c := c.put tsh 4 [BitVec.ofNat 8 ts.length]
  c.ikev2PayloadAddData (ts.map Ikev2Ts.entry).flatten

/-- Only the size of a security parameter index is written: its bytes are the caller's, first in `data`. -/
def ikev2PayloadAddNotify2 (c : PayloadChain) (msgType : BitVec 16) (data : List (BitVec 8))
    (notify : Option Ikev2Notify) : PayloadChain :=
  let n := c.data.length
  let c := c.ikev2PayloadAddHdr 41 8
  let c := c.put n 6 (netBytes 2 msgType.toNat)
  let c := match notify with
    | none => c
    | some notify =>
      let c := c.put n 4 [notify.protocolId]
      if notify.spi ≠ 0 then c.put n 5 [4] else c
  c.ikev2PayloadAddData data

/-- The protocol is that of the first element, which has to be there. -/
def ikev2PayloadAddDelete (c : PayloadChain) (d : List Ikev2Delete) : Option PayloadChain :=
  d.head?.map fun d0 =>
    let dp := c.data.length
    let c := c.ikev2PayloadAddHdr 42 8
    if d0.protocolId = protocolIke then c.put dp 4 [1]
    else
      let c := c.put dp 4 [d0.protocolId]
      let c := c.put dp 5 [4]
      let c := c.put dp 6 (netBytes 2 d.length)
      d.foldl (fun c d2 => c.ikev2PayloadAddData (netBytes 4 d2.spi.toNat)) c

/-- A 16-bit word in the order of the host, low byte first. -/
def hostWord (m : Memory) (p : Nat) : BitVec 16 := m (p + 1) ++ m p

def ikev2ParseTsPayload (m : Memory) (ikep : Nat) : List Ikev2Ts :=
  (List.range (m (ikep + 4)).toNat).filterMap fun i =>
    let ts := ikep + 8 + 16 * i
    if m ts ≠ 7 then none
    else some { tsType := m ts, protocolId := m (ts + 1), startPort := hostWord m (ts + 4),
                endPort := hostWord m (ts + 6), startAddr := m.word 4 (ts + 8), endAddr := m.word 4 (ts + 12) }

def ikev2ParseNotifyPayload (m : Memory) (ikep : Nat) : Ikev2Notify :=
  let plen := (m.word 2 (ikep + 2)).toNat
  let spiSize := m (ikep + 5)
  { msgType := m.word 2 (ikep + 6)
    protocolId := m (ikep + 4)
    spi := if spiSize = 4 then m.word 4 (ikep + 8) else 0
    data := if plen > 8 + spiSize.toNat then m.readBytes (ikep + 8 + spiSize.toNat) (plen - 8 - spiSize.toNat)
      else [] }

def ikev2ParseDeletePayload (m : Memory) (ikep : Nat) : List Ikev2Delete :=
  let protocolId := m (ikep + 4)
  let numOfSpi := (m.word 2 (ikep + 6)).toNat
  if protocolId = protocolIke then [{ protocolId := 1, spi := 0 }]
  else (List.range numOfSpi).map fun i => { protocolId, spi := m.word 4 (ikep + 8 + 4 * i) }

def swapBytes (v : BitVec 16) : BitVec 16 := v.extractLsb' 0 8 ++ v.extractLsb' 8 8

theorem hostWord_netBytes {m : Memory} {p : Nat} {v : BitVec 16} (h : m.Holds p (netBytes 2 v.toNat)) :
    hostWord m p = swapBytes v := by
  have hhigh : m p = v.extractLsb' 8 8 := by
    rw [h.byte]
    apply eq_of_toNat_eq
    simp [extractLsb'_toNat, Nat.shiftRight_eq_div_pow]
  have hlow : m (p + 1) = v.extractLsb' 0 8 := by
    have hbyte : m (p + 1) = BitVec.ofNat 8 (v.toNat / 256 ^ 0) := h 1 (by rw [length_netBytes]; decide)
    rw [hbyte]
    apply eq_of_toNat_eq
    simp [extractLsb'_toNat]
  rw [hostWord, hhigh, hlow, swapBytes]

@[simp] theorem Ikev2Ts.length_entry (ts : Ikev2Ts) : ts.entry.length = 16 := by
  simp only [Ikev2Ts.entry, length_append, length_netBytes]
  rfl

theorem addTs_ends (c : PayloadChain) (ts : List Ikev2Ts) (type : BitVec 8) (short : c.data.length < 2 ^ 16) :
    ∃ before, before.length = c.data.length ∧
      (ikev2PayloadAddTs c ts type).Ends before (8 + (ts.map Ikev2Ts.entry).flatten.length)
        ([BitVec.ofNat 8 ts.length, 0, 0, 0] ++ (ts.map Ikev2Ts.entry).flatten) := by
  obtain ⟨before, hbefore, hhdr⟩ := c.addHdr_ends type 8 short
  have hzero : (c.ikev2PayloadAddHdr type 8).Ends before 8 ([] ++ ([0] ++ [0, 0, 0])) := hhdr
  have hput := (hzero.put [BitVec.ofNat 8 ts.length] rfl).addData (ts.map Ikev2Ts.entry).flatten
  rw [hbefore] at hput
  exact ⟨before, hbefore, hput⟩

theorem filterMap_range {f : Nat → Option β} {ys : List β} (h : ∀ i (hi : i < ys.length), f i = some ys[i]) :
    (List.range ys.length).filterMap f = ys := by
  induction ys generalizing f with
  | nil => rfl
  | cons y ys ih =>
    have hfirst : f 0 = some y := h 0 (Nat.succ_pos _)
    have hrest : (List.range ys.length).filterMap (f ∘ Nat.succ) = ys :=
      ih fun i hi => h (i + 1) (Nat.succ_lt_succ hi)
    rw [length_cons, range_succ_eq_map, filterMap_cons_some hfirst, filterMap_map, hrest]

theorem parseTs_addTs (m : Memory) (base : Nat) {c : PayloadChain} {ts : List Ikev2Ts} (type : BitVec 8)
    (short : c.data.length < 2 ^ 16) (range : ∀ t ∈ ts, t.tsType = 7) (count : ts.length ≤ 255) :
    ikev2ParseTsPayload (m.store base (ikev2PayloadAddTs c ts type).data) (base + c.data.length)
      = ts.map fun t => { t with startPort := swapBytes t.startPort, endPort := swapBytes t.endPort } := by
  obtain ⟨before, hbefore, hends⟩ := addTs_ends c ts type short
  obtain ⟨_, hrest⟩ := hends.inMemory m base
  rw [hbefore] at hrest
  generalize m.store base (ikev2PayloadAddTs c ts type).data = m' at *
  generalize base + c.data.length = ikep at *
  rw [Memory.holds_append] at hrest
  obtain ⟨hnum, hentries⟩ := hrest
  have hnum' : (m' (ikep + 4)).toNat = ts.length := by
    rw [hnum.byte]
    exact Nat.mod_eq_of_lt (by omega)
  have hlen : ts.length = (ts.map fun t : Ikev2Ts =>
      { t with startPort := swapBytes t.startPort, endPort := swapBytes t.endPort }).length := by
    rw [length_map]
  rw [ikev2ParseTsPayload, hnum', hlen]
  apply filterMap_range
  intro i hi
  rw [length_map] at hi
  have hentry : m'.Holds (ikep + 8 + 16 * i) ts[i].entry := hentries.block Ikev2Ts.length_entry hi
  rw [getElem_map]
  generalize hplace : ikep + 8 + 16 * i = p at *
  have htype := range ts[i] (getElem_mem hi)
  generalize ts[i] = t at *
  rw [Ikev2Ts.entry, Memory.holds_append, Memory.holds_append, Memory.holds_append, Memory.holds_append,
    Memory.holds_append] at hentry
  obtain ⟨hbytes, _, hstart, hend, hstartAddr, hendAddr⟩ := hentry
  have htype' : m' p = 7 := hbytes.byte.trans htype
  have hprotocol : m' (p + 1) = t.protocolId := hbytes 1 (by simp)
  have hstart' : hostWord m' (p + 4) = swapBytes t.startPort := hostWord_netBytes hstart
  have hend' : hostWord m' (p + 6) = swapBytes t.endPort := hostWord_netBytes hend
  have hstartAddr' : m'.word 4 (p + 8) = t.startAddr := hstartAddr.word
  have hendAddr' : m'.word 4 (p + 12) = t.endAddr := hendAddr.word
  simp only [htype', hprotocol, hstart', hend', hstartAddr', hendAddr']
  simp [htype]

def sentProtocol (notify : Option Ikev2Notify) : BitVec 8 := (notify.map Ikev2Notify.protocolId).getD 0

def sentSpi (notify : Option Ikev2Notify) : BitVec 32 := (notify.map Ikev2Notify.spi).getD 0

def spiBytes (spi : BitVec 32) : List (BitVec 8) := if spi ≠ 0 then netBytes 4 spi.toNat else []

theorem spiBytes_none {spi : BitVec 32} (h : spi = 0) : spiBytes spi = [] := if_neg (not_not.2 h)

theorem spiBytes_some {spi : BitVec 32} (h : spi ≠ 0) : spiBytes spi = netBytes 4 spi.toNat := if_pos h

theorem addNotify2_ends (c : PayloadChain) (msgType : BitVec 16) (data : List (BitVec 8))
    (notify : Option Ikev2Notify) (short : c.data.length < 2 ^ 16) :
    ∃ before, before.length = c.data.length ∧
      (ikev2PayloadAddNotify2 c msgType data notify).Ends before (8 + data.length)
        ([sentProtocol notify] ++ ([BitVec.ofNat 8 (spiBytes (sentSpi notify)).length] ++
          (netBytes 2 msgType.toNat ++ data))) := by
  obtain ⟨before, hbefore, hhdr⟩ := c.addHdr_ends 41 8 short
  have hzero : (c.ikev2PayloadAddHdr 41 8).Ends before 8 ([0, 0] ++ ([0, 0] ++ [])) := hhdr
  have htype := hzero.put (netBytes 2 msgType.toNat) (length_netBytes 2 _).symm
  rw [hbefore, append_nil] at htype
  refine ⟨before, hbefore, ?_⟩
  cases notify with
  | none => exact htype.addData data
  | some n =>
    have hprotocol : ((c.ikev2PayloadAddHdr 41 8).put c.data.length 6 (netBytes 2 msgType.toNat)).Ends before 8
        ([] ++ ([0] ++ ([0] ++ netBytes 2 msgType.toNat))) := htype
    have hput := hprotocol.put [n.protocolId] rfl
    rw [hbefore] at hput
    by_cases hspi : n.spi = 0
    · have hsize : spiBytes (sentSpi (some n)) = [] := spiBytes_none hspi
      have hend := hput.addData data
      rw [hsize]
      simp only [ikev2PayloadAddNotify2, if_neg (not_not.2 hspi)]
      exact hend
    · have hsize : spiBytes (sentSpi (some n)) = netBytes 4 n.spi.toNat := spiBytes_some hspi
      have hnext : (((c.ikev2PayloadAddHdr 41 8).put c.data.length 6 (netBytes 2 msgType.toNat)).put
          c.data.length 4 [n.protocolId]).Ends before 8
          ([n.protocolId] ++ ([0] ++ netBytes 2 msgType.toNat)) := hput
      have hend := (hnext.put [4] rfl).addData data
      rw [hbefore] at hend
      rw [hsize, length_netBytes]
      simp only [ikev2PayloadAddNotify2, if_pos hspi]
      exact hend

/-- A notify comes back if the data begins with the security parameter index that it announces. -/
theorem parseNotify_addNotify2 (m : Memory) (base : Nat) {c : PayloadChain} {msgType : BitVec 16}
    {data : List (BitVec 8)} {notify : Option Ikev2Notify} (short : c.data.length < 2 ^ 16)
    (fits : 8 + (spiBytes (sentSpi notify) ++ data).length < 2 ^ 16) :
    ikev2ParseNotifyPayload
        (m.store base (ikev2PayloadAddNotify2 c msgType (spiBytes (sentSpi notify) ++ data) notify).data)
        (base + c.data.length)
      = { msgType, protocolId := sentProtocol notify, spi := sentSpi notify, data } := by
  obtain ⟨before, hbefore, hends⟩ :=
    addNotify2_ends c msgType (spiBytes (sentSpi notify) ++ data) notify short
  obtain ⟨hlen, hrest⟩ := hends.inMemory m base
  rw [hbefore] at hlen hrest
  generalize m.store base (ikev2PayloadAddNotify2 c msgType (spiBytes (sentSpi notify) ++ data) notify).data = m'
    at *
  generalize base + c.data.length = ikep at *
  generalize sentSpi notify = spi at *
  rw [Nat.mod_eq_of_lt fits, length_append] at hlen
  rw [Memory.holds_append, Memory.holds_append, Memory.holds_append, Memory.holds_append] at hrest
  obtain ⟨hprotocol, hsize, htype, hspi, hdata⟩ := hrest
  have hprotocol' : m' (ikep + 4) = sentProtocol notify := hprotocol.byte
  have hsize' : m' (ikep + 5) = BitVec.ofNat 8 (spiBytes spi).length := hsize.byte
  have htype' : m'.word 2 (ikep + 6) = msgType := htype.word
  have hdata' : m'.readBytes (ikep + 8 + (spiBytes spi).length) data.length = data := hdata.readBytes
  have hspi' : (if BitVec.ofNat 8 (spiBytes spi).length = 4 then m'.word 4 (ikep + 8) else 0) = spi := by
    by_cases h : spi = 0
    · rw [spiBytes_none h, h]
      rfl
    · rw [spiBytes_some h] at hspi
      rw [spiBytes_some h, length_netBytes, if_pos (by decide)]
      exact hspi.word
  have hsmall : (BitVec.ofNat 8 (spiBytes spi).length).toNat = (spiBytes spi).length := by
    rw [spiBytes]
    split
    · rw [length_netBytes]
      rfl
    · rfl
  rw [ikev2ParseNotifyPayload]
  simp only [hlen, hprotocol', hsize', htype', hspi', hsmall]
  congr 1
  by_cases h : data = []
  · rw [h, if_neg (by simp)]
  · have hpos := length_pos_iff.2 h
    have hcount : 8 + ((spiBytes spi).length + data.length) - 8 - (spiBytes spi).length = data.length := by omega
    rw [if_pos (by omega), hcount, hdata']

theorem addSpis_ends {c : PayloadChain} {before rest : List (BitVec 8)} {len : Nat} (h : c.Ends before len rest)
    (d : List Ikev2Delete) :
    (d.foldl (fun c d2 => c.ikev2PayloadAddData (netBytes 4 d2.spi.toNat)) c).Ends before
      (len + (d.map fun d2 => netBytes 4 d2.spi.toNat).flatten.length)
      (rest ++ (d.map fun d2 => netBytes 4 d2.spi.toNat).flatten) := by
  induction d generalizing c len rest with
  | nil =>
    rw [map_nil, flatten_nil, append_nil]
    exact h
  | cons d2 d ih =>
    have hstep := ih (h.addData (netBytes 4 d2.spi.toNat))
    rw [List.append_assoc] at hstep
    rw [foldl_cons, map_cons, flatten_cons, length_append, ← Nat.add_assoc]
    exact hstep

/-- The header is zeroed and then written at two places. -/
theorem addDelete_ends {c c' : PayloadChain} {d : List Ikev2Delete} (short : c.data.length < 2 ^ 16)
    {d0 : Ikev2Delete} (hd : d.head? = some d0) (h : ikev2PayloadAddDelete c d = some c') :
    ∃ before len, before.length = c.data.length ∧
      if d0.protocolId = protocolIke then c'.Ends before len ([1] ++ [0, 0, 0])
      else c'.Ends before len ([d0.protocolId, 4] ++ (netBytes 2 d.length ++
        (d.map fun d2 => netBytes 4 d2.spi.toNat).flatten)) := by
  obtain ⟨before, hbefore, hhdr⟩ := c.addHdr_ends 42 8 short
  have hzero : (c.ikev2PayloadAddHdr 42 8).Ends before 8 ([] ++ ([0] ++ [0, 0, 0])) := hhdr
  rw [ikev2PayloadAddDelete, hd] at h
  have h' := Option.some.inj h
  by_cases hike : d0.protocolId = protocolIke
  · have hput := hzero.put [1] rfl
    rw [hbefore] at hput
    simp only [if_pos hike] at h' ⊢
    rw [← h']
    exact ⟨before, 8, hbefore, hput⟩
  · have hprotocol := hzero.put [d0.protocolId] rfl
    rw [hbefore] at hprotocol
    have hnext : ((c.ikev2PayloadAddHdr 42 8).put c.data.length 4 [d0.protocolId]).Ends before 8
        ([d0.protocolId] ++ ([0] ++ [0, 0])) := hprotocol
    have hsize := hnext.put [4] rfl
    rw [hbefore] at hsize
    have hlast : (((c.ikev2PayloadAddHdr 42 8).put c.data.length 4 [d0.protocolId]).put c.data.length 5 [4]).Ends
        before 8 ([d0.protocolId, 4] ++ ([0, 0] ++ [])) := hsize
    have hcount := hlast.put (netBytes 2 d.length) (length_netBytes 2 _).symm
    rw [hbefore, append_nil] at hcount
    have hall := addSpis_ends hcount d
    rw [List.append_assoc] at hall
    simp only [if_neg hike] at h' ⊢
    rw [← h']
    exact ⟨before, _, hbefore, hall⟩

theorem parseDelete_addDelete (m : Memory) (base : Nat) {c c' : PayloadChain} {d : List Ikev2Delete}
    {protocol : BitVec 8} (short : c.data.length < 2 ^ 16) (one : ∀ x ∈ d, x.protocolId = protocol)
    (count : d.length < 2 ^ 16) (h : ikev2PayloadAddDelete c d = some c') :
    ikev2ParseDeletePayload (m.store base c'.data) (base + c.data.length)
      = if protocol = protocolIke then [⟨protocolIke, 0⟩] else d := by
  cases d with
  | nil => cases h
  | cons d0 ds =>
    have hfirst : d0.protocolId = protocol := one d0 mem_cons_self
    obtain ⟨before, len, hbefore, hends⟩ := addDelete_ends short head?_cons h
    rw [hfirst] at hends
    by_cases hike : protocol = protocolIke
    · rw [if_pos hike] at hends
      obtain ⟨_, hrest⟩ := hends.inMemory m base
      rw [hbefore, Memory.holds_append] at hrest
      have hprotocol : m.store base c'.data (base + c.data.length + 4) = protocolIke := hrest.1.byte
      rw [if_pos hike, ikev2ParseDeletePayload, hprotocol, if_pos rfl]
      rfl
    · rw [if_neg hike] at hends
      obtain ⟨_, hrest⟩ := hends.inMemory m base
      rw [hbefore, Memory.holds_append, Memory.holds_append] at hrest
      obtain ⟨hbytes, hcount, hspis⟩ := hrest
      generalize m.store base c'.data = m' at *
      generalize base + c.data.length = ikep at *
      have hprotocol : m' (ikep + 4) = protocol := hbytes.byte
      have hcount' : (m'.word 2 (ikep + 6)).toNat = (d0 :: ds).length :=
        hcount.toNat_word.trans (Nat.mod_eq_of_lt count)
      rw [if_neg hike, ikev2ParseDeletePayload, hprotocol, if_neg hike, hcount']
      apply ext_getElem
      · rw [length_map, length_range]
      · intro i hi hd
        have hspi : m'.word 4 (ikep + 8 + 4 * i) = (d0 :: ds)[i].spi :=
          (hspis.block (fun _ => length_netBytes 4 _) hd).word
        have hsame := one (d0 :: ds)[i] (getElem_mem hd)
        rw [getElem_map, getElem_range, hspi, ← hsame]

/-- Equal but for the ports. A port that its two bytes spell in either order is equal too. -/
structure SameSelector (sent read : Ikev2Ts) : Prop where
  tsType : read.tsType = sent.tsType
  protocolId : read.protocolId = sent.protocolId
  startAddr : read.startAddr = sent.startAddr
  endAddr : read.endAddr = sent.endAddr
  startPort : swapBytes sent.startPort = sent.startPort → read.startPort = sent.startPort
  endPort : swapBytes sent.endPort = sent.endPort → read.endPort = sent.endPort

/-- Selectors, notifies with the index in front of their data, and deletes of a protocol with indices. -/
theorem ikev2Payloads_comeBack (m : Memory) (base : Nat) (c : PayloadChain) (short : c.data.length < 2 ^ 16) :
    (∀ (ts : List Ikev2Ts) (type : BitVec 8), (∀ t ∈ ts, t.tsType = 7) → ts.length ≤ 255 →
      List.Forall₂ SameSelector ts
        (ikev2ParseTsPayload (m.store base (ikev2PayloadAddTs c ts type).data) (base + c.data.length))) ∧
    (∀ (msgType : BitVec 16) (data : List (BitVec 8)) (notify : Option Ikev2Notify),
      8 + (spiBytes (sentSpi notify) ++ data).length < 2 ^ 16 →
      ikev2ParseNotifyPayload
          (m.store base (ikev2PayloadAddNotify2 c msgType (spiBytes (sentSpi notify) ++ data) notify).data)
          (base + c.data.length)
        = { msgType, protocolId := sentProtocol notify, spi := sentSpi notify, data }) ∧
    ∀ (d : List Ikev2Delete) (protocol : BitVec 8), d ≠ [] → d.length < 2 ^ 16 →
      (∀ x ∈ d, x.protocolId = protocol) → ∃ c', ikev2PayloadAddDelete c d = some c' ∧
        ikev2ParseDeletePayload (m.store base c'.data) (base + c.data.length)
          = if protocol = protocolIke then [⟨protocolIke, 0⟩] else d := by
  refine ⟨?_, ?_, ?_⟩
  · intro ts type range count
    rw [parseTs_addTs m base type short range count, List.forall₂_map_right_iff, List.forall₂_same]
    intro t _
    exact ⟨rfl, rfl, rfl, rfl, id, id⟩
  · intro msgType data notify fits
    exact parseNotify_addNotify2 m base short fits
  · intro d protocol hne count one
    cases d with
    | nil => exact absurd rfl hne
    | cons d0 ds => exact ⟨_, rfl, parseDelete_addDelete m base short one count rfl⟩

theorem ikev2Payloads_comeBack_empty :
    ikev2ParseNotifyPayload
        (Memory.store (fun _ => 0) 0 (ikev2PayloadAddNotify2 ⟨0, 0, []⟩ 16393 [0, 0, 0, 5, 6]
          (some ⟨16393, 3, 5, [6]⟩)).data) 0
      = ⟨16393, 3, 5, [6]⟩ :=
  (ikev2Payloads_comeBack (fun _ => 0) 0 ⟨0, 0, []⟩ (by decide)).2.1 16393 [6] (some ⟨16393, 3, 5, [6]⟩) (by decide)

/-- The index of a notify is not written: the parser takes the first bytes of the data for it. -/
theorem notify_spi_fromData :
    ¬ ∀ (m : Memory) (base : Nat) (c : PayloadChain) (n : Ikev2Notify), c.data.length < 2 ^ 16 →
      8 + n.data.length < 2 ^ 16 →
      ikev2ParseNotifyPayload (m.store base (ikev2PayloadAddNotify2 c n.msgType n.data (some n)).data)
        (base + c.data.length) = n := by
  intro h
  have hsame := h (fun _ => 0) 0 ⟨0, 0, []⟩ ⟨16393, 3, 5, [1, 2, 3, 4, 6]⟩ (by decide) (by decide)
  exact absurd (congrArg Ikev2Notify.data hsame) (by decide)

end Vpp.Ipsec
