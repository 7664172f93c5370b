import Vpp.Lib.NetBytes
import Vpp.Lib.Splice

namespace Vpp.Ipsec
open Vpp.Lib List

/-- The payloads of a message. Each one's header begins with the type of the next one. -/
structure PayloadChain where
  firstPayloadType : BitVec 8
  lastHdrOff : Nat
  data : List (BitVec 8)

namespace PayloadChain

/-- A zeroed header of `len` bytes, of which the length is filled in. Its offset is kept in 16 bits. -/
def ikev2PayloadAddHdr (c : PayloadChain) (payloadType : BitVec 8) (len : Nat) : PayloadChain :=
  { firstPayloadType := if c.data = [] then payloadType else c.firstPayloadType
    lastHdrOff := c.data.length % 2 ^ 16
    data := c.data.set c.lastHdrOff payloadType ++
      (List.replicate 2 0 ++ (netBytes 2 len ++ List.replicate (len - 4) 0)) }

/-- Write into a header, `off` bytes from its start. -/
def put (c : PayloadChain) (hdr off : Nat) (bytes : List (BitVec 8)) : PayloadChain :=
  { c with data := splice c.data (hdr + off) bytes }

/-- The bytes go to the end, and their number into the last header. -/
def ikev2PayloadAddData (c : PayloadChain) (data : List (BitVec 8)) : PayloadChain :=
  let all := c.data ++ data
  let len := netWord 2 all (c.lastHdrOff + 2)
  { c with data := splice all (c.lastHdrOff + 2) (netBytes 2 (len.toNat + data.length)) }

/-- The last payload of the chain comes after `before`: its length field and what is behind it. -/
structure Ends (c : PayloadChain) (before : List (BitVec 8)) (len : Nat) (rest : List (BitVec 8)) : Prop where
  data : c.data = before ++ (List.replicate 2 0 ++ (netBytes 2 len ++ rest))
  off : c.lastHdrOff = before.length

theorem addHdr_ends (c : PayloadChain) (payloadType : BitVec 8) (len : Nat) (short : c.data.length < 2 ^ 16) :
    ∃ before, before.length = c.data.length ∧
      (ikev2PayloadAddHdr c payloadType len).Ends before len (List.replicate (len - 4) 0) := by
  refine ⟨c.data.set c.lastHdrOff payloadType, length_set, rfl, ?_⟩
  rw [length_set]
  exact Nat.mod_eq_of_lt short

theorem Ends.put {c : PayloadChain} {before pre old post : List (BitVec 8)} {len : Nat}
    (h : c.Ends before len (pre ++ (old ++ post))) (new : List (BitVec 8)) (same : old.length = new.length) :
    (c.put before.length (4 + pre.length) new).Ends before len (pre ++ (new ++ post)) := by
  have hsplit : before ++ (List.replicate 2 0 ++ (netBytes 2 len ++ (pre ++ (old ++ post))))
      = before ++ List.replicate 2 0 ++ netBytes 2 len ++ pre ++ (old ++ post) := by
    simp only [List.append_assoc]
  have hlen : before.length + (4 + pre.length)
      = (before ++ List.replicate 2 (0 : BitVec 8) ++ netBytes 2 len ++ pre).length := by
    simp only [length_append, length_replicate, length_netBytes]
    omega
  constructor
  · rw [PayloadChain.put, h.data, hsplit, hlen]
    dsimp only
    rw [splice_mid _ _ same]
    simp only [List.append_assoc]
  · exact h.off

theorem Ends.addData {c : PayloadChain} {before rest : List (BitVec 8)} {len : Nat}
    (h : c.Ends before len rest) (data : List (BitVec 8)) :
    (c.ikev2PayloadAddData data).Ends before (len + data.length) (rest ++ data) := by
  have hall : c.data ++ data
      = before ++ List.replicate 2 0 ++ (netBytes 2 len ++ (rest ++ data)) := by
    rw [h.data]
    simp only [List.append_assoc]
  have hoff : c.lastHdrOff + 2 = (before ++ List.replicate 2 (0 : BitVec 8)).length := by
    rw [h.off, length_append, length_replicate]
  have hlen : (netWord 2 (c.data ++ data) (c.lastHdrOff + 2)).toNat = len % 256 ^ 2 := by
    rw [hall, hoff]
    exact (congrArg BitVec.toNat (netWord_append _ _ 0)).trans (toNat_netWord len _)
  constructor
  · rw [ikev2PayloadAddData]
    dsimp only
    have hsum : len % 256 ^ 2 + data.length ≡ len + data.length [MOD 256 ^ 2] :=
      (Nat.mod_modEq len _).add_right _
    rw [hlen, netBytes_congr hsum, hall, hoff, splice_mid _ _ (by rw [length_netBytes, length_netBytes])]
    simp only [List.append_assoc]
  · exact h.off

theorem Ends.inMemory {c : PayloadChain} {before rest : List (BitVec 8)} {len : Nat} (h : c.Ends before len rest)
    (m : Memory) (base : Nat) :
    ((m.store base c.data).word 2 (base + before.length + 2)).toNat = len % 2 ^ 16 ∧
      (m.store base c.data).Holds (base + before.length + 4) rest := by
  have hholds : (m.store base c.data).Holds base c.data := m.store_holds base _
  generalize m.store base c.data = m' at *
  rw [h.data, Memory.holds_append, Memory.holds_append, Memory.holds_append] at hholds
  obtain ⟨_, _, hlen, hrest⟩ := hholds
  exact ⟨hlen.toNat_word, hrest⟩

end PayloadChain

end Vpp.Ipsec
