import Vpp.Ipsec.EspReplay

namespace Vpp.Ipsec
open Vpp.Lib

/-- The highest accepted 64-bit number. -/
def IpsecSa.top (sa : IpsecSa) : Nat := esnNumber sa.lastSeqHi sa.lastSeq

/-- The low word is dated below the window of the first 2^32 numbers, before number zero. -/
def IpsecSa.beforeStart (sa : IpsecSa) (seq : BitVec 32) : Prop :=
  sa.lastSeqHi = 0 ∧ sa.lastSeq.toNat < 63 ∧ sa.lastSeq.toNat + 2 ^ 32 ≤ seq.toNat + 63

/-- The low word passes 2^32 by less than a window, or the high word is exhausted. -/
def IpsecSa.shortWrap (sa : IpsecSa) (seq : BitVec 32) : Prop :=
  seq.toNat + 63 < sa.lastSeq.toNat ∧
    (seq.toNat + 2 ^ 32 < sa.lastSeq.toNat + 64 ∨ sa.lastSeqHi.toNat + 1 = 2 ^ 32)

instance (sa : IpsecSa) (seq : BitVec 32) : Decidable (sa.beforeStart seq) :=
  inferInstanceAs (Decidable (_ ∧ _ ∧ _))

instance (sa : IpsecSa) (seq : BitVec 32) : Decidable (sa.shortWrap seq) :=
  inferInstanceAs (Decidable (_ ∧ (_ ∨ _)))

def IpsecSa.esnSafe (sa : IpsecSa) (seq : BitVec 32) : Prop :=
  ¬ sa.beforeStart seq ∧ ¬ sa.shortWrap seq

instance (sa : IpsecSa) (seq : BitVec 32) : Decidable (sa.esnSafe seq) :=
  inferInstanceAs (Decidable (¬ _ ∧ ¬ _))

/-- What the check infers from the position of the low word relative to the window. -/
inductive EsnPlace (sa : IpsecSa) (seq : BitVec 32) : BitVec 32 → Nat → Prop where
  | above : sa.lastSeq.toNat < seq.toNat → EsnPlace sa seq sa.lastSeqHi 0
  | within : seq.toNat ≤ sa.lastSeq.toNat → sa.lastSeq.toNat - seq.toNat < 64 →
      EsnPlace sa seq sa.lastSeqHi (sa.windowBit (sa.lastSeq - seq))
  | wrapped : seq.toNat + 63 < sa.lastSeq.toNat → EsnPlace sa seq (sa.lastSeqHi + 1) 0
  | previous : sa.lastSeq.toNat < 63 → sa.lastSeq.toNat + 2 ^ 32 ≤ seq.toNat + 63 →
      EsnPlace sa seq (sa.lastSeqHi - 1) (sa.windowBit (sa.lastSeq - seq))

theorem espReplayCheckEsn_place (sa : IpsecSa) (seq : BitVec 32) :
    ∃ hi rv, espReplayCheckEsn sa seq = ({ sa with seqHi := hi }, rv) ∧ EsnPlace sa seq hi rv := by
  unfold espReplayCheckEsn espWindowSize
  by_cases hl : 64#32 - 1 ≤ sa.lastSeq
  · have hl' : 63 ≤ sa.lastSeq.toNat := hl
    by_cases hb : sa.lastSeq - 64#32 + 1 ≤ seq
    · have hb' : sa.lastSeq.toNat ≤ seq.toNat + 63 := by bv_omega
      by_cases hs : seq ≤ sa.lastSeq
      · refine ⟨_, _, by simp only [hl, hb, hs, ↓reduceIte], .within hs (by omega)⟩
      · refine ⟨_, _, by simp only [hl, hb, hs, ↓reduceIte], .above (by bv_omega)⟩
    · refine ⟨_, _, by simp only [hl, hb, ↓reduceIte], .wrapped (by bv_omega)⟩
  · have hl' : sa.lastSeq.toNat < 63 := by bv_omega
    by_cases hb : sa.lastSeq - 64#32 + 1 ≤ seq
    · refine ⟨_, _, by simp only [hl, hb, ↓reduceIte], .previous hl' (by bv_omega)⟩
    · by_cases hs : seq ≤ sa.lastSeq
      · have hs' : seq.toNat ≤ sa.lastSeq.toNat := hs
        refine ⟨_, _, by simp only [hl, hb, hs, ↓reduceIte], .within hs (by omega)⟩
      · refine ⟨_, _, by simp only [hl, hb, hs, ↓reduceIte], .above (by bv_omega)⟩

theorem espReplayAdvanceEsn_flags (sa : IpsecSa) (seq : BitVec 32) :
    (espReplayAdvanceEsn sa seq).useEsn = sa.useEsn ∧
      (espReplayAdvanceEsn sa seq).useAntiReplay = sa.useAntiReplay ∧
        (espReplayAdvanceEsn sa seq).seqHi = sa.seqHi := by
  unfold espReplayAdvanceEsn
  dsimp only
  split
  · exact ⟨rfl, rfl, rfl⟩
  · split
    · exact ⟨rfl, rfl, rfl⟩
    · split <;> exact ⟨rfl, rfl, rfl⟩

section Advance

variable {sa : IpsecSa} {seq : BitVec 32} {acc : List Nat}

theorem advance_above (h : ReplayInv sa.top sa.replayWindow acc)
    (hlt : sa.lastSeq.toNat < seq.toNat) :
    ReplayInv (espReplayAdvanceEsn { sa with seqHi := sa.lastSeqHi } seq).top
      (espReplayAdvanceEsn { sa with seqHi := sa.lastSeqHi } seq).replayWindow
      (esnNumber sa.lastSeqHi seq :: acc) := by
  have hlt' : sa.lastSeq < seq := hlt
  have hd : esnNumber sa.lastSeqHi seq - sa.top = (seq - sa.lastSeq).toNat := by
    rw [BitVec.toNat_sub_of_le (BitVec.le_of_lt hlt'), IpsecSa.top, esnNumber, esnNumber]
    omega
  have ha := h.advance (x := esnNumber sa.lastSeqHi seq)
    (by rw [IpsecSa.top, esnNumber, esnNumber]; omega)
  have hw : seq - sa.lastSeq < espWindowSize ↔ (seq - sa.lastSeq).toNat < 64 := Iff.rfl
  rw [hd, ← if_congr hw rfl rfl] at ha
  simpa only [espReplayAdvanceEsn, BitVec.sub_self, BitVec.toInt_zero, hlt', and_self,
    ↓reduceIte, IpsecSa.top] using ha

theorem advance_within (h : ReplayInv sa.top sa.replayWindow acc)
    (hle : seq.toNat ≤ sa.lastSeq.toNat) (hd : sa.lastSeq.toNat - seq.toNat < 64)
    (hn : esnNumber sa.lastSeqHi seq ∉ acc) :
    ReplayInv (espReplayAdvanceEsn { sa with seqHi := sa.lastSeqHi } seq).top
      (espReplayAdvanceEsn { sa with seqHi := sa.lastSeqHi } seq).replayWindow
      (esnNumber sa.lastSeqHi seq :: acc) := by
  have hlt : ¬ sa.lastSeq < seq := BitVec.not_lt.mpr hle
  have he : sa.top - esnNumber sa.lastSeqHi seq = (sa.lastSeq - seq).toNat := by
    rw [BitVec.toNat_sub_of_le hle, IpsecSa.top, esnNumber, esnNumber]
    omega
  have ha := h.late (x := esnNumber sa.lastSeqHi seq)
    (by rw [IpsecSa.top, esnNumber, esnNumber]; omega)
    (by rw [IpsecSa.top, esnNumber, esnNumber]; omega) hn
  rw [he] at ha
  simpa only [espReplayAdvanceEsn, BitVec.sub_self, BitVec.toInt_zero, hlt, and_false, lt_irrefl,
    ↓reduceIte, IpsecSa.top] using ha

theorem advance_wrapped (h : ReplayInv sa.top sa.replayWindow acc)
    (hlt : seq.toNat + 63 < sa.lastSeq.toNat) (hs : ¬ sa.shortWrap seq) :
    ReplayInv (espReplayAdvanceEsn { sa with seqHi := sa.lastSeqHi + 1 } seq).top
      (espReplayAdvanceEsn { sa with seqHi := sa.lastSeqHi + 1 } seq).replayWindow
      (esnNumber (sa.lastSeqHi + 1) seq :: acc) := by
  have hfar : sa.lastSeq.toNat + 64 ≤ seq.toNat + 2 ^ 32 ∧ sa.lastSeqHi.toNat + 1 ≠ 2 ^ 32 := by
    refine ⟨?_, fun hc => hs ⟨hlt, .inr hc⟩⟩
    by_contra hc
    exact hs ⟨hlt, .inl (by omega)⟩
  have hw : sa.lastSeqHi + 1 - sa.lastSeqHi = 1#32 := by bv_omega
  have hi : (1#32).toInt = 1 := by decide
  have hhi : (sa.lastSeqHi + 1).toNat = sa.lastSeqHi.toNat + 1 := by bv_omega
  have hpos : ¬ ~~~seq + sa.lastSeq + 1 < espWindowSize := by
    unfold espWindowSize
    bv_omega
  have ha := h.advance (x := esnNumber (sa.lastSeqHi + 1) seq)
    (by rw [IpsecSa.top, esnNumber, esnNumber]; omega)
  rw [if_neg (by rw [IpsecSa.top, esnNumber, esnNumber]; omega)] at ha
  simpa only [espReplayAdvanceEsn, hw, hi, one_ne_zero, false_and, Int.zero_lt_one, hpos,
    ↓reduceIte, IpsecSa.top] using ha

theorem previous_distance (hlt : sa.lastSeq.toNat < 63)
    (hge : sa.lastSeq.toNat + 2 ^ 32 ≤ seq.toNat + 63) (hs : ¬ sa.beforeStart seq) :
    esnNumber (sa.lastSeqHi - 1) seq ≤ sa.top ∧
      sa.top - esnNumber (sa.lastSeqHi - 1) seq = (sa.lastSeq - seq).toNat ∧
        (sa.lastSeq - seq).toNat < 64 := by
  have hne : sa.lastSeqHi ≠ 0 := fun he => hs ⟨he, hlt, hge⟩
  have hhi : (sa.lastSeqHi - 1).toNat + 1 = sa.lastSeqHi.toNat := by bv_omega
  have hd : (sa.lastSeq - seq).toNat = sa.lastSeq.toNat + 2 ^ 32 - seq.toNat := by bv_omega
  rw [IpsecSa.top, esnNumber, esnNumber, hd]
  omega

theorem advance_previous (h : ReplayInv sa.top sa.replayWindow acc)
    (hlt : sa.lastSeq.toNat < 63) (hge : sa.lastSeq.toNat + 2 ^ 32 ≤ seq.toNat + 63)
    (hs : ¬ sa.beforeStart seq) (hn : esnNumber (sa.lastSeqHi - 1) seq ∉ acc) :
    ReplayInv (espReplayAdvanceEsn { sa with seqHi := sa.lastSeqHi - 1 } seq).top
      (espReplayAdvanceEsn { sa with seqHi := sa.lastSeqHi - 1 } seq).replayWindow
      (esnNumber (sa.lastSeqHi - 1) seq :: acc) := by
  obtain ⟨hle, hd, h64⟩ := previous_distance hlt hge hs
  have hw : sa.lastSeqHi - 1 - sa.lastSeqHi = 4294967295#32 := by bv_omega
  have hi : (4294967295#32).toInt = -1 := by decide
  have hpos : ~~~seq + sa.lastSeq + 1 = sa.lastSeq - seq := by bv_omega
  have ha := h.late hle (by rw [hd]; exact h64) hn
  rw [hd] at ha
  have hne : ¬ ((-1 : Int) = 0 ∧ sa.lastSeq < seq) := by simp
  have hnp : ¬ (0 : Int) < -1 := by decide
  have hng : (-1 : Int) < 0 := by decide
  simpa only [espReplayAdvanceEsn, hw, hi, hne, hnp, hng, hpos, ↓reduceIte, IpsecSa.top] using
    ha

end Advance

structure EspRun.EsnInv (r : EspRun) : Prop where
  esn : r.sa.useEsn = true
  active : r.sa.useAntiReplay = true
  inv : ReplayInv r.sa.top r.sa.replayWindow r.accepted

theorem EspRun.EsnInv.setHi (h : EspRun.EsnInv r) (hi : BitVec 32) :
    EspRun.EsnInv ⟨{ r.sa with seqHi := hi }, r.accepted⟩ := ⟨h.esn, h.active, h.inv⟩

/-- An accepted number of a safe packet is new, and advancing records it. -/
theorem EspRun.EsnInv.advance (h : EspRun.EsnInv r) (hs : r.sa.esnSafe seq)
    (hp : EsnPlace r.sa seq hi 0) :
    ReplayInv (espReplayAdvanceEsn { r.sa with seqHi := hi } seq).top
      (espReplayAdvanceEsn { r.sa with seqHi := hi } seq).replayWindow
      (esnNumber hi seq :: r.accepted) := by
  generalize hz : 0 = rv at hp
  cases hp with
  | above hlt => exact advance_above h.inv hlt
  | within hle hd =>
    apply advance_within h.inv hle hd
    intro hm
    refine (windowBit_ne_zero r.sa (r.sa.lastSeq - seq)).mpr ?_ hz.symm
    have he : r.sa.top - esnNumber r.sa.lastSeqHi seq = (r.sa.lastSeq - seq).toNat := by
      rw [BitVec.toNat_sub_of_le hle, IpsecSa.top, esnNumber, esnNumber]
      omega
    rw [← he]
    refine (h.inv.unseen ?_ ?_).mpr hm <;> rw [IpsecSa.top, esnNumber, esnNumber] <;> omega
  | wrapped hlt => exact advance_wrapped h.inv hlt hs.2
  | previous hlt hge =>
    apply advance_previous h.inv hlt hge hs.1
    intro hm
    refine (windowBit_ne_zero r.sa (r.sa.lastSeq - seq)).mpr ?_ hz.symm
    obtain ⟨hle, hd, h64⟩ := previous_distance hlt hge hs.1
    rw [← hd]
    exact (h.inv.unseen hle (by rw [hd]; exact h64)).mpr hm

theorem espDecrypt_esn {sa sa' : IpsecSa} (he : sa.useEsn = true)
    (ha : sa.useAntiReplay = true) (hc : espReplayCheckEsn sa pkt.seq = (sa', rv)) :
    espDecrypt sa pkt = if rv ≠ 0 then (sa', .replay)
      else if pkt.icvOk = false then (sa', .integError)
      else (espReplayAdvanceEsn sa' pkt.seq, .ok) := by
  simp only [espDecrypt, he, ha, hc, ↓reduceIte]

theorem EspRun.EsnInv.receive (h : EspRun.EsnInv r) (pkt : EspPacket)
    (hs : pkt.icvOk = true → r.sa.esnSafe pkt.seq) : EspRun.EsnInv (r.receive pkt) := by
  obtain ⟨hi, rv, hc, hp⟩ := espReplayCheckEsn_place r.sa pkt.seq
  unfold EspRun.receive
  rw [espDecrypt_esn h.esn h.active hc]
  by_cases hz : rv = 0
  · subst hz
    cases hk : pkt.icvOk with
    | false => exact h.setHi hi
    | true =>
      have hf := espReplayAdvanceEsn_flags { r.sa with seqHi := hi } pkt.seq
      have hn : espNumber (espReplayAdvanceEsn { r.sa with seqHi := hi } pkt.seq) pkt.seq =
          esnNumber hi pkt.seq := by
        rw [espNumber, hf.1, hf.2.2]
        exact if_pos h.esn
      refine ⟨hf.1.trans h.esn, hf.2.1.trans h.active, ?_⟩
      have ha := h.advance (hs hk) hp
      rw [← hn] at ha
      exact ha
  · rw [if_pos hz]
    exact h.setHi hi

def EspRun.Safe : EspRun → List EspPacket → Prop
  | _, [] => True
  | r, pkt :: pkts =>
    (pkt.icvOk = true → r.sa.esnSafe pkt.seq) ∧ EspRun.Safe (r.receive pkt) pkts

instance EspRun.decidableSafe : (r : EspRun) → (pkts : List EspPacket) → Decidable (r.Safe pkts)
  | _, [] => inferInstanceAs (Decidable True)
  | r, pkt :: pkts =>
    have := EspRun.decidableSafe (r.receive pkt) pkts
    inferInstanceAs (Decidable ((_ → _) ∧ _))

theorem EspRun.EsnInv.foldl (h : EspRun.EsnInv r) (hs : EspRun.Safe r pkts) :
    EspRun.EsnInv (pkts.foldl EspRun.receive r) := by
  induction pkts generalizing r with
  | nil => exact h
  | cons pkt pkts ih => exact ih (h.receive pkt hs.1) hs.2

/-- In a run of safe packets no 64-bit number is accepted twice, and each bit of the window
records the number at its distance below the highest accepted one. -/
theorem esp_esn_window (pkts : List EspPacket) (hs : EspRun.Safe ⟨freshSa true, []⟩ pkts) :
    (espRun true pkts).accepted.Nodup ∧
      ∀ top ∈ (espRun true pkts).accepted, (∀ x ∈ (espRun true pkts).accepted, x ≤ top) →
        ∀ d, d < 64 → ((espRun true pkts).sa.replayWindow.getLsbD d = true ↔
          d ≤ top ∧ top - d ∈ (espRun true pkts).accepted) := by
  have h0 : EspRun.EsnInv ⟨freshSa true, []⟩ := ⟨rfl, rfl, ReplayInv.fresh⟩
  have h := h0.foldl hs
  refine ⟨h.inv.nodup, ?_⟩
  intro top ht hmax d hd
  have hne : (espRun true pkts).accepted ≠ [] := List.ne_nil_of_mem ht
  have he : top = (espRun true pkts).sa.top :=
    Nat.le_antisymm (h.inv.window.le_top top ht) (hmax _ (h.inv.top_mem hne))
  rw [he]
  exact h.inv.window.bit d hd

/-- A run whose packets arrive out of order around number 70. -/
def esnSample : List EspPacket := [⟨70, true⟩, ⟨68, true⟩, ⟨3, true⟩, ⟨70, true⟩]

theorem esp_esn_window_sample :
    EspRun.Safe ⟨freshSa true, []⟩ esnSample ∧ (espRun true esnSample).accepted.Nodup :=
  ⟨by decide, (esp_esn_window esnSample (by decide)).1⟩

/-- When the low word passes 2^32 by a few numbers the bitmap is lost, and an old number is
accepted a second time. -/
theorem esp_esn_accepts_replay :
    ¬ (espRun true [⟨0x80000000, true⟩, ⟨0xfffffffe, true⟩, ⟨1, true⟩,
      ⟨0xfffffffe, true⟩]).accepted.Nodup := by decide

end Vpp.Ipsec
