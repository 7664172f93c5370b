import Vpp.Bfd.AuthKeys

namespace Vpp.Bfd

def InSeqWindow (remoteSeqNumber : BitVec 32) (detectMult : BitVec 8) (isMeticulous : Bool) (received : BitVec 32) :
    Prop :=
  isMeticulous.toNat ≤ (received - remoteSeqNumber).toNat ∧ (received - remoteSeqNumber).toNat ≤ 3 * detectMult.toNat

theorem window_toNat (m : BitVec 8) : (3 * m.setWidth 32 : BitVec 32).toNat = 3 * m.toNat := by
  have hm := m.isLt
  have h3 : (3 : BitVec 32).toNat = 3 := rfl
  rw [BitVec.toNat_mul, BitVec.toNat_setWidth, Nat.mod_eq_of_lt (show m.toNat < 2 ^ 32 by omega), h3]
  exact Nat.mod_eq_of_lt (by omega)

/-- The test of a known remote sequence number, in both of its cases. -/
theorem verifySeqNum_known {bs : BfdSession} (hknown : bs.auth.remoteSeqNumberKnown)
    (hfresh : ¬ bs.detectionTimeClocks * 2 < now - bs.lastRxClocks) (s : BitVec 32) (isMeticulous : Bool) :
    (bfdVerifyPktAuthSeqNum bs s isMeticulous now).2 = true ↔
      if 2 ^ 32 ≤ bs.auth.remoteSeqNumber.toNat + 3 * bs.localDetectMult.toNat then
        s.toNat ≤ bs.auth.remoteSeqNumber.toNat + 3 * bs.localDetectMult.toNat - (2 ^ 32 - 1) ∨
          (bs.auth.remoteSeqNumber.toNat + isMeticulous.toNat) % 2 ^ 32 ≤ s.toNat
      else (bs.auth.remoteSeqNumber.toNat + isMeticulous.toNat) % 2 ^ 32 ≤ s.toNat ∧
        s.toNat ≤ bs.auth.remoteSeqNumber.toNat + 3 * bs.localDetectMult.toNat := by
  have hw := window_toNat bs.localDetectMult
  have hm := bs.localDetectMult.isLt
  have hr := bs.auth.remoteSeqNumber.isLt
  simp only [bfdVerifyPktAuthSeqNum, hfresh, ↓reduceIte, hknown]
  generalize bs.auth.remoteSeqNumber = r at hr ⊢
  rw [← hw]
  generalize (3 * bs.localDetectMult.setWidth 32 : BitVec 32) = window at hw ⊢
  have hmax : (0xffffffff : BitVec 32).toNat = 2 ^ 32 - 1 := rfl
  have hz : (0xffffffff - r).toNat = 2 ^ 32 - 1 - r.toNat := by
    rw [BitVec.toNat_sub_of_le (BitVec.le_def.mpr (by omega)), hmax]
  have hcase : 0xffffffff - window < r ↔ 2 ^ 32 ≤ r.toNat + window.toNat := by
    rw [BitVec.lt_def, BitVec.toNat_sub_of_le (BitVec.le_def.mpr (by omega)), hmax]
    omega
  have hfirst : (r + if isMeticulous then 1 else 0).toNat = (r.toNat + isMeticulous.toNat) % 2 ^ 32 := by
    rw [BitVec.toNat_add]
    cases isMeticulous <;> rfl
  by_cases hwrap : 2 ^ 32 ≤ r.toNat + window.toNat
  · have hx : (window - (0xffffffff - r)).toNat = r.toNat + window.toNat - (2 ^ 32 - 1) := by
      rw [BitVec.toNat_sub_of_le (BitVec.le_def.mpr (by omega)), hz]
      omega
    rw [if_pos (hcase.mpr hwrap), if_pos hwrap, decide_eq_true_iff, not_and_or, BitVec.not_lt, BitVec.not_lt,
      BitVec.le_def, BitVec.le_def, hx, hfirst]
  · have hend : (r + window).toNat = r.toNat + window.toNat := by
      rw [BitVec.toNat_add]
      exact Nat.mod_eq_of_lt (by omega)
    rw [if_neg (mt hcase.mp hwrap), if_neg hwrap, decide_eq_true_iff, not_or, BitVec.not_lt, BitVec.not_lt,
      BitVec.le_def, BitVec.le_def, hend, hfirst]

theorem seqDistance (s r : BitVec 32) :
    (s - r).toNat = if r.toNat ≤ s.toNat then s.toNat - r.toNat else 2 ^ 32 + s.toNat - r.toNat := by
  have hr := r.isLt
  have hs := s.isLt
  rw [BitVec.toNat_sub]
  split <;> omega

/-- The test accepts exactly the window, but for the number right behind a window that wraps around, and but for a
meticulous session whose last number is the greatest one, where there is no lower bound. -/
theorem bfd_verify_seq_num_window (bs : BfdSession) (now : BitVec 64) (hknown : bs.auth.remoteSeqNumberKnown)
    (hfresh : ¬ bs.detectionTimeClocks * 2 < now - bs.lastRxClocks) (s : BitVec 32) (isMeticulous : Bool) :
    ((bfdVerifyPktAuthSeqNum bs s isMeticulous now).2 = true ↔
        InSeqWindow bs.auth.remoteSeqNumber bs.localDetectMult isMeticulous s) ↔
      ¬ (2 ^ 32 ≤ bs.auth.remoteSeqNumber.toNat + 3 * bs.localDetectMult.toNat ∧
          (s - bs.auth.remoteSeqNumber).toNat = 3 * bs.localDetectMult.toNat + 1) ∧
        ¬ (isMeticulous ∧ bs.auth.remoteSeqNumber.toNat = 2 ^ 32 - 1 ∧
          3 * bs.localDetectMult.toNat ≤ s.toNat) := by
  have hm := bs.localDetectMult.isLt
  have hr := bs.auth.remoteSeqNumber.isLt
  have hs := s.isLt
  have hdist := seqDistance s bs.auth.remoteSeqNumber
  rw [verifySeqNum_known hknown hfresh, InSeqWindow]
  generalize bs.auth.remoteSeqNumber.toNat = r, (s - bs.auth.remoteSeqNumber).toNat = dist at *
  cases isMeticulous with
  | false =>
    -- only the number behind the window is wrong
    simp only [Bool.toNat_false, Nat.add_zero, Nat.mod_eq_of_lt hr, Bool.false_eq_true, false_and, not_false_eq_true,
      and_true]
    split at hdist <;> split <;> omega
  | true =>
    simp only [Bool.toNat_true, true_and]
    by_cases hlast : r = 2 ^ 32 - 1
    · subst hlast
      split at hdist <;> split <;> omega
    · rw [Nat.mod_eq_of_lt (by omega)]
      split at hdist <;> split <;> omega

def wrapSession : BfdSession :=
  { (default : BfdSession) with
    localDetectMult := 3
    auth := { (default : BfdAuth) with
      remoteSeqNumber := 0xffffffff
      remoteSeqNumberKnown := true } }

theorem bfd_verify_seq_num_window_wrap :
    (bfdVerifyPktAuthSeqNum wrapSession 4 true 0).2 = true ↔ InSeqWindow 0xffffffff 3 true 4 :=
  (bfd_verify_seq_num_window wrapSession 0 (by decide) (by decide) 4 true).mpr (by decide)

/-- After the greatest number a meticulous session takes any number, however old. -/
theorem bfd_verify_seq_num_replay : ¬ ∀ (bs : BfdSession) (now : BitVec 64), bs.auth.remoteSeqNumberKnown →
    ¬ bs.detectionTimeClocks * 2 < now - bs.lastRxClocks → ∀ (s : BitVec 32) (isMeticulous : Bool),
      (bfdVerifyPktAuthSeqNum bs s isMeticulous now).2 = true ↔
        InSeqWindow bs.auth.remoteSeqNumber bs.localDetectMult isMeticulous s := by
  intro hall
  have hin := (hall wrapSession 0 (by decide) (by decide) 0x80000000 true).mp (by decide)
  exact absurd hin.2 (by decide)

end Vpp.Bfd
