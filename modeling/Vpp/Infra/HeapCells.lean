import Vpp.Infra.Heap
import Mathlib.Data.List.Pairwise

namespace Vpp.Infra
open Vpp.Lib List

theorem heapOffset_eq (e : HeapElt) : e.heapOffset = e.offset.toNat % 2 ^ 31 := by
  have hmask : (~~~heapEltFreeBit).toNat = 2 ^ 31 - 1 := by decide
  rw [HeapElt.heapOffset, BitVec.toNat_and, hmask, Nat.and_two_pow_sub_one_eq_mod]

theorem isFree_eq (e : HeapElt) : e.isFree = decide (2 ^ 31 ≤ e.offset.toNat) := by
  have hbit : heapEltFreeBit = BitVec.twoPow 32 31 := by decide
  have hmsb : e.offset.getLsbD 31 = decide (2 ^ 31 ≤ e.offset.toNat) := by
    rw [← BitVec.msb_eq_decide e.offset, BitVec.msb_eq_getLsbD_last]
  rw [HeapElt.isFree, hbit, BitVec.and_twoPow, hmsb]
  cases decide (2 ^ 31 ≤ e.offset.toNat) with
  | false => decide
  | true => decide

theorem toNat_or_freeBit (o : BitVec 32) : (o ||| heapEltFreeBit).toNat = 2 ^ 31 + o.toNat % 2 ^ 31 := by
  have hbit : heapEltFreeBit.toNat = 2 ^ 31 := by decide
  have hor := Nat.two_pow_add_eq_or_of_lt (Nat.mod_lt o.toNat (Nat.two_pow_pos 31)) 1
  rw [Nat.mul_one] at hor
  rw [hor, BitVec.toNat_or, hbit]
  apply Nat.eq_of_testBit_eq
  intro i
  rw [Nat.testBit_or, Nat.testBit_or, Nat.testBit_two_pow, Nat.testBit_mod_two_pow]
  by_cases hi : 31 < i
  · have hlt : o.toNat < 2 ^ i := Nat.lt_of_lt_of_le o.isLt (Nat.pow_le_pow_right (by decide) hi)
    rw [Nat.testBit_lt_two_pow hlt]
    simp
  · by_cases hi' : 31 = i
    · simp [hi']
    · have hlt : i < 31 := by omega
      simp [hi', hlt]

theorem maxLog2_le_iff (hx : 0 < x) : maxLog2 x ≤ k ↔ x ≤ 2 ^ k := by
  have hlo : 2 ^ x.log2 ≤ x := Nat.log2_self_le (by omega)
  have hhi : x < 2 ^ (x.log2 + 1) := Nat.lt_log2_self
  simp only [maxLog2]
  by_cases hgt : x > 2 ^ x.log2
  · rw [if_pos hgt]
    constructor
    · exact fun hk => Nat.le_trans (Nat.le_of_lt hhi) (Nat.pow_le_pow_right (by decide) hk)
    · exact fun hk => (Nat.pow_lt_pow_iff_right (by decide : 1 < 2)).mp (Nat.lt_of_lt_of_le hgt hk)
  · rw [if_neg hgt]
    constructor
    · exact fun hk => Nat.le_trans (by omega) (Nat.pow_le_pow_right (by decide) hk)
    · exact fun hk => (Nat.pow_le_pow_iff_right (by decide : 1 < 2)).mp (Nat.le_trans hlo hk)

theorem sizeToBin_small (hx : 0 < x) (h32 : x ≤ 32) : sizeToBin x = x - 1 := by
  rw [sizeToBin, if_pos (show x ≤ heapSmallBins from h32), if_neg (by omega)]

theorem sizeToBin_large (hx : 32 < x) (h31 : x ≤ 2 ^ 31) : sizeToBin x = 26 + maxLog2 x ∧ 6 ≤ maxLog2 x := by
  have hlt : ¬ maxLog2 x ≤ 5 := by
    rw [maxLog2_le_iff (by omega)]
    omega
  have hle : maxLog2 x ≤ 31 := (maxLog2_le_iff (by omega)).mpr h31
  have hbin : ¬ heapSmallBins + maxLog2 x - (5 + 1) ≥ heapNBins := by
    rw [heapSmallBins, heapNBins]
    omega
  rw [sizeToBin, if_neg (show ¬ x ≤ heapSmallBins from by rw [heapSmallBins]; omega)]
  simp only [if_neg hbin]
  rw [heapSmallBins]
  omega

/-- Two blocks do not both have the bin of a block that is as large as both together. -/
theorem sizeToBin_ne (hx : 0 < x) (hy : 0 < y) (hle : x + y ≤ t) (h31 : t ≤ 2 ^ 31)
    (hbin : sizeToBin x = sizeToBin t) : sizeToBin y ≠ sizeToBin t := by
  intro hbin'
  by_cases ht : t ≤ 32
  · rw [sizeToBin_small hx (by omega), sizeToBin_small (by omega) ht] at hbin
    omega
  · obtain ⟨htb, ht6⟩ := sizeToBin_large (by omega) h31
    have hlog (z : Nat) (hz : 0 < z) (hzt : z ≤ t) (hb : sizeToBin z = sizeToBin t) : maxLog2 z = maxLog2 t := by
      by_cases hz32 : z ≤ 32
      · rw [sizeToBin_small hz hz32, htb] at hb
        omega
      · have hzb := (sizeToBin_large (by omega) (Nat.le_trans hzt h31)).1
        omega
    have hlx := hlog x hx (by omega) hbin
    have hly := hlog y hy (by omega) hbin'
    obtain ⟨k, hk⟩ : ∃ k, maxLog2 t = k + 1 := ⟨maxLog2 t - 1, by omega⟩
    have htop : t ≤ 2 ^ (k + 1) := (maxLog2_le_iff (by omega)).mp (Nat.le_of_eq hk)
    have hx' : ¬ x ≤ 2 ^ k := by
      rw [← maxLog2_le_iff hx]
      omega
    have hy' : ¬ y ≤ 2 ^ k := by
      rw [← maxLog2_le_iff hy]
      omega
    rw [Nat.pow_succ] at htop
    omega

structure Cell where
  idx : Nat
  off : Nat
  size : Nat
  free : Bool

def Cell.word (c : Cell) : BitVec 32 :=
  if c.free then BitVec.ofNat 32 c.off ||| heapEltFreeBit else BitVec.ofNat 32 c.off

theorem mem_middle {xs ys : List Cell} : z ∈ xs ++ c :: ys ↔ z = c ∨ z ∈ xs ++ ys := by
  rw [mem_append, mem_cons, mem_append]
  tauto

theorem idx_ne_middle (hnd : ((xs ++ c :: ys).map Cell.idx).Nodup) (hd : d ∈ xs ++ ys) : d.idx ≠ c.idx := by
  intro he
  rw [map_append, map_cons] at hnd
  apply (nodup_cons.mp (nodup_middle.mp hnd)).1
  rw [← he, ← map_append]
  exact List.mem_map_of_mem hd

/-- The blocks from `o` to `len`, one behind the other and none empty. -/
def Tiled : (o : Nat) → List Cell → (len : Nat) → Prop
  | o, [], len => o = len
  | o, c :: cs, len => c.off = o ∧ 0 < c.size ∧ Tiled (o + c.size) cs len

theorem tiled_append : Tiled o (xs ++ ys) len ↔ ∃ m, Tiled o xs m ∧ Tiled m ys len := by
  induction xs generalizing o with
  | nil => simp [Tiled]
  | cons x xs ih =>
    rw [List.cons_append, Tiled, ih]
    simp [Tiled, and_assoc]

theorem Tiled.le (h : Tiled o cs len) : o ≤ len := by
  induction cs generalizing o with
  | nil => exact Nat.le_of_eq h
  | cons c cs ih => exact Nat.le_trans (Nat.le_add_right _ _) (ih h.2.2)

theorem Tiled.bounds (h : Tiled o cs len) (hc : c ∈ cs) : o ≤ c.off ∧ 0 < c.size ∧ c.off + c.size ≤ len := by
  obtain ⟨xs, ys, rfl⟩ := append_of_mem hc
  obtain ⟨m, hx, rfl, hs, hy⟩ := tiled_append.mp h
  exact ⟨hx.le, hs, hy.le⟩

theorem Tiled.pairwise (h : Tiled o cs len) : cs.Pairwise fun a b => a.off + a.size ≤ b.off := by
  induction cs generalizing o with
  | nil => exact .nil
  | cons c cs ih =>
    obtain ⟨rfl, hs, hrest⟩ := h
    exact pairwise_cons.mpr ⟨fun d hd => (hrest.bounds hd).1, ih hrest⟩

theorem Tiled.sum (h : Tiled o cs len) : o + (cs.map Cell.size).sum = len := by
  induction cs generalizing o with
  | nil => exact h
  | cons c cs ih =>
    obtain ⟨-, -, hrest⟩ := h
    rw [map_cons, sum_cons, ← Nat.add_assoc]
    exact ih hrest

/-- The chain is `pre` and then the elements of `cs`, whose blocks tile the vector from `o` on. -/
structure Layout (h : Heap) (pre : List Nat) (o : Nat) (cs : List Cell) : Prop where
  linked : h.elts.Linked (pre ++ cs.map Cell.idx)
  word : ∀ c ∈ cs, h.elts.offset c.idx = c.word
  tiled : Tiled o cs h.len
  len : h.len ≤ 2 ^ 31

namespace Layout
variable {h : Heap}

theorem split (hl : Layout h pre o (xs ++ ys)) : ∃ m, Layout h (pre ++ xs.map Cell.idx) m ys := by
  obtain ⟨hk, hw, ht, hlen⟩ := hl
  obtain ⟨m, -, hm⟩ := tiled_append.mp ht
  refine ⟨m, ?_, fun c hc => hw c (mem_append_right _ hc), hm, hlen⟩
  rw [List.append_assoc, ← map_append]
  exact hk

theorem tail (hl : Layout h pre o (c :: cs)) : Layout h (pre ++ [c.idx]) (o + c.size) cs := by
  obtain ⟨hk, hw, ht, hlen⟩ := hl
  refine ⟨?_, fun d hd => hw d (mem_cons_of_mem _ hd), ht.2.2, hlen⟩
  rw [List.append_assoc]
  exact hk

theorem off_lt (hl : Layout h pre o cs) (hc : c ∈ cs) : c.off < 2 ^ 31 := by
  obtain ⟨-, hs, hle⟩ := hl.tiled.bounds hc
  have hlen := hl.len
  omega

theorem toNat_word (hl : Layout h pre o cs) (hc : c ∈ cs) :
    (h.elts.elt c.idx).offset.toNat = if c.free then 2 ^ 31 + c.off else c.off := by
  have hw : (h.elts.elt c.idx).offset = c.word := hl.word c hc
  have hlt := hl.off_lt hc
  rw [hw, Cell.word]
  cases c.free with
  | true =>
    rw [if_pos rfl, if_pos rfl, toNat_or_freeBit, BitVec.toNat_ofNat]
    omega
  | false =>
    rw [if_neg (by decide), if_neg (by decide), BitVec.toNat_ofNat]
    omega

theorem eltOffset (hl : Layout h pre o cs) (hc : c ∈ cs) : h.eltOffset c.idx = c.off := by
  have hlt := hl.off_lt hc
  rw [Heap.eltOffset, heapOffset_eq, hl.toNat_word hc]
  split
  · omega
  · omega

theorem eltIsFree (hl : Layout h pre o cs) (hc : c ∈ cs) : h.eltIsFree c.idx = c.free := by
  have hlt := hl.off_lt hc
  rw [Heap.eltIsFree, isFree_eq, hl.toNat_word hc]
  cases c.free with
  | true => simp
  | false => simpa using hlt

theorem head_size (hl : Layout h pre o (c :: cs)) : h.heapEltSize c.idx = c.size := by
  have hnext := hl.linked.next
  have hoff := hl.eltOffset mem_cons_self
  obtain ⟨hco, hpos, hrest⟩ := hl.tiled
  have hlen := hl.len
  have hle := hrest.le
  cases cs with
  | nil =>
    have hself : h.elts.heapNext c.idx = c.idx := by simpa using hnext
    simp only [Heap.heapEltSize, hself, hoff]
    have hend : o + c.size = h.len := hrest
    simp only [ne_eq, not_true, if_false]
    omega
  | cons d cs =>
    have hd : h.elts.heapNext c.idx = d.idx := by simpa using hnext
    have hne : d.idx ≠ c.idx := by
      have hnd := (nodup_append.mp hl.linked.nodup_chain).2.1
      intro he
      simp [he] at hnd
    have hdoff := hl.eltOffset (mem_cons_of_mem _ mem_cons_self)
    have hdo : d.off = o + c.size := hrest.1
    have hdlt := hl.off_lt (mem_cons_of_mem _ mem_cons_self)
    simp only [Heap.heapEltSize, hd, hoff, if_pos hne, hdoff]
    omega

theorem size (hl : Layout h pre o cs) (hc : c ∈ cs) : h.heapEltSize c.idx = c.size := by
  obtain ⟨xs, ys, rfl⟩ := append_of_mem hc
  obtain ⟨m, hm⟩ := hl.split
  exact hm.head_size

theorem nodup_idx (hl : Layout h pre o cs) : (cs.map Cell.idx).Nodup :=
  (nodup_append.mp hl.linked.nodup_chain).2.1

theorem eq_of_idx (hl : Layout h pre o cs) (hc : c ∈ cs) (hd : d ∈ cs) (he : c.idx = d.idx) : c = d := by
  exact inj_on_of_nodup_map hl.nodup_idx hc hd he

theorem disjoint (hl : Layout h pre o cs) (hc : c ∈ cs) (hd : d ∈ cs) (hne : c ≠ d) :
    c.off + c.size ≤ d.off ∨ d.off + d.size ≤ c.off := by
  have hpair : cs.Pairwise fun a b => a.off + a.size ≤ b.off ∨ b.off + b.size ≤ a.off :=
    hl.tiled.pairwise.imp .inl
  have hsym : Std.Symm fun a b : Cell => a.off + a.size ≤ b.off ∨ b.off + b.size ≤ a.off :=
    ⟨fun _ _ hab => hab.symm⟩
  exact hpair.forall hc hd hne

theorem eq_of_off (hl : Layout h pre o cs) (hc : c ∈ cs) (hd : d ∈ cs) (he : c.off = d.off) : c = d := by
  by_contra hne
  have hcs := (hl.tiled.bounds hc).2.1
  have hds := (hl.tiled.bounds hd).2.1
  have hdisj := hl.disjoint hc hd hne
  omega

end Layout
end Vpp.Infra
