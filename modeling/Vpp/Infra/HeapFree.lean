import Vpp.Infra.HeapCells
import Vpp.Lib.Slots
import Mathlib.Data.List.GetD

namespace Vpp.Infra
open Vpp.Lib Function List

namespace Heap
variable {h h' : Heap}

structure Kept (h h' : Heap) : Prop where
  len : h'.len = h.len
  usedCount : h'.usedCount = h.usedCount
  maxLen : h'.maxLen = h.maxLen
  eltBytes : h'.eltBytes = h.eltBytes

theorem Kept.refl (h : Heap) : Kept h h := ⟨rfl, rfl, rfl, rfl⟩

theorem Kept.trans (hk : Kept h₁ h₂) (hk' : Kept h₂ h₃) : Kept h₁ h₃ :=
  ⟨hk'.len.trans hk.len, hk'.usedCount.trans hk.usedCount, hk'.maxLen.trans hk.maxLen,
    hk'.eltBytes.trans hk.eltBytes⟩

theorem setFreeElt_elts : (h.setFreeElt e k).elts = h.elts.setOffset e (h.elts.offset e ||| heapEltFreeBit) := by
  rw [setFreeElt]
  split
  · rfl
  · rfl

theorem setFreeElt_kept : Kept h (h.setFreeElt e k) := by
  rw [setFreeElt]
  split
  · exact ⟨rfl, rfl, rfl, rfl⟩
  · exact ⟨rfl, rfl, rfl, rfl⟩

@[simp] theorem setFreeElt_freeLists : (h.setFreeElt e k).freeLists = h.freeLists := by
  rw [setFreeElt]
  split
  · rfl
  · rfl

@[simp] theorem setFreeElt_freeList : (h.setFreeElt e k).freeList = h.freeList := by
  funext b
  rw [freeList, setFreeElt_freeLists]
  rfl

theorem setFreeElt_eltOffset : (h.setFreeElt e k).eltOffset j = h.eltOffset j := by
  have ho : ((h.setFreeElt e k).elts.elt j).offset =
      if j = e then h.elts.offset e ||| heapEltFreeBit else h.elts.offset j := by
    rw [setFreeElt_elts]
    exact Elts.offset_setOffset
  rw [eltOffset, eltOffset, heapOffset_eq, heapOffset_eq, ho]
  by_cases hj : j = e
  · subst hj
    rw [if_pos rfl, toNat_or_freeBit, Nat.add_mod_left, Nat.mod_mod]
    rfl
  · rw [if_neg hj]
    rfl

theorem setFreeElt_elts_of_free (hf : h.eltIsFree e = true) : (h.setFreeElt e k).elts = h.elts := by
  have hor : h.elts.offset e ||| heapEltFreeBit = (h.elts.elt e).offset := by
    rw [eltIsFree, isFree_eq, decide_eq_true_eq] at hf
    apply BitVec.eq_of_toNat_eq
    rw [toNat_or_freeBit]
    have hlt := (h.elts.elt e).offset.isLt
    have ho : h.elts.offset e = (h.elts.elt e).offset := rfl
    rw [ho]
    omega
  rw [setFreeElt_elts, hor, Elts.setOffset]
  congr 1
  exact update_eq_self e h.elts.elt

theorem freeIndex_setFreeElt_self : (h.setFreeElt e k).freeIndex e = k := by
  have ho := setFreeElt_eltOffset (h := h) (e := e) (k := k) (j := e)
  rw [freeIndex, setFreeElt_kept.eltBytes, ho]
  by_cases hb : h.eltBytes ≥ 4
  · rw [if_pos hb, setFreeElt, if_pos hb]
    have hoe : eltOffset { h with elts := h.elts.setOffset e ((h.elts.elt e).offset ||| heapEltFreeBit) } e =
        h.eltOffset e := by
      rw [setFreeElt, if_pos hb] at ho
      exact ho
    rw [hoe]
    exact update_self _ _ _
  · rw [if_neg hb, setFreeElt, if_neg hb]
    exact update_self _ _ _

theorem freeIndex_setFreeElt_ne (hj : j ≠ e) (ho : h.eltOffset j ≠ h.eltOffset e) :
    (h.setFreeElt e k).freeIndex j = h.freeIndex j := by
  have hoj := setFreeElt_eltOffset (h := h) (e := e) (k := k) (j := j)
  have hoe := setFreeElt_eltOffset (h := h) (e := e) (k := k) (j := e)
  rw [freeIndex, freeIndex, setFreeElt_kept.eltBytes, hoj]
  by_cases hb : h.eltBytes ≥ 4
  · rw [if_pos hb, if_pos hb]
    rw [setFreeElt, if_pos hb] at hoe ⊢
    apply update_of_ne
    intro he
    exact ho (he.trans hoe)
  · rw [if_neg hb, if_neg hb, setFreeElt, if_neg hb]
    exact update_of_ne hj _ _

theorem getD_modify (lists : List (List Nat)) (hb : b < lists.length) (f : List Nat → List Nat) :
    (fun c => (lists.modify b f).getD c []) =
      update (fun c => lists.getD c []) b (f (lists.getD b [])) := by
  funext c
  by_cases hc : c = b
  · subst hc
    rw [update_self]
    simp [hb]
  · rw [update_of_ne hc]
    simp [Ne.symm hc]

theorem getD_last {l : List Nat} (hne : l ≠ []) : l.getLast? = some (l.getD (l.length - 1) 0) := by
  have hpos := length_pos_iff.mpr hne
  rw [getLast?_eq_getElem?, List.getElem?_eq_getElem (by omega), getD_eq_getElem _ _ (by omega)]

theorem addFreeBlock_freeList :
    (h.addFreeBlock b e).freeList = update h.freeList b (h.freeList b ++ [e]) := by
  have hpad (c : Nat) : (h.freeLists ++ List.replicate (b + 1 - h.freeLists.length) []).getD c [] = h.freeList c := by
    simp only [freeList, getD_eq_getElem?_getD, getElem?_append, getElem?_replicate]
    grind
  have hmod := getD_modify (b := b) (h.freeLists ++ List.replicate (b + 1 - h.freeLists.length) [])
    (by rw [length_append, length_replicate]; omega) (· ++ [e])
  simp only [hpad] at hmod
  exact hmod

theorem removeFreeBlock_freeList (hi : i < (h.freeList b).length) :
    (h.removeFreeBlock b i).freeList = update h.freeList b (Bins.swapRemove (h.freeList b) i) := by
  have hne : h.freeList b ≠ [] := fun he => by simp [he] at hi
  have hb : b < h.freeLists.length := by
    by_contra hb
    exact hne (getD_eq_default _ _ (by omega))
  have hswap : Bins.swapRemove (h.freeList b) i =
      ((h.freeList b).set i ((h.freeList b).getD ((h.freeList b).length - 1) 0)).take ((h.freeList b).length - 1) := by
    simp only [Bins.swapRemove, getD_last hne]
    rw [dropLast_eq_take, length_set]
  rw [hswap]
  simp only [removeFreeBlock]
  by_cases hlt : i < (h.freeList b).length - 1
  · rw [if_pos hlt, setFreeElt_freeLists]
    exact getD_modify _ hb _
  · rw [if_neg hlt, take_set_of_le (by omega)]
    exact getD_modify _ hb _

/-- The last of a list, when it is moved to the place `i`, is a free element. -/
def MovesFree (h : Heap) (b i : Nat) : Prop :=
  ∀ t, (h.freeList b).getLast? = some t → i < (h.freeList b).length - 1 → h.eltIsFree t = true

theorem removeFreeBlock_kept : Kept h (h.removeFreeBlock b i) := by
  simp only [removeFreeBlock]
  split
  · obtain ⟨h1, h2, h3, h4⟩ := setFreeElt_kept (h := h)
      (e := (h.freeList b).getD ((h.freeList b).length - 1) 0) (k := i)
    exact ⟨h1, h2, h3, h4⟩
  · exact ⟨rfl, rfl, rfl, rfl⟩

theorem removeFreeBlock_elts (hm : MovesFree h b i) : (h.removeFreeBlock b i).elts = h.elts := by
  simp only [removeFreeBlock]
  by_cases hlt : i < (h.freeList b).length - 1
  · rw [if_pos hlt]
    have hne : h.freeList b ≠ [] := fun he => by simp [he] at hlt
    exact setFreeElt_elts_of_free (hm _ (getD_last hne) hlt)
  · rw [if_neg hlt]

theorem freeIndex_removeFreeBlock (hlast : (h.freeList b).getLast? = some t)
    (ho : j ≠ t → h.eltOffset j ≠ h.eltOffset t) :
    (h.removeFreeBlock b i).freeIndex j =
      if i < (h.freeList b).length - 1 ∧ j = t then i else h.freeIndex j := by
  simp only [removeFreeBlock]
  by_cases hlt : i < (h.freeList b).length - 1
  · obtain rfl : (h.freeList b).getD ((h.freeList b).length - 1) 0 = t := by
      have hne : h.freeList b ≠ [] := fun he => by simp [he] at hlt
      exact Option.some.inj ((getD_last hne).symm.trans hlast)
    rw [if_pos hlt]
    by_cases hj : j = (h.freeList b).getD ((h.freeList b).length - 1) 0
    · rw [if_pos ⟨hlt, hj⟩, ← hj]
      exact freeIndex_setFreeElt_self
    · rw [if_neg fun hc => hj hc.2]
      exact freeIndex_setFreeElt_ne hj (ho hj)
  · rw [if_neg hlt, if_neg fun hc => hlt hc.1]
    rfl

theorem freeIndex_removeFreeBlock_ne (hget : (h.freeList b)[k]? = some i) (hlast : (h.freeList b).getLast? = some t)
    (hji : j ≠ i) (ho : j ≠ t → h.eltOffset j ≠ h.eltOffset t) :
    (h.removeFreeBlock b k).freeIndex j = update h.freeIndex t k j := by
  rw [freeIndex_removeFreeBlock hlast ho]
  by_cases hjt : j = t
  · have hk : k < (h.freeList b).length - 1 := by
      have hlt := (List.getElem?_eq_some_iff.mp hget).1
      by_contra hge
      have hkl : k = (h.freeList b).length - 1 := by omega
      rw [hkl, ← getLast?_eq_getElem?, hlast] at hget
      exact hji (hjt.trans (Option.some.inj hget))
    rw [if_pos ⟨hk, hjt⟩, hjt, update_self]
  · rw [if_neg fun hc => hjt hc.2, update_of_ne hjt]

theorem eltOffset_congr (ho : h'.elts.offset = h.elts.offset) : h'.eltOffset i = h.eltOffset i := by
  have hi : (h'.elts.elt i).offset = (h.elts.elt i).offset := congrFun ho i
  rw [eltOffset, eltOffset, heapOffset_eq, heapOffset_eq, hi]

theorem eltIsFree_congr (ho : h'.elts.offset = h.elts.offset) : h'.eltIsFree i = h.eltIsFree i := by
  have hi : (h'.elts.elt i).offset = (h.elts.elt i).offset := congrFun ho i
  rw [eltIsFree, eltIsFree, isFree_eq, isFree_eq, hi]

theorem freeIndex_congr (ho : h'.eltOffset i = h.eltOffset i) (hd : h'.data = h.data)
    (hs : h'.smallFreeEltFreeIndex = h.smallFreeEltFreeIndex) (hb : h'.eltBytes = h.eltBytes) :
    h'.freeIndex i = h.freeIndex i := by
  rw [freeIndex, freeIndex, hb, hd, hs, ho]

end Heap

def Cell.bin (c : Cell) : Option Nat := if c.free then some (sizeToBin c.size) else none

def BinOf (cs : List Cell) (bin : Nat → Option Nat) : Prop :=
  ∀ i b, bin i = some b ↔ ∃ c ∈ cs, c.idx = i ∧ c.bin = some b

def Binned (h : Heap) (cs : List Cell) : Prop :=
  ∃ bin, BinOf cs bin ∧ Bins.Filed h.freeList bin h.freeIndex

theorem Cell.free_of_bin {c : Cell} (h : c.bin = some b) : c.free = true ∧ sizeToBin c.size = b := by
  rw [Cell.bin] at h
  split at h
  · exact ⟨by assumption, Option.some.inj h⟩
  · cases h

theorem BinOf.mem (hb : BinOf cs bin) (hi : bin i ≠ none) : ∃ c ∈ cs, c.idx = i ∧ c.free = true := by
  obtain ⟨b, hb'⟩ := Option.ne_none_iff_exists'.mp hi
  obtain ⟨c, hc, hci, hcb⟩ := (hb i b).mp hb'
  exact ⟨c, hc, hci, (Cell.free_of_bin hcb).1⟩

theorem BinOf.get (hb : BinOf cs bin) (hc : c ∈ cs) (hf : c.free = true) : bin c.idx = some (sizeToBin c.size) := by
  exact (hb c.idx (sizeToBin c.size)).mpr ⟨c, hc, rfl, if_pos hf⟩

theorem BinOf.congr (hb : BinOf cs bin) (hsame : ∀ c, c.free = true → (c ∈ cs' ↔ c ∈ cs)) : BinOf cs' bin := by
  intro i b
  rw [hb i b]
  constructor
  · intro ⟨c, hc, hci, hcb⟩
    exact ⟨c, (hsame c (Cell.free_of_bin hcb).1).mpr hc, hci, hcb⟩
  · intro ⟨c, hc, hci, hcb⟩
    exact ⟨c, (hsame c (Cell.free_of_bin hcb).1).mp hc, hci, hcb⟩

theorem BinOf.set (hb : BinOf (xs ++ c :: ys) bin) (hnd : ((xs ++ c :: ys).map Cell.idx).Nodup)
    (hi : c'.idx = c.idx) : BinOf (xs ++ c' :: ys) (update bin c.idx c'.bin) := by
  intro i b
  by_cases hic : i = c.idx
  · subst hic
    rw [update_self]
    constructor
    · exact fun hcb => ⟨c', by simp, hi, hcb⟩
    · intro ⟨z, hz, hzi, hzb⟩
      obtain rfl | hz := mem_middle.mp hz
      · exact hzb
      · exact absurd hzi (idx_ne_middle hnd hz)
  · rw [update_of_ne hic, hb i b]
    constructor
    · intro ⟨z, hz, hzi, hzb⟩
      obtain rfl | hz := mem_middle.mp hz
      · exact absurd hzi.symm hic
      · exact ⟨z, mem_middle.mpr (.inr hz), hzi, hzb⟩
    · intro ⟨z, hz, hzi, hzb⟩
      obtain rfl | hz := mem_middle.mp hz
      · exact absurd (hzi.symm.trans hi) hic
      · exact ⟨z, mem_middle.mpr (.inr hz), hzi, hzb⟩

theorem Binned.congr (hb : Binned h cs) (hlists : h'.freeList = h.freeList)
    (hsame : ∀ c, c.free = true → (c ∈ cs' ↔ c ∈ cs))
    (hidx : ∀ c ∈ cs, c.free = true → h'.freeIndex c.idx = h.freeIndex c.idx) : Binned h' cs' := by
  obtain ⟨bin, hbin, hfiled⟩ := hb
  refine ⟨bin, hbin.congr hsame, hlists ▸ hfiled.congr fun i hi => ?_⟩
  obtain ⟨c, hc, rfl, hf⟩ := hbin.mem hi
  exact hidx c hc hf

def Heap.fileBlock (h : Heap) (b e : Nat) : Heap := (h.addFreeBlock b e).setFreeElt e (h.freeList b).length

variable {h : Heap}

theorem Heap.fileBlock_freeList :
    (h.fileBlock b e).freeList = update h.freeList b (h.freeList b ++ [e]) := by
  rw [Heap.fileBlock, Heap.setFreeElt_freeList, Heap.addFreeBlock_freeList]

theorem Heap.fileBlock_elts :
    (h.fileBlock b e).elts = h.elts.setOffset e (h.elts.offset e ||| heapEltFreeBit) := Heap.setFreeElt_elts

theorem Heap.fileBlock_kept : Heap.Kept h (h.fileBlock b e) := by
  obtain ⟨h1, h2, h3, h4⟩ := Heap.setFreeElt_kept (h := h.addFreeBlock b e) (e := e) (k := (h.freeList b).length)
  exact ⟨h1, h2, h3, h4⟩

theorem Heap.fileBlock_freeIndex_self : (h.fileBlock b e).freeIndex e = (h.freeList b).length :=
  Heap.freeIndex_setFreeElt_self

theorem Heap.fileBlock_freeIndex_ne (hj : j ≠ e) (ho : h.eltOffset j ≠ h.eltOffset e) :
    (h.fileBlock b e).freeIndex j = h.freeIndex j :=
  Heap.freeIndex_setFreeElt_ne (h := h.addFreeBlock b e) hj ho

theorem Layout.fileBlock (hl : Layout h [] 0 (xs ++ c :: ys)) (hb : Binned h (xs ++ c :: ys)) (hc : c.free = false) :
    Layout (h.fileBlock (sizeToBin c.size) c.idx) [] 0 (xs ++ { c with free := true } :: ys) ∧
      Binned (h.fileBlock (sizeToBin c.size) c.idx) (xs ++ { c with free := true } :: ys) := by
  obtain ⟨bin, hbin, hfiled⟩ := hb
  have hidx : (xs ++ { c with free := true } :: ys).map Cell.idx = (xs ++ c :: ys).map Cell.idx := by simp
  have hcm : c ∈ xs ++ c :: ys := by simp
  constructor
  · constructor
    · rw [hidx, Heap.fileBlock_elts]
      exact hl.linked.setOffset
    · intro d hd
      rw [Heap.fileBlock_elts, Elts.offset_setOffset]
      obtain rfl | hd := mem_middle.mp hd
      · rw [if_pos rfl, hl.word c hcm, Cell.word, Cell.word, if_neg (by simp [hc]), if_pos rfl]
      · rw [if_neg (idx_ne_middle hl.nodup_idx hd)]
        exact hl.word d (mem_middle.mpr (.inr hd))
    · obtain ⟨m, hx, hy⟩ := tiled_append.mp hl.tiled
      rw [Heap.fileBlock_kept.len]
      exact tiled_append.mpr ⟨m, hx, hy⟩
    · rw [Heap.fileBlock_kept.len]
      exact hl.len
  · refine ⟨_, hbin.set hl.nodup_idx rfl, ?_⟩
    have hnone : bin c.idx = none := by
      by_contra hne
      obtain ⟨d, hd, hdi, hdf⟩ := hbin.mem hne
      rw [hl.eq_of_idx hd hcm hdi, hc] at hdf
      cases hdf
    have hadd := hfiled.add hnone (sizeToBin c.size)
    rw [Heap.fileBlock_freeList]
    refine hadd.congr fun i hi => ?_
    by_cases hic : i = c.idx
    · subst hic
      rw [update_self]
      exact Heap.fileBlock_freeIndex_self
    · rw [update_of_ne hic] at hi ⊢
      obtain ⟨d, hd, rfl, hdf⟩ := hbin.mem hi
      apply Heap.fileBlock_freeIndex_ne hic
      rw [hl.eltOffset hd, hl.eltOffset hcm]
      intro ho
      exact hic (congrArg Cell.idx (hl.eq_of_off hd hcm ho))

end Vpp.Infra
