import Vpp.Infra.HeapFree
import Mathlib.Algebra.Order.BigOperators.Group.List

namespace Vpp.Infra
open Vpp.Lib Function List

variable {h h' : Heap}

def Cell.ref (h : Heap) (c : Cell) : Heap.FreeRef := ⟨c.idx, sizeToBin c.size, h.freeIndex c.idx⟩

theorem collectFree_eq (hl : Layout h pre o (f :: fs ++ ys)) (hfiled : Bins.Filed h.freeList bin h.freeIndex)
    (hbin : ∀ c ∈ f :: fs, bin c.idx = some (sizeToBin c.size))
    (hlast : (f :: fs).getLast (cons_ne_nil f fs) = l) (hn : (f :: fs).length ≤ n) :
    h.collectFree l.idx n f.idx = (f :: fs).map (Cell.ref h) := by
  induction fs generalizing f pre o n with
  | nil =>
    obtain rfl : f = l := hlast
    cases n with
    | zero => exact absurd hn (by simp)
    | succ n =>
      have hget := hfiled.get (hbin f mem_cons_self)
      simp only [Heap.collectFree, Heap.getFreeElt, hl.head_size, if_pos, getD_eq_getElem?_getD, hget]
      rfl
  | cons f' fs ih =>
    cases n with
    | zero => exact absurd hn (by simp)
    | succ n =>
      have hget := hfiled.get (hbin f mem_cons_self)
      have hne : f.idx ≠ l.idx := by
        have hmem : l ∈ f' :: fs := by
          rw [← hlast, getLast_cons_cons]
          exact getLast_mem _
        have hnd := hl.nodup_idx
        rw [List.cons_append, map_cons, nodup_cons] at hnd
        intro he
        exact hnd.1 (he ▸ List.mem_map_of_mem (mem_append_left _ hmem))
      have hnext : h.elts.heapNext f.idx = f'.idx := hl.linked.next
      have hrest := ih hl.tail (fun c hc => hbin c (mem_cons_of_mem _ hc)) hlast (Nat.le_of_succ_le_succ hn)
      simp only [Heap.collectFree, Heap.getFreeElt, hl.head_size, if_neg hne, getD_eq_getElem?_getD, hget, hnext,
        hrest]
      rfl

theorem sum_sizes {fs : List Cell} (hl : Layout h pre o cs) (hsub : ∀ c ∈ fs, c ∈ cs) :
    ((fs.map (Cell.ref h)).map fun r => h.heapEltSize r.index).sum = (fs.map Cell.size).sum := by
  induction fs with
  | nil => rfl
  | cons f fs ih =>
    have hrest := ih fun c hc => hsub c (mem_cons_of_mem _ hc)
    have hsize : h.heapEltSize (Cell.ref h f).index = f.size := hl.size (hsub f mem_cons_self)
    simp only [map_cons, sum_cons]
    rw [hrest, hsize]

/-- While blocks are combined into `g`: where each element is filed, with what that needs of the elements other
than `g`. -/
structure Combining (h : Heap) (g : Nat) (bin : Nat → Option Nat) (place : Nat → Nat) : Prop where
  filed : Bins.Filed h.freeList bin place
  index : ∀ i, bin i ≠ none → i ≠ g → h.freeIndex i = place i
  free : ∀ i, bin i ≠ none → i ≠ g → h.eltIsFree i = true
  off_inj : ∀ i j, bin i ≠ none → bin j ≠ none → i ≠ g → j ≠ g → h.eltOffset i = h.eltOffset j → i = j

theorem Combining.delete (hc : Combining h g bin place) (hi : bin i = some b) (hig : i ≠ g) (hgb : bin g ≠ some b)
    (E : Elts) (hE : E.offset = h.elts.offset) :
    ∃ place', Combining { h.removeFreeBlock b (h.freeIndex i) with elts := E } g (update bin i none) place' ∧
      place' g = place g ∧ (h.removeFreeBlock b (h.freeIndex i)).elts = h.elts := by
  have hidx : h.freeIndex i = place i := hc.index i (by simp [hi]) hig
  have hlt := hc.filed.lt hi
  have hne : h.freeList b ≠ [] := fun he => by simp [he] at hlt
  obtain ⟨t, ht⟩ : ∃ t, (h.freeList b).getLast? = some t := ⟨_, getLast?_eq_some_getLast hne⟩
  have htb : bin t = some b := hc.filed.bin_of_mem (mem_of_getLast? ht)
  have htg : t ≠ g := fun he => hgb (he ▸ htb)
  have hmoves : Heap.MovesFree h b (h.freeIndex i) := by
    intro t' ht' _
    obtain rfl : t = t' := Option.some.inj (ht.symm.trans ht')
    exact hc.free t (by simp [htb]) htg
  have helts := Heap.removeFreeBlock_elts hmoves
  have hoff : ({ h.removeFreeBlock b (h.freeIndex i) with elts := E } : Heap).elts.offset = h.elts.offset := hE
  have hrem : E.offset = (h.removeFreeBlock b (h.freeIndex i)).elts.offset := by rw [helts, hE]
  have hbin (j : Nat) (hj : update bin i none j ≠ none) : bin j ≠ none ∧ j ≠ i := by
    by_cases hji : j = i
    · simp [hji] at hj
    · rw [update_of_ne hji] at hj
      exact ⟨hj, hji⟩
  refine ⟨Bins.swapPlace place (h.freeList b) (place i), ⟨?_, ?_, ?_, ?_⟩, ?_, helts⟩
  · have hfiled := hc.filed.remove hi
    rw [← hidx, ← Heap.removeFreeBlock_freeList (hidx ▸ hlt)] at hfiled
    exact hidx ▸ hfiled
  · intro j hj hjg
    obtain ⟨hjb, hji⟩ := hbin j hj
    have hoffj : j ≠ t → h.eltOffset j ≠ h.eltOffset t := fun hjt ho =>
      hjt (hc.off_inj j t hjb (by simp [htb]) hjg htg ho)
    have hfr : ({ h.removeFreeBlock b (h.freeIndex i) with elts := E } : Heap).freeIndex j =
        (h.removeFreeBlock b (h.freeIndex i)).freeIndex j :=
      Heap.freeIndex_congr (Heap.eltOffset_congr hrem) rfl rfl rfl
    rw [hfr, hidx, Heap.freeIndex_removeFreeBlock_ne (hc.filed.get hi) ht hji hoffj]
    simp only [Bins.swapPlace, ht]
    by_cases hjt : j = t
    · rw [hjt, update_self, update_self]
    · rw [update_of_ne hjt, update_of_ne hjt]
      exact hc.index j hjb hjg
  · intro j hj hjg
    rw [Heap.eltIsFree_congr hoff]
    exact hc.free j (hbin j hj).1 hjg
  · intro j k hj hk hjg hkg
    rw [Heap.eltOffset_congr hoff, Heap.eltOffset_congr hoff]
    exact hc.off_inj j k (hbin j hj).1 (hbin k hk).1 hjg hkg
  · simp only [Bins.swapPlace, ht]
    exact update_of_ne (Ne.symm htg) _ _

/-- The elements that are not deleted. -/
def keptBin (bin : Nat → Option Nat) (g : Nat) (fs : List Nat) (i : Nat) : Option Nat :=
  if i ∈ fs ∧ i ≠ g then none else bin i

theorem deleteUnused_spec (hl : Layout h pre o (fs ++ ys)) (hc : Combining h g bin place)
    (hbin : ∀ f ∈ fs, f.idx ≠ g → bin f.idx = some (sizeToBin f.size) ∧ bin g ≠ some (sizeToBin f.size))
    (hg : g ∈ pre ++ fs.map Cell.idx) (refs : List Heap.FreeRef) (hrefs : refs.map (·.index) = fs.map Cell.idx) :
    ∃ place', Combining (h.deleteUnused g refs) g (keptBin bin g (fs.map Cell.idx)) place' ∧ place' g = place g ∧
      (h.deleteUnused g refs).elts.offset = h.elts.offset ∧ Heap.Kept h (h.deleteUnused g refs) ∧
      (h.deleteUnused g refs).elts.Linked (pre ++ (fs.map Cell.idx).filter (· = g) ++ ys.map Cell.idx) := by
  induction fs generalizing h pre o bin place refs with
  | nil =>
    obtain rfl : refs = [] := map_eq_nil_iff.mp hrefs
    have hkeep : keptBin bin g [] = bin := by
      funext i
      exact if_neg fun hi => by simp at hi
    refine ⟨place, hkeep ▸ hc, rfl, rfl, .refl h, ?_⟩
    have hk := hl.linked
    simpa [Heap.deleteUnused] using hk
  | cons f fs ih =>
    cases refs with
    | nil => cases hrefs
    | cons r refs =>
      rw [map_cons, map_cons, List.cons.injEq] at hrefs
      obtain ⟨hr, hrefs⟩ := hrefs
      have hbin' : ∀ f' ∈ fs, f'.idx ≠ g →
          bin f'.idx = some (sizeToBin f'.size) ∧ bin g ≠ some (sizeToBin f'.size) :=
        fun f' hf' => hbin f' (mem_cons_of_mem _ hf')
      have hnf : f.idx ∉ fs.map Cell.idx := by
        have hnd := hl.nodup_idx
        rw [List.cons_append, map_cons, nodup_cons, map_append] at hnd
        exact fun hm => hnd.1 (mem_append_left _ hm)
      by_cases hfg : f.idx = g
      · have hg' : g ∈ pre ++ [f.idx] ++ fs.map Cell.idx := by simp [hfg]
        obtain ⟨place', h1, h2, h3, h4, h5⟩ := ih hl.tail hc hbin' hg' refs hrefs
        have hstep : h.deleteUnused g (r :: refs) = h.deleteUnused g refs := by
          rw [Heap.deleteUnused, if_neg (by simp [hr, hfg])]
        have hkeep : keptBin bin g ((f :: fs).map Cell.idx) = keptBin bin g (fs.map Cell.idx) := by
          funext i
          simp only [keptBin, map_cons, mem_cons]
          by_cases hi : i = g
          · simp [hi]
          · simp [hi, hfg]
        rw [hstep, hkeep]
        refine ⟨place', h1, h2, h3, h4, ?_⟩
        rw [map_cons, filter_cons_of_pos (by simpa using hfg)]
        simpa using h5
      · obtain ⟨hfb, hgb⟩ := hbin f mem_cons_self hfg
        have hsize := hl.head_size
        have hlinked := hl.linked
        rw [List.cons_append, map_cons] at hlinked
        have hne : pre ++ (fs ++ ys).map Cell.idx ≠ [] := by
          intro he
          have hm : g ∈ pre ++ (fs ++ ys).map Cell.idx := by
            simp only [map_cons, mem_append, mem_cons, map_append] at hg ⊢
            have hgf := Ne.symm hfg
            tauto
          rw [he] at hm
          exact absurd hm (by simp)
        have hdel := hlinked.delete hne
        have hdoff := (Elts.eltDelete_frame h.elts f.idx).1
        obtain ⟨place₁, hc₁, hp₁, helts⟩ := hc.delete hfb hfg hgb (h.elts.eltDelete f.idx) hdoff
        have hstep : h.deleteUnused g (r :: refs) = Heap.deleteUnused { h.removeFreeBlock (sizeToBin f.size)
            (h.freeIndex f.idx) with elts := h.elts.eltDelete f.idx } g refs := by
          rw [Heap.deleteUnused, if_pos (by simpa [hr] using Ne.symm hfg)]
          simp only [Heap.getFreeElt, hr, hsize, helts]
        have hkept : Heap.Kept h { h.removeFreeBlock (sizeToBin f.size) (h.freeIndex f.idx) with
            elts := h.elts.eltDelete f.idx } := by
          obtain ⟨k1, k2, k3, k4⟩ := Heap.removeFreeBlock_kept (h := h) (b := sizeToBin f.size)
            (i := h.freeIndex f.idx)
          exact ⟨k1, k2, k3, k4⟩
        have hl' : Layout { h.removeFreeBlock (sizeToBin f.size) (h.freeIndex f.idx) with
            elts := h.elts.eltDelete f.idx } pre (o + f.size) (fs ++ ys) := by
          refine ⟨hdel, fun c hcm => ?_, ?_, ?_⟩
          · exact (congrFun hdoff c.idx).trans (hl.word c (mem_cons_of_mem _ hcm))
          · rw [hkept.len]
            exact hl.tiled.2.2
          · rw [hkept.len]
            exact hl.len
        have hbin₁ : ∀ f' ∈ fs, f'.idx ≠ g → update bin f.idx none f'.idx = some (sizeToBin f'.size) ∧
            update bin f.idx none g ≠ some (sizeToBin f'.size) := by
          intro f' hf' hf'g
          have hff : f'.idx ≠ f.idx := fun he => hnf (he ▸ List.mem_map_of_mem hf')
          rw [update_of_ne hff, update_of_ne (Ne.symm hfg)]
          exact hbin' f' hf' hf'g
        have hg' : g ∈ pre ++ fs.map Cell.idx := by
          simp only [map_cons, mem_append, mem_cons] at hg ⊢
          have hgf := Ne.symm hfg
          tauto
        obtain ⟨place', h1, h2, h3, h4, h5⟩ := ih hl' hc₁ hbin₁ hg' refs hrefs
        have hkeep : keptBin bin g ((f :: fs).map Cell.idx) =
            keptBin (update bin f.idx none) g (fs.map Cell.idx) := by
          funext i
          simp only [keptBin, map_cons, mem_cons]
          by_cases hi : i = f.idx
          · simp [hi, hfg]
          · simp [hi]
        rw [hstep, hkeep]
        refine ⟨place', h1, h2.trans hp₁, h3.trans hdoff, hkept.trans h4, ?_⟩
        rw [map_cons, filter_cons_of_neg (by simpa using hfg)]
        exact h5

/-- The element that stays takes over the whole block. -/
theorem Combining.finish {c : Cell} (hc : Combining h c.idx bin place)
    (hlinked : h.elts.Linked ((xs ++ c :: ys).map Cell.idx))
    (hword : ∀ d ∈ xs ++ ys, h.elts.offset d.idx = d.word) (htiled : Tiled 0 (xs ++ c :: ys) h.len)
    (hlen : h.len ≤ 2 ^ 31) (hfree : c.free = true) (hbin : BinOf (xs ++ c :: ys) bin) :
    let h' := Heap.setFreeElt { h with elts := h.elts.setOffset c.idx c.word } c.idx (place c.idx)
    Layout h' [] 0 (xs ++ c :: ys) ∧ Binned h' (xs ++ c :: ys) ∧ Heap.Kept h h' := by
  have hcw : c.word ||| heapEltFreeBit = c.word := by
    rw [Cell.word, if_pos hfree, BitVec.or_assoc, BitVec.or_self]
  have hnd : ((xs ++ c :: ys).map Cell.idx).Nodup := hlinked.nodup_chain
  intro h'
  have hkept : Heap.Kept h h' := by
    obtain ⟨k1, k2, k3, k4⟩ := Heap.setFreeElt_kept (h := { h with elts := h.elts.setOffset c.idx c.word })
      (e := c.idx) (k := place c.idx)
    exact ⟨k1, k2, k3, k4⟩
  have hoff (i : Nat) : h'.elts.offset i = if i = c.idx then c.word else h.elts.offset i := by
    have helts : h'.elts = _ := Heap.setFreeElt_elts
    rw [helts, Elts.offset_setOffset]
    split
    · rw [Elts.offset_setOffset, if_pos rfl, hcw]
    · rw [Elts.offset_setOffset, if_neg (by assumption)]
  have hl : Layout h' [] 0 (xs ++ c :: ys) := by
    refine ⟨?_, ?_, ?_, ?_⟩
    · have helts : h'.elts = _ := Heap.setFreeElt_elts
      rw [helts]
      exact hlinked.setOffset.setOffset
    · intro d hd
      rw [hoff]
      obtain rfl | hd := mem_middle.mp hd
      · rw [if_pos rfl]
      · rw [if_neg (idx_ne_middle hnd hd)]
        exact hword d hd
    · rwa [hkept.len]
    · rwa [hkept.len]
  refine ⟨hl, ⟨bin, hbin, ?_⟩, hkept⟩
  have hlists : h'.freeList = h.freeList := Heap.setFreeElt_freeList
  rw [hlists]
  refine hc.filed.congr fun i hi => ?_
  by_cases hic : i = c.idx
  · rw [hic]
    exact Heap.freeIndex_setFreeElt_self
  · obtain ⟨d, hd, rfl, hdf⟩ := hbin.mem hi
    have hd' : d ∈ xs ++ ys := by
      obtain rfl | hd' := mem_middle.mp hd
      · exact absurd rfl hic
      · exact hd'
    have hne : h'.eltOffset d.idx ≠ h'.eltOffset c.idx := by
      rw [hl.eltOffset hd, hl.eltOffset (mem_middle.mpr (.inl rfl))]
      intro ho
      exact hic (congrArg Cell.idx (hl.eq_of_off hd (mem_middle.mpr (.inl rfl)) ho))
    rw [Heap.setFreeElt_eltOffset, Heap.setFreeElt_eltOffset] at hne
    have hset := Heap.freeIndex_setFreeElt_ne (k := place c.idx) hic hne
    have hold : ({ h with elts := h.elts.setOffset c.idx c.word } : Heap).freeIndex d.idx = h.freeIndex d.idx := by
      have hod : ((h.elts.setOffset c.idx c.word).elt d.idx).offset = (h.elts.elt d.idx).offset := by
        have ho := Elts.offset_setOffset (E := h.elts) (i := c.idx) (o := c.word) (j := d.idx)
        rw [if_neg hic] at ho
        exact ho
      rw [Heap.freeIndex, Heap.freeIndex, Heap.eltOffset, Heap.eltOffset, heapOffset_eq, heapOffset_eq, hod]
    exact hset.trans (hold.trans (hc.index d.idx hi hic))

theorem BinOf.combine {c : Cell} (hb : BinOf (xs ++ fs ++ ys) bin) (hnd : ((xs ++ fs ++ ys).map Cell.idx).Nodup)
    (hnd' : ((xs ++ c :: ys).map Cell.idx).Nodup) (hc : bin' c.idx = c.bin) (hother : ∀ i, i ≠ c.idx → bin' i = bin i) :
    BinOf (xs ++ c :: ys) (keptBin bin' c.idx (fs.map Cell.idx)) := by
  have hout : ∀ d ∈ xs ++ ys, d.idx ∉ fs.map Cell.idx := by
    intro d hd hm
    have hperm : (xs ++ fs ++ ys).Perm (fs ++ (xs ++ ys)) := by
      rw [← List.append_assoc]
      exact perm_append_comm.append_right ys
    have hnd₂ := (hperm.map Cell.idx).nodup_iff.mp hnd
    rw [map_append] at hnd₂
    exact (nodup_append.mp hnd₂).2.2 _ hm _ (List.mem_map_of_mem hd) rfl
  intro i b
  by_cases hic : i = c.idx
  · subst hic
    rw [keptBin, if_neg fun hcon => hcon.2 rfl, hc]
    constructor
    · exact fun hcb => ⟨c, mem_middle.mpr (.inl rfl), rfl, hcb⟩
    · intro ⟨d, hd, hdi, hdb⟩
      obtain rfl | hd := mem_middle.mp hd
      · exact hdb
      · exact absurd hdi (idx_ne_middle hnd' hd)
  · by_cases him : i ∈ fs.map Cell.idx
    · rw [keptBin, if_pos ⟨him, hic⟩]
      constructor
      · exact fun hcon => nomatch hcon
      · intro ⟨d, hd, hdi, hdb⟩
        obtain rfl | hd := mem_middle.mp hd
        · exact absurd hdi.symm hic
        · exact absurd (hdi ▸ him) (hout d hd)
    · rw [keptBin, if_neg fun hcon => him hcon.1, hother i hic, hb i b]
      constructor
      · intro ⟨d, hd, hdi, hdb⟩
        refine ⟨d, mem_middle.mpr (.inr ?_), hdi, hdb⟩
        have hdf : d ∉ fs := fun hm => him (hdi ▸ List.mem_map_of_mem hm)
        simp only [mem_append] at hd ⊢
        tauto
      · intro ⟨d, hd, hdi, hdb⟩
        obtain rfl | hd := mem_middle.mp hd
        · exact absurd hdi.symm hic
        · refine ⟨d, ?_, hdi, hdb⟩
          simp only [mem_append] at hd ⊢
          tauto

theorem Layout.combining (hl : Layout h [] 0 cs) (hbin : BinOf cs bin)
    (hfiled : Bins.Filed h.freeList bin h.freeIndex) (g : Nat) : Combining h g bin h.freeIndex := by
  refine ⟨hfiled, fun i _ _ => rfl, ?_, ?_⟩
  · intro i hi _
    obtain ⟨c, hc, rfl, hf⟩ := hbin.mem hi
    rw [hl.eltIsFree hc, hf]
  · intro i j hi hj _ _ ho
    obtain ⟨c, hc, rfl, -⟩ := hbin.mem hi
    obtain ⟨d, hd, rfl, -⟩ := hbin.mem hj
    rw [hl.eltOffset hc, hl.eltOffset hd] at ho
    rw [hl.eq_of_off hc hd ho]

theorem tiled_combine (ht : Tiled 0 (xs ++ f :: fs ++ ys) len) :
    Tiled 0 (xs ++ ⟨g, f.off, ((f :: fs).map Cell.size).sum, true⟩ :: ys) len := by
  rw [List.append_assoc] at ht
  obtain ⟨m, hx, hrest⟩ := tiled_append.mp ht
  obtain ⟨n, hfs, hy⟩ := tiled_append.mp hrest
  refine tiled_append.mpr ⟨m, hx, hfs.1, ?_, ?_⟩
  · exact Nat.lt_of_lt_of_le hfs.2.1 (by simp)
  · rw [hfs.sum]
    exact hy

/-- The blocks `fs` of `cs` become one block, with the element `g`. -/
theorem combine_into {c : Cell} (hl : Layout h (xs.map Cell.idx ++ new) o (f :: fs ++ ys))
    (hc : Combining h c.idx bin' place)
    (hcell : c = ⟨c.idx, f.off, ((f :: fs).map Cell.size).sum, true⟩) (hfree : f.free = true)
    (hbin : BinOf (xs ++ f :: fs ++ ys) bin) (hnd : ((xs ++ f :: fs ++ ys).map Cell.idx).Nodup)
    (hcb : bin' c.idx = c.bin) (hother : ∀ i, i ≠ c.idx → bin' i = bin i)
    (htiled : Tiled 0 (xs ++ f :: fs ++ ys) h.len) (hword : ∀ d ∈ xs ++ ys, h.elts.offset d.idx = d.word)
    (hdiff : ∀ d ∈ f :: fs, d.idx ≠ c.idx → bin d.idx = some (sizeToBin d.size) ∧ c.bin ≠ some (sizeToBin d.size))
    (hg : new ++ ((f :: fs).map Cell.idx).filter (· = c.idx) = [c.idx])
    (refs : List Heap.FreeRef) (hrefs : refs.map (·.index) = (f :: fs).map Cell.idx) :
    let h₁ := h.deleteUnused c.idx refs
    let h' := Heap.setFreeElt { h₁ with elts := h₁.elts.setOffset c.idx (h.elts.elt f.idx).offset } c.idx (place c.idx)
    Layout h' [] 0 (xs ++ c :: ys) ∧ Binned h' (xs ++ c :: ys) ∧ Heap.Kept h h' := by
  have hmem : c.idx ∈ xs.map Cell.idx ++ new ++ (f :: fs).map Cell.idx := by
    have hm : c.idx ∈ new ++ ((f :: fs).map Cell.idx).filter (· = c.idx) := by
      rw [hg]
      exact mem_singleton_self _
    rw [mem_append, mem_filter] at hm
    simp only [mem_append]
    tauto
  have hdiff' : ∀ d ∈ f :: fs, d.idx ≠ c.idx →
      bin' d.idx = some (sizeToBin d.size) ∧ bin' c.idx ≠ some (sizeToBin d.size) := by
    intro d hd hdc
    rw [hother _ hdc, hcb]
    exact hdiff d hd hdc
  obtain ⟨place', hc', hplace, hoff, hkept, hlinked⟩ := deleteUnused_spec hl hc hdiff' hmem refs hrefs
  intro h₁ h'
  have hidx : xs.map Cell.idx ++ new ++ ((f :: fs).map Cell.idx).filter (· = c.idx) ++ ys.map Cell.idx =
      (xs ++ c :: ys).map Cell.idx := by
    rw [List.append_assoc (xs.map Cell.idx), hg]
    simp
  rw [hidx] at hlinked
  have hf : (h.elts.elt f.idx).offset = c.word := by
    have hw : (h.elts.elt f.idx).offset = f.word := hl.word f mem_cons_self
    rw [hw, hcell, Cell.word, Cell.word, if_pos hfree, if_pos rfl]
  have htiled' : Tiled 0 (xs ++ c :: ys) h₁.len := by
    rw [hkept.len, hcell]
    exact tiled_combine htiled
  have hcf : c.free = true := by rw [hcell]
  have hword' : ∀ d ∈ xs ++ ys, h₁.elts.offset d.idx = d.word := by
    intro d hd
    rw [hoff]
    exact hword d hd
  have hlen : h₁.len ≤ 2 ^ 31 := by
    rw [hkept.len]
    exact hl.len
  have hfin := hc'.finish hlinked hword' htiled' hlen hcf (hbin.combine hnd hlinked.nodup_chain hcb hother)
  rw [hplace, ← hf] at hfin
  obtain ⟨h1, h2, h3⟩ := hfin
  exact ⟨h1, h2, hkept.trans h3⟩

theorem filter_eq_of_mem {l : List Nat} (hnd : l.Nodup) (hg : g ∈ l) : l.filter (· = g) = [g] := by
  rw [filter_eq, count_eq_one_of_mem hnd hg]
  rfl

theorem size_add_le {c d : Cell} {cs : List Cell} (hc : c ∈ cs) (hd : d ∈ cs) (hne : c ≠ d) :
    c.size + d.size ≤ (cs.map Cell.size).sum := by
  obtain ⟨xs, ys, rfl⟩ := append_of_mem hc
  obtain rfl | hd := mem_middle.mp hd
  · exact absurd rfl hne
  · have hle : d.size ≤ ((xs ++ ys).map Cell.size).sum := le_sum_of_mem (List.mem_map_of_mem hd)
    simp only [map_append, map_cons, List.sum_append, sum_cons] at hle ⊢
    omega

/-- No block of the combined bin: a new element is linked in before the first. -/
theorem combine_new (hl : Layout h [] 0 (xs ++ f :: fs ++ ys)) (hbin : BinOf (xs ++ f :: fs ++ ys) bin)
    (hfiled : Bins.Filed h.freeList bin h.freeIndex) (b : Nat) :
    let h₁ := Heap.addFreeBlock { h with elts := h.elts.eltNew.2 } b h.elts.eltNew.1
    let h₂ : Heap := { h₁ with elts := h₁.elts.eltInsertBefore f.idx h.elts.eltNew.1 }
    (∃ m, Layout h₂ (xs.map Cell.idx ++ [h.elts.eltNew.1]) m (f :: fs ++ ys)) ∧
      Combining h₂ h.elts.eltNew.1 (update bin h.elts.eltNew.1 (some b))
        (update h.freeIndex h.elts.eltNew.1 (h.freeList b).length) ∧
      h₂.elts.offset = h.elts.offset ∧ h.elts.eltNew.1 ∉ (xs ++ f :: fs ++ ys).map Cell.idx ∧ h₂.len = h.len := by
  intro h₁ h₂
  obtain ⟨hnew, hunused⟩ := hl.linked.eltNew
  rw [nil_append] at hnew hunused
  have hu : h.elts.eltNew.1 ∉ (xs ++ f :: fs ++ ys).map Cell.idx := fun hm =>
    hunused.notMem (mem_append_left _ hm)
  have hoff : h₂.elts.offset = h.elts.offset := Elts.offset_eltInsertBefore.trans Elts.offset_eltNew
  have hidx : (xs ++ f :: fs ++ ys).map Cell.idx = xs.map Cell.idx ++ f.idx :: (fs ++ ys).map Cell.idx := by simp
  refine ⟨?_, ⟨?_, ?_, ?_, ?_⟩, hoff, hu, rfl⟩
  · have hsplit := hl
    rw [List.append_assoc] at hsplit
    obtain ⟨m, hm⟩ := hsplit.split
    refine ⟨m, ?_, fun c hc => ?_, hm.tiled, hm.len⟩
    · rw [hidx] at hnew hunused
      have hins := hnew.insertBefore hunused
      have happ : xs.map Cell.idx ++ [h.elts.eltNew.1] ++ (f :: fs ++ ys).map Cell.idx =
          xs.map Cell.idx ++ h.elts.eltNew.1 :: f.idx :: (fs ++ ys).map Cell.idx := by simp
      rw [happ]
      exact hins
    · rw [hoff]
      exact hm.word c hc
  · have hnone : bin h.elts.eltNew.1 = none := by
      by_contra hne
      obtain ⟨c, hc, hci, -⟩ := hbin.mem hne
      exact hu (hci ▸ List.mem_map_of_mem hc)
    have hlist : h₂.freeList = update h.freeList b (h.freeList b ++ [h.elts.eltNew.1]) :=
      Heap.addFreeBlock_freeList
    rw [hlist]
    exact hfiled.add hnone b
  · intro i _ hig
    rw [update_of_ne hig]
    exact Heap.freeIndex_congr (Heap.eltOffset_congr hoff) rfl rfl rfl
  · intro i hi hig
    rw [update_of_ne hig] at hi
    rw [Heap.eltIsFree_congr hoff]
    exact (hl.combining hbin hfiled h.elts.eltNew.1).free i hi hig
  · intro i j hi hj hig hjg
    rw [update_of_ne hig] at hi
    rw [update_of_ne hjg] at hj
    rw [Heap.eltOffset_congr hoff, Heap.eltOffset_congr hoff]
    exact (hl.combining hbin hfiled h.elts.eltNew.1).off_inj i j hi hj hig hjg

/-- Two or three free neighbours become one free block. -/
theorem combineFreeBlocks_spec (hl : Layout h [] 0 (xs ++ f :: fs ++ ys)) (hb : Binned h (xs ++ f :: fs ++ ys))
    (hfree : ∀ c ∈ f :: fs, c.free = true) (hlen : (f :: fs).length ≤ 3)
    (hlast : (f :: fs).getLast (cons_ne_nil f fs) = l) :
    ∃ g, Layout (h.combineFreeBlocks f.idx l.idx) [] 0
        (xs ++ ⟨g, f.off, ((f :: fs).map Cell.size).sum, true⟩ :: ys) ∧
      Binned (h.combineFreeBlocks f.idx l.idx) (xs ++ ⟨g, f.off, ((f :: fs).map Cell.size).sum, true⟩ :: ys) ∧
      Heap.Kept h (h.combineFreeBlocks f.idx l.idx) := by
  obtain ⟨bin, hbin, hfiled⟩ := hb
  have hmem : ∀ c ∈ f :: fs, c ∈ xs ++ f :: fs ++ ys := fun c hc =>
    mem_append_left _ (mem_append_right _ hc)
  have hbins : ∀ c ∈ f :: fs, bin c.idx = some (sizeToBin c.size) := fun c hc => hbin.get (hmem c hc) (hfree c hc)
  have hsplit := hl
  rw [List.append_assoc] at hsplit
  obtain ⟨m, hm⟩ := hsplit.split
  have hcollect := collectFree_eq hm hfiled hbins hlast hlen
  have htotal : (((f :: fs).map (Cell.ref h)).map fun r => h.heapEltSize r.index).sum =
      ((f :: fs).map Cell.size).sum := sum_sizes hl hmem
  have hhead : (((f :: fs).map (Cell.ref h)).map (·.index)).headD 0 = f.idx := rfl
  have hrefs : ((f :: fs).map (Cell.ref h)).map (·.index) = (f :: fs).map Cell.idx := by
    rw [List.map_map]
    rfl
  have hword : ∀ d ∈ xs ++ ys, h.elts.offset d.idx = d.word := by
    intro d hd
    apply hl.word
    simp only [mem_append] at hd ⊢
    tauto
  have htop : ((f :: fs).map Cell.size).sum ≤ 2 ^ 31 := by
    have hsum := hl.tiled.sum
    have hle := hl.len
    simp only [map_append, List.sum_append] at hsum
    omega
  simp only [Heap.combineFreeBlocks, hcollect, htotal, hhead]
  cases hfind : ((f :: fs).map (Cell.ref h)).find? fun r => sizeToBin ((f :: fs).map Cell.size).sum == r.bin with
  | some r =>
    obtain ⟨c, hc, rfl⟩ := List.mem_map.mp (mem_of_find?_eq_some hfind)
    have hcb : sizeToBin ((f :: fs).map Cell.size).sum = sizeToBin c.size := by
      have hp := find?_some hfind
      exact beq_iff_eq.mp hp
    have hdiff : ∀ d ∈ f :: fs, d.idx ≠ c.idx → bin d.idx = some (sizeToBin d.size) ∧
        some (sizeToBin ((f :: fs).map Cell.size).sum) ≠ some (sizeToBin d.size) := by
      intro d hd hdc
      refine ⟨hbins d hd, fun he => ?_⟩
      have hdc' : c ≠ d := fun hcd => hdc (by rw [hcd])
      have hcpos := (hl.tiled.bounds (hmem c hc)).2.1
      have hdpos := (hl.tiled.bounds (hmem d hd)).2.1
      exact sizeToBin_ne hcpos hdpos (size_add_le hc hd hdc') htop hcb.symm (Option.some.inj he).symm
    have hnd : ((f :: fs).map Cell.idx).Nodup := by
      have hnd := hm.nodup_idx
      rw [map_append] at hnd
      exact (nodup_append.mp hnd).1
    have hpre : Layout h (xs.map Cell.idx ++ []) m (f :: fs ++ ys) := by simpa using hm
    have hfilter : [] ++ ((f :: fs).map Cell.idx).filter (· = c.idx) = [c.idx] :=
      filter_eq_of_mem hnd (List.mem_map_of_mem hc)
    refine ⟨c.idx, ?_⟩
    exact combine_into (c := ⟨c.idx, f.off, ((f :: fs).map Cell.size).sum, true⟩) hpre
      (hl.combining hbin hfiled c.idx) rfl (hfree f mem_cons_self) hbin hl.nodup_idx
      (by rw [hbins c hc, ← hcb]; rfl) (fun _ _ => rfl) hl.tiled hword hdiff
      hfilter _ hrefs
  | none =>
    obtain ⟨⟨m', hm'⟩, hcomb, hoff, hu, hlen'⟩ := combine_new hl hbin hfiled (sizeToBin ((f :: fs).map Cell.size).sum)
    have hdiff : ∀ d ∈ f :: fs, d.idx ≠ h.elts.eltNew.1 → bin d.idx = some (sizeToBin d.size) ∧
        some (sizeToBin ((f :: fs).map Cell.size).sum) ≠ some (sizeToBin d.size) := by
      intro d hd _
      refine ⟨hbins d hd, fun he => ?_⟩
      have hno := find?_eq_none.mp hfind (Cell.ref h d) (List.mem_map_of_mem hd)
      exact hno (beq_iff_eq.mpr (Option.some.inj he))
    have hfilter : ((f :: fs).map Cell.idx).filter (· = h.elts.eltNew.1) = [] := by
      apply filter_eq_nil_iff.mpr
      intro i hi he
      apply hu
      rw [← of_decide_eq_true he, map_append, map_append]
      exact mem_append_left _ (mem_append_right _ hi)
    refine ⟨h.elts.eltNew.1, ?_⟩
    have hmain := combine_into (c := ⟨h.elts.eltNew.1, f.off, ((f :: fs).map Cell.size).sum, true⟩) hm' hcomb rfl
      (hfree f mem_cons_self) hbin hl.nodup_idx (update_self _ _ _)
      (fun i hi => update_of_ne hi _ _) (by rw [hlen']; exact hl.tiled)
      (by rw [hoff]; exact hword) hdiff (by rw [hfilter]; rfl) _ hrefs
    rw [update_self] at hmain
    obtain ⟨h1, h2, h3, h4, h5, h6⟩ := hmain
    exact ⟨h1, h2, h3, h4, h5, h6⟩

end Vpp.Infra
