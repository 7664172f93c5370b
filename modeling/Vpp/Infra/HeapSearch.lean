import Mathlib.Data.List.Chain
import Vpp.Infra.HeapCombine

namespace Vpp.Infra
open Vpp.Lib Function List Option

section

variable {h h' : Heap}

/-- Two neighbours are not both free. -/
def NoAdj (cs : List Cell) : Prop := cs.IsChain fun a b => a.free = false ∨ b.free = false

def usedOf (cs : List Cell) : List Cell := cs.filter fun c => !c.free

theorem usedOf_append : usedOf (xs ++ ys) = usedOf xs ++ usedOf ys := filter_append xs ys

theorem usedOf_free {cs : List Cell} (hf : ∀ c ∈ cs, c.free = true) : usedOf cs = [] := by
  apply filter_eq_nil_iff.mpr
  intro c hc
  simp [hf c hc]

/-- The elements of the heap: a chain of blocks, the free ones in the free lists and no two of them neighbours. -/
structure Good (h : Heap) (cs : List Cell) : Prop where
  layout : Layout h [] 0 cs
  binned : Binned h cs
  noAdj : NoAdj cs

theorem noAdj_middle (hx : NoAdj xs) (hy : NoAdj ys) (hlast : ∀ z ∈ xs.getLast?, z.free = false)
    (hhead : ∀ z ∈ ys.head?, z.free = false) : NoAdj (xs ++ c :: ys) := by
  refine isChain_append.mpr ⟨hx, isChain_cons.mpr ⟨fun z hz => .inr (hhead z hz), hy⟩, ?_⟩
  exact fun z hz _ _ => .inl (hlast z hz)

/-- The free block before `c`, if there is one. -/
theorem free_before (hl : Layout h [] 0 (xs ++ c :: ys)) (hadj : NoAdj xs) :
    ∃ xs' ps, xs = xs' ++ ps ∧ ps.length ≤ 1 ∧ (∀ x ∈ ps, x.free = true) ∧ (∀ z ∈ xs'.getLast?, z.free = false) ∧
      (if h.eltIsFree (h.elts.heapPrev c.idx) then h.elts.heapPrev c.idx else c.idx) = (ps.head?.getD c).idx := by
  have hlinked := hl.linked
  rw [nil_append, map_append, map_cons] at hlinked
  have hprev := hlinked.prev
  rw [getLast?_map] at hprev
  cases hlast : xs.getLast? with
  | none =>
    rw [hlast, map_none, getD_none] at hprev
    refine ⟨xs, [], by simp, by simp, by simp, by simp [hlast], ?_⟩
    rw [hprev]
    simp
  | some x =>
    rw [hlast, map_some, getD_some] at hprev
    obtain ⟨xs', rfl⟩ : ∃ xs', xs = xs' ++ [x] := getLast?_eq_some_iff.mp hlast
    have hfx : h.eltIsFree x.idx = x.free := hl.eltIsFree (by simp)
    rw [hprev, hfx]
    cases hx : x.free with
    | true =>
      refine ⟨xs', [x], rfl, by simp, by simpa using hx, ?_, by simp⟩
      intro z hz
      have hzx := (isChain_append.mp hadj).2.2 z hz x rfl
      rw [hx] at hzx
      simpa using hzx
    | false =>
      refine ⟨xs' ++ [x], [], by simp, by simp, by simp, by simpa using hx, by simp⟩

/-- The free block after `c`, if there is one. -/
theorem free_after (hl : Layout h [] 0 (xs ++ c :: ys)) (hadj : NoAdj ys) :
    ∃ ns ys', ys = ns ++ ys' ∧ ns.length ≤ 1 ∧ (∀ y ∈ ns, y.free = true) ∧ (∀ z ∈ ys'.head?, z.free = false) ∧
      (if h.eltIsFree (h.elts.heapNext c.idx) then h.elts.heapNext c.idx else c.idx) = (ns.head?.getD c).idx := by
  have hlinked := hl.linked
  rw [nil_append, map_append, map_cons] at hlinked
  have hnext := hlinked.next
  cases ys with
  | nil =>
    have hself : h.elts.heapNext c.idx = c.idx := by simpa using hnext
    refine ⟨[], [], rfl, by simp, by simp, by simp, ?_⟩
    rw [hself]
    simp
  | cons y ys =>
    have hy : h.elts.heapNext c.idx = y.idx := by simpa using hnext
    have hfy : h.eltIsFree y.idx = y.free := hl.eltIsFree (by simp)
    rw [hy, hfy]
    cases hyf : y.free with
    | true =>
      refine ⟨[y], ys, rfl, by simp, by simpa using hyf, ?_, by simp⟩
      intro z hz
      have hyz := (isChain_cons.mp hadj).1 z hz
      rw [hyf] at hyz
      simpa using hyz
    | false =>
      refine ⟨[], y :: ys, rfl, by simp, by simp, by simpa using hyf, by simp⟩

theorem combine_good (f : Cell) (fs : List Cell) (hl : Layout h [] 0 (xs ++ f :: fs ++ ys))
    (hb : Binned h (xs ++ f :: fs ++ ys))
    (hfree : ∀ c ∈ f :: fs, c.free = true) (hlen : (f :: fs).length ≤ 3) (hne : fs ≠ [])
    (hlast : (f :: fs).getLast (cons_ne_nil f fs) = l) (hx : NoAdj xs) (hy : NoAdj ys)
    (hxl : ∀ z ∈ xs.getLast?, z.free = false) (hyh : ∀ z ∈ ys.head?, z.free = false) :
    ∃ cs', Good (if f.idx ≠ l.idx then h.combineFreeBlocks f.idx l.idx else h) cs' ∧
      usedOf cs' = usedOf xs ++ usedOf ys ∧
      Heap.Kept h (if f.idx ≠ l.idx then h.combineFreeBlocks f.idx l.idx else h) := by
  have hfl : f.idx ≠ l.idx := by
    have hmem : l ∈ fs := by
      rw [← hlast, getLast_cons hne]
      exact getLast_mem hne
    have hnd := hl.nodup_idx
    rw [List.append_assoc, List.cons_append] at hnd
    exact (idx_ne_middle hnd (mem_append_right _ (mem_append_left _ hmem))).symm
  obtain ⟨g, hl', hb', hkept⟩ := combineFreeBlocks_spec hl hb hfree hlen hlast
  rw [if_pos hfl]
  refine ⟨_, ⟨hl', hb', noAdj_middle hx hy hxl hyh⟩, ?_, hkept⟩
  rw [usedOf_append]
  rfl

theorem deallocElt_eq (hs : h.heapEltSize e = size)
    (hp : (if (h.fileBlock (sizeToBin size) e).eltIsFree ((h.fileBlock (sizeToBin size) e).elts.heapPrev e) then
      (h.fileBlock (sizeToBin size) e).elts.heapPrev e else e) = p)
    (hn : (if (h.fileBlock (sizeToBin size) e).eltIsFree ((h.fileBlock (sizeToBin size) e).elts.heapNext e) then
      (h.fileBlock (sizeToBin size) e).elts.heapNext e else e) = n) :
    h.deallocElt e = if p ≠ n then (h.fileBlock (sizeToBin size) e).combineFreeBlocks p n
      else h.fileBlock (sizeToBin size) e := by
  rw [Heap.deallocElt, hs]
  subst hp hn
  rfl

theorem deallocElt_spec (hg : Good h (xs ++ c :: ys)) (hc : c.free = false) :
    ∃ cs', Good (h.deallocElt c.idx) cs' ∧ usedOf cs' = usedOf xs ++ usedOf ys ∧ Heap.Kept h (h.deallocElt c.idx) := by
  obtain ⟨hl, hb, hadj⟩ := hg
  have hsize : h.heapEltSize c.idx = c.size := hl.size (by simp)
  obtain ⟨hl₁, hb₁⟩ := hl.fileBlock hb hc
  have hadjx : NoAdj xs := (isChain_append.mp hadj).1
  have hadjy : NoAdj ys := (isChain_cons.mp (isChain_append.mp hadj).2.1).2
  obtain ⟨xs', ps, rfl, hps, hpf, hlast, hp⟩ := free_before hl₁ hadjx
  obtain ⟨ns, ys', rfl, hns, hnf, hhead, hn⟩ := free_after hl₁ hadjy
  have hstep := deallocElt_eq hsize hp hn
  have hused : usedOf (xs' ++ ps) ++ usedOf (ns ++ ys') = usedOf xs' ++ usedOf ys' := by
    rw [usedOf_append, usedOf_append, usedOf_free hpf, usedOf_free hnf]
    simp
  have hadjx' : NoAdj xs' := (isChain_append.mp hadjx).1
  have hadjy' : NoAdj ys' := (isChain_append.mp hadjy).2.1
  rw [hstep, hused]
  have hkept := Heap.fileBlock_kept (h := h) (b := sizeToBin c.size) (e := c.idx)
  -- the free neighbours and the block itself, in their order
  cases ps with
  | nil =>
    cases ns with
    | nil =>
      rw [if_neg (by simp)]
      rw [append_nil] at hl₁ hb₁
      refine ⟨_, ⟨hl₁, hb₁, noAdj_middle hadjx' hadjy' hlast hhead⟩, ?_, hkept⟩
      rw [usedOf_append]
      rfl
    | cons n ns =>
      obtain rfl : ns = [] := by simpa using hns
      obtain ⟨cs', h1, h2, h3⟩ := combine_good { c with free := true } [n] (by simpa using hl₁)
        (by simpa using hb₁) (by simpa using hnf) (by simp) (by simp) rfl hadjx' hadjy' hlast hhead
      exact ⟨cs', h1, h2, hkept.trans h3⟩
  | cons p ps =>
    obtain rfl : ps = [] := by simpa using hps
    cases ns with
    | nil =>
      obtain ⟨cs', h1, h2, h3⟩ := combine_good p [{ c with free := true }] (by simpa using hl₁)
        (by simpa using hb₁) (by simpa using hpf) (by simp) (by simp) rfl hadjx' hadjy' hlast hhead
      exact ⟨cs', h1, h2, hkept.trans h3⟩
    | cons n ns =>
      obtain rfl : ns = [] := by simpa using hns
      have hfree : ∀ d ∈ [p, { c with free := true }, n], d.free = true := by
        simpa using ⟨hpf p (by simp), hnf n (by simp)⟩
      obtain ⟨cs', h1, h2, h3⟩ := combine_good p [{ c with free := true }, n] (by simpa using hl₁)
        (by simpa using hb₁) hfree (by simp) (by simp) rfl hadjx' hadjy' hlast hhead
      exact ⟨cs', h1, h2, hkept.trans h3⟩

end

variable {h h' : Heap}

theorem Layout.congr (hl : Layout h pre o cs) (he : h'.elts = h.elts) (hlen : h'.len = h.len) : Layout h' pre o cs := by
  obtain ⟨hk, hw, ht, hle⟩ := hl
  refine ⟨?_, ?_, ?_, ?_⟩
  · rwa [he]
  · rwa [he]
  · rwa [hlen]
  · rwa [hlen]

/-- A block is cut in two; the second part is a used block with the element `u`. -/
theorem Layout.cut (hl : Layout h [] 0 (xs ++ c :: ys)) (hs : 0 < s) (hsc : s < c.size) (hlen : h'.len = h.len)
    (hE : h'.elts.Linked (xs.map Cell.idx ++ c.idx :: u :: ys.map Cell.idx))
    (ho : ∀ i, h'.elts.offset i = if i = u then BitVec.ofNat 32 (c.off + s) else h.elts.offset i) :
    Layout h' [] 0 (xs ++ { c with size := s } :: ⟨u, c.off + s, c.size - s, false⟩ :: ys) := by
  have hu : ∀ d ∈ xs ++ c :: ys, d.idx ≠ u := by
    intro d hd he
    have hnd := hE.nodup_chain
    have hsplit : xs.map Cell.idx ++ c.idx :: u :: ys.map Cell.idx =
        (xs.map Cell.idx ++ [c.idx]) ++ u :: ys.map Cell.idx := by simp
    rw [hsplit] at hnd
    apply (nodup_cons.mp (nodup_middle.mp hnd)).1
    have hm := List.mem_map_of_mem (f := Cell.idx) hd
    simp only [map_append, map_cons, mem_append, mem_cons] at hm ⊢
    rw [← he]
    simp only [not_mem_nil, or_false]
    tauto
  refine ⟨?_, ?_, ?_, ?_⟩
  · simpa using hE
  · intro d hd
    rw [ho]
    rcases mem_append.mp hd with hd | hd
    · rw [if_neg (hu d (mem_append_left _ hd))]
      exact hl.word d (mem_append_left _ hd)
    · rcases mem_cons.mp hd with rfl | hd
      · rw [if_neg (hu c (by simp))]
        exact hl.word c (by simp)
      · rcases mem_cons.mp hd with rfl | hd
        · rw [if_pos rfl]
          rfl
        · rw [if_neg (hu d (mem_append_right _ (mem_cons_of_mem _ hd)))]
          exact hl.word d (mem_append_right _ (mem_cons_of_mem _ hd))
  · rw [hlen]
    obtain ⟨m, hx, hco, -, hy⟩ := tiled_append.mp hl.tiled
    refine tiled_append.mpr ⟨m, hx, hco, hs, by rw [hco], Nat.sub_pos_of_lt hsc, ?_⟩
    have hend : m + s + (c.size - s) = m + c.size := by omega
    rw [hend]
    exact hy
  · rw [hlen]
    exact hl.len

theorem NoAdj.cut (ha : NoAdj (xs ++ c :: ys)) (hc : c'.free = c.free) (hu : u.free = false) :
    NoAdj (xs ++ c' :: u :: ys) := by
  obtain ⟨hx, hcy, hxc⟩ := isChain_append.mp ha
  have hy := (isChain_cons.mp hcy).2
  refine isChain_append.mpr ⟨hx, isChain_cons.mpr ⟨?_, isChain_cons.mpr ⟨?_, hy⟩⟩, ?_⟩
  · exact fun z hz => .inr (by cases hz; exact hu)
  · exact fun z _ => .inl hu
  · intro z hz w hw
    cases hw
    have hzc := hxc z hz c rfl
    rwa [hc]

theorem NoAdj.use (ha : NoAdj (xs ++ c :: ys)) (hc : c'.free = false) : NoAdj (xs ++ c' :: ys) := by
  obtain ⟨hx, hcy, hxc⟩ := isChain_append.mp ha
  have hy := (isChain_cons.mp hcy).2
  refine isChain_append.mpr ⟨hx, isChain_cons.mpr ⟨fun z _ => .inl hc, hy⟩, ?_⟩
  intro z _ w hw
  cases hw
  exact .inr hc

theorem searchList_some (hs : h.searchList size b n = some (l, s)) :
    l < n ∧ s = (h.heapEltSize ((h.freeList b).getD l 0) + 2 ^ 64 - size) % 2 ^ 64 ∧ s < 2 ^ 63 := by
  induction n with
  | zero => cases hs
  | succ n ih =>
    simp only [Heap.searchList] at hs
    split at hs
    · obtain ⟨rfl, rfl⟩ := Prod.mk.inj (Option.some.inj hs)
      exact ⟨Nat.lt_succ_self _, rfl, by assumption⟩
    · obtain ⟨h1, h2⟩ := ih hs
      exact ⟨Nat.lt_succ_of_lt h1, h2⟩

theorem searchBins_some (hs : h.searchBins size b₀ n = some (b, l, s)) :
    h.searchList size b (h.freeList b).length = some (l, s) := by
  induction n generalizing b₀ with
  | zero => cases hs
  | succ n ih =>
    rw [Heap.searchBins] at hs
    cases hl : h.searchList size b₀ (h.freeList b₀).length with
    | none =>
      rw [hl] at hs
      exact ih hs
    | some r =>
      rw [hl] at hs
      obtain ⟨rfl, rfl⟩ : b₀ = b ∧ r = (l, s) := by simpa using hs
      exact hl

theorem searchBins_cell (hl : Layout h [] 0 cs) (hbin : BinOf cs bin)
    (hfiled : Bins.Filed h.freeList bin h.freeIndex) (hsz : size ≤ 2 ^ 63)
    (hs : h.searchBins size b₀ n = some (b, l, s)) :
    ∃ c ∈ cs, c.free = true ∧ (h.freeList b).getD l 0 = c.idx ∧ bin c.idx = some b ∧ h.freeIndex c.idx = l ∧
      c.size = s + size := by
  obtain ⟨hlt, hseq, hs63⟩ := searchList_some (searchBins_some hs)
  have hget : (h.freeList b)[l]? = some ((h.freeList b).getD l 0) := by
    rw [List.getElem?_eq_getElem hlt, getD_eq_getElem _ _ hlt]
  obtain ⟨hb, hidx⟩ := (hfiled b l _).mp hget
  obtain ⟨c, hc, hci, hf⟩ := hbin.mem (i := (h.freeList b).getD l 0) (by simp only [hb]; simp)
  rw [← hci] at hb hidx hseq
  rw [hl.size hc] at hseq
  have hbound := (hl.tiled.bounds hc).2.2
  have hlen := hl.len
  refine ⟨c, hc, hf, hci.symm, hb, hidx, ?_⟩
  omega

theorem search_whole (hg : Good h (xs ++ c :: ys)) (hf : c.free = true) (hbin : BinOf (xs ++ c :: ys) bin)
    (hfiled : Bins.Filed h.freeList bin h.freeIndex) (hb : bin c.idx = some b) :
    let h₁ : Heap := { h with elts := h.elts.setOffset c.idx (BitVec.ofNat 32 (h.eltOffset c.idx)) }
    Good (h₁.removeFreeBlock b (h.freeIndex c.idx)) (xs ++ { c with free := false } :: ys) ∧
      Heap.Kept h (h₁.removeFreeBlock b (h.freeIndex c.idx)) := by
  intro h₁
  obtain ⟨hl, -, hadj⟩ := hg
  have hcm : c ∈ xs ++ c :: ys := by simp
  have hword (i : Nat) : h₁.elts.offset i = if i = c.idx then BitVec.ofNat 32 c.off else h.elts.offset i := by
    have ho : h₁.elts.offset i = if i = c.idx then BitVec.ofNat 32 (h.eltOffset c.idx) else h.elts.offset i :=
      Elts.offset_setOffset
    rw [ho, hl.eltOffset hcm]
  have hidx : (xs ++ { c with free := false } :: ys).map Cell.idx = (xs ++ c :: ys).map Cell.idx := by simp
  have hl₁ : Layout h₁ [] 0 (xs ++ { c with free := false } :: ys) := by
    refine ⟨?_, ?_, ?_, hl.len⟩
    · rw [hidx]
      exact hl.linked.setOffset
    · intro d hd
      rw [hword]
      obtain rfl | hd := mem_middle.mp hd
      · rw [if_pos rfl]
        rfl
      · rw [if_neg (idx_ne_middle hl.nodup_idx hd)]
        exact hl.word d (mem_middle.mpr (.inr hd))
    · obtain ⟨m, hx, hy⟩ := tiled_append.mp hl.tiled
      exact tiled_append.mpr ⟨m, hx, hy⟩
  have heltOff : ∀ d ∈ xs ++ c :: ys, h₁.eltOffset d.idx = d.off := by
    intro d hd
    obtain rfl | hd := mem_middle.mp hd
    · exact hl₁.eltOffset (c := { d with free := false }) (mem_middle.mpr (.inl rfl))
    · exact hl₁.eltOffset (mem_middle.mpr (.inr hd))
  have hlt := hfiled.lt hb
  have hne : h.freeList b ≠ [] := fun he => by simp [he] at hlt
  obtain ⟨t, ht⟩ : ∃ t, (h.freeList b).getLast? = some t := ⟨_, getLast?_eq_some_getLast hne⟩
  have htb : bin t = some b := hfiled.bin_of_mem (mem_of_getLast? ht)
  obtain ⟨d, hd, rfl, hdf⟩ := hbin.mem (i := t) (by simp [htb])
  have hmoves : Heap.MovesFree h₁ b (h.freeIndex c.idx) := by
    intro t ht' hlast
    obtain rfl : d.idx = t := Option.some.inj (ht.symm.trans ht')
    -- the last of the list is not the block itself, which is not the last
    obtain rfl | hd := mem_middle.mp hd
    · rw [getLast?_eq_getElem?] at ht
      have hpl := ((hfiled b _ _).mp ht).2
      have hll : h₁.freeList b = h.freeList b := rfl
      rw [hll] at hlast
      omega
    · rw [hl₁.eltIsFree (mem_middle.mpr (.inr hd)), hdf]
  have helts := Heap.removeFreeBlock_elts hmoves
  have hkept := Heap.removeFreeBlock_kept (h := h₁) (b := b) (i := h.freeIndex c.idx)
  refine ⟨⟨hl₁.congr helts hkept.len, ⟨_, hbin.set hl.nodup_idx rfl, ?_⟩, hadj.use rfl⟩, hkept.1, hkept.2, hkept.3,
      hkept.4⟩
  have hrem := hfiled.remove hb
  have hlists := Heap.removeFreeBlock_freeList (h := h₁) hlt
  rw [hlists]
  refine hrem.congr fun i hi => ?_
  have hic : i ≠ c.idx := fun he => by simp [he] at hi
  rw [update_of_ne hic] at hi
  obtain ⟨e, he, rfl, hef⟩ := hbin.mem hi
  have hind : h₁.freeIndex e.idx = h.freeIndex e.idx :=
    Heap.freeIndex_congr ((heltOff e he).trans (hl.eltOffset he).symm) rfl rfl rfl
  have hoff : e.idx ≠ d.idx → h₁.eltOffset e.idx ≠ h₁.eltOffset d.idx := by
    rw [heltOff e he, heltOff d hd]
    intro hne ho
    exact hne (congrArg Cell.idx (hl.eq_of_off he hd ho))
  rw [Heap.freeIndex_removeFreeBlock_ne (h := h₁) (hfiled.get hb) ht hic hoff]
  simp only [Bins.swapPlace, ht]
  by_cases hed : e.idx = d.idx
  · rw [hed, update_self, update_self]
  · rw [update_of_ne hed, update_of_ne hed, hind]

/-- The block that stays free moves to the list of its new bin. -/
theorem refile (hl : Layout h [] 0 cs) (hmem : ∀ i, bin i ≠ none → ∃ c ∈ cs, c.idx = i ∧ c.free = true)
    (hfiled : Bins.Filed h.freeList bin h.freeIndex)
    (hc : c ∈ cs) (hb : bin c.idx = some b) (hfb : fb ≠ b) :
    let h' := (h.fileBlock fb c.idx).removeFreeBlock b (h.freeIndex c.idx)
    h'.elts = h.elts ∧ Heap.Kept h h' ∧
      Bins.Filed h'.freeList (update bin c.idx (some fb)) h'.freeIndex := by
  intro h'
  have hfree : ∀ d ∈ cs, bin d.idx ≠ none → h.eltIsFree d.idx = true := by
    intro d hd hdb
    obtain ⟨e, he, hed, hef⟩ := hmem _ hdb
    rw [← hed, hl.eltIsFree he, hef]
  have helts₁ : (h.fileBlock fb c.idx).elts = h.elts :=
    Heap.setFreeElt_elts_of_free (h := h.addFreeBlock fb c.idx) (hfree c hc (by simp [hb]))
  have hoff₁ (i : Nat) : (h.fileBlock fb c.idx).eltOffset i = h.eltOffset i := Heap.eltOffset_congr (by rw [helts₁])
  have hlist₁ : (h.fileBlock fb c.idx).freeList b = h.freeList b := by
    rw [Heap.fileBlock_freeList, update_of_ne (Ne.symm hfb)]
  have hlt := hfiled.lt hb
  have hne : h.freeList b ≠ [] := fun he => by simp [he] at hlt
  obtain ⟨t, ht⟩ : ∃ t, (h.freeList b).getLast? = some t := ⟨_, getLast?_eq_some_getLast hne⟩
  have htb : bin t = some b := hfiled.bin_of_mem (mem_of_getLast? ht)
  obtain ⟨d, hd, rfl, -⟩ := hmem t (by simp [htb])
  have hmoves : Heap.MovesFree (h.fileBlock fb c.idx) b (h.freeIndex c.idx) := by
    intro t ht' _
    obtain rfl : d.idx = t := Option.some.inj ((hlist₁ ▸ ht).symm.trans ht')
    have hfr : (h.fileBlock fb c.idx).eltIsFree d.idx = h.eltIsFree d.idx := Heap.eltIsFree_congr (by rw [helts₁])
    rw [hfr]
    exact hfree d hd (by simp [htb])
  have hkept₁ := Heap.fileBlock_kept (h := h) (b := fb) (e := c.idx)
  refine ⟨(Heap.removeFreeBlock_elts hmoves).trans helts₁, hkept₁.trans Heap.removeFreeBlock_kept, ?_⟩
  -- the source adds before it removes; the two lists differ, so the order does not matter
  have hlists : h'.freeList = update (update h.freeList b
      (Bins.swapRemove (h.freeList b) (h.freeIndex c.idx))) fb (h.freeList fb ++ [c.idx]) := by
    have hr := Heap.removeFreeBlock_freeList (h := h.fileBlock fb c.idx) (hlist₁ ▸ hlt)
    rw [hlist₁, Heap.fileBlock_freeList, update_comm hfb] at hr
    exact hr
  have hrem := (hfiled.remove hb).add (i := c.idx) (update_self _ _ _) fb
  rw [update_of_ne hfb, update_idem] at hrem
  rw [hlists]
  refine hrem.congr fun i hi => ?_
  have hoff (e : Cell) (he : e ∈ cs) (hne : e.idx ≠ d.idx) :
      (h.fileBlock fb c.idx).eltOffset e.idx ≠ (h.fileBlock fb c.idx).eltOffset d.idx := by
    rw [hoff₁, hoff₁, hl.eltOffset he, hl.eltOffset hd]
    intro ho
    exact hne (congrArg Cell.idx (hl.eq_of_off he hd ho))
  by_cases hic : i = c.idx
  · subst hic
    rw [update_self, Heap.freeIndex_removeFreeBlock (hlist₁ ▸ ht) (hoff c hc), hlist₁, if_neg]
    · exact Heap.fileBlock_freeIndex_self
    · intro hcon
      rw [getLast?_eq_getElem?] at ht
      have hpl := ((hfiled b _ _).mp ht).2
      rw [← hcon.2] at hpl
      omega
  · rw [update_of_ne hic] at hi ⊢
    obtain ⟨e, he, rfl, -⟩ := hmem _ hi
    have hget : ((h.fileBlock fb c.idx).freeList b)[h.freeIndex c.idx]? = some c.idx := hlist₁ ▸ hfiled.get hb
    rw [Heap.freeIndex_removeFreeBlock_ne hget (hlist₁ ▸ ht) hic (hoff e he)]
    simp only [Bins.swapPlace, ht]
    by_cases hed : e.idx = d.idx
    · rw [hed, update_self, update_self]
    · rw [update_of_ne hed, update_of_ne hed]
      apply Heap.fileBlock_freeIndex_ne hic
      rw [hl.eltOffset he, hl.eltOffset hc]
      intro ho
      exact hic (congrArg Cell.idx (hl.eq_of_off he hc ho))

/-- A used block that is new in the heap, and the blocks that were used before. -/
def Placed (h' : Heap) (cs : List Cell) (u : Cell) : Prop :=
  ∃ xs ys, Good h' (xs ++ u :: ys) ∧ usedOf xs ++ usedOf ys = usedOf cs

/-- The end of the block is cut off and used. -/
theorem search_cut (hg : Good h (xs ++ c :: ys)) (hf : c.free = true) (hbin : BinOf (xs ++ c :: ys) bin)
    (hfiled : Bins.Filed h.freeList bin h.freeIndex) (hb : bin c.idx = some b) (hs : 0 < s) (hsc : s < c.size) :
    let u := h.elts.eltNew.1
    let elts := h.elts.eltNew.2.eltInsertAfter c.idx u
    let h₁ : Heap := { h with elts := elts.setOffset u (BitVec.ofNat 32 ((elts.elt c.idx).heapOffset + s)) }
    let h₂ := if sizeToBin s ≠ b then (h₁.fileBlock (sizeToBin s) c.idx).removeFreeBlock b (h.freeIndex c.idx) else h₁
    ∃ o, Placed h₂ (xs ++ c :: ys) ⟨u, o, c.size - s, false⟩ ∧ Heap.Kept h h₂ := by
  intro u elts h₁ h₂
  obtain ⟨hl, -, hadj⟩ := hg
  have hcm : c ∈ xs ++ c :: ys := by simp
  have hlinked := hl.linked
  rw [nil_append, map_append, map_cons] at hlinked
  obtain ⟨hnew, hunused⟩ := hlinked.eltNew
  have hins := hnew.insertAfter hunused
  have hoffE : elts.offset = h.elts.offset := Elts.offset_eltInsertAfter.trans Elts.offset_eltNew
  have hcoff : (elts.elt c.idx).heapOffset = c.off := by
    have ho : Heap.eltOffset { h with elts := elts } c.idx = h.eltOffset c.idx := Heap.eltOffset_congr hoffE
    rw [hl.eltOffset hcm] at ho
    exact ho
  have hoff₁ (i : Nat) : h₁.elts.offset i = if i = u then BitVec.ofNat 32 (c.off + s) else h.elts.offset i := by
    have ho : h₁.elts.offset i = if i = u then BitVec.ofNat 32 ((elts.elt c.idx).heapOffset + s) else elts.offset i :=
      Elts.offset_setOffset
    rw [ho, hcoff, hoffE]
  have hl₁ : Layout h₁ [] 0 (xs ++ { c with size := s } :: ⟨u, c.off + s, c.size - s, false⟩ :: ys) :=
    hl.cut hs hsc rfl hins.setOffset hoff₁
  have hbin₁ : BinOf (xs ++ { c with size := s } :: ⟨u, c.off + s, c.size - s, false⟩ :: ys)
      (update bin c.idx (some (sizeToBin s))) := by
    have hset : BinOf (xs ++ { c with size := s } :: ys) _ := hbin.set hl.nodup_idx rfl
    have hcb : Cell.bin { c with size := s } = some (sizeToBin s) := if_pos hf
    rw [hcb] at hset
    refine hset.congr fun d hd => ?_
    have hdu : d ≠ ⟨u, c.off + s, c.size - s, false⟩ := fun he => by simp [he] at hd
    simp only [mem_append, mem_cons]
    tauto
  have hind (d : Cell) (hd : d ∈ xs ++ c :: ys) : h₁.freeIndex d.idx = h.freeIndex d.idx := by
    refine Heap.freeIndex_congr ?_ rfl rfl rfl
    have hdu : d.idx ≠ u := by
      intro he
      have hm := List.mem_map_of_mem (f := Cell.idx) hd
      rw [he, map_append, map_cons] at hm
      exact hunused.notMem (mem_append_left _ hm)
    have ho : (h₁.elts.elt d.idx).offset = (h.elts.elt d.idx).offset := by
      have h1 := hoff₁ d.idx
      rw [if_neg hdu] at h1
      exact h1
    rw [Heap.eltOffset, Heap.eltOffset, heapOffset_eq, heapOffset_eq, ho]
  have hfiled₁ : Bins.Filed h₁.freeList bin h₁.freeIndex := by
    refine hfiled.congr fun i hi => ?_
    obtain ⟨d, hd, rfl, -⟩ := hbin.mem hi
    exact hind d hd
  have hadj₁ : NoAdj (xs ++ { c with size := s } :: ⟨u, c.off + s, c.size - s, false⟩ :: ys) := hadj.cut rfl rfl
  have hused : usedOf (xs ++ [{ c with size := s }]) ++ usedOf ys = usedOf (xs ++ c :: ys) := by
    have hcf : usedOf [{ c with size := s }] = [] := usedOf_free (by simpa using hf)
    have hcf' : usedOf [c] = [] := usedOf_free (by simpa using hf)
    have hcons : xs ++ c :: ys = xs ++ [c] ++ ys := by simp
    rw [hcons, usedOf_append, usedOf_append, usedOf_append, hcf, hcf']
  have happ : xs ++ { c with size := s } :: ⟨u, c.off + s, c.size - s, false⟩ :: ys =
      (xs ++ [{ c with size := s }]) ++ ⟨u, c.off + s, c.size - s, false⟩ :: ys := by simp
  have hmem : ∀ i, bin i ≠ none → ∃ d ∈ xs ++ { c with size := s } :: ⟨u, c.off + s, c.size - s, false⟩ :: ys,
      d.idx = i ∧ d.free = true := by
    intro i hi
    by_cases hic : i = c.idx
    · exact ⟨{ c with size := s }, by simp, hic.symm, hf⟩
    · apply hbin₁.mem
      rwa [update_of_ne hic]
  by_cases hfb : sizeToBin s ≠ b
  · have hrefile := refile (c := { c with size := s }) hl₁ hmem hfiled₁ (by simp) hb hfb
    rw [hind c hcm] at hrefile
    obtain ⟨helts, hkept, hfiled₂⟩ := hrefile
    have hstep : h₂ = (h₁.fileBlock (sizeToBin s) c.idx).removeFreeBlock b (h.freeIndex c.idx) := if_pos hfb
    rw [hstep]
    refine ⟨c.off + s, ⟨xs ++ [{ c with size := s }], ys, ?_, hused⟩, hkept.1, hkept.2, hkept.3, hkept.4⟩
    rw [← happ]
    exact ⟨hl₁.congr helts hkept.len, ⟨_, hbin₁, hfiled₂⟩, hadj₁⟩
  · have hstep : h₂ = h₁ := if_neg hfb
    rw [hstep]
    refine ⟨c.off + s, ⟨xs ++ [{ c with size := s }], ys, ?_, hused⟩, rfl, rfl, rfl, rfl⟩
    rw [← happ]
    have hsame : update bin c.idx (some (sizeToBin s)) = bin := by
      rw [not_not.mp hfb, ← hb]
      exact update_eq_self _ _
    rw [hsame] at hbin₁
    exact ⟨hl₁, ⟨_, hbin₁, hfiled₁⟩, hadj₁⟩

theorem searchFreeList_spec (hg : Good h cs) (hpos : 0 < size) (hsz : size ≤ 2 ^ 63)
    (hs : h.searchFreeList size = some (u, h')) :
    ∃ o, Placed h' cs ⟨u, o, size, false⟩ ∧ Heap.Kept h h' := by
  obtain ⟨bin, hbin, hfiled⟩ := hg.binned
  simp only [Heap.searchFreeList] at hs
  cases hsearch : h.searchBins size (sizeToBin size) (h.freeLists.length - sizeToBin size) with
  | none =>
    rw [hsearch] at hs
    cases hs
  | some r =>
    obtain ⟨b, l, s⟩ := r
    obtain ⟨c, hc, hf, hget, hb, hidx, hsize⟩ := searchBins_cell hg.layout hbin hfiled hsz hsearch
    obtain ⟨xs, ys, rfl⟩ := append_of_mem hc
    subst hidx
    rw [hsearch] at hs
    simp only [hget] at hs
    by_cases hzero : s = 0
    · rw [if_pos hzero] at hs
      obtain ⟨rfl, rfl⟩ := Prod.mk.inj (Option.some.inj hs)
      obtain ⟨hgood, hkept⟩ := search_whole hg hf hbin hfiled hb
      refine ⟨c.off, ⟨xs, ys, ?_, ?_⟩, hkept⟩
      · have hcell : ({ c with free := false } : Cell) = ⟨c.idx, c.off, size, false⟩ := by
          rw [hsize, hzero, Nat.zero_add]
        rw [← hcell]
        exact hgood
      · have hcons : xs ++ c :: ys = xs ++ [c] ++ ys := by simp
        have hcf : usedOf [c] = [] := usedOf_free (by simpa using hf)
        rw [hcons, usedOf_append, usedOf_append, hcf, append_nil]
    · rw [if_neg hzero] at hs
      obtain ⟨o, hplaced, hkept⟩ := search_cut hg hf hbin hfiled hb (Nat.pos_of_ne_zero hzero) (by omega)
      rw [hsize, Nat.add_sub_cancel_left] at hplaced
      split at hs
      · obtain ⟨rfl, rfl⟩ := Prod.mk.inj (Option.some.inj hs)
        rw [if_pos (by assumption)] at hplaced hkept
        exact ⟨o, hplaced, hkept⟩
      · obtain ⟨rfl, rfl⟩ := Prod.mk.inj (Option.some.inj hs)
        rw [if_neg (by assumption)] at hplaced hkept
        exact ⟨o, hplaced, hkept⟩

end Vpp.Infra
