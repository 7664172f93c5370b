import Vpp.Infra.HeapAlloc

namespace Vpp.Infra
open Vpp.Lib List

structure Alloc where
  handle : Nat
  offset : Nat
  size : Nat
  align : Nat

/-- The heaps of a client that frees what it has and writes inside its objects, with what it has. Its requests are
`ok` for the heap they are made to. -/
inductive HeapRun (ok : Heap → Nat → Nat → Prop) : Heap → List Alloc → Prop
  | empty : HeapRun ok { maxLen, eltBytes } []
  | alloc : HeapRun ok h live → 0 < size → size < 2 ^ 64 → align < 2 ^ 64 → ok h size align →
      h.heapAlloc size align eltBytes = (some (offset, handle), h') →
      HeapRun ok h' (⟨handle, offset, size, align⟩ :: live)
  | refused : HeapRun ok h live → 0 < size → size < 2 ^ 64 → align < 2 ^ 64 → ok h size align →
      h.heapAlloc size align eltBytes = (none, h') → HeapRun ok h' live
  | dealloc : HeapRun ok h live → a ∈ live →
      HeapRun ok (h.heapDealloc a.handle) (live.filter fun b => b.handle ≠ a.handle)
  | store : HeapRun ok h live → a ∈ live → a.offset ≤ o → o < a.offset + a.size →
      HeapRun ok { h with data := Function.update h.data o x } live

def Alloc.block (a : Alloc) : Nat × Nat × Nat := (a.handle, a.offset, a.size)

def Cell.block (c : Cell) : Nat × Nat × Nat := (c.idx, c.off, c.size)

structure Owned (h : Heap) (live : List Alloc) (cs : List Cell) : Prop where
  good : Good h cs
  fresh : cs = [] → Fresh h.elts
  blocks : (live.map Alloc.block).Perm ((usedOf cs).map Cell.block)
  count : h.usedCount = live.length
  aligned : ∀ a ∈ live, maxPow2 a.align ∣ a.offset

variable {h h' : Heap}

theorem Owned.cell (ho : Owned h live cs) (ha : a ∈ live) :
    ∃ c ∈ cs, c.free = false ∧ c.idx = a.handle ∧ c.off = a.offset ∧ c.size = a.size := by
  have hm := ho.blocks.mem_iff.mp (List.mem_map_of_mem ha)
  obtain ⟨c, hc, hca⟩ := List.mem_map.mp hm
  obtain ⟨hcs, hf⟩ := mem_filter.mp hc
  obtain ⟨h1, h2⟩ := Prod.mk.inj hca
  obtain ⟨h2, h3⟩ := Prod.mk.inj h2
  exact ⟨c, hcs, by simpa using hf, h1, h2, h3⟩

theorem Good.fresh_of_len (hg : Good h cs) (hlen : 0 < h.len) : cs ≠ [] := by
  intro he
  have ht := hg.layout.tiled
  rw [he] at ht
  exact absurd ht.symm (Nat.ne_of_gt hlen)

theorem Owned.empty : Owned { maxLen, eltBytes } [] [] := by
  refine ⟨⟨⟨⟨trivial, nodup_nil, by simp, rfl, rfl⟩, by simp, rfl, Nat.zero_le _⟩, ?_, isChain_nil⟩, ?_, ?_, rfl,
      by simp⟩
  · refine ⟨fun _ => none, fun i b => by simp, fun b k i => ?_⟩
    simp [Heap.freeList]
  · exact fun _ => ⟨rfl, rfl, rfl⟩
  · exact .refl _

theorem Owned.alloc (ho : Owned h live cs) (hp : Placed h' cs ⟨e, o, size, false⟩) (hd : maxPow2 align ∣ o)
    (hu : h'.usedCount = h.usedCount + 1) : ∃ cs', Owned h' (⟨e, o, size, align⟩ :: live) cs' := by
  obtain ⟨xs, ys, hg, hused⟩ := hp
  refine ⟨xs ++ ⟨e, o, size, false⟩ :: ys, hg, fun hn => by simp at hn, ?_, ?_, ?_⟩
  · have hcons : usedOf (xs ++ ⟨e, o, size, false⟩ :: ys) = usedOf xs ++ ⟨e, o, size, false⟩ :: usedOf ys := by
      rw [usedOf_append]
      rfl
    rw [hcons]
    have hperm : (usedOf xs ++ (⟨e, o, size, false⟩ : Cell) :: usedOf ys).Perm (⟨e, o, size, false⟩ :: usedOf cs) := by
      rw [← hused]
      exact perm_middle
    exact ((ho.blocks.cons _).trans (hperm.map Cell.block).symm)
  · rw [hu, ho.count]
    rfl
  · intro a ha
    rcases mem_cons.mp ha with rfl | ha
    · exact hd
    · exact ho.aligned a ha

theorem Owned.handles_nodup (ho : Owned h live cs) : (live.map Alloc.handle).Nodup := by
  have hidx : ((usedOf cs).map Cell.idx).Nodup :=
    ho.good.layout.nodup_idx.sublist ((filter_sublist).map Cell.idx)
  have hperm := ho.blocks.map Prod.fst
  rw [List.map_map, List.map_map] at hperm
  exact hperm.nodup_iff.mpr hidx

theorem Owned.dealloc (ho : Owned h live cs) (ha : a ∈ live) :
    ∃ cs', Owned (h.heapDealloc a.handle) (live.filter fun b => b.handle ≠ a.handle) cs' := by
  obtain ⟨c, hc, hf, hi, -, -⟩ := ho.cell ha
  obtain ⟨xs, ys, rfl⟩ := append_of_mem hc
  obtain ⟨cs', hg', hused, hkept⟩ := deallocElt_spec (ho.good.usedCount (h.usedCount - 1)) hf
  rw [hi] at hg' hkept
  have hcons : usedOf (xs ++ c :: ys) = usedOf xs ++ c :: usedOf ys := by
    rw [usedOf_append]
    congr 1
    exact filter_cons_of_pos (by simp [hf])
  have hblocks : ((live.filter fun b => b.handle ≠ a.handle).map Alloc.block).Perm ((usedOf cs').map Cell.block) := by
    have hperm := ho.blocks.filter fun b => b.1 ≠ a.handle
    rw [List.filter_map, List.filter_map, hcons] at hperm
    have hkeep : ∀ l : List Cell, (∀ d ∈ l, d ∈ xs ++ ys) →
        l.filter ((fun b => decide (b.1 ≠ a.handle)) ∘ Cell.block) = l := by
      intro l hl
      apply filter_eq_self.mpr
      intro d hd
      have hne := idx_ne_middle ho.good.layout.nodup_idx (hl d hd)
      rw [hi] at hne
      exact decide_eq_true hne
    have hdrop : ¬ ((fun b => decide (b.1 ≠ a.handle)) ∘ Cell.block) c = true := by
      simp [Cell.block, hi]
    have hx := hkeep (usedOf xs) fun d hd => mem_append_left _ (mem_of_mem_filter hd)
    have hy := hkeep (usedOf ys) fun d hd => mem_append_right _ (mem_of_mem_filter hd)
    rw [filter_append, filter_cons_of_neg hdrop, hx, hy, ← hused] at hperm
    exact hperm
  refine ⟨cs', hg', ?_, hblocks, ?_, ?_⟩
  · obtain ⟨-, hpos, hle⟩ := ho.good.layout.tiled.bounds hc
    have hlen : 0 < (h.heapDealloc a.handle).len := by
      have hk : (h.heapDealloc a.handle).len = h.len := hkept.len
      omega
    exact fun hn => absurd hn (hg'.fresh_of_len hlen)
  · have h1 := ho.blocks.length_eq
    have h2 := hblocks.length_eq
    have h3 : (h.heapDealloc a.handle).usedCount = h.usedCount - 1 := hkept.usedCount
    have h4 := ho.count
    simp only [length_map, hcons, hused, length_append, length_cons] at h1 h2
    omega
  · intro b hb
    exact ho.aligned b (mem_of_mem_filter hb)

theorem Owned.store (hw : Owned h live cs) (ha : a ∈ live) (hlo : a.offset ≤ o) (hhi : o < a.offset + a.size) :
    Owned { h with data := Function.update h.data o x } live cs := by
  obtain ⟨c, hc, hf, -, hoff, hsize⟩ := hw.cell ha
  obtain ⟨⟨hl, hb, hadj⟩, hfresh, hblocks, hcount, haligned⟩ := hw
  refine ⟨⟨hl.congr rfl rfl, hb.congr rfl (fun _ _ => Iff.rfl) ?_, hadj⟩, hfresh, hblocks, hcount, haligned⟩
  intro d hd hdf
  have hne : d ≠ c := fun he => by simp [he, hf] at hdf
  have hdo : h.eltOffset d.idx ≠ o := by
    rw [hl.eltOffset hd]
    have hdisj := hl.disjoint hd hc hne
    have hdpos := (hl.tiled.bounds hd).2.1
    omega
  rw [Heap.freeIndex, Heap.freeIndex]
  split
  · exact Function.update_of_ne hdo _ _
  · rfl

theorem HeapRun.owned (hr : HeapRun Fits h live) : ∃ cs, Owned h live cs := by
  induction hr with
  | empty => exact ⟨[], .empty⟩
  | alloc _ hpos _ _ hfit hs ih =>
    obtain ⟨cs, ho⟩ := ih
    obtain ⟨hn, -⟩ | ⟨o, e, hr, hp, hd, hu⟩ := heapAlloc_spec ho.good ho.fresh hpos hfit hs
    · cases hn
    · obtain ⟨rfl, rfl⟩ := Prod.mk.inj (Option.some.inj hr)
      exact ho.alloc hp hd hu
  | refused _ hpos _ _ hfit hs ih =>
    obtain ⟨cs, ho⟩ := ih
    obtain ⟨-, rfl⟩ | ⟨o, e, hr, -⟩ := heapAlloc_spec ho.good ho.fresh hpos hfit hs
    · exact ⟨cs, ho⟩
    · cases hr
  | dealloc _ ha ih =>
    obtain ⟨cs, ho⟩ := ih
    exact ho.dealloc ha
  | store _ ha hlo hhi ih =>
    obtain ⟨cs, ho⟩ := ih
    exact ⟨cs, ho.store ha hlo hhi⟩

/-- What is checked of the elements `is`, from the first to the last, of a heap with the objects `live`. -/
structure HeapValidate (h : Heap) (live : List Alloc) (is : List Nat) : Prop where
  nodup : is.Nodup
  first : ∀ i, is.head? = some i → h.elts.head = i ∧ h.elts.heapPrev i = i ∧ h.eltOffset i = 0
  last : ∀ i, is.getLast? = some i → h.elts.tail = i ∧ h.elts.heapNext i = i
  order : is.IsChain fun i j => h.elts.heapNext i = j ∧ h.elts.heapPrev j = i
  contiguous : is.IsChain fun i j => h.eltOffset i + h.heapEltSize i = h.eltOffset j ∧ h.eltOffset i < h.eltOffset j
  nonempty : ∀ i ∈ is, 0 < h.heapEltSize i
  total : (is.map h.heapEltSize).sum = h.len
  noAdjacentFree : is.IsChain fun i j => ¬ (h.eltIsFree i = true ∧ h.eltIsFree j = true)
  freeLists : ∀ b k i, (h.freeList b)[k]? = some i ↔ i ∈ is ∧ h.eltIsFree i = true ∧ h.getFreeElt i = (b, k)
  used : ∀ i ∈ is, h.eltIsFree i = false ↔ i ∈ live.map Alloc.handle
  usedCount : h.usedCount = live.length

theorem isChain_of_split {l : List Cell} (hR : ∀ xs a b ys, l = xs ++ a :: b :: ys → R a b) : l.IsChain R := by
  induction l with
  | nil => exact isChain_nil
  | cons a l ih =>
    cases l with
    | nil => exact isChain_singleton a
    | cons b l =>
      refine isChain_cons_cons.mpr ⟨hR [] a b l rfl, ih fun xs c d ys he => ?_⟩
      exact hR (a :: xs) c d ys (by rw [he]; rfl)

theorem Layout.neighbours (hl : Layout h [] 0 (xs ++ a :: b :: ys)) :
    h.elts.heapNext a.idx = b.idx ∧ h.elts.heapPrev b.idx = a.idx ∧ a.off + a.size = b.off := by
  have hlinked := hl.linked
  have hsplit : [] ++ (xs ++ a :: b :: ys).map Cell.idx =
      (xs.map Cell.idx ++ [a.idx]) ++ b.idx :: ys.map Cell.idx := by simp
  have hsplit' : [] ++ (xs ++ a :: b :: ys).map Cell.idx =
      xs.map Cell.idx ++ a.idx :: (b.idx :: ys.map Cell.idx) := by simp
  obtain ⟨m, hx, hao, has, hbo, -⟩ := tiled_append.mp hl.tiled
  refine ⟨?_, ?_, by rw [hao, hbo]⟩
  · rw [hsplit'] at hlinked
    exact hlinked.next
  · rw [hsplit] at hlinked
    simpa using hlinked.prev

theorem Owned.validate (ho : Owned h live cs) : HeapValidate h live (cs.map Cell.idx) := by
  obtain ⟨⟨hl, ⟨bin, hbin, hfiled⟩, hadj⟩, -, hblocks, hcount, -⟩ := ho
  have hlinked := hl.linked
  rw [nil_append] at hlinked
  constructor
  · exact hl.nodup_idx
  · intro i hi
    cases cs with
    | nil => cases hi
    | cons c cs =>
      obtain rfl : c.idx = i := Option.some.inj hi
      refine ⟨hlinked.head, ?_, ?_⟩
      · exact hlinked.chain.1
      · rw [hl.eltOffset mem_cons_self]
        exact hl.tiled.1
  · intro i hi
    obtain ⟨xs, hxs⟩ := getLast?_eq_some_iff.mp hi
    rw [hxs] at hlinked
    refine ⟨?_, hlinked.next⟩
    have ht := hlinked.tail
    simpa using ht
  · rw [isChain_map]
    apply isChain_of_split
    intro xs a b ys he
    rw [he] at hl
    exact ⟨hl.neighbours.1, hl.neighbours.2.1⟩
  · rw [isChain_map]
    apply isChain_of_split
    intro xs a b ys he
    rw [he] at hl
    obtain ⟨-, hpos, -⟩ := hl.tiled.bounds (c := a) (by simp)
    have hend := hl.neighbours.2.2
    rw [hl.eltOffset (c := a) (by simp), hl.size (c := a) (by simp), hl.eltOffset (c := b) (by simp)]
    exact ⟨hend, by omega⟩
  · intro i hi
    obtain ⟨c, hc, rfl⟩ := List.mem_map.mp hi
    rw [hl.size hc]
    exact (hl.tiled.bounds hc).2.1
  · have hsizes : (cs.map Cell.idx).map h.heapEltSize = cs.map Cell.size := by
      rw [List.map_map]
      apply map_congr_left
      intro c hc
      rw [Function.comp_apply]
      exact hl.size hc
    rw [hsizes]
    have hsum := hl.tiled.sum
    omega
  · rw [isChain_map]
    refine List.IsChain.imp_of_mem_imp (fun a b ha hb hab => ?_) hadj
    rw [hl.eltIsFree ha, hl.eltIsFree hb]
    intro hcon
    obtain h0 | h0 := hab
    · rw [h0] at hcon
      exact absurd hcon.1 (by decide)
    · rw [h0] at hcon
      exact absurd hcon.2 (by decide)
  · intro b k i
    rw [hfiled b k i, hbin i b]
    constructor
    · intro hcell
      obtain ⟨⟨c, hc, hci, hcb⟩, hk⟩ := hcell
      obtain ⟨hf, hsb⟩ := Cell.free_of_bin hcb
      subst hci
      refine ⟨List.mem_map_of_mem hc, (hl.eltIsFree hc).trans hf, ?_⟩
      rw [Heap.getFreeElt, hl.size hc, hsb, hk]
    · intro hfree
      obtain ⟨hi, hf, hget⟩ := hfree
      obtain ⟨c, hc, rfl⟩ := List.mem_map.mp hi
      obtain ⟨hb, hk⟩ := Prod.mk.inj hget
      rw [hl.size hc] at hb
      rw [hl.eltIsFree hc] at hf
      exact ⟨⟨c, hc, rfl, by rw [Cell.bin, if_pos hf, hb]⟩, hk⟩
  · intro i hi
    obtain ⟨c, hc, rfl⟩ := List.mem_map.mp hi
    have hperm := hblocks.map Prod.fst
    rw [List.map_map, List.map_map] at hperm
    have hmem := hperm.mem_iff (a := c.idx)
    rw [hl.eltIsFree hc]
    constructor
    · intro hf
      exact hmem.mpr (List.mem_map_of_mem (f := Cell.idx) (mem_filter.mpr ⟨hc, by simp [hf]⟩))
    · intro hm
      obtain ⟨d, hd, hdi⟩ := List.mem_map.mp (hmem.mp hm)
      obtain ⟨hdc, hdf⟩ := mem_filter.mp hd
      obtain rfl := hl.eq_of_idx hdc hc hdi
      simpa using hdf
  · exact hcount

theorem HeapRun.step (hr : HeapRun ok h live) (hpos : 0 < size) (hs : size < 2 ^ 64) (ha : align < 2 ^ 64)
    (hok : ok h size align) (hres : (h.heapAlloc size align eltBytes).1 = some (o, e)) :
    HeapRun ok (h.heapAlloc size align eltBytes).2 (⟨e, o, size, align⟩ :: live) :=
  .alloc hr hpos hs ha hok (Prod.ext hres rfl)

theorem heapRun_fragment : HeapRun Fits
    (((({} : Heap).heapAlloc 3 0 4).2.heapAlloc 5 8 4).2.heapDealloc 0) [⟨1, 8, 5, 8⟩] := by
  have h1 : HeapRun Fits (({} : Heap).heapAlloc 3 0 4).2 [⟨0, 0, 3, 0⟩] := by
    refine HeapRun.empty.step (by decide) (by decide) (by decide) ⟨by decide, fun _ => .inr (by decide)⟩ ?_
    decide
  have h2 : HeapRun Fits ((({} : Heap).heapAlloc 3 0 4).2.heapAlloc 5 8 4).2 [⟨1, 8, 5, 8⟩, ⟨0, 0, 3, 0⟩] := by
    refine h1.step (by decide) (by decide) (by decide) ⟨by decide, fun _ => .inr (by decide)⟩ ?_
    decide
  exact h2.dealloc (a := ⟨0, 0, 3, 0⟩) (by simp)

theorem heapRun_validate (hr : HeapRun Fits h live) : ∃ is, HeapValidate h live is := by
  obtain ⟨cs, ho⟩ := hr.owned
  exact ⟨_, ho.validate⟩

theorem heapRun_validate_fragment :
    ∃ is, HeapValidate (((({} : Heap).heapAlloc 3 0 4).2.heapAlloc 5 8 4).2.heapDealloc 0) [⟨1, 8, 5, 8⟩] is :=
  heapRun_validate heapRun_fragment

theorem heapRun_past_free_bit : HeapRun (fun _ _ _ => True)
    ((({} : Heap).heapAlloc (2 ^ 31) 0 1).2.heapAlloc 1 0 1).2 [⟨1, 2 ^ 31, 1, 0⟩, ⟨0, 0, 2 ^ 31, 0⟩] := by
  have h1 : HeapRun (fun _ _ _ => True) (({} : Heap).heapAlloc (2 ^ 31) 0 1).2 [⟨0, 0, 2 ^ 31, 0⟩] := by
    refine HeapRun.empty.step (by decide) (by decide) (by decide) trivial ?_
    decide
  refine h1.step (by decide) (by decide) (by decide) trivial ?_
  decide

theorem heapRun_validate_fails : ∃ h live, HeapRun (fun _ _ _ => True) h live ∧ ¬ ∃ is, HeapValidate h live is := by
  refine ⟨_, _, heapRun_past_free_bit, fun ⟨is, hv⟩ => ?_⟩
  cases hlast : is.getLast? with
  | none =>
    have htotal := hv.total
    rw [getLast?_eq_none_iff.mp hlast] at htotal
    exact absurd htotal (by decide)
  | some i =>
    have hi : 1 = i := Eq.trans (by decide) (hv.last i hlast).1
    have hmem : 1 ∈ is := hi ▸ mem_of_getLast? hlast
    have hfree := (hv.used 1 hmem).mpr (by simp)
    exact absurd hfree (by decide)

/-- Every object stays where it was allocated, aligned as asked and apart from the others. -/
theorem heapRun_sound (hr : HeapRun Fits h live) :
    (∀ a ∈ live, maxPow2 a.align ∣ a.offset ∧ a.offset + a.size ≤ h.len ∧ h.eltIsFree a.handle = false ∧
      h.eltOffset a.handle = a.offset ∧ h.heapLen a.handle = a.size) ∧
    live.Pairwise fun a b => a.handle ≠ b.handle ∧
      (a.offset + a.size ≤ b.offset ∨ b.offset + b.size ≤ a.offset) := by
  obtain ⟨cs, ho⟩ := hr.owned
  have hl := ho.good.layout
  constructor
  · intro a ha
    obtain ⟨c, hc, hf, hi, hoff, hsize⟩ := ho.cell ha
    refine ⟨ho.aligned a ha, ?_, ?_, ?_, ?_⟩
    · rw [← hoff, ← hsize]
      exact (hl.tiled.bounds hc).2.2
    · rw [← hi, hl.eltIsFree hc, hf]
    · rw [← hi, hl.eltOffset hc, hoff]
    · rw [Heap.heapLen, ← hi, hl.size hc, hsize]
  · have hnd := ho.handles_nodup
    rw [List.Nodup, pairwise_map] at hnd
    refine hnd.imp_of_mem fun {a b} ha hb hab => ⟨hab, ?_⟩
    obtain ⟨c, hc, -, hi, hoff, hsize⟩ := ho.cell ha
    obtain ⟨d, hd, -, hi', hoff', hsize'⟩ := ho.cell hb
    have hne : c ≠ d := fun he => hab (by rw [← hi, ← hi', he])
    rw [← hoff, ← hsize, ← hoff', ← hsize']
    exact hl.disjoint hc hd hne

theorem heapRun_sound_fragment : maxPow2 8 ∣ 8 ∧
    (((({} : Heap).heapAlloc 3 0 4).2.heapAlloc 5 8 4).2.heapDealloc 0).eltOffset 1 = 8 := by
  obtain ⟨hdvd, -, -, hoffset, -⟩ := (heapRun_sound heapRun_fragment).1 ⟨1, 8, 5, 8⟩ (mem_singleton.mpr rfl)
  exact ⟨hdvd, hoffset⟩

/-- An alignment that is not a power of two is rounded up to one, and an offset past the free bit is read without it. -/
theorem heapRun_sound_fails :
    (∃ h live, HeapRun (fun _ _ _ => True) h live ∧ ∃ a ∈ live, ¬ a.align ∣ a.offset) ∧
      ∃ h live, HeapRun (fun _ _ _ => True) h live ∧ ∃ a ∈ live, h.eltOffset a.handle ≠ a.offset := by
  have h1 : HeapRun (fun _ _ _ => True) (({} : Heap).heapAlloc 1 0 1).2 [⟨0, 0, 1, 0⟩] := by
    refine HeapRun.empty.step (by decide) (by decide) (by decide) trivial ?_
    decide
  have h2 : HeapRun (fun _ _ _ => True) ((({} : Heap).heapAlloc 1 0 1).2.heapAlloc 1 3 1).2
      [⟨1, 4, 1, 3⟩, ⟨0, 0, 1, 0⟩] := by
    refine h1.step (by decide) (by decide) (by decide) trivial ?_
    decide
  constructor
  · exact ⟨_, _, h2, ⟨1, 4, 1, 3⟩, by simp, by decide⟩
  · exact ⟨_, _, heapRun_past_free_bit, ⟨1, 2 ^ 31, 1, 0⟩, by simp, by decide⟩

end Vpp.Infra
