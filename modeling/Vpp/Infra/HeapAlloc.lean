import Vpp.Infra.HeapSearch

namespace Vpp.Infra
open Vpp.Lib List BitVec

variable {h h' : Heap}

structure Fresh (E : Elts) : Prop where
  len : E.len = 0
  freeElts : E.freeElts = []
  next : E.heapNext 0 = 0

theorem Binned.reshape (hb : Binned h cs) (hl : Layout h pre o cs) (hl' : Layout h' pre' o' cs')
    (hsame : ∀ c, c.free = true → (c ∈ cs' ↔ c ∈ cs)) (hlists : h'.freeLists = h.freeLists) (hd : h'.data = h.data)
    (hs : h'.smallFreeEltFreeIndex = h.smallFreeEltFreeIndex) (he : cs ≠ [] → h'.eltBytes = h.eltBytes) :
    Binned h' cs' := by
  apply hb.congr
  · funext b
    rw [Heap.freeList, Heap.freeList, hlists]
  · exact hsame
  · intro c hc hf
    refine Heap.freeIndex_congr ?_ hd hs (he (ne_nil_of_mem hc))
    rw [hl.eltOffset hc, hl'.eltOffset ((hsame c hf).mpr hc)]

theorem Fresh.first (hf : Fresh E) (hl : E.Linked []) (w : BitVec 32) :
    let E₁ := E.eltNew.2.setOffset E.eltNew.1 w
    (E₁.eltInsertAfter E₁.tail E.eltNew.1).Linked [E.eltNew.1] := by
  obtain ⟨hlen, hfree, hnext⟩ := hf
  have hnew : E.eltNew = (0, { E with len := 1 }) := by rw [Elts.eltNew, hfree, hlen]
  rw [hnew]
  intro E₁
  have htail : E₁.tail = 0 := hl.tail
  have hself : E₁.heapNext 0 = 0 := by
    have hlinks : E₁.links.next 0 = E.links.next 0 := by
      have hk : E₁.links = E.links := Elts.links_setOffset (E := { E with len := 1 })
      rw [hk]
    exact hlinks.trans hnext
  obtain ⟨h1, h2, h3, h4⟩ := Elts.eltInsertAfter_frame E₁ 0 0
  rw [htail]
  refine ⟨?_, ?_, ?_, ?_, ?_⟩
  · rw [Elts.links_eltInsertAfter]
    have hop : E₁.links.insertAfter 0 0 = ((E₁.links.setNext 0 0).setPrev 0 0).setNext 0 0 := if_pos hself
    rw [hop]
    simp [Links.Chain]
  · have hf0 : E₁.freeElts = [] := hfree
    rw [h1, hf0]
    exact nodup_singleton 0
  · intro i hi
    have hi0 : i = 0 := by
      have hf0 : E₁.freeElts = [] := hfree
      simpa [h1, hf0] using hi
    rw [h2, hi0]
    exact Nat.zero_lt_one
  · rw [h3]
    exact hl.head
  · rw [h4, if_pos hself]
    rfl

theorem link_last (hl : E.Linked is) (hf : is = [] → Fresh E) (w : BitVec 32) :
    let E₁ := E.eltNew.2.setOffset E.eltNew.1 w
    (E₁.eltInsertAfter E₁.tail E.eltNew.1).Linked (is ++ [E.eltNew.1]) ∧ E.eltNew.1 ∉ is := by
  cases hlast : is.getLast? with
  | none =>
    obtain rfl : is = [] := getLast?_eq_none_iff.mp hlast
    exact ⟨(hf rfl).first hl w, not_mem_nil⟩
  | some t =>
    obtain ⟨xs, rfl⟩ : ∃ xs, is = xs ++ [t] := getLast?_eq_some_iff.mp hlast
    obtain ⟨hnew, hunused⟩ := hl.eltNew
    have htail : (E.eltNew.2.setOffset E.eltNew.1 w).tail = t := by
      have ht := hnew.tail
      rw [hlast, Option.getD_some] at ht
      exact ht
    have hu : Elts.Unused (E.eltNew.2.setOffset E.eltNew.1 w) (xs ++ [t]) E.eltNew.1 := ⟨hunused.notMem, hunused.lt⟩
    have hins := hnew.setOffset (i := E.eltNew.1) (o := w) |>.insertAfter hu
    intro E₁
    have ht : E₁.tail = t := htail
    rw [ht]
    refine ⟨?_, fun hm => hunused.notMem (mem_append_left _ hm)⟩
    simpa using hins

theorem extend_spec (hg : Good h cs) (hf : cs = [] → Fresh h.elts) (hpos : 0 < size) (hlen : h.len + size ≤ 2 ^ 31)
    (hs : h.extend size eltBytes = some (u, h')) :
    Placed h' cs ⟨u, h.len, size, false⟩ ∧ h'.len = h.len + size ∧ h'.usedCount = h.usedCount ∧
      h'.maxLen = h.maxLen := by
  obtain ⟨hl, hb, hadj⟩ := hg
  simp only [Heap.extend] at hs
  split at hs
  · cases hs
  · obtain ⟨rfl, rfl⟩ := Prod.mk.inj (Option.some.inj hs)
    generalize hh : (if h.len = 0 then ({ h with len := (h.len + size) % 2 ^ 32, eltBytes } : Heap)
      else { h with len := (h.len + size) % 2 ^ 32 }) = h₁
    have hfields : h₁.elts = h.elts ∧ h₁.len = h.len + size ∧ h₁.freeLists = h.freeLists ∧ h₁.data = h.data ∧
        h₁.smallFreeEltFreeIndex = h.smallFreeEltFreeIndex ∧ (cs ≠ [] → h₁.eltBytes = h.eltBytes) ∧
        h₁.usedCount = h.usedCount ∧ h₁.maxLen = h.maxLen := by
      have hmod : (h.len + size) % 2 ^ 32 = h.len + size := Nat.mod_eq_of_lt (by omega)
      have hpos' : cs ≠ [] → h.len ≠ 0 := by
        intro hne hzero
        cases cs with
        | nil => exact hne rfl
        | cons c cs =>
          obtain ⟨-, hc, hrest⟩ := hl.tiled
          have hle := hrest.le
          omega
      subst hh
      split
      · exact ⟨rfl, hmod, rfl, rfl, rfl, fun hne => absurd (by assumption) (hpos' hne), rfl, rfl⟩
      · exact ⟨rfl, hmod, rfl, rfl, rfl, fun _ => rfl, rfl, rfl⟩
    obtain ⟨he, hlen₁, hlists, hdata, hsmall, hbytes, hused, hmax⟩ := hfields
    rw [he]
    have hnil : [] ++ cs.map Cell.idx = [] → Fresh h.elts := fun hn => hf (by simpa using hn)
    obtain ⟨hlinked, hu⟩ := link_last hl.linked hnil (BitVec.ofNat 32 h.len)
    rw [nil_append] at hlinked hu
    refine ⟨⟨cs, [], ?_, by simp [usedOf]⟩, hlen₁, hused, hmax⟩
    have hl₁ : Layout
        { h₁ with elts := ((h.elts.eltNew.2.setOffset h.elts.eltNew.1 (BitVec.ofNat 32 h.len)).eltInsertAfter
        (h.elts.eltNew.2.setOffset h.elts.eltNew.1 (BitVec.ofNat 32 h.len)).tail h.elts.eltNew.1) } [] 0
        (cs ++ [⟨h.elts.eltNew.1, h.len, size, false⟩]) := by
      refine ⟨?_, ?_, ?_, ?_⟩
      · simpa using hlinked
      · intro d hd
        rw [Elts.offset_eltInsertAfter, Elts.offset_setOffset, Elts.offset_eltNew]
        rcases mem_append.mp hd with hd | hd
        · have hdu : d.idx ≠ h.elts.eltNew.1 := fun hdu => hu (hdu ▸ List.mem_map_of_mem hd)
          rw [if_neg hdu]
          exact hl.word d hd
        · obtain rfl := mem_singleton.mp hd
          rw [if_pos rfl]
          rfl
      · exact tiled_append.mpr ⟨h.len, hl.tiled, rfl, hpos, hlen₁.symm⟩
      · exact Nat.le_trans (Nat.le_of_eq hlen₁) hlen
    refine ⟨hl₁, hb.reshape hl hl₁ ?_ hlists hdata hsmall hbytes, ?_⟩
    · intro c hc
      have hcu : c ≠ ⟨h.elts.eltNew.1, h.len, size, false⟩ := fun hcu => by simp [hcu] at hc
      simp [hcu]
    · refine isChain_append.mpr ⟨hadj, isChain_singleton _, ?_⟩
      intro x _ y hy
      obtain rfl : _ = y := Option.some.inj hy
      exact .inr rfl

theorem roundPow2_eq (hx : x + 2 ^ k ≤ 2 ^ 63) :
    Heap.roundPow2 x (2 ^ k) = (x + 2 ^ k - 1) / 2 ^ k * 2 ^ k := by
  have hpos := Nat.two_pow_pos k
  have hle : 2 ^ k ≤ 2 ^ 63 := by omega
  have h1 : BitVec.ofNat 64 (x + 2 ^ k + (2 ^ 64 - 1)) = BitVec.ofNat 64 (x + 2 ^ k - 1) := by
    apply eq_of_toNat_eq
    rw [toNat_ofNat, toNat_ofNat]
    omega
  have h2 : BitVec.ofNat 64 (2 ^ k + (2 ^ 64 - 1)) = BitVec.ofNat 64 (2 ^ k - 1) := by
    apply eq_of_toNat_eq
    rw [toNat_ofNat, toNat_ofNat]
    omega
  rw [Heap.roundPow2, h1, h2]
  apply Nat.eq_of_testBit_eq
  intro i
  rw [testBit_toNat, getLsbD_and, getLsbD_not, getLsbD_ofNat, getLsbD_ofNat,
    Nat.testBit_mul_two_pow, Nat.testBit_div_two_pow, Nat.testBit_two_pow_sub_one]
  by_cases hki : k ≤ i
  · have hsub : i - k + k = i := Nat.sub_add_cancel hki
    rw [hsub]
    by_cases hi : i < 64
    · simp [hi, hki, Nat.not_lt.mpr hki]
    · have hlt : x + 2 ^ k - 1 < 2 ^ i :=
        Nat.lt_of_lt_of_le (by omega) (Nat.pow_le_pow_right (by decide) (Nat.not_lt.mp hi))
      simp [hi, Nat.testBit_lt_two_pow hlt]
  · simp [hki, Nat.lt_of_not_le hki]

theorem usedOf_split (hu : usedOf cs = as ++ e :: bs) :
    ∃ xs ys, cs = xs ++ e :: ys ∧ usedOf xs = as ∧ usedOf ys = bs := by
  obtain ⟨l₁, l₂, rfl, h₁, h₂⟩ := filter_eq_append_iff.mp hu
  obtain ⟨l₃, l₄, rfl, h₃, h₄, h₅⟩ := filter_eq_cons_iff.mp h₂
  refine ⟨l₁ ++ l₃, l₄, by simp, ?_, h₅⟩
  have hnil : usedOf l₃ = [] := filter_eq_nil_iff.mpr h₃
  have hleft : usedOf l₁ = as := h₁
  rw [usedOf_append, hnil, append_nil, hleft]

theorem Elts.setOffset_self (E : Elts) (i : Nat) : E.setOffset i (E.elt i).offset = E := by
  rw [Elts.setOffset]
  congr 1
  exact Function.update_eq_self i E.elt

theorem roundPow2_spec (hx : x + 2 ^ k ≤ 2 ^ 63) :
    2 ^ k ∣ Heap.roundPow2 x (2 ^ k) ∧ x ≤ Heap.roundPow2 x (2 ^ k) ∧ Heap.roundPow2 x (2 ^ k) < x + 2 ^ k := by
  have hpos := Nat.two_pow_pos k
  have hdiv := Nat.div_add_mod (x + 2 ^ k - 1) (2 ^ k)
  have hmod := Nat.mod_lt (x + 2 ^ k - 1) hpos
  rw [roundPow2_eq hx, Nat.mul_comm _ (2 ^ k)]
  refine ⟨Nat.dvd_mul_right _ _, ?_, ?_⟩
  · omega
  · omega

theorem free_front (hg : Good h (xs ++ c :: ys)) (hc : c.free = false) (hd : 0 < d) (hdc : d < c.size) :
    let E := h.elts.setOffset c.idx (BitVec.ofNat 32 (c.off + d))
    let E' := (E.eltNew.2.setOffset E.eltNew.1 (BitVec.ofNat 32 c.off)).eltInsertBefore c.idx E.eltNew.1
    let h' := Heap.deallocElt { h with elts := E' } E.eltNew.1
    ∃ xs' ys', Good h' (xs' ++ { c with off := c.off + d, size := c.size - d } :: ys') ∧
      usedOf xs' = usedOf xs ∧ usedOf ys' = usedOf ys ∧ Heap.Kept h h' := by
  intro E E' h'
  obtain ⟨hl, hb, hadj⟩ := hg
  have hlinked := hl.linked
  rw [nil_append, map_append, map_cons] at hlinked
  have hE : E.Linked (xs.map Cell.idx ++ c.idx :: ys.map Cell.idx) := hlinked.setOffset
  obtain ⟨hnew, hunused⟩ := hE.eltNew
  have hu : Elts.Unused (E.eltNew.2.setOffset E.eltNew.1 (BitVec.ofNat 32 c.off))
      (xs.map Cell.idx ++ c.idx :: ys.map Cell.idx) E.eltNew.1 := ⟨hunused.notMem, hunused.lt⟩
  have hins : E'.Linked _ := hnew.setOffset.insertBefore hu
  have hoff (i : Nat) : E'.offset i = if i = E.eltNew.1 then BitVec.ofNat 32 c.off
      else if i = c.idx then BitVec.ofNat 32 (c.off + d) else h.elts.offset i := by
    rw [Elts.offset_eltInsertBefore, Elts.offset_setOffset, Elts.offset_eltNew, Elts.offset_setOffset]
  have hune : ∀ z ∈ xs ++ c :: ys, z.idx ≠ E.eltNew.1 := by
    intro z hz he
    have hm := List.mem_map_of_mem (f := Cell.idx) hz
    rw [he, map_append, map_cons] at hm
    exact hunused.notMem (mem_append_left _ hm)
  have hl₁ : Layout { h with elts := E' } [] 0
      (xs ++ ⟨E.eltNew.1, c.off, d, false⟩ :: { c with off := c.off + d, size := c.size - d } :: ys) := by
    refine ⟨?_, ?_, ?_, hl.len⟩
    · simpa using hins
    · intro z hz
      refine (hoff z.idx).trans ?_
      obtain rfl | hz := mem_middle.mp hz
      · rw [if_pos rfl]
        rfl
      · obtain rfl | hz := mem_middle.mp hz
        · rw [if_neg (hune c (by simp)), if_pos rfl, Cell.word, hc]
          rfl
        · rw [if_neg (hune z (mem_middle.mpr (.inr hz))), if_neg (idx_ne_middle hl.nodup_idx hz)]
          exact hl.word z (mem_middle.mpr (.inr hz))
    · obtain ⟨m, hx, hco, -, hy⟩ := tiled_append.mp hl.tiled
      refine tiled_append.mpr ⟨m, hx, hco, hd, by rw [hco], Nat.sub_pos_of_lt hdc, ?_⟩
      have hend : m + d + (c.size - d) = m + c.size := by omega
      rw [hend]
      exact hy
  have hb₁ : Binned { h with elts := E' }
      (xs ++ ⟨E.eltNew.1, c.off, d, false⟩ :: { c with off := c.off + d, size := c.size - d } :: ys) := by
    refine hb.reshape hl hl₁ (fun z hz => ?_) rfl rfl rfl fun _ => rfl
    have hz₁ : z ≠ ⟨E.eltNew.1, c.off, d, false⟩ := fun he => by simp [he] at hz
    have hz₂ : z ≠ { c with off := c.off + d, size := c.size - d } := fun he => by simp [he, hc] at hz
    have hz₃ : z ≠ c := fun he => by simp [he, hc] at hz
    simp only [mem_append, mem_cons]
    tauto
  have hadj₁ : NoAdj (xs ++ ⟨E.eltNew.1, c.off, d, false⟩ :: { c with off := c.off + d, size := c.size - d } :: ys) :=
    hadj.cut hc.symm hc
  obtain ⟨cs', hgood, hused, hkept⟩ := deallocElt_spec (c := ⟨E.eltNew.1, c.off, d, false⟩) ⟨hl₁, hb₁, hadj₁⟩ rfl
  have hcons : usedOf ({ c with off := c.off + d, size := c.size - d } :: ys) =
      { c with off := c.off + d, size := c.size - d } :: usedOf ys := filter_cons_of_pos (by simp [hc])
  rw [hcons] at hused
  obtain ⟨xs', ys', rfl, hx, hy⟩ := usedOf_split hused
  exact ⟨xs', ys', hgood, hx, hy, hkept.1, hkept.2, hkept.3, hkept.4⟩

theorem free_back (hg : Good h (xs ++ c :: ys)) (hc : c.free = false) (hs : 0 < s) (hsc : s < c.size) :
    let E := h.elts.eltNew.2.setOffset h.elts.eltNew.1 (BitVec.ofNat 32 (c.off + s))
    let h' := Heap.deallocElt { h with elts := E.eltInsertAfter c.idx h.elts.eltNew.1 } h.elts.eltNew.1
    ∃ xs' ys', Good h' (xs' ++ { c with size := s } :: ys') ∧ usedOf xs' = usedOf xs ∧ usedOf ys' = usedOf ys ∧
      Heap.Kept h h' := by
  intro E h'
  obtain ⟨hl, hb, hadj⟩ := hg
  have hlinked := hl.linked
  rw [nil_append, map_append, map_cons] at hlinked
  obtain ⟨hnew, hunused⟩ := hlinked.eltNew
  have hu : E.Unused (xs.map Cell.idx ++ c.idx :: ys.map Cell.idx) h.elts.eltNew.1 := ⟨hunused.notMem, hunused.lt⟩
  have hins : (E.eltInsertAfter c.idx h.elts.eltNew.1).Linked _ := hnew.setOffset.insertAfter hu
  have hoff (i : Nat) : (E.eltInsertAfter c.idx h.elts.eltNew.1).offset i =
      if i = h.elts.eltNew.1 then BitVec.ofNat 32 (c.off + s) else h.elts.offset i := by
    rw [Elts.offset_eltInsertAfter, Elts.offset_setOffset, Elts.offset_eltNew]
  have hl₁ : Layout { h with elts := E.eltInsertAfter c.idx h.elts.eltNew.1 } [] 0
      (xs ++ { c with size := s } :: ⟨h.elts.eltNew.1, c.off + s, c.size - s, false⟩ :: ys) :=
    hl.cut hs hsc rfl hins hoff
  have hb₁ : Binned { h with elts := E.eltInsertAfter c.idx h.elts.eltNew.1 }
      (xs ++ { c with size := s } :: ⟨h.elts.eltNew.1, c.off + s, c.size - s, false⟩ :: ys) := by
    refine hb.reshape hl hl₁ (fun z hz => ?_) rfl rfl rfl fun _ => rfl
    have hz₁ : z ≠ ⟨h.elts.eltNew.1, c.off + s, c.size - s, false⟩ := fun he => by simp [he] at hz
    have hz₂ : z ≠ { c with size := s } := fun he => by simp [he, hc] at hz
    have hz₃ : z ≠ c := fun he => by simp [he, hc] at hz
    simp only [mem_append, mem_cons]
    tauto
  have hadj₁ : NoAdj (xs ++ { c with size := s } :: ⟨h.elts.eltNew.1, c.off + s, c.size - s, false⟩ :: ys) :=
    hadj.cut rfl rfl
  have happ : xs ++ { c with size := s } :: ⟨h.elts.eltNew.1, c.off + s, c.size - s, false⟩ :: ys =
      (xs ++ [{ c with size := s }]) ++ ⟨h.elts.eltNew.1, c.off + s, c.size - s, false⟩ :: ys := by simp
  rw [happ] at hl₁ hb₁ hadj₁
  obtain ⟨cs', hgood, hused, hkept⟩ := deallocElt_spec (c := ⟨h.elts.eltNew.1, c.off + s, c.size - s, false⟩)
    ⟨hl₁, hb₁, hadj₁⟩ rfl
  have hone : usedOf [{ c with size := s }] = [{ c with size := s }] := filter_cons_of_pos (by simp [hc])
  rw [usedOf_append, hone, List.append_assoc] at hused
  obtain ⟨xs', ys', rfl, hx, hy⟩ := usedOf_split hused
  exact ⟨xs', ys', hgood, hx, hy, hkept.1, hkept.2, hkept.3, hkept.4⟩

theorem Heap.alignFront_pos (hlt : old < new) : h.alignFront e old new =
    Heap.deallocElt { h with elts := (((h.elts.setOffset e (BitVec.ofNat 32 new)).eltNew.2.setOffset
      (h.elts.setOffset e (BitVec.ofNat 32 new)).eltNew.1 (BitVec.ofNat 32 old)).eltInsertBefore e
      (h.elts.setOffset e (BitVec.ofNat 32 new)).eltNew.1) } (h.elts.setOffset e (BitVec.ofNat 32 new)).eltNew.1 := by
  rw [Heap.alignFront]
  exact if_pos hlt

theorem alignFront_spec (hg : Good h (xs ++ c :: ys)) (hc : c.free = false) (hdc : d < c.size) :
    ∃ xs' ys', Good (h.alignFront c.idx c.off (c.off + d))
        (xs' ++ { c with off := c.off + d, size := c.size - d } :: ys') ∧
      usedOf xs' = usedOf xs ∧ usedOf ys' = usedOf ys ∧ Heap.Kept h (h.alignFront c.idx c.off (c.off + d)) := by
  by_cases hd : d = 0
  · have hw : (h.elts.elt c.idx).offset = BitVec.ofNat 32 c.off := by
      have hw : (h.elts.elt c.idx).offset = c.word := hg.layout.word c (by simp)
      rw [hw, Cell.word, hc]
      rfl
    have hsame : h.alignFront c.idx c.off (c.off + d) = h := by
      rw [Heap.alignFront, hd, if_neg (by omega), Nat.add_zero, ← hw, Elts.setOffset_self]
    have hcell : ({ c with off := c.off + d, size := c.size - d } : Cell) = c := by
      rw [hd]
      rfl
    rw [hsame, hcell]
    exact ⟨xs, ys, hg, rfl, rfl, .refl h⟩
  · have hd : 0 < d := Nat.pos_of_ne_zero hd
    have hstep := Heap.alignFront_pos (h := h) (e := c.idx) (show c.off < c.off + d by omega)
    rw [hstep]
    exact free_front hg hc hd hdc

theorem alignBack_spec (hg : Good h (xs ++ c :: ys)) (hc : c.free = false) (hs : 0 < s) (hsc : s ≤ c.size) :
    ∃ xs' ys', Good (h.alignBack c.idx (c.off + s) (c.off + c.size)) (xs' ++ { c with size := s } :: ys') ∧
      usedOf xs' = usedOf xs ∧ usedOf ys' = usedOf ys ∧
          Heap.Kept h (h.alignBack c.idx (c.off + s) (c.off + c.size)) := by
  by_cases hlt : s < c.size
  · rw [Heap.alignBack, if_pos (by omega)]
    exact free_back hg hc hs hlt
  · have heq : s = c.size := by omega
    rw [Heap.alignBack, if_neg (by omega), heq]
    exact ⟨xs, ys, hg, rfl, rfl, .refl h⟩

theorem alignElt_spec (hg : Good h (xs ++ ⟨e, o, asz, false⟩ :: ys)) (ha : Heap.roundAlign align = 2 ^ k)
    (hasz : Heap.alignSize size align = asz) (hsz : asz + 1 = size + 2 ^ k) (hpos : 0 < size) :
    ∃ xs' ys' o', Good (h.alignElt size align e) (xs' ++ ⟨e, o', size, false⟩ :: ys') ∧ usedOf xs' = usedOf xs ∧
      usedOf ys' = usedOf ys ∧ 2 ^ k ∣ o' ∧ Heap.Kept h (h.alignElt size align e) := by
  have hmem : (⟨e, o, asz, false⟩ : Cell) ∈ xs ++ ⟨e, o, asz, false⟩ :: ys := by simp
  have hbound : o + asz ≤ h.len := (hg.layout.tiled.bounds hmem).2.2
  have hlen := hg.layout.len
  have hold : (h.elts.elt e).offset.toNat = o := by
    have hw := hg.layout.toNat_word hmem
    simpa using hw
  obtain ⟨hdvd, hge, hlt⟩ := roundPow2_spec (x := o) (k := k) (by omega)
  obtain ⟨d, hd⟩ := Nat.exists_eq_add_of_le hge
  obtain ⟨xs₁, ys₁, hg₁, hx₁, hy₁, hk₁⟩ := alignFront_spec (c := ⟨e, o, asz, false⟩) (d := d) hg rfl
    (show d < asz by omega)
  obtain ⟨xs₂, ys₂, hg₂, hx₂, hy₂, hk₂⟩ := alignBack_spec (s := size) hg₁ rfl hpos (show size ≤ asz - d by omega)
  have hstep : h.alignElt size align e =
      (h.alignFront e o (o + d)).alignBack e (o + d + size) (o + d + (asz - d)) := by
    have h1 : (o + d + size) % 2 ^ 64 = o + d + size := Nat.mod_eq_of_lt (by omega)
    have h2 : (o + asz) % 2 ^ 64 = o + d + (asz - d) := by
      rw [Nat.mod_eq_of_lt (by omega)]
      omega
    rw [Heap.alignElt, hold, ha, hasz, hd, h1, h2]
  rw [hstep]
  exact ⟨xs₂, ys₂, o + d, hg₂, hx₂.trans hx₁, hy₂.trans hy₁, hd ▸ hdvd, hk₁.trans hk₂⟩

/-- A request that the offsets can hold: a free block serves it, or the vector is full, or it grows to no more than
the offsets below the free bit. -/
def Fits (h : Heap) (size align : Nat) : Prop :=
  size + align ≤ 2 ^ 62 ∧ (h.searchFreeList (Heap.alignSize size align) = none →
    (h.maxLen ≠ 0 ∧ h.maxLen < h.len + Heap.alignSize size align) ∨ h.len + Heap.alignSize size align ≤ 2 ^ 31)

theorem roundAlign_spec (ha : align ≤ 2 ^ 62) :
    (align ≤ 1 ∧ Heap.roundAlign align = 0 ∧ maxPow2 align = 1) ∨
      ∃ k ≤ 62, 1 < align ∧ Heap.roundAlign align = 2 ^ k ∧ maxPow2 align = 2 ^ k := by
  by_cases h1 : align ≤ 1
  · refine .inl ⟨h1, if_pos h1, ?_⟩
    obtain rfl | rfl : align = 0 ∨ align = 1 := by omega
    · decide
    · decide
  · obtain ⟨k, hk, hbound⟩ := maxPow2_eq (show 0 < align by omega)
    have hk62 : k ≤ 62 := (hbound 62).mp ha
    refine .inr ⟨k, hk62, by omega, ?_, hk⟩
    rw [Heap.roundAlign, if_neg h1, hk]
    exact Nat.mod_eq_of_lt (Nat.pow_lt_pow_right (by decide) (by omega))

theorem alignSize_spec (hsum : size + align ≤ 2 ^ 62) :
    (Heap.roundAlign align = 0 ∧ Heap.alignSize size align = size ∧ maxPow2 align = 1) ∨
      ∃ k, Heap.roundAlign align = 2 ^ k ∧ Heap.alignSize size align + 1 = size + 2 ^ k ∧ maxPow2 align = 2 ^ k ∧
        size + 2 ^ k ≤ 2 ^ 63 := by
  obtain ⟨h1, h2, h3⟩ | ⟨k, hk, h1, h2, h3⟩ := roundAlign_spec (show align ≤ 2 ^ 62 by omega)
  · exact .inl ⟨h2, if_pos h1, h3⟩
  · have hle : 2 ^ k ≤ 2 ^ 62 := Nat.pow_le_pow_right (by decide) hk
    have hkpos := Nat.two_pow_pos k
    refine .inr ⟨k, h2, ?_, h3, by omega⟩
    rw [Heap.alignSize, if_neg (by omega), h2]
    omega

theorem Placed.offset (hp : Placed h cs ⟨e, o, size, false⟩) : (h.elts.elt e).offset.toNat = o := by
  obtain ⟨xs, ys, hg, -⟩ := hp
  have hw := hg.layout.toNat_word (c := ⟨e, o, size, false⟩) (by simp)
  simpa using hw

theorem Placed.aligned (hp : Placed h cs ⟨e, o, Heap.alignSize size align, false⟩) (hpos : 0 < size)
    (hsum : size + align ≤ 2 ^ 62) :
    ∃ o', Placed (if Heap.roundAlign align > 0 then h.alignElt size align e else h) cs ⟨e, o', size, false⟩ ∧
      maxPow2 align ∣ o' ∧ Heap.Kept h (if Heap.roundAlign align > 0 then h.alignElt size align e else h) := by
  obtain ⟨h1, h2, h3⟩ | ⟨k, h1, h2, h3, -⟩ := alignSize_spec hsum
  · rw [h2] at hp
    rw [h1, if_neg (Nat.lt_irrefl 0)]
    exact ⟨o, hp, h3 ▸ Nat.one_dvd o, .refl h⟩
  · obtain ⟨xs, ys, hg, hused⟩ := hp
    obtain ⟨xs', ys', o', hg', hx, hy, hdvd, hkept⟩ := alignElt_spec hg h1 rfl h2 hpos
    rw [if_pos (h1 ▸ Nat.two_pow_pos k)]
    exact ⟨o', ⟨xs', ys', hg', by rw [hx, hy, hused]⟩, h3 ▸ hdvd, hkept⟩

theorem Good.usedCount (hg : Good h cs) (n : Nat) : Good { h with usedCount := n } cs := by
  obtain ⟨hl, ⟨bin, hbin, hfiled⟩, hadj⟩ := hg
  exact ⟨hl.congr rfl rfl, ⟨bin, hbin, hfiled⟩, hadj⟩

/-- An allocation serves the request, or refuses it and leaves the heap as it is. -/
theorem heapAlloc_spec (hg : Good h cs) (hf : cs = [] → Fresh h.elts) (hpos : 0 < size) (hfit : Fits h size align)
    (hs : h.heapAlloc size align eltBytes = (r, h')) :
    (r = none ∧ h' = h) ∨ ∃ o e, r = some (o, e) ∧ Placed h' cs ⟨e, o, size, false⟩ ∧
      maxPow2 align ∣ o ∧ h'.usedCount = h.usedCount + 1 := by
  obtain ⟨hsum, hgrow⟩ := hfit
  have hasz : 0 < Heap.alignSize size align ∧ Heap.alignSize size align ≤ 2 ^ 63 := by
    obtain ⟨-, h2, -⟩ | ⟨k, -, h2, -, h4⟩ := alignSize_spec hsum
    · omega
    · have hkpos := Nat.two_pow_pos k
      omega
  rw [Heap.heapAlloc, if_neg (by omega)] at hs
  cases hfound : (h.searchFreeList (Heap.alignSize size align)).or (h.extend (Heap.alignSize size align) eltBytes) with
  | none =>
    rw [hfound] at hs
    obtain ⟨rfl, rfl⟩ := Prod.mk.inj hs
    exact .inl ⟨rfl, rfl⟩
  | some p =>
    obtain ⟨e, h₁⟩ := p
    have hplaced : ∃ o, Placed h₁ cs ⟨e, o, Heap.alignSize size align, false⟩ ∧ h₁.usedCount = h.usedCount := by
      cases hsearch : h.searchFreeList (Heap.alignSize size align) with
      | some q =>
        rw [hsearch, Option.some_or] at hfound
        obtain rfl := Option.some.inj hfound
        obtain ⟨o, hp, hkept⟩ := searchFreeList_spec hg hasz.1 hasz.2 hsearch
        exact ⟨o, hp, hkept.usedCount⟩
      | none =>
        rw [hsearch, Option.none_or] at hfound
        have hlen := hg.layout.len
        have hroom : h.len + Heap.alignSize size align ≤ 2 ^ 31 := by
          obtain ⟨hmax, hlt⟩ | hroom := hgrow hsearch
          · rw [Heap.extend] at hfound
            have hmod : (h.len + Heap.alignSize size align) % 2 ^ 64 = h.len + Heap.alignSize size align :=
              Nat.mod_eq_of_lt (by omega)
            simp only [hmod] at hfound
            rw [if_pos ⟨hmax, hlt⟩] at hfound
            cases hfound
          · exact hroom
        obtain ⟨hp, -, hu, -⟩ := extend_spec hg hf hasz.1 hroom hfound
        exact ⟨h.len, hp, hu⟩
    obtain ⟨o, hp, hu⟩ := hplaced
    obtain ⟨o', hp', hdvd, hkept⟩ := hp.aligned hpos hsum
    have hoff := hp'.offset
    rw [hfound] at hs
    simp only [hoff] at hs
    obtain ⟨rfl, rfl⟩ := Prod.mk.inj hs
    obtain ⟨xs, ys, hg', hused⟩ := hp'
    refine .inr ⟨o', e, rfl, ⟨xs, ys, hg'.usedCount _, hused⟩, hdvd, ?_⟩
    exact congrArg (· + 1) (hkept.usedCount.trans hu)

end Vpp.Infra
