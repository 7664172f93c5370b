import Vpp.Vlib.BufferInv

namespace Vpp.Vlib
open List

variable {vm vm' : VlibMain} {hs : List (Packet × List Nat)} {p q : Packet} {c cs got : List Nat}
  {answers : List (List Nat)} {b d s k n : Nat}

/-- What the allocations for copies may return, one after the other. -/
def AnswersOk (s : Nat) : Nat → VlibMain → List (List Nat) → Prop
  | 0, _, _ => True
  | k + 1, vm, answers => Fresh vm (nBuffersFrom vm vm.nBuffers s) (answers.headD []) ∧
    AnswersOk s k (vlibBufferCopy vm s (answers.headD [])).1 answers.tail

theorem Inv.cloneCopies (h : Inv vm hs) (hp : (p, c) ∈ hs) (hok : AnswersOk p.first k vm answers) :
    ∃ new, new.map Prod.fst = (cloneCopies p.first k vm answers).2.map (⟨·, p.bytes⟩) ∧
      Inv (cloneCopies p.first k vm answers).1 (new ++ hs) := by
  induction k generalizing vm hs answers with
  | zero => exact ⟨[], rfl, h⟩
  | succ k ih =>
    obtain ⟨hgot, hrest⟩ := hok
    have hcopy := h.copy hp hgot
    unfold Vlib.cloneCopies
    generalize vlibBufferCopy vm p.first (answers.headD []) = r at *
    obtain ⟨v, d⟩ := r
    rcases hcopy with ⟨d, rfl, hv⟩ | ⟨rfl, hv⟩
    · obtain ⟨new, hnew, hinv⟩ := ih hv (mem_cons_of_mem _ hp) hrest
      refine ⟨(⟨d, p.bytes⟩, answers.headD []) :: new, ?_, hinv.perm perm_middle⟩
      rw [map_cons, hnew]
      rfl
    · exact ⟨[], rfl, hv⟩

theorem cloneHead_nAddRefs (d s : VlibBuffer) (src headEndOffset : Nat) :
    (cloneHead d s src headEndOffset).nAddRefs = d.nAddRefs := rfl

theorem bytes_cloneHead (d s : VlibBuffer) (src headEndOffset : Nat) :
    (cloneHead d s src headEndOffset).bytes = bytesAt s.data s.currentData headEndOffset := bytesAt_memcpy ..

theorem cloneHeads_spec (hsrc : s ∉ got) (hnd : got.Nodup) :
    (∀ b, (cloneHeads s n vm got).buffers b =
      if b ∈ got then cloneHead (vm.buffers b) (vm.buffers s) s n else vm.buffers b) ∧
    (cloneHeads s n vm got).freeList = vm.freeList ∧ SameMain vm (cloneHeads s n vm got) := by
  induction got generalizing vm with
  | nil => exact ⟨fun _ => rfl, rfl, .refl vm⟩
  | cons d got ih =>
    obtain ⟨hd, hnd⟩ := nodup_cons.mp hnd
    rw [mem_cons, not_or] at hsrc
    generalize hv : vm.modify d (fun b => cloneHead b (vm.buffers s) s n) = v
    have hvd : v.buffers d = cloneHead (vm.buffers d) (vm.buffers s) s n := hv ▸ modify_buffers_self _ d _
    have hvo {b : Nat} (hb : b ≠ d) : v.buffers b = vm.buffers b := hv ▸ modify_buffers_ne hb
    obtain ⟨hbuf, hlist, hmain⟩ : (∀ b, (cloneHeads s n v got).buffers b = _) ∧ _ ∧ SameMain v _ := ih hsrc.2 hnd
    rw [cloneHeads, hv]
    refine ⟨?_, hlist.trans (hv ▸ rfl), ⟨hmain.nBuffers.trans (hv ▸ rfl), hmain.template.trans (hv ▸ rfl)⟩⟩
    intro b
    rw [hbuf, hvo hsrc.1]
    by_cases hb : b = d
    · rw [hb, if_neg hd, if_pos mem_cons_self, hvd]
    · rw [hvo hb]
      simp only [mem_cons, hb, false_or]

def clones (p : Packet) (c got : List Nat) : List (Packet × List Nat) := got.map fun d => (⟨d, p.bytes⟩, d :: c)

theorem uses_clones (hnd : got.Nodup) (hdisj : ∀ b ∈ c, b ∉ got) (b : Nat) :
    uses (clones p c got) b = if b ∈ c then got.length else if b ∈ got then 1 else 0 := by
  induction got with
  | nil =>
    rw [length_nil, if_neg not_mem_nil]
    exact (ite_self 0).symm
  | cons d got ih =>
    obtain ⟨hd, hnd⟩ := nodup_cons.mp hnd
    have hrest := ih hnd fun b hb hm => hdisj b hb (mem_cons_of_mem d hm)
    rw [clones, map_cons, uses_cons]
    show uses (clones p c got) b + _ = _
    rw [hrest]
    by_cases hb : b ∈ c
    · rw [if_pos hb, if_pos hb, if_pos (mem_cons_of_mem d hb), length_cons]
    · by_cases hbd : b = d
      · rw [if_neg hb, if_neg hb, hbd, if_neg hd, if_pos mem_cons_self, if_pos mem_cons_self]
      · simp [hb, hbd]

/-- What a clone by reference makes of the buffers: the heads have the first bytes of the source, which moves behind
them, and the references of each buffer of the source are those of the clones. -/
structure Referenced (vm x : VlibMain) (s k : Nat) (cs got : List Nat) : Prop where
  main : SameMain vm x
  freeList : x.freeList = vm.freeList
  head : ∀ b ∈ got, x.buffers b = cloneHead (vm.buffers b) (vm.buffers s) s k
  source : x.buffers s = { vlibBufferAdvance (vm.buffers s) k with nAddRefs := got.length - 1 }
  tail : ∀ b ∈ cs, x.buffers b = { vm.buffers b with nAddRefs := got.length - 1 }
  other : ∀ b, b ∉ got → b ∉ s :: cs → x.buffers b = vm.buffers b

theorem IsChain.referenced (h : IsChain vm s (s :: cs)) (hfuel : (s :: cs).length ≤ n) (hnd : got.Nodup)
    (hdisj : ∀ b ∈ s :: cs, b ∉ got) :
    Referenced vm (modifyChain (fun b => { b with nAddRefs := got.length - 1 }) n
      ((cloneHeads s k vm got).modify s fun b => vlibBufferAdvance b k) s) s k cs got := by
  have hs : s ∉ cs := (nodup_cons.mp h.nodup).1
  have hsrc := hdisj s mem_cons_self
  -- the heads
  obtain ⟨hheads, hlist, hmain⟩ := @cloneHeads_spec vm got s k hsrc hnd
  generalize cloneHeads s k vm got = v at *
  have hvo {b : Nat} (hb : b ∉ got) : v.buffers b = vm.buffers b := by rw [hheads, if_neg hb]
  -- the source moves behind its head
  generalize hw : v.modify s (fun b => vlibBufferAdvance b k) = w
  have hws : w.buffers s = vlibBufferAdvance (vm.buffers s) k := by rw [← hw, modify_buffers_self, hvo hsrc]
  have hwo {b : Nat} (hb : b ≠ s) : w.buffers b = v.buffers b := hw ▸ modify_buffers_ne hb
  have hwtail {b : Nat} (hb : b ∈ cs) : w.buffers b = vm.buffers b := by
    rw [hwo fun he => hs (he ▸ hb), hvo (hdisj b (mem_cons_of_mem _ hb))]
  have hwchain : IsChain w s (s :: cs) := by
    apply h.links
    intro b hb
    rcases mem_cons.mp hb with rfl | hb
    · rw [hws]
      exact ⟨rfl, rfl⟩
    · rw [hwtail hb]
      exact ⟨rfl, rfl⟩
  -- the references
  obtain ⟨hbuf, hflist, hfn, hft⟩ := modifyChain_spec (g := fun b => { b with nAddRefs := got.length - 1 })
    (fun _ => rfl) hwchain hfuel
  constructor
  case main => exact ⟨hfn.trans (hw ▸ hmain.nBuffers), hft.trans (hw ▸ hmain.template)⟩
  case freeList => exact hflist.trans (hw ▸ hlist)
  case head =>
    intro b hb
    rw [hbuf, if_neg fun hm => hdisj b hm hb, hwo fun he => hsrc (he ▸ hb), hheads, if_pos hb]
  case source => rw [hbuf, if_pos mem_cons_self, hws]
  case tail =>
    intro b hb
    rw [hbuf, if_pos (mem_cons_of_mem s hb), hwtail hb]
  case other =>
    intro b hb hout
    rw [hbuf, if_neg hout, hwo fun he => hout (he ▸ mem_cons_self), hvo hb]

theorem Referenced.chain (h : Referenced vm vm' s k cs got) (hc : IsChain vm s (s :: cs)) :
    IsChain vm' s (s :: cs) := by
  apply hc.links
  intro b hb
  rcases mem_cons.mp hb with rfl | hb
  · rw [h.source]
    exact ⟨rfl, rfl⟩
  · rw [h.tail b hb]
    exact ⟨rfl, rfl⟩

theorem Referenced.contents (h : Referenced vm vm' s k cs got) (hfit : (vm.buffers s).AdvanceFits k) :
    Vlib.contents vm' (s :: cs) =
      bytesAt (vm.buffers s).data ((vm.buffers s).currentData + k) ((vm.buffers s).currentLength - k) ++
        Vlib.contents vm cs := by
  have hrest : Vlib.contents vm' cs = Vlib.contents vm cs := contents_same fun b hb => by
    rw [h.tail b hb]
    rfl
  have hfirst : (vm'.buffers s).bytes = (vlibBufferAdvance (vm.buffers s) k).bytes := by
    rw [h.source]
    rfl
  show (vm'.buffers s).bytes ++ Vlib.contents vm' cs = _
  rw [hrest, hfirst, VlibBuffer.bytes, hfit.currentData_eq]
  rfl

/-- Each clone has the bytes of the packet. -/
theorem Referenced.holds (h : Referenced vm vm' p.first k cs got) (hp : Holds vm p (p.first :: cs))
    (hhead : k < (vm.buffers p.first).currentLength) (hfit : (vm.buffers p.first).AdvanceFits k) (hd : d ∈ got)
    (hlt : d < vm.nBuffers) : Holds vm' ⟨d, p.bytes⟩ (d :: p.first :: cs) := by
  have hxd := h.head d hd
  refine ⟨.next ?_ ?_, ?_, ?_, ?_, ?_⟩
  · rw [hxd]
    rfl
  · rw [hxd]
    exact h.chain hp.chain
  · intro b hb
    rw [h.main.nBuffers]
    rcases mem_cons.mp hb with rfl | hb
    · exact hlt
    · exact hp.lt b hb
  · have hlen : k + ((vm.buffers p.first).currentLength - k) = (vm.buffers p.first).currentLength := by omega
    have hbytes := hp.bytes
    show (vm'.buffers d).bytes ++ Vlib.contents vm' (p.first :: cs) = p.bytes
    rw [h.contents hfit, hxd, ← List.append_assoc, bytes_cloneHead, ← bytesAt_add, hlen]
    exact hbytes
  · rw [hxd]
    intro hv
    have htotal := hp.total hv
    show (k + (_ + _ - k) % 2 ^ 32) % 2 ^ 32 = p.bytes.length % 2 ^ 32
    omega
  · rw [hxd]
    exact hp.recycle

theorem uses_source (vm : VlibMain) (p : Packet) (hgot : got.Nodup) (hdisj : ∀ b ∈ c, b ∉ got) (b : Nat) :
    uses ((p, c) :: singles vm got) b = if b ∈ c then 1 else if b ∈ got then 1 else 0 := by
  rw [uses_cons, uses_singles hgot]
  by_cases hb : b ∈ c
  · rw [if_pos hb, if_pos hb, if_neg (hdisj b hb)]
  · rw [if_neg hb, if_neg hb, Nat.add_zero]

/-- A packet that nothing shares becomes the tail of each of its clones. -/
theorem Inv.cloneReference (h : Inv vm ((p, c) :: hs)) (hgot : Fresh vm n got) (hpos : got ≠ [])
    (hhead : k < (vm.buffers p.first).currentLength) (hfit : (vm.buffers p.first).AdvanceFits k)
    (hrefs : ∀ b ∈ c, (vm.buffers b).nAddRefs = 0) :
    Inv (modifyChain (fun b => { b with nAddRefs := got.length - 1 }) vm.nBuffers
      ((cloneHeads p.first k (vlibBufferAlloc vm got) got).modify p.first fun b => vlibBufferAdvance b k) p.first)
      (clones p c got ++ hs) := by
  have hp : Holds vm p c := h.holds _ mem_cons_self
  have hown := hgot.own h
  have hdisj : ∀ b ∈ c, b ∉ got := fun b hb hm => h.not_free mem_cons_self hb (hgot.free b hm)
  obtain ⟨cs, rfl⟩ := hp.chain.eq_cons
  have hchain : IsChain (vlibBufferAlloc vm got) p.first (p.first :: cs) := hp.chain.links fun _ _ => ⟨rfl, rfl⟩
  have hr := hchain.referenced (k := k) (length_le_of_lt hp.chain.nodup hp.lt) hgot.nodup hdisj
  generalize modifyChain _ vm.nBuffers _ p.first = x at hr ⊢
  have hone {b : Nat} (hb : b ∈ p.first :: cs) : uses hs b = 0 := by
    have hu := h.refs b (uses_pos mem_cons_self hb)
    rw [hrefs b hb, uses_cons, if_pos hb] at hu
    omega
  have huses := uses_source vm p hgot.nodup hdisj
  have hlen := length_pos_of_ne_nil hpos
  have halloc : Inv (vlibBufferAlloc vm got) (((p, p.first :: cs) :: singles vm got) ++ hs) :=
    (h.alloc hgot).perm perm_middle
  refine halloc.replace hr.main hr.freeList ?_ ?_ ?_ ?_ ?_
  · intro y hy
    obtain ⟨d, hd, rfl⟩ := List.mem_map.mp hy
    have hsame : Holds (vlibBufferAlloc vm got) p (p.first :: cs) := hp.same (fun _ _ => rfl) ⟨rfl, rfl⟩
    exact hr.holds hsame hhead hfit hd ((h.free d).mp (hgot.free d hd)).1
  · intro b
    rw [uses_clones hgot.nodup hdisj, huses]
    by_cases hb : b ∈ p.first :: cs
    · rw [if_pos hb, if_pos hb]
      omega
    · rw [if_neg hb, if_neg hb]
  · intro b hb
    rw [huses] at hb
    exact hr.other b (fun hm => by simp [hm] at hb) fun hm => by simp [hm] at hb
  · intro y hy b hb
    have hpos' := uses_pos hy hb
    have hbc : b ∉ p.first :: cs := fun hm => by rw [hone hm] at hpos'; omega
    have hbg : b ∉ got := fun hm => by
      have hzero := hown b hm
      rw [uses_cons] at hzero
      omega
    rw [hr.other b hbg hbc]
  · intro b hb
    rw [uses_clones hgot.nodup hdisj]
    by_cases hbc : b ∈ p.first :: cs
    · have hcount : (x.buffers b).nAddRefs = got.length - 1 := by
        rcases mem_cons.mp hbc with rfl | hm
        · rw [hr.source]
        · rw [hr.tail b hm]
      rw [if_pos hbc, hone hbc, hcount]
      omega
    · rw [huses, if_neg hbc] at hb
      by_cases hbg : b ∈ got
      · have hzero := hown b hbg
        rw [uses_cons, if_neg hbc] at hzero
        have hclean : ((vlibBufferAlloc vm got).buffers b).nAddRefs = 0 := (h.clean b (hgot.free b hbg)).nAddRefs
        rw [if_neg hbc, if_pos hbg, hr.head b hbg, cloneHead_nAddRefs, hclean]
        omega
      · rw [if_neg hbg] at hb
        exact absurd hb (Nat.lt_irrefl 0)

theorem Inv.clone (h : Inv vm ((p, c) :: hs))
    (hcopies : (vm.buffers p.first).currentLength ≤ k + clibCacheLineBytes * 2 → AnswersOk p.first (n - 1) vm answers)
    (href : ¬ (vm.buffers p.first).currentLength ≤ k + clibCacheLineBytes * 2 → Fresh vm n (answers.headD []))
    (hsafe : ¬ (vm.buffers p.first).currentLength ≤ k + clibCacheLineBytes * 2 → answers.headD [] ≠ [] →
      (∀ b ∈ c, (vm.buffers b).nAddRefs = 0) ∧ (vm.buffers p.first).AdvanceFits k) :
    ∃ new, new.map Prod.fst = (vlibBufferClone vm p.first n k answers).2.map (⟨·, p.bytes⟩) ∧
      Inv (vlibBufferClone vm p.first n k answers).1 (new ++ hs) := by
  unfold vlibBufferClone
  dsimp only
  by_cases hshort : (vm.buffers p.first).currentLength ≤ k + clibCacheLineBytes * 2
  · rw [if_pos hshort]
    obtain ⟨new, hnew, hinv⟩ := h.cloneCopies mem_cons_self (hcopies hshort)
    refine ⟨(p, c) :: new, ?_, hinv.perm perm_middle⟩
    rw [map_cons, hnew]
    rfl
  · rw [if_neg hshort]
    have hgot := href hshort
    by_cases hnil : answers.headD [] = []
    · rw [if_pos hnil, hnil]
      refine ⟨[(p, c)], rfl, ?_⟩
      rw [hnil] at hgot
      exact h.alloc hgot
    · rw [if_neg hnil]
      refine ⟨clones p c (answers.headD []), ?_, ?_⟩
      · rw [clones, List.map_map]
        rfl
      · have hp : Holds vm p c := h.holds _ mem_cons_self
        have hdisj : ∀ b ∈ c, b ∉ answers.headD [] := fun b hb hm =>
          h.not_free mem_cons_self hb (hgot.free b hm)
        have hmain := (@cloneHeads_spec (vlibBufferAlloc vm (answers.headD [])) (answers.headD []) p.first k
          (hdisj p.first hp.chain.head_mem) hgot.nodup).2.2
        obtain ⟨hrefs, hfit⟩ := hsafe hshort hnil
        have hinv := h.cloneReference hgot hnil (k := k) (by
          unfold clibCacheLineBytes at hshort
          omega) hfit hrefs
        rw [← show _ = vm.nBuffers from hmain.nBuffers] at hinv
        exact hinv

/-- What an attachment makes of the buffers: the head is linked to the tail, which has one more reference. -/
structure Attached (vm x : VlibMain) (s t : Nat) (c : List Nat) : Prop where
  main : SameMain vm x
  freeList : x.freeList = vm.freeList
  head : x.buffers s = attachHead (vm.buffers s) (vm.buffers t) t
  tail : ∀ b ∈ c, x.buffers b = { vm.buffers b with nAddRefs := ((vm.buffers b).nAddRefs + 1) % 2 ^ 8 }
  other : ∀ b, b ≠ s → b ∉ c → x.buffers b = vm.buffers b

theorem IsChain.attached (h : IsChain vm t c) (hlen : c.length ≤ vm.nBuffers) (hs : s ∉ c) :
    Attached vm (vlibBufferAttachClone vm s t) s t c := by
  unfold vlibBufferAttachClone
  generalize hv : vm.modify s (fun h => attachHead h (vm.buffers t) t) = v
  have hvs : v.buffers s = attachHead (vm.buffers s) (vm.buffers t) t := hv ▸ modify_buffers_self _ s _
  have hvo {b : Nat} (hb : b ≠ s) : v.buffers b = vm.buffers b := by
    rw [← hv]
    exact modify_buffers_ne hb
  have hvn : v.nBuffers = vm.nBuffers := hv ▸ rfl
  obtain ⟨hbuf, hlist, hn, ht⟩ := modifyChain_spec (g := fun b => { b with nAddRefs := (b.nAddRefs + 1) % 2 ^ 8 })
    (fun _ => rfl) (h.same fun b hb => by rw [hvo fun he => hs (he ▸ hb)]) (hlen.trans hvn.ge)
  constructor
  case main => exact ⟨hn.trans hvn, ht.trans (hv ▸ rfl)⟩
  case freeList => exact hlist.trans (hv ▸ rfl)
  case head => exact ((hbuf s).trans (if_neg hs)).trans hvs
  case tail =>
    intro b hb
    rw [← hvo fun he : b = s => hs (he ▸ hb)]
    exact (hbuf b).trans (if_pos hb)
  case other =>
    intro b hb hout
    exact ((hbuf b).trans (if_neg hout)).trans (hvo hb)

theorem Attached.body (h : Attached vm vm' s t c) (hb : b ≠ s) : (vm'.buffers b).body = (vm.buffers b).body := by
  by_cases hbc : b ∈ c
  · rw [h.tail b hbc]
    rfl
  · rw [h.other b hb hbc]

/-- The head has the bytes of both packets. -/
theorem Attached.holds (h : Attached vm vm' p.first q.first c) (hp : Holds vm p [p.first]) (hq : Holds vm q c)
    (hpc : p.first ∉ c) : Holds vm' ⟨p.first, p.bytes ++ q.bytes⟩ (p.first :: c) := by
  have hq' := hq.same (fun b hb => h.body fun he => hpc (he ▸ hb)) h.main
  have hbp : (vm.buffers p.first).bytes = p.bytes := by
    have hbytes := hp.bytes
    rwa [contents, flatMap_singleton] at hbytes
  refine ⟨.next ?_ ?_, ?_, ?_, ?_, ?_⟩
  · rw [h.head]
    rfl
  · rw [h.head]
    exact hq'.chain
  · intro b hb
    rw [h.main.nBuffers]
    rcases mem_cons.mp hb with rfl | hb
    · exact hp.lt _ mem_cons_self
    · exact hq.lt b hb
  · show (vm'.buffers p.first).bytes ++ contents vm' c = _
    rw [hq'.bytes, h.head, ← hbp]
    rfl
  · rw [h.head]
    intro htv
    have htotal := hq.total htv
    have hlen := length_bytes (vm.buffers p.first)
    rw [hbp] at hlen
    show ((vm.buffers p.first).currentLength + (_ + _) % 2 ^ 32) % 2 ^ 32 = (p.bytes ++ q.bytes).length % 2 ^ 32
    rw [length_append, hlen]
    omega
  · rw [h.head]
    exact hp.recycle

theorem uses_pair (b : Nat) :
    uses [(p, [s]), (q, c)] b = (if b ∈ c then 1 else 0) + if b = s then 1 else 0 := by
  rw [uses_cons, uses_cons]
  simp [uses]

theorem uses_attached (b : Nat) :
    uses [(p, s :: c), (q, c)] b = (if b ∈ c then 1 else 0) + if b = s ∨ b ∈ c then 1 else 0 := by
  rw [uses_cons, uses_cons]
  simp [uses]

/-- The tail has one more holder, by a head that nothing shares. -/
theorem Inv.attach (h : Inv vm ((p, [p.first]) :: (q, c) :: hs)) (hp : (vm.buffers p.first).nAddRefs = 0)
    (hroom : ∀ b ∈ c, (vm.buffers b).nAddRefs + 1 < 2 ^ 8) :
    Inv (vlibBufferAttachClone vm p.first q.first) ((⟨p.first, p.bytes ++ q.bytes⟩, p.first :: c) :: (q, c) :: hs) := by
  have hhp : Holds vm p [p.first] := h.holds _ mem_cons_self
  have hhq : Holds vm q c := h.holds _ (mem_cons_of_mem _ mem_cons_self)
  have huses := h.refs p.first (uses_pos mem_cons_self mem_cons_self)
  rw [hp, uses_cons, uses_cons, if_pos mem_cons_self] at huses
  have hpc : p.first ∉ c := fun hm => by
    rw [if_pos hm] at huses
    omega
  rw [if_neg hpc] at huses
  have hrefs {b : Nat} (hb : b ∈ c) : (vm.buffers b).nAddRefs = uses hs b := by
    have hu := h.refs b (uses_pos (mem_cons_of_mem _ mem_cons_self) hb)
    rw [uses_cons, uses_cons, if_pos hb, if_neg fun hm : b ∈ [p.first] => hpc (mem_singleton.mp hm ▸ hb)] at hu
    omega
  have ha := hhq.chain.attached (length_le_of_lt hhq.chain.nodup hhq.lt) hpc
  generalize vlibBufferAttachClone vm p.first q.first = x at *
  have hold : Inv vm ([(p, [p.first]), (q, c)] ++ hs) := h
  show Inv x ([(⟨p.first, p.bytes ++ q.bytes⟩, p.first :: c), (q, c)] ++ hs)
  refine hold.replace ha.main ha.freeList ?_ ?_ ?_ ?_ ?_
  · intro y hy
    rcases mem_cons.mp hy with rfl | hy
    · exact ha.holds hhp hhq hpc
    · rw [mem_singleton.mp hy]
      exact hhq.same (fun b hb => ha.body fun he => hpc (he ▸ hb)) ha.main
  · intro b
    rw [uses_pair, uses_attached]
    by_cases hb : b ∈ c
    · simp [hb]
    · simp [hb]
  · intro b hb
    rw [uses_pair] at hb
    exact ha.other b (fun he => by simp [he] at hb) fun hm => by simp [hm] at hb
  · intro y hy b hb
    apply ha.body
    rintro rfl
    have hpos := uses_pos hy hb
    omega
  · intro b hb
    rw [uses_pair] at hb
    rw [uses_attached]
    by_cases hbc : b ∈ c
    · have hroom' := hroom b hbc
      rw [if_pos hbc, if_pos (.inr hbc), ha.tail b hbc]
      show ((vm.buffers b).nAddRefs + 1) % 2 ^ 8 + 1 = _
      rw [Nat.mod_eq_of_lt hroom', hrefs hbc]
      omega
    · have hbf : b = p.first := by
        by_contra hne
        simp [hbc, hne] at hb
      rw [if_neg hbc, if_pos (.inl hbf), hbf, ha.head]
      show (vm.buffers p.first).nAddRefs + 1 = _
      omega

end Vpp.Vlib
