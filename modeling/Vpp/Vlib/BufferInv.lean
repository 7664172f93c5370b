import Vpp.Vlib.Buffer

namespace Vpp.Vlib
open List

section

structure Packet where
  first : Nat
  bytes : List UInt8

/-- The packet is in the buffers `c`. -/
structure Holds (vm : VlibMain) (p : Packet) (c : List Nat) : Prop where
  chain : IsChain vm p.first c
  lt : ∀ b ∈ c, b < vm.nBuffers
  bytes : contents vm c = p.bytes
  total : (vm.buffers p.first).flags.totalLengthValid = true →
    ((vm.buffers p.first).currentLength + (vm.buffers p.first).totalLengthNotIncludingFirstBuffer) % 2 ^ 32 =
      p.bytes.length % 2 ^ 32
  recycle : (vm.buffers p.first).flags.recycle = false

def uses (hs : List (Packet × List Nat)) (b : Nat) : Nat := hs.countP fun h => b ∈ h.2

structure Clean (b : VlibBuffer) : Prop where
  nextPresent : b.flags.nextPresent = false
  totalLengthValid : b.flags.totalLengthValid = false
  recycle : b.flags.recycle = false
  nAddRefs : b.nAddRefs = 0

/-- The packets `hs` are held, and the rest is free. -/
structure Inv (vm : VlibMain) (hs : List (Packet × List Nat)) : Prop where
  holds : ∀ h ∈ hs, Holds vm h.1 h.2
  refs : ∀ b, 0 < uses hs b → (vm.buffers b).nAddRefs + 1 = uses hs b
  free : ∀ b, b ∈ vm.freeList ↔ b < vm.nBuffers ∧ uses hs b = 0
  nodup : vm.freeList.Nodup
  clean : ∀ b ∈ vm.freeList, Clean (vm.buffers b)
  template : Clean vm.bufferInitTemplate

/-- What no operation changes. -/
structure SameMain (vm vm' : VlibMain) : Prop where
  nBuffers : vm'.nBuffers = vm.nBuffers
  template : vm'.bufferInitTemplate = vm.bufferInitTemplate

theorem SameMain.refl (vm : VlibMain) : SameMain vm vm := ⟨rfl, rfl⟩

variable {vm vm' : VlibMain} {hs old new : List (Packet × List Nat)} {p q : Packet} {c got : List Nat} {b : Nat}

theorem SameMain.trans {v : VlibMain} (h : SameMain vm vm') (h' : SameMain vm' v) : SameMain vm v :=
  ⟨h'.nBuffers.trans h.nBuffers, h'.template.trans h.template⟩

theorem uses_append (old new : List (Packet × List Nat)) (b : Nat) : uses (old ++ new) b = uses old b + uses new b :=
  countP_append

theorem uses_cons (h : Packet × List Nat) (hs : List (Packet × List Nat)) (b : Nat) :
    uses (h :: hs) b = uses hs b + if b ∈ h.2 then 1 else 0 := by
  simp only [uses, countP_cons, decide_eq_true_eq]

theorem uses_pos (h : x ∈ hs) (hb : b ∈ x.2) : 0 < uses hs b :=
  countP_pos_iff.mpr ⟨x, h, decide_eq_true hb⟩

theorem uses_perm (h : old.Perm new) (b : Nat) : uses old b = uses new b := h.countP_eq _

def singles (vm : VlibMain) (got : List Nat) : List (Packet × List Nat) :=
  got.map fun b => (⟨b, contents vm [b]⟩, [b])

theorem uses_singles (hnd : got.Nodup) (b : Nat) : uses (singles vm got) b = if b ∈ got then 1 else 0 := by
  induction got with
  | nil => rfl
  | cons d got ih =>
    obtain ⟨hd, hnd⟩ := nodup_cons.mp hnd
    rw [singles, map_cons, uses_cons]
    show uses (singles vm got) b + _ = _
    rw [ih hnd]
    by_cases hb : b = d
    · simp [hb, hd]
    · simp [hb]

theorem Holds.same (h : Holds vm p c) (hs : SameOn vm vm' c) (hm : SameMain vm vm') : Holds vm' p c := by
  have hhead := hs p.first h.chain.head_mem
  have hflags := hs.flags h.chain.head_mem
  have hlen : (vm'.buffers p.first).currentLength = (vm.buffers p.first).currentLength :=
    VlibBuffer.of_body (p := VlibBuffer.currentLength) (fun _ => rfl) hhead
  have htotal : (vm'.buffers p.first).totalLengthNotIncludingFirstBuffer =
      (vm.buffers p.first).totalLengthNotIncludingFirstBuffer :=
    VlibBuffer.of_body (p := VlibBuffer.totalLengthNotIncludingFirstBuffer) (fun _ => rfl) hhead
  refine ⟨h.chain.same hs, fun b hb => hm.nBuffers ▸ h.lt b hb, (contents_same hs).trans h.bytes, ?_, ?_⟩
  · rw [hflags, hlen, htotal]
    exact h.total
  · rw [hflags]
    exact h.recycle

theorem Inv.perm (h : Inv vm old) (hp : old.Perm new) : Inv vm new := by
  refine ⟨fun x hx => h.holds x (hp.mem_iff.mpr hx), ?_, ?_, h.nodup, h.clean, h.template⟩
  · intro b
    rw [← uses_perm hp]
    exact h.refs b
  · intro b
    rw [← uses_perm hp]
    exact h.free b

theorem Inv.not_free (h : Inv vm hs) (hx : x ∈ hs) (hb : b ∈ x.2) : b ∉ vm.freeList := by
  intro hf
  have hpos := uses_pos hx hb
  have hzero := ((h.free b).mp hf).2
  omega

theorem Inv.replace (h : Inv vm (old ++ hs)) (hm : SameMain vm vm') (hlist : vm'.freeList = vm.freeList)
    (hnew : ∀ x ∈ new, Holds vm' x.1 x.2) (hcover : ∀ b, uses new b = 0 ↔ uses old b = 0)
    (hframe : ∀ b, uses old b = 0 → vm'.buffers b = vm.buffers b) (hbody : ∀ x ∈ hs, SameOn vm vm' x.2)
    (hrefs : ∀ b, 0 < uses old b → (vm'.buffers b).nAddRefs + 1 = uses new b + uses hs b) :
    Inv vm' (new ++ hs) := by
  refine ⟨?_, ?_, ?_, hlist ▸ h.nodup, ?_, hm.template ▸ h.template⟩
  · intro x hx
    rcases mem_append.mp hx with hx | hx
    · exact hnew x hx
    · exact (h.holds x (mem_append_right old hx)).same (hbody x hx) hm
  · intro b hb
    rw [uses_append] at hb ⊢
    by_cases hold : uses old b = 0
    · have hrefs' := h.refs b
      rw [uses_append, hold, ← hframe b hold] at hrefs'
      rw [(hcover b).mpr hold] at hb ⊢
      exact hrefs' hb
    · exact hrefs b (Nat.pos_of_ne_zero hold)
  · intro b
    rw [hlist, h.free, hm.nBuffers, uses_append, uses_append, Nat.add_eq_zero_iff, Nat.add_eq_zero_iff, hcover]
  · intro b hb
    rw [hlist] at hb
    have hzero := ((h.free b).mp hb).2
    rw [uses_append, Nat.add_eq_zero_iff] at hzero
    rw [hframe b hzero.1]
    exact h.clean b hb

/-- What an allocation of up to `n` buffers may return. -/
structure Fresh (vm : VlibMain) (n : Nat) (got : List Nat) : Prop where
  nodup : got.Nodup
  free : ∀ b ∈ got, b ∈ vm.freeList
  length_le : got.length ≤ n

theorem Inv.alloc (h : Inv vm hs) (hgot : Fresh vm n got) : Inv (vlibBufferAlloc vm got) (singles vm got ++ hs) := by
  refine ⟨?_, ?_, ?_, h.nodup.filter _, ?_, h.template⟩
  · intro x hx
    rcases mem_append.mp hx with hx | hx
    · obtain ⟨b, hb, rfl⟩ := List.mem_map.mp hx
      have hclean := h.clean b (hgot.free b hb)
      refine ⟨.last hclean.nextPresent, ?_, rfl, ?_, hclean.recycle⟩
      · intro b' hb'
        rw [mem_singleton.mp hb']
        exact ((h.free b).mp (hgot.free b hb)).1
      · intro hv
        exact absurd hv (Bool.eq_false_iff.mp hclean.totalLengthValid)
    · exact (h.holds x hx).same (fun _ _ => rfl) ⟨rfl, rfl⟩
  · intro b hb
    rw [uses_append, uses_singles hgot.nodup] at hb ⊢
    by_cases hbg : b ∈ got
    · have hfree := hgot.free b hbg
      rw [if_pos hbg, ((h.free b).mp hfree).2]
      show (vm.buffers b).nAddRefs + 1 = 1
      rw [(h.clean b hfree).nAddRefs]
    · rw [if_neg hbg, Nat.zero_add] at hb ⊢
      exact h.refs b hb
  · intro b
    show b ∈ vm.freeList.filter _ ↔ b < vm.nBuffers ∧ _
    rw [mem_filter, h.free, uses_append, uses_singles hgot.nodup]
    by_cases hbg : b ∈ got
    · simp [hbg]
    · simp [hbg]
  · exact fun b hb => h.clean b (mem_filter.mp hb).1

theorem Inv.freeChain (h : Inv vm ((p, c) :: hs)) : Inv (freeChain vm.nBuffers vm p.first) hs := by
  have hp := h.holds _ mem_cons_self
  have hnd := hp.chain.nodup
  obtain ⟨hbuf, hlist, hn, ht⟩ := freeChain_spec hp.chain (length_le_of_lt hnd hp.lt)
  have huses (b : Nat) : uses ((p, c) :: hs) b = uses hs b + if b ∈ c then 1 else 0 := uses_cons _ _ b
  have hrefs {b : Nat} (hb : b ∈ c) : (vm.buffers b).nAddRefs = uses hs b := by
    have hone := h.refs b (uses_pos mem_cons_self hb)
    rw [huses, if_pos hb] at hone
    omega
  have hmem (b : Nat) : b ∈ (Vlib.freeChain vm.nBuffers vm p.first).freeList ↔
      b ∈ vm.freeList ∨ b ∈ c ∧ uses hs b = 0 := by
    rw [hlist, mem_append, mem_filter, decide_eq_true_iff]
    exact or_congr_right (and_congr_right fun hb => by rw [hrefs hb])
  have hnot {b : Nat} (hb : b ∈ c) : b ∉ vm.freeList := h.not_free mem_cons_self hb
  refine ⟨?_, ?_, ?_, ?_, ?_, ht ▸ h.template⟩
  · intro x hx
    refine (h.holds x (mem_cons_of_mem _ hx)).same ?_ ⟨hn, ht⟩
    intro b hb
    rw [hbuf]
    split
    · next hbc =>
      have hpos := uses_pos hx hb
      rw [freed, if_pos (by rw [hrefs hbc]; omega)]
      rfl
    · rfl
  · intro b hb
    rw [hbuf]
    split
    · next hbc =>
      rw [freed, if_pos (by rw [hrefs hbc]; omega)]
      show (vm.buffers b).nAddRefs - 1 + 1 = uses hs b
      rw [hrefs hbc]
      omega
    · next hbc =>
      have hold := h.refs b
      rw [huses, if_neg hbc] at hold
      exact hold hb
  · intro b
    rw [hmem, hn, h.free, huses]
    by_cases hb : b ∈ c
    · rw [if_pos hb]
      have hlt := hp.lt b hb
      simp [hb, hlt]
    · rw [if_neg hb]
      simp [hb]
  · rw [hlist, nodup_append]
    refine ⟨h.nodup, hnd.filter _, ?_⟩
    rintro a ha b hb rfl
    exact hnot (mem_filter.mp hb).1 ha
  · intro b hb
    rw [hbuf]
    rcases (hmem b).mp hb with hb | ⟨hbc, hzero⟩
    · rw [if_neg fun hbc => hnot hbc hb]
      exact h.clean b hb
    · rw [if_pos hbc, freed, if_neg (by rw [hrefs hbc, hzero]; exact not_not.mpr rfl)]
      exact ⟨h.template.nextPresent, h.template.totalLengthValid, h.template.recycle, h.template.nAddRefs⟩

theorem Inv.vlibBufferFree (h : Inv vm (new ++ hs)) : Inv (vlibBufferFree vm (new.map (·.1.first))) hs := by
  induction new generalizing vm with
  | nil => exact h
  | cons x new ih =>
    have hx := h.holds x mem_cons_self
    rw [map_cons, Vlib.vlibBufferFree, hx.recycle]
    exact ih h.freeChain

theorem Inv.free_got (h : Inv vm hs) (hgot : Fresh vm n got) :
    Inv (Vlib.vlibBufferFree (vlibBufferAlloc vm got) got) hs := by
  have hfree := (h.alloc hgot).vlibBufferFree
  rwa [singles, List.map_map, show ((fun x : Packet × List Nat => x.1.first) ∘ fun b =>
    (⟨b, contents vm [b]⟩, [b])) = id
    from rfl, List.map_id] at hfree

end

structure Segment where
  currentData : Int
  currentLength : Nat
  totalLengthValid : Bool
  extHdrValid : Bool
  others : Nat
  totalLengthNotIncludingFirstBuffer : Nat
  opaqueWords : List (BitVec 32)
  data : Int → UInt8

def Segment.bytes (g : Segment) : List UInt8 := bytesAt g.data g.currentData g.currentLength

def Segment.fill (g : Segment) (next : Option Nat) (b : VlibBuffer) : VlibBuffer :=
  { b with
    currentData := g.currentData
    currentLength := g.currentLength
    flags := ⟨next.isSome, g.totalLengthValid, g.extHdrValid, false, g.others⟩
    totalLengthNotIncludingFirstBuffer := g.totalLengthNotIncludingFirstBuffer
    nextBuffer := next.getD b.nextBuffer
    opaqueWords := g.opaqueWords
    data := g.data }

def writePacket (vm : VlibMain) : List (Nat × Segment) → VlibMain
  | [] => vm
  | (i, g) :: rest => writePacket (vm.modify i (g.fill (rest.head?.map Prod.fst))) rest

variable {vm vm' : VlibMain} {hs : List (Packet × List Nat)} {p q : Packet} {c cs got news : List Nat} {b d s n : Nat}

/-- A chain of buffers that were not in use before. -/
structure Made (vm vm' : VlibMain) (first : Nat) (got : List Nat) (bytes : List UInt8) : Prop where
  main : SameMain vm vm'
  freeList : vm'.freeList = vm.freeList
  chain : IsChain vm' first got
  contents : contents vm' got = bytes
  other : ∀ b, b ∉ got → vm'.buffers b = vm.buffers b
  nAddRefs : ∀ b, (vm'.buffers b).nAddRefs = (vm.buffers b).nAddRefs

/-- Buffers obtained become a packet. -/
theorem Inv.made (h : Inv vm (singles vm₀ got ++ hs)) (hnd : got.Nodup) (hown : ∀ b ∈ got, uses hs b = 0)
    (hmade : Made vm vm' p.first got p.bytes)
    (htotal : (vm'.buffers p.first).flags.totalLengthValid = true →
      ((vm'.buffers p.first).currentLength + (vm'.buffers p.first).totalLengthNotIncludingFirstBuffer) % 2 ^ 32 =
        p.bytes.length % 2 ^ 32)
    (hrecycle : (vm'.buffers p.first).flags.recycle = false) : Inv vm' ((p, got) :: hs) := by
  have huses (b : Nat) : uses [(p, got)] b = if b ∈ got then 1 else 0 := by
    rw [uses_cons]
    exact Nat.zero_add _
  have hin {b : Nat} (hb : b ∈ got) : (⟨b, Vlib.contents vm₀ [b]⟩, [b]) ∈ singles vm₀ got :=
    List.mem_map.mpr ⟨b, hb, rfl⟩
  show Inv vm' ([(p, got)] ++ hs)
  refine h.replace hmade.main hmade.freeList ?_ ?_ ?_ ?_ ?_
  · intro x hx
    rw [mem_singleton.mp hx]
    refine ⟨hmade.chain, ?_, hmade.contents, htotal, hrecycle⟩
    intro b hb
    rw [hmade.main.nBuffers]
    exact (h.holds _ (mem_append_left hs (hin hb))).lt b (mem_singleton.mpr rfl)
  · intro b
    rw [huses, uses_singles hnd]
  · intro b hb
    apply hmade.other
    intro hm
    rw [uses_singles hnd, if_pos hm] at hb
    exact absurd hb (Nat.succ_ne_zero 0)
  · intro x hx b hb
    rw [hmade.other]
    intro hm
    have hpos := uses_pos hx hb
    rw [hown b hm] at hpos
    exact absurd hpos (Nat.lt_irrefl 0)
  · intro b hb
    have hone := h.refs b (by rw [uses_append]; omega)
    rw [hmade.nAddRefs, hone, uses_append, huses, uses_singles hnd]

theorem Fresh.own (hgot : Fresh vm n got) (h : Inv vm hs) : ∀ b ∈ got, uses hs b = 0 := fun b hb =>
  ((h.free b).mp (hgot.free b hb)).2

theorem fill_nAddRefs (g : Segment) (next : Option Nat) (b : VlibBuffer) : (g.fill next b).nAddRefs = b.nAddRefs := rfl

theorem modify_nAddRefs {g : VlibBuffer → VlibBuffer} (hg : ∀ b, (g b).nAddRefs = b.nAddRefs) (b : Nat) :
    ((vm.modify i g).buffers b).nAddRefs = (vm.buffers b).nAddRefs := by
  by_cases hb : b = i
  · rw [hb, modify_buffers_self, hg]
  · rw [modify_buffers_ne hb]

theorem writePacket_spec {gs : List (Nat × Segment)} (hnd : (gs.map Prod.fst).Nodup) (i : Nat) (g : Segment)
    (hi : i ∉ gs.map Prod.fst) :
    Made vm (writePacket vm ((i, g) :: gs)) i (i :: gs.map Prod.fst) (((i, g) :: gs).flatMap fun x => x.2.bytes) ∧
      (writePacket vm ((i, g) :: gs)).buffers i = g.fill (gs.head?.map Prod.fst) (vm.buffers i) := by
  induction gs generalizing vm i g with
  | nil =>
    refine ⟨⟨⟨rfl, rfl⟩, rfl, .last ?_, ?_, ?_, ?_⟩, modify_buffers_self ..⟩
    · show ((vm.modify i (g.fill none)).buffers i).flags.nextPresent = false
      rw [modify_buffers_self]
      rfl
    · show ((vm.modify i (g.fill none)).buffers i).bytes ++ [] = g.bytes ++ []
      rw [modify_buffers_self]
      rfl
    · exact fun b hb => modify_buffers_ne fun he => hb (mem_singleton.mpr he)
    · exact modify_nAddRefs (fill_nAddRefs g none)
  | cons x gs ih =>
    obtain ⟨j, k⟩ := x
    obtain ⟨hj, hnd⟩ := nodup_cons.mp hnd
    obtain ⟨hmade, -⟩ : Made (vm.modify i (g.fill (some j))) _ j _ _ ∧ _ := ih hnd j k hj
    have hi' : (writePacket vm ((i, g) :: (j, k) :: gs)).buffers i = g.fill (some j) (vm.buffers i) :=
      (hmade.other i hi).trans (modify_buffers_self ..)
    refine ⟨⟨⟨hmade.main.nBuffers, hmade.main.template⟩, hmade.freeList, .next ?_ ?_, ?_, ?_, ?_⟩, hi'⟩
    · rw [hi']
      rfl
    · rw [hi']
      exact hmade.chain
    · show (VlibBuffer.bytes _) ++ contents _ (j :: gs.map Prod.fst) = g.bytes ++ _
      rw [hi']
      exact congrArg (g.bytes ++ ·) hmade.contents
    · intro b hb
      rw [map_cons, mem_cons, not_or] at hb
      exact (hmade.other b hb.2).trans (modify_buffers_ne hb.1)
    · exact fun b => (hmade.nAddRefs b).trans (modify_nAddRefs (fill_nAddRefs g _) b)

theorem copySegment_nAddRefs (d s : VlibBuffer) : (copySegment d s).nAddRefs = d.nAddRefs := rfl

theorem copyFirst_nAddRefs (d s : VlibBuffer) : (copyFirst d s).nAddRefs = d.nAddRefs := rfl

theorem bytes_copyFirst (d s : VlibBuffer) : (copyFirst d s).bytes = s.bytes := bytesAt_memcpy ..

theorem bytes_copySegment (d s : VlibBuffer) : (copySegment d s).bytes = s.bytes := bytesAt_memcpy ..

/-- The rest of a copy, after buffer `d` has become one of `s`. -/
theorem copyNext_spec (hchain : IsChain vm s (s :: cs)) (hlen : cs.length = news.length) (hnd : (d :: news).Nodup)
    (hdisj : ∀ b ∈ s :: cs, b ∉ d :: news)
    (hflags : (vm.buffers d).flags.nextPresent = (vm.buffers s).flags.nextPresent) :
    Made vm (copyNext vm d s news) d (d :: news) ((vm.buffers d).bytes ++ contents vm cs) ∧
      ∃ i, (copyNext vm d s news).buffers d = { vm.buffers d with nextBuffer := i } := by
  induction news generalizing vm d s cs with
  | nil =>
    obtain rfl := length_eq_zero_iff.mp hlen
    have hlast : (vm.buffers s).flags.nextPresent = false := by
      cases hchain with
      | last hn => exact hn
      | next _ h => exact absurd h.head_mem not_mem_nil
    refine ⟨⟨⟨rfl, rfl⟩, rfl, .last (hflags.trans hlast), ?_, fun _ _ => rfl, fun _ => rfl⟩, ⟨_, rfl⟩⟩
    rfl
  | cons new news ih =>
    obtain ⟨s', cs, rfl⟩ := exists_cons_of_length_eq_add_one hlen
    obtain ⟨hd, hnd⟩ := nodup_cons.mp hnd
    obtain ⟨hn, rfl, hchain⟩ : (vm.buffers s).flags.nextPresent = true ∧ (vm.buffers s).nextBuffer = s' ∧
        IsChain vm s' (s' :: cs) := by
      cases hchain with
      | next hn h =>
        cases h with
        | last h' => exact ⟨hn, rfl, .last h'⟩
        | next h' h => exact ⟨hn, rfl, .next h' h⟩
    generalize hs' : (vm.buffers s).nextBuffer = s' at *
    have hds : s ≠ d := fun he => hdisj s mem_cons_self (he ▸ mem_cons_self)
    have hne {b : Nat} (hb : b ∈ s' :: cs) : b ≠ d ∧ b ≠ new := by
      have hnot := hdisj b (mem_cons_of_mem s hb)
      rw [mem_cons, mem_cons, not_or, not_or] at hnot
      exact ⟨hnot.1, hnot.2.1⟩
    have hdn : d ≠ new := fun he => hd (he ▸ mem_cons_self)
    generalize hv : vm.modify d (fun b => { b with nextBuffer := new }) = v
    have hvd : v.buffers d = { vm.buffers d with nextBuffer := new } := hv ▸ modify_buffers_self vm d _
    have hvo {b : Nat} (hb : b ≠ d) : v.buffers b = vm.buffers b := hv ▸ modify_buffers_ne hb
    have hvr (b : Nat) : (v.buffers b).nAddRefs = (vm.buffers b).nAddRefs := by
      rw [← hv]
      exact modify_nAddRefs (g := fun b => { b with nextBuffer := new }) (fun _ => rfl) b
    generalize hw : v.modify new (fun b => copySegment b (v.buffers s')) = w
    have hwn : w.buffers new = copySegment (vm.buffers new) (vm.buffers s') := by
      rw [← hw, modify_buffers_self, hvo hdn.symm, hvo (hne mem_cons_self).1]
    have hwo {b : Nat} (hb : b ≠ new) : w.buffers b = v.buffers b := hw ▸ modify_buffers_ne hb
    have hsame : SameOn vm w (s' :: cs) := fun b hb => by rw [hwo (hne hb).2, hvo (hne hb).1]
    have hrun : copyNext vm d s (new :: news) = copyNext w new s' news := by
      rw [copyNext, hv, hvo hds, hs', hw]
    obtain ⟨hmade, i, hi⟩ := ih (hchain.same hsame) (Nat.succ.inj hlen) hnd (fun b hb hm =>
      hdisj b (mem_cons_of_mem s hb) (mem_cons_of_mem d hm)) (by
        rw [hwn, hwo (hne mem_cons_self).2, hvo (hne mem_cons_self).1]
        rfl)
    have hdbuf : (copyNext w new s' news).buffers d = { vm.buffers d with nextBuffer := new } := by
      rw [hmade.other d hd, hwo hdn, hvd]
    rw [hrun]
    refine ⟨⟨⟨?_, ?_⟩, ?_, .next ?_ ?_, ?_, ?_, ?_⟩, _, hdbuf⟩
    · rw [hmade.main.nBuffers, ← hw, ← hv]
      rfl
    · rw [hmade.main.template, ← hw, ← hv]
      rfl
    · rw [hmade.freeList, ← hw, ← hv]
      rfl
    · rw [hdbuf]
      exact hflags.trans hn
    · rw [hdbuf]
      exact hmade.chain
    · show VlibBuffer.bytes _ ++ contents _ (new :: news) = _
      rw [hdbuf, hmade.contents, hwn, bytes_copySegment, contents_same hsame.tail]
      rfl
    · intro b hb
      rw [mem_cons, not_or] at hb
      have hbn : b ≠ new := fun he => hb.2 (he ▸ mem_cons_self)
      rw [hmade.other b hb.2, hwo hbn, hvo hb.1]
    · intro b
      rw [hmade.nAddRefs, ← hw, modify_nAddRefs fun b => copySegment_nAddRefs b _, hvr]

/-- A copy is made in full, or what was obtained goes back. -/
theorem Inv.copy (h : Inv vm hs) (hp : (p, c) ∈ hs) (hgot : Fresh vm (nBuffersFrom vm vm.nBuffers p.first) got) :
    (∃ d, (vlibBufferCopy vm p.first got).2 = some d ∧
      Inv (vlibBufferCopy vm p.first got).1 ((⟨d, p.bytes⟩, got) :: hs)) ∨
    (vlibBufferCopy vm p.first got).2 = none ∧ Inv (vlibBufferCopy vm p.first got).1 hs := by
  have hh : Holds vm p c := h.holds _ hp
  have hn : nBuffersFrom vm vm.nBuffers p.first = c.length :=
    hh.chain.nBuffersFrom_eq (length_le_of_lt hh.chain.nodup hh.lt)
  have hown := hgot.own h
  have halloc := h.alloc hgot
  unfold vlibBufferCopy
  dsimp only
  by_cases hshort : got.length < nBuffersFrom vm vm.nBuffers p.first
  · rw [if_pos hshort]
    exact .inr ⟨rfl, h.free_got hgot⟩
  · rw [if_neg hshort]
    left
    have hlen : got.length = c.length := by
      have hle := hgot.length_le
      omega
    have hcpos : 0 < c.length := length_pos_of_mem hh.chain.head_mem
    obtain ⟨fd, news, rfl⟩ := exists_cons_of_length_pos (hlen ▸ hcpos)
    obtain ⟨cs, rfl⟩ := hh.chain.eq_cons
    refine ⟨fd, rfl, ?_⟩
    have hnot {b : Nat} (hb : b ∈ p.first :: cs) : b ∉ fd :: news := fun hm =>
      h.not_free hp hb (hgot.free b hm)
    show Inv (copyNext ((vlibBufferAlloc vm (fd :: news)).modify fd fun d => copyFirst d (vm.buffers p.first))
      fd p.first news) _
    generalize hv : (vlibBufferAlloc vm (fd :: news)).modify fd (fun d => copyFirst d (vm.buffers p.first)) = v
    have hvd : v.buffers fd = copyFirst (vm.buffers fd) (vm.buffers p.first) := hv ▸ modify_buffers_self _ fd _
    have hvo {b : Nat} (hb : b ≠ fd) : v.buffers b = vm.buffers b := hv ▸ modify_buffers_ne hb
    have hvr (b : Nat) : (v.buffers b).nAddRefs = (vm.buffers b).nAddRefs := by
      rw [← hv, modify_nAddRefs fun d => copyFirst_nAddRefs d _]
      rfl
    have hne {b : Nat} (hb : b ∈ p.first :: cs) : b ≠ fd := fun he => hnot hb (he ▸ mem_cons_self)
    have hsame : SameOn vm v (p.first :: cs) := fun b hb => by rw [hvo (hne hb)]
    obtain ⟨hmade, i, hi⟩ := copyNext_spec (hh.chain.same hsame) (Nat.succ.inj hlen.symm) hgot.nodup
        (fun b hb => hnot hb) (by
      rw [hvd, hvo (hne mem_cons_self)]
      rfl)
    have hbytes : (v.buffers fd).bytes ++ Vlib.contents v cs = p.bytes := by
      rw [hvd, bytes_copyFirst, contents_same hsame.tail]
      exact hh.bytes
    rw [hbytes] at hmade
    rw [hvd] at hi
    apply halloc.made hgot.nodup hown
    · refine ⟨⟨?_, ?_⟩, ?_, hmade.chain, hmade.contents, ?_, ?_⟩
      · rw [hmade.main.nBuffers, ← hv]
        rfl
      · rw [hmade.main.template, ← hv]
        rfl
      · rw [hmade.freeList, ← hv]
        rfl
      · intro b hb
        rw [hmade.other b hb, hvo fun he => hb (he ▸ mem_cons_self)]
        rfl
      · exact fun b => (hmade.nAddRefs b).trans (hvr b)
    · rw [hi]
      exact hh.total
    · rw [hi]
      rfl

end Vpp.Vlib
