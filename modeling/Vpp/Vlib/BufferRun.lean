import Vpp.Vlib.BufferClone

namespace Vpp.Vlib
open List

structure World where
  vm : VlibMain
  held : List Packet

inductive Op where
  | alloc (gs : List (Nat × Segment))
  | clone (p : Packet) (rest : List Packet) (nBuffers headEndOffset : Nat) (answers : List (List Nat))
  | copy (p : Packet) (got : List Nat)
  | attach (p q : Packet) (rest : List Packet)
  | free (p : Packet) (rest : List Packet)

def World.chain (w : World) (p : Packet) : List Nat := chainFrom w.vm w.vm.nBuffers p.first

def World.holders (w : World) (b : Nat) : Nat := w.held.countP fun p => b ∈ w.chain p

def segmentBytes (gs : List (Nat × Segment)) : List UInt8 := gs.flatMap fun x => x.2.bytes

def TotalOk (gs : List (Nat × Segment)) : Prop :=
  ∀ x ∈ gs.head?, x.2.totalLengthValid = true →
    (x.2.currentLength + x.2.totalLengthNotIncludingFirstBuffer) % 2 ^ 32 = (segmentBytes gs).length % 2 ^ 32

def World.copies (w : World) (p : Packet) (headEndOffset : Nat) : Prop :=
  (w.vm.buffers p.first).currentLength ≤ headEndOffset + clibCacheLineBytes * 2

def OpOk (w : World) : Op → Prop
  | .alloc gs => gs ≠ [] ∧ Fresh w.vm gs.length (gs.map Prod.fst) ∧ TotalOk gs
  | .clone p rest n k answers => w.held.Perm (p :: rest) ∧ (w.vm.buffers p.first).nAddRefs = 0 ∧
    0 < n ∧ n < 2 ^ 8 ∧ k < 2 ^ 16 ∧ (w.copies p k → AnswersOk p.first (n - 1) w.vm answers) ∧
    (¬ w.copies p k → Fresh w.vm n (answers.headD []))
  | .copy p got => p ∈ w.held ∧ Fresh w.vm (nBuffersFrom w.vm w.vm.nBuffers p.first) got
  | .attach p q rest => w.held.Perm (p :: q :: rest) ∧ (w.vm.buffers p.first).flags.nextPresent = false ∧
    ∀ b ∈ w.chain q, w.holders b + 1 < 2 ^ 8
  | .free p rest => w.held.Perm (p :: rest)

/-- A clone by reference is one of a packet that shares no buffer, and so is the head of an attachment. The offset of
the data of a source that is moved stays within 16 bits. -/
def OpSafe (w : World) : Op → Prop
  | .clone p _ _ k answers => ¬ w.copies p k → answers.headD [] ≠ [] →
    (∀ b ∈ w.chain p, (w.vm.buffers b).nAddRefs = 0) ∧ (w.vm.buffers p.first).AdvanceFits k
  | .attach p _ _ => (w.vm.buffers p.first).nAddRefs = 0
  | _ => True

def World.apply (w : World) : Op → World
  | .alloc gs =>
    ⟨writePacket (vlibBufferAlloc w.vm (gs.map Prod.fst)) gs,
      (gs.head?.map fun x => ⟨x.1, segmentBytes gs⟩).toList ++ w.held⟩
  | .clone p rest n k answers =>
    ⟨(vlibBufferClone w.vm p.first n k answers).1,
      (vlibBufferClone w.vm p.first n k answers).2.map (⟨·, p.bytes⟩) ++ rest⟩
  | .copy p got =>
    ⟨(vlibBufferCopy w.vm p.first got).1,
      ((vlibBufferCopy w.vm p.first got).2.map (⟨·, p.bytes⟩)).toList ++ w.held⟩
  | .attach p q rest =>
    ⟨vlibBufferAttachClone w.vm p.first q.first, ⟨p.first, p.bytes ++ q.bytes⟩ :: q :: rest⟩
  | .free p rest => ⟨vlibBufferFree w.vm [p.first], rest⟩

def Step (w w' : World) : Prop := ∃ op, OpOk w op ∧ w' = w.apply op

def SafeStep (w w' : World) : Prop := ∃ op, OpOk w op ∧ OpSafe w op ∧ w' = w.apply op

structure InitMain (vm : VlibMain) : Prop where
  nodup : vm.freeList.Nodup
  free : ∀ b, b ∈ vm.freeList ↔ b < vm.nBuffers
  clean : ∀ b ∈ vm.freeList, Clean (vm.buffers b)
  template : Clean vm.bufferInitTemplate

/-- References count the held packets, what no packet has is free, once, and each packet has its bytes. -/
structure Sound (w : World) : Prop where
  refs : ∀ b, 0 < w.holders b → (w.vm.buffers b).nAddRefs + 1 = w.holders b
  free : ∀ b, b ∈ w.vm.freeList ↔ b < w.vm.nBuffers ∧ w.holders b = 0
  nodup : w.vm.freeList.Nodup
  chain : ∀ p ∈ w.held, IsChain w.vm p.first (w.chain p)
  bytes : ∀ p ∈ w.held, contents w.vm (w.chain p) = p.bytes
  total : ∀ p ∈ w.held, (w.vm.buffers p.first).flags.totalLengthValid = true →
    ((w.vm.buffers p.first).currentLength + (w.vm.buffers p.first).totalLengthNotIncludingFirstBuffer) % 2 ^ 32 =
      p.bytes.length % 2 ^ 32

variable {vm : VlibMain} {w w' : World} {hs : List (Packet × List Nat)} {p q : Packet} {c : List Nat} {b : Nat}

theorem Holds.chainFrom_eq (h : Holds vm p c) : chainFrom vm vm.nBuffers p.first = c :=
  h.chain.chainFrom_eq (length_le_of_lt h.chain.nodup h.lt)

theorem Inv.holders_eq (h : Inv w.vm hs) (hw : hs.map Prod.fst = w.held) (b : Nat) : w.holders b = uses hs b := by
  rw [World.holders, ← hw, countP_map]
  apply countP_congr
  intro x hx
  simp only [Function.comp_apply, decide_eq_true_iff]
  rw [World.chain, (h.holds x hx).chainFrom_eq]

theorem Inv.sound (h : Inv w.vm hs) (hw : hs.map Prod.fst = w.held) : Sound w := by
  have hchain {p : Packet} (hp : p ∈ w.held) : Holds w.vm p (w.chain p) := by
    rw [← hw] at hp
    obtain ⟨x, hx, rfl⟩ := List.mem_map.mp hp
    rw [World.chain, (h.holds x hx).chainFrom_eq]
    exact h.holds x hx
  refine ⟨?_, ?_, h.nodup, fun p hp => (hchain hp).chain, fun p hp => (hchain hp).bytes, fun p hp => (hchain hp).total⟩
  · intro b
    rw [h.holders_eq hw]
    exact h.refs b
  · intro b
    rw [h.holders_eq hw]
    exact h.free b

theorem perm_of_map {f : α → β} {xs : List α} {ys : List β} (h : (xs.map f).Perm ys) :
    ∃ zs, xs.Perm zs ∧ zs.map f = ys := by
  generalize hl : xs.map f = l at h
  induction h generalizing xs with
  | nil => exact ⟨xs, .refl xs, hl⟩
  | cons a _ ih =>
    obtain ⟨x, xs, rfl, rfl, hrest⟩ := map_eq_cons_iff.mp hl
    obtain ⟨zs, hp, hz⟩ := ih hrest
    exact ⟨x :: zs, hp.cons x, by rw [map_cons, hz]⟩
  | swap a b l =>
    obtain ⟨x, xs, rfl, rfl, hrest⟩ := map_eq_cons_iff.mp hl
    obtain ⟨y, ys, rfl, rfl, rfl⟩ := map_eq_cons_iff.mp hrest
    exact ⟨y :: x :: ys, .swap y x ys, rfl⟩
  | trans _ _ ih₁ ih₂ =>
    obtain ⟨zs, hp, hz⟩ := ih₁ hl
    obtain ⟨us, hp', hu⟩ := ih₂ hz
    exact ⟨us, hp.trans hp', hu⟩

def Tracked (w : World) : Prop := ∃ hs, hs.map Prod.fst = w.held ∧ Inv w.vm hs

theorem Tracked.apply (h : Tracked w) {op : Op} (hok : OpOk w op) (hsafe : OpSafe w op) : Tracked (w.apply op) := by
  obtain ⟨hs, hw, h⟩ := h
  cases op with
  | alloc gs =>
    obtain ⟨hne, hgot, htotal⟩ := hok
    obtain ⟨⟨i, g⟩, gs, rfl⟩ := exists_cons_of_ne_nil hne
    obtain ⟨hi, hnd⟩ := nodup_cons.mp hgot.nodup
    obtain ⟨hmade, hbuf⟩ := @writePacket_spec (vlibBufferAlloc w.vm (i :: gs.map Prod.fst)) gs hnd i g hi
    refine ⟨(⟨i, segmentBytes ((i, g) :: gs)⟩, i :: gs.map Prod.fst) :: hs, ?_, ?_⟩
    · rw [map_cons, hw]
      rfl
    · show Inv (writePacket (vlibBufferAlloc w.vm (i :: gs.map Prod.fst)) ((i, g) :: gs)) _
      refine Inv.made (h.alloc hgot) hgot.nodup (hgot.own h) hmade ?_ ?_
      · rw [hbuf]
        exact htotal (i, g) rfl
      · rw [hbuf]
        rfl
  | clone p rest n k answers =>
    obtain ⟨hp, hzero, hn, hn', hk, hcopies, href⟩ := hok
    obtain ⟨zs, hperm, hz⟩ := perm_of_map (hw ▸ hp)
    obtain ⟨⟨p', c⟩, zs, rfl, rfl, rfl⟩ := map_eq_cons_iff.mp hz
    have hinv := h.perm hperm
    have hc : w.chain p' = c := (hinv.holds _ mem_cons_self).chainFrom_eq
    obtain ⟨new, hnew, hafter⟩ := hinv.clone hcopies href fun hlong hgot => hc ▸ hsafe hlong hgot
    refine ⟨new ++ zs, ?_, hafter⟩
    rw [map_append, hnew]
    rfl
  | copy p got =>
    obtain ⟨hp, hgot⟩ := hok
    rw [← hw] at hp
    obtain ⟨⟨p', c⟩, hpc, rfl⟩ := List.mem_map.mp hp
    rcases h.copy hpc hgot with ⟨d, hd, hafter⟩ | ⟨hd, hafter⟩
    · refine ⟨_, ?_, hafter⟩
      show _ = ((vlibBufferCopy w.vm p'.first got).2.map _).toList ++ w.held
      rw [hd, map_cons, hw]
      rfl
    · refine ⟨hs, ?_, hafter⟩
      show _ = ((vlibBufferCopy w.vm p'.first got).2.map _).toList ++ w.held
      rw [hd, hw]
      rfl
  | attach p q rest =>
    obtain ⟨hp, hlast, hroom⟩ := hok
    obtain ⟨zs, hperm, hz⟩ := perm_of_map (hw ▸ hp)
    obtain ⟨⟨p', c⟩, zs, rfl, rfl, hz'⟩ := map_eq_cons_iff.mp hz
    obtain ⟨⟨q', c'⟩, zs, rfl, rfl, rfl⟩ := map_eq_cons_iff.mp hz'
    have hinv := h.perm hperm
    have hone : c = [p'.first] := (hinv.holds _ mem_cons_self).chain.unique (.last hlast)
    subst hone
    have hc : w.chain q' = c' := (hinv.holds _ (mem_cons_of_mem _ mem_cons_self)).chainFrom_eq
    refine ⟨_, ?_, hinv.attach hsafe ?_⟩
    · rfl
    · intro b hb
      have hfew := hroom b (hc.symm ▸ hb)
      have hrefs := hinv.refs b (uses_pos (mem_cons_of_mem _ mem_cons_self) hb)
      rw [h.holders_eq hw, uses_perm hperm, ← hrefs] at hfew
      omega
  | free p rest =>
    have hp : w.held.Perm (p :: rest) := hok
    obtain ⟨zs, hperm, hz⟩ := perm_of_map (hw ▸ hp)
    obtain ⟨⟨p', c⟩, zs, rfl, rfl, rfl⟩ := map_eq_cons_iff.mp hz
    have hinv : Inv w.vm ([(p', c)] ++ zs) := h.perm hperm
    exact ⟨zs, rfl, hinv.vlibBufferFree⟩

theorem InitMain.tracked (h : InitMain vm) : Tracked ⟨vm, []⟩ := by
  refine ⟨[], rfl, nofun, ?_, ?_, h.nodup, h.clean, h.template⟩
  · intro b hb
    exact absurd hb (Nat.lt_irrefl 0)
  · intro b
    exact (h.free b).trans (and_iff_left rfl).symm

theorem Tracked.run (h : Tracked w) (hrun : Relation.ReflTransGen SafeStep w w') : Tracked w' := by
  induction hrun with
  | refl => exact h
  | tail _ hstep ih =>
    obtain ⟨op, hok, hsafe, rfl⟩ := hstep
    exact ih.apply hok hsafe

theorem shared_buffers (vm : VlibMain) (w : World) (hvm : InitMain vm)
    (hrun : Relation.ReflTransGen SafeStep ⟨vm, []⟩ w) : Sound w := by
  obtain ⟨hs, hw, h⟩ := hvm.tracked.run hrun
  exact h.sound hw

def noFlags : BufferFlags := ⟨false, false, false, false, 0⟩

def threeBuffers : VlibMain where
  buffers := fun _ => ⟨0, 0, noFlags, 0, 0, 0, 0, [], fun _ => 0⟩
  nBuffers := 3
  bufferInitTemplate := ⟨0, 0, noFlags, 0, 0, 0, 0, [], fun _ => 0⟩
  freeList := [0, 1, 2]

def zeros (n : Nat) : Segment := ⟨0, n, false, false, 0, 0, [], fun _ => 0⟩

def tailPacket : Packet := ⟨0, segmentBytes [(0, zeros 1)]⟩

def headPacket : Packet := ⟨1, segmentBytes [(1, zeros 200)]⟩

def joinedPacket : Packet := ⟨1, headPacket.bytes ++ tailPacket.bytes⟩

def joined : World :=
  (((⟨threeBuffers, []⟩ : World).apply (.alloc [(0, zeros 1)])).apply (.alloc [(1, zeros 200)])).apply
    (.attach headPacket tailPacket [])

theorem initMain_threeBuffers : InitMain threeBuffers := by
  refine ⟨by decide, ?_, fun _ _ => ⟨rfl, rfl, rfl, rfl⟩, ⟨rfl, rfl, rfl, rfl⟩⟩
  intro b
  show b ∈ [0, 1, 2] ↔ b < 3
  simp
  omega

theorem attach_joined :
    OpOk (((⟨threeBuffers, []⟩ : World).apply (.alloc [(0, zeros 1)])).apply (.alloc [(1, zeros 200)]))
    (.attach headPacket tailPacket []) := ⟨.refl _, rfl, by decide⟩

theorem alloc_tail : OpOk ⟨threeBuffers, []⟩ (.alloc [(0, zeros 1)]) :=
  ⟨nofun, ⟨by decide, by decide, by decide⟩, by simp [TotalOk, zeros]⟩

theorem alloc_head : OpOk ((⟨threeBuffers, []⟩ : World).apply (.alloc [(0, zeros 1)])) (.alloc [(1, zeros 200)]) :=
  ⟨nofun, ⟨by decide, by decide, by decide⟩, by simp [TotalOk, zeros]⟩

theorem clone_joined : OpOk joined (.clone joinedPacket [tailPacket] 1 0 [[2]]) :=
  ⟨.refl _, rfl, by decide, by decide, by decide, fun h => absurd h (by unfold World.copies; decide), fun _ =>
    ⟨by decide, by decide, by decide⟩⟩

theorem shared_buffers_fail : ¬ ∀ vm w, InitMain vm → Relation.ReflTransGen Step ⟨vm, []⟩ w → Sound w := by
  intro hall
  have hrun : Relation.ReflTransGen Step ⟨threeBuffers, []⟩
      (joined.apply (.clone joinedPacket [tailPacket] 1 0 [[2]])) :=
    (((Relation.ReflTransGen.single ⟨_, alloc_tail, rfl⟩).tail ⟨_, alloc_head, rfl⟩).tail
      ⟨_, attach_joined, rfl⟩).tail ⟨_, clone_joined, rfl⟩
  have hrefs := (hall _ _ initMain_threeBuffers hrun).refs 0 (by decide)
  exact absurd hrefs (by decide)

theorem shared_buffers_joined : Sound joined := by
  refine shared_buffers threeBuffers joined initMain_threeBuffers ?_
  exact ((Relation.ReflTransGen.single ⟨_, alloc_tail, trivial, rfl⟩).tail ⟨_, alloc_head, trivial, rfl⟩).tail
    ⟨_, attach_joined, rfl, rfl⟩

end Vpp.Vlib
