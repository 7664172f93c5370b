import Vpp.Lib.Blocks
import Vpp.Vlib.Buffer

namespace Vpp.Vlib
open Vpp.Lib List

def vlibBufferChainBuffer (vm : VlibMain) (last nextBi : Nat) : VlibMain :=
  let vm := vm.modify last fun b =>
    { b with
      nextBuffer := nextBi
      flags := { b.flags with nextPresent := true } }
  vm.modify nextBi fun b =>
    { b with
      currentLength := 0
      flags := { b.flags with nextPresent := false } }

def vlibBufferChainIncreaseLength (vm : VlibMain) (first last len : Nat) : VlibMain :=
  let vm := vm.modify last fun b => { b with currentLength := (b.currentLength + len) % 2 ^ 16 }
  if first ≠ last then
    vm.modify first fun b =>
      { b with totalLengthNotIncludingFirstBuffer := (b.totalLengthNotIncludingFirstBuffer + len) % 2 ^ 32 }
  else vm

def copyBehind (vm : VlibMain) (l : Nat) (piece : List UInt8) : VlibMain :=
  vm.modify l fun b => { b with data := storeBlock b.data (b.currentData + b.currentLength) piece }

/-- The room behind the data of a buffer, in 16 bits. -/
def appendMax (nBufferBytes : Nat) (l : VlibBuffer) : Nat :=
  (((nBufferBytes : Int) - l.currentLength - l.currentData) % 2 ^ 16).toNat

def appendPiece (first : Nat) (vm : VlibMain) (l : Nat) (piece : List UInt8) : VlibMain :=
  vlibBufferChainIncreaseLength (copyBehind vm l piece) first l piece.length

/-- The number of bytes copied, the last buffer, and the buffers. The allocations give the buffers `got` and fail when
these are used up. -/
def vlibBufferChainAppendDataWithAlloc (nBufferBytes first : Nat) (vm : VlibMain) (l : Nat) (data : List UInt8)
    (copied : Nat) (got : List Nat) : Nat × Nat × VlibMain :=
  if _hdata : data = [] then (copied, l, vm)
  else
    let max := appendMax nBufferBytes (vm.buffers l)
    if _hmax : max = 0 then
      match got with
      | [] => (copied, l, vm)
      | bi :: got =>
        let vm := vlibBufferChainBuffer (vlibBufferAlloc vm [bi]) l bi
        let max := appendMax nBufferBytes (vm.buffers bi)
        vlibBufferChainAppendDataWithAlloc nBufferBytes first (appendPiece first vm bi (data.take max)) bi
            (data.drop max)
          (copied + (data.take max).length) got
    else
      vlibBufferChainAppendDataWithAlloc nBufferBytes first (appendPiece first vm l (data.take max)) l (data.drop max)
        (copied + (data.take max).length) got
termination_by (got.length, data.length)
decreasing_by
  · exact Prod.Lex.left _ _ (Nat.lt_succ_self _)
  · apply Prod.Lex.right
    have hpos := length_pos_of_ne_nil _hdata
    rw [length_drop]
    exact Nat.sub_lt hpos (Nat.pos_of_ne_zero _hmax)

/-- The room as the other function has it, in 32 bits. -/
def nLeftThisBuffer (nBufferBytes : Nat) (b : VlibBuffer) : Nat :=
  (((nBufferBytes : Int) - (b.currentData + b.currentLength)) % 2 ^ 32).toNat

def addPiece (vm : VlibMain) (b : Nat) (piece : List UInt8) : VlibMain :=
  (copyBehind vm b piece).modify b fun b => { b with currentLength := (b.currentLength + piece.length) % 2 ^ 16 }

def addDataFrom (nBufferBytes : Nat) (vm : VlibMain) (b : Nat) (data : List UInt8) : List Nat → VlibMain × Bool
  | [] =>
    let n := min (nLeftThisBuffer nBufferBytes (vm.buffers b)) data.length
    (addPiece vm b (data.take n), data.length - n = 0)
  | bi :: got =>
    let n := min (nLeftThisBuffer nBufferBytes (vm.buffers b)) data.length
    let vm := addPiece vm b (data.take n)
    if data.length - n = 0 then (vm, true)
    else
      let vm := (vlibBufferAlloc vm [bi]).modify b fun b => { b with nextBuffer := bi }
      let vm := vm.modify b fun b => { b with flags := { b.flags with nextPresent := true } }
      addDataFrom nBufferBytes vm bi (data.drop n) got

/-- The end of a chain. The number of buffers bounds the rounds. -/
def endOfChain (vm : VlibMain) : Nat → Nat → Nat
  | 0, b => b
  | n + 1, b => if (vm.buffers b).flags.nextPresent then endOfChain vm n (vm.buffers b).nextBuffer else b

/-- The first buffer, the buffers, and whether there was no error. Index 0 stands for no buffer yet. -/
def vlibBufferAddData (nBufferBytes : Nat) (vm : VlibMain) (bufferIndex : Nat) (data : List UInt8) (got : List Nat) :
    Nat × VlibMain × Bool :=
  match if bufferIndex = 0 then (got.head?.map fun bi => (bi, vlibBufferAlloc vm [bi], got.tail))
      else some (bufferIndex, vm, got) with
  | none => (bufferIndex, vm, false)
  | some (bi, vm, got) =>
    let vm := vm.modify bi fun b => { b with flags := { b.flags with totalLengthValid := false } }
    let (vm, ok) := addDataFrom nBufferBytes vm (endOfChain vm vm.nBuffers bi) data got
    (bi, vm, ok)

structure SameSegment (b b' : VlibBuffer) : Prop where
  currentData : b'.currentData = b.currentData
  currentLength : b'.currentLength = b.currentLength
  bytes : b'.bytes = b.bytes

/-- The data of one buffer have grown, and nothing else of the chain has changed. -/
structure Grown (vm vm' : VlibMain) (l : Nat) (piece : List UInt8) : Prop where
  nextPresent : ∀ b, (vm'.buffers b).flags.nextPresent = (vm.buffers b).flags.nextPresent
  nextBuffer : ∀ b, (vm'.buffers b).nextBuffer = (vm.buffers b).nextBuffer
  other : ∀ b ≠ l, SameSegment (vm.buffers b) (vm'.buffers b)
  currentData : (vm'.buffers l).currentData = (vm.buffers l).currentData
  currentLength : (vm'.buffers l).currentLength = ((vm.buffers l).currentLength + piece.length) % 2 ^ 16
  bytes : (vm.buffers l).currentLength + piece.length < 2 ^ 16 →
    (vm'.buffers l).bytes = (vm.buffers l).bytes ++ piece

theorem bytesAt_storeBlock (data : Int → UInt8) (p : Int) (n : Nat) (piece : List UInt8) :
    bytesAt (storeBlock data (p + n) piece) p (n + piece.length) = bytesAt data p n ++ piece := by
  rw [bytesAt_add]
  congr 1
  · exact loadBlock_congr _ _ fun k hk => storeBlock_outside _ _ (.inl (by omega))
  · exact (loadBlock_eq_iff _ _ rfl).2 fun k hk => storeBlock_inside _ _ hk

theorem addPiece_buffers_self (vm : VlibMain) (l : Nat) (piece : List UInt8) : (addPiece vm l piece).buffers l
    = { vm.buffers l with
        data := storeBlock (vm.buffers l).data ((vm.buffers l).currentData + (vm.buffers l).currentLength) piece
        currentLength := ((vm.buffers l).currentLength + piece.length) % 2 ^ 16 } := by
  rw [addPiece, modify_buffers_self, copyBehind, modify_buffers_self]

theorem addPiece_buffers_ne {vm : VlibMain} {l b : Nat} (h : b ≠ l) (piece : List UInt8) :
    (addPiece vm l piece).buffers b = vm.buffers b := by
  rw [addPiece, modify_buffers_ne h, copyBehind, modify_buffers_ne h]

theorem grown_addPiece (vm : VlibMain) (l : Nat) (piece : List UInt8) : Grown vm (addPiece vm l piece) l piece where
  nextPresent b := by
    by_cases hb : b = l
    · rw [hb, addPiece_buffers_self]
    · rw [addPiece_buffers_ne hb]
  nextBuffer b := by
    by_cases hb : b = l
    · rw [hb, addPiece_buffers_self]
    · rw [addPiece_buffers_ne hb]
  other b hb := by
    rw [addPiece_buffers_ne hb]
    exact ⟨rfl, rfl, rfl⟩
  currentData := by rw [addPiece_buffers_self]
  currentLength := by rw [addPiece_buffers_self]
  bytes h := by
    rw [VlibBuffer.bytes, VlibBuffer.bytes, addPiece_buffers_self]
    simp only [Nat.mod_eq_of_lt h]
    exact bytesAt_storeBlock _ _ _ _

/-- The total of the first buffer is no part of a segment. -/
theorem Grown.total {vm vm' vm'' : VlibMain} {l : Nat} {piece : List UInt8} (h : Grown vm vm' l piece)
    (hsame : ∀ b, ∃ t, vm''.buffers b = { vm'.buffers b with totalLengthNotIncludingFirstBuffer := t }) :
    Grown vm vm'' l piece where
  nextPresent b := by
    obtain ⟨t, ht⟩ := hsame b
    rw [ht]
    exact h.nextPresent b
  nextBuffer b := by
    obtain ⟨t, ht⟩ := hsame b
    rw [ht]
    exact h.nextBuffer b
  other b hb := by
    obtain ⟨t, ht⟩ := hsame b
    rw [ht]
    exact ⟨(h.other b hb).currentData, (h.other b hb).currentLength, (h.other b hb).bytes⟩
  currentData := by
    obtain ⟨t, ht⟩ := hsame l
    rw [ht]
    exact h.currentData
  currentLength := by
    obtain ⟨t, ht⟩ := hsame l
    rw [ht]
    exact h.currentLength
  bytes hlt := by
    obtain ⟨t, ht⟩ := hsame l
    rw [ht]
    exact h.bytes hlt

theorem appendPiece_buffers (first : Nat) (vm : VlibMain) (l : Nat) (piece : List UInt8) (b : Nat) :
    (appendPiece first vm l piece).buffers b
      = if b = first ∧ first ≠ l then
          { (addPiece vm l piece).buffers b with
            totalLengthNotIncludingFirstBuffer :=
              ((vm.buffers b).totalLengthNotIncludingFirstBuffer + piece.length) % 2 ^ 32 }
        else (addPiece vm l piece).buffers b := by
  by_cases hfl : first = l
  · have hsame : appendPiece first vm l piece = addPiece vm l piece := if_neg (not_not_intro hfl)
    rw [hsame, if_neg fun h => h.2 hfl]
  · have htotal : appendPiece first vm l piece = (addPiece vm l piece).modify first fun b =>
        { b with totalLengthNotIncludingFirstBuffer :=
          (b.totalLengthNotIncludingFirstBuffer + piece.length) % 2 ^ 32 } :=
      if_pos hfl
    rw [htotal]
    by_cases hb : b = first
    · rw [hb, modify_buffers_self, if_pos ⟨rfl, hfl⟩, addPiece_buffers_ne hfl]
    · rw [modify_buffers_ne hb, if_neg fun h => hb h.1]

theorem grown_appendPiece (first : Nat) (vm : VlibMain) (l : Nat) (piece : List UInt8) :
    Grown vm (appendPiece first vm l piece) l piece := by
  apply (grown_addPiece vm l piece).total
  intro b
  rw [appendPiece_buffers]
  split
  · exact ⟨_, rfl⟩
  · exact ⟨_, rfl⟩

structure Linked (vm vm' : VlibMain) (last bi : Nat) : Prop where
  nextPresent : ∀ b, b ≠ last → b ≠ bi → (vm'.buffers b).flags.nextPresent = (vm.buffers b).flags.nextPresent
  nextBuffer : ∀ b, b ≠ last → b ≠ bi → (vm'.buffers b).nextBuffer = (vm.buffers b).nextBuffer
  last_present : (vm'.buffers last).flags.nextPresent = true
  last_next : (vm'.buffers last).nextBuffer = bi
  new_last : (vm'.buffers bi).flags.nextPresent = false
  new_data : (vm'.buffers bi).currentData = 0
  new_length : (vm'.buffers bi).currentLength = 0
  other : ∀ b, b ≠ bi → SameSegment (vm.buffers b) (vm'.buffers b)

structure EmptyBuffer (b : VlibBuffer) : Prop where
  currentData : b.currentData = 0
  currentLength : b.currentLength = 0
  nextPresent : b.flags.nextPresent = false

section
variable {vm vm' : VlibMain} {c got : List Nat} {first l last bi i n : Nat} {piece data : List UInt8}

theorem linked_chainBuffer (hne : bi ≠ last) (hempty : EmptyBuffer (vm.buffers bi)) :
    Linked vm (vlibBufferChainBuffer (vlibBufferAlloc vm [bi]) last bi) last bi where
  nextPresent b hb hbi := by
    rw [vlibBufferChainBuffer, modify_buffers_ne hbi, modify_buffers_ne hb]
    rfl
  nextBuffer b hb hbi := by
    rw [vlibBufferChainBuffer, modify_buffers_ne hbi, modify_buffers_ne hb]
    rfl
  last_present := by rw [vlibBufferChainBuffer, modify_buffers_ne hne.symm, modify_buffers_self]
  last_next := by rw [vlibBufferChainBuffer, modify_buffers_ne hne.symm, modify_buffers_self]
  new_last := by rw [vlibBufferChainBuffer, modify_buffers_self]
  new_data := by
    rw [vlibBufferChainBuffer, modify_buffers_self, modify_buffers_ne hne]
    exact hempty.currentData
  new_length := by rw [vlibBufferChainBuffer, modify_buffers_self]
  other b hb := by
    rw [vlibBufferChainBuffer, modify_buffers_ne hb]
    by_cases hl : b = last
    · rw [hl, modify_buffers_self]
      exact ⟨rfl, rfl, rfl⟩
    · rw [modify_buffers_ne hl]
      exact ⟨rfl, rfl, rfl⟩

theorem linked_addData (hne : bi ≠ last) (hempty : EmptyBuffer (vm.buffers bi)) :
    Linked vm (((vlibBufferAlloc vm [bi]).modify last fun b => { b with nextBuffer := bi }).modify last fun b =>
      { b with flags := { b.flags with nextPresent := true } }) last bi where
  nextPresent b hb _ := by
    rw [modify_buffers_ne hb, modify_buffers_ne hb]
    rfl
  nextBuffer b hb _ := by
    rw [modify_buffers_ne hb, modify_buffers_ne hb]
    rfl
  last_present := by rw [modify_buffers_self]
  last_next := by rw [modify_buffers_self, modify_buffers_self]
  new_last := by
    rw [modify_buffers_ne hne, modify_buffers_ne hne]
    exact hempty.nextPresent
  new_data := by
    rw [modify_buffers_ne hne, modify_buffers_ne hne]
    exact hempty.currentData
  new_length := by
    rw [modify_buffers_ne hne, modify_buffers_ne hne]
    exact hempty.currentLength
  other b hb := by
    by_cases hl : b = last
    · rw [hl, modify_buffers_self, modify_buffers_self]
      exact ⟨rfl, rfl, rfl⟩
    · rw [modify_buffers_ne hl, modify_buffers_ne hl]
      exact ⟨rfl, rfl, rfl⟩

theorem Grown.chain (h : Grown vm vm' l piece) (hc : IsChain vm i c) : IsChain vm' i c :=
  hc.links fun b _ => ⟨h.nextPresent b, h.nextBuffer b⟩

theorem SameSegment.contents (h : ∀ b ∈ c, SameSegment (vm.buffers b) (vm'.buffers b)) :
    contents vm' c = contents vm c := flatMap_congr fun b hb => (h b hb).bytes

theorem Grown.contents (h : Grown vm vm' l piece) (hnd : (c ++ [l]).Nodup)
    (hlt : (vm.buffers l).currentLength + piece.length < 2 ^ 16) :
    contents vm' (c ++ [l]) = contents vm (c ++ [l]) ++ piece := by
  have hc : Vlib.contents vm' c = Vlib.contents vm c := SameSegment.contents fun b hb =>
    h.other b fun heq => (nodup_append.1 hnd).2.2 b hb l (mem_singleton.2 rfl) heq
  have hsplit (vm : VlibMain) : Vlib.contents vm (c ++ [l]) = Vlib.contents vm c ++ (vm.buffers l).bytes := by
    rw [Vlib.contents, flatMap_append, flatMap_singleton]
    rfl
  rw [hsplit, hsplit, hc, h.bytes hlt, List.append_assoc]

theorem IsChain.of_cons {b : Nat} (h : IsChain vm i (b :: c)) (hne : c ≠ []) :
    i = b ∧ (vm.buffers b).flags.nextPresent = true ∧ IsChain vm (vm.buffers b).nextBuffer c := by
  cases h with
  | last _ => exact absurd rfl hne
  | next hb hrest => exact ⟨rfl, hb, hrest⟩

theorem Linked.chain (h : Linked vm vm' last bi) (hc : IsChain vm i (c ++ [last])) (hbi : bi ∉ c ++ [last]) :
    IsChain vm' i (c ++ [last] ++ [bi]) := by
  have hnd := hc.nodup
  induction c generalizing i with
  | nil =>
    cases hc with
    | last _ =>
      apply IsChain.next h.last_present
      rw [h.last_next]
      exact .last h.new_last
    | next _ hrest => cases hrest
  | cons b c ih =>
    obtain ⟨rfl, hb, hrest⟩ := hc.of_cons (append_ne_nil_of_right_ne_nil c (cons_ne_nil last []))
    have hnot := nodup_cons.1 hnd
    have hlast : i ≠ last := fun heq => hnot.1 (heq ▸ mem_append_right c (mem_singleton.2 rfl))
    have hnew : i ≠ bi := fun heq => hbi (heq ▸ mem_cons_self)
    have hchain := ih hrest (fun hmem => hbi (mem_cons_of_mem i hmem)) hnot.2
    apply IsChain.next ((h.nextPresent i hlast hnew).trans hb)
    rw [h.nextBuffer i hlast hnew]
    exact hchain

theorem Linked.contents (h : Linked vm vm' last bi) (hbi : bi ∉ c) : contents vm' (c ++ [bi]) = contents vm c := by
  have hnew : (vm'.buffers bi).bytes = [] := by
    apply eq_nil_of_length_eq_zero
    rw [length_bytes, h.new_length]
  have hold : Vlib.contents vm' c = Vlib.contents vm c :=
    SameSegment.contents fun b hb => h.other b fun heq => hbi (heq ▸ hb)
  rw [Vlib.contents, flatMap_append, flatMap_singleton, hnew, append_nil]
  exact hold

/-- Buffers for the allocations to come: empty, and none of them in the chain. -/
structure FreshFor (vm : VlibMain) (c got : List Nat) : Prop where
  nodup : got.Nodup
  notMem : ∀ bi ∈ got, bi ∉ c
  empty : ∀ bi ∈ got, EmptyBuffer (vm.buffers bi)

structure ChainAt (n first : Nat) (vm : VlibMain) (c : List Nat) (l : Nat) : Prop where
  chain : IsChain vm first (c ++ [l])
  sizes : ∀ b ∈ c ++ [l], (vm.buffers b).currentData + (vm.buffers b).currentLength ≤ n

/-- From one chain to the other the packet has grown by `new`, with the buffers `used`. -/
structure Extended (n first : Nat) (vm : VlibMain) (c : List Nat) (l : Nat) (vm' : VlibMain) (c' : List Nat) (l' : Nat)
    (new : List UInt8) (used : List Nat) : Prop where
  chainAt : ChainAt n first vm' c' l'
  buffers : c' ++ [l'] = c ++ [l] ++ used
  contents : contents vm' (c' ++ [l']) = Vlib.contents vm (c ++ [l]) ++ new

theorem Extended.refl (h : ChainAt n first vm c l) : Extended n first vm c l vm c l [] [] :=
  ⟨h, (append_nil _).symm, (append_nil _).symm⟩

theorem Extended.trans {vm'' : VlibMain} {c' c'' used used' : List Nat} {l' l'' : Nat} {new new' : List UInt8}
    (h : Extended n first vm c l vm' c' l' new used) (h' : Extended n first vm' c' l' vm'' c'' l'' new' used') :
    Extended n first vm c l vm'' c'' l'' (new ++ new') (used ++ used') where
  chainAt := h'.chainAt
  buffers := by rw [h'.buffers, h.buffers, List.append_assoc]
  contents := by rw [h'.contents, h.contents, List.append_assoc]

theorem ChainAt.grown (h : ChainAt n first vm c l) (hg : Grown vm vm' l piece)
    (hlt : (vm.buffers l).currentLength + piece.length < 2 ^ 16)
    (hroom : (vm.buffers l).currentData + ((vm.buffers l).currentLength + piece.length : Nat) ≤ n) :
    Extended n first vm c l vm' c l piece [] where
  chainAt :=
    { chain := hg.chain h.chain
      sizes := by
        intro b hb
        by_cases hl : b = l
        · rw [hl, hg.currentData, hg.currentLength, Nat.mod_eq_of_lt hlt]
          exact hroom
        · rw [(hg.other b hl).currentData, (hg.other b hl).currentLength]
          exact h.sizes b hb }
  buffers := (append_nil _).symm
  contents := hg.contents h.chain.nodup hlt

theorem ChainAt.linked (h : ChainAt n first vm c l) (hg : Linked vm vm' l bi) (hbi : bi ∉ c ++ [l]) :
    Extended n first vm c l vm' (c ++ [l]) bi [] [bi] where
  chainAt :=
    { chain := hg.chain h.chain hbi
      sizes := by
        intro b hb
        by_cases hnew : b = bi
        · rw [hnew, hg.new_data, hg.new_length]
          exact Int.natCast_nonneg n
        · rw [(hg.other b hnew).currentData, (hg.other b hnew).currentLength]
          exact h.sizes b ((mem_append.1 hb).resolve_right fun hmem => hnew (mem_singleton.1 hmem)) }
  buffers := rfl
  contents := (hg.contents hbi).trans (append_nil _).symm

theorem FreshFor.grown (h : FreshFor vm (c ++ [l]) got) (hg : Grown vm vm' l piece) : FreshFor vm' (c ++ [l]) got where
  nodup := h.nodup
  notMem := h.notMem
  empty b hb := by
    have hl : b ≠ l := fun heq => h.notMem b hb (heq ▸ mem_append_right c (mem_singleton.2 rfl))
    have hempty := h.empty b hb
    exact ⟨(hg.other b hl).currentData.trans hempty.currentData,
        (hg.other b hl).currentLength.trans hempty.currentLength,
      (hg.nextPresent b).trans hempty.nextPresent⟩

theorem FreshFor.linked (h : FreshFor vm (c ++ [l]) (bi :: got)) (hg : Linked vm vm' l bi) :
    FreshFor vm' (c ++ [l] ++ [bi]) got where
  nodup := (nodup_cons.1 h.nodup).2
  notMem b hb hmem := by
    rcases mem_append.1 hmem with hold | hnew
    · exact h.notMem b (mem_cons_of_mem bi hb) hold
    · exact (nodup_cons.1 h.nodup).1 (mem_singleton.1 hnew ▸ hb)
  empty b hb := by
    have hmem := mem_cons_of_mem bi hb
    have hl : b ≠ l := fun heq => h.notMem b hmem (heq ▸ mem_append_right c (mem_singleton.2 rfl))
    have hne : b ≠ bi := fun heq => (nodup_cons.1 h.nodup).1 (heq ▸ hb)
    have hempty := h.empty b hmem
    exact ⟨(hg.other b hne).currentData.trans hempty.currentData,
        (hg.other b hne).currentLength.trans hempty.currentLength,
      (hg.nextPresent b hl hne).trans hempty.nextPresent⟩

def TotalCorrect (vm : VlibMain) (first : Nat) (c : List Nat) : Prop :=
  (vm.buffers first).totalLengthNotIncludingFirstBuffer % 2 ^ 32
    = (c.tail.map fun b => (vm.buffers b).currentLength).sum % 2 ^ 32

theorem TotalCorrect.grown (h : TotalCorrect vm first (c ++ [l])) (hc : IsChain vm first (c ++ [l]))
    (hlt : (vm.buffers l).currentLength + piece.length < 2 ^ 16) :
    TotalCorrect (appendPiece first vm l piece) first (c ++ [l]) := by
  have hg := grown_appendPiece first vm l piece
  rw [TotalCorrect, appendPiece_buffers]
  cases c with
  | nil =>
    cases hc with
    | last _ =>
      rw [if_neg fun hand => hand.2 rfl, addPiece_buffers_self]
      exact h
    | next _ hrest => cases hrest
  | cons b c =>
    have hnd := nodup_cons.1 hc.nodup
    obtain ⟨rfl, -, -⟩ := hc.of_cons (append_ne_nil_of_right_ne_nil c (cons_ne_nil l []))
    have hne : first ≠ l := fun heq => hnd.1 (heq ▸ mem_append_right c (mem_singleton.2 rfl))
    have hothers : c.map (fun b => ((appendPiece first vm l piece).buffers b).currentLength)
        = c.map fun b => (vm.buffers b).currentLength := by
      apply map_congr_left
      intro b hb
      exact (hg.other b fun heq => (nodup_append.1 hnd.2).2.2 b hb l (mem_singleton.2 rfl) heq).currentLength
    rw [TotalCorrect] at h
    rw [if_pos ⟨rfl, hne⟩]
    simp only [List.cons_append, List.tail_cons, map_append, List.sum_append, map_cons, map_nil,
      sum_cons, sum_nil, Nat.add_zero] at h ⊢
    rw [hothers, hg.currentLength, Nat.mod_eq_of_lt hlt]
    omega

theorem TotalCorrect.chainBuffer (h : TotalCorrect vm first (c ++ [l])) (hc : IsChain vm first (c ++ [l]))
    (hbi : bi ∉ c ++ [l]) (hempty : EmptyBuffer (vm.buffers bi)) :
    TotalCorrect (vlibBufferChainBuffer (vlibBufferAlloc vm [bi]) l bi) first (c ++ [l] ++ [bi]) := by
  have hl : bi ≠ l := fun heq => hbi (heq ▸ mem_append_right c (mem_singleton.2 rfl))
  have hg := linked_chainBuffer hl hempty
  have hfirst : first ≠ bi := fun heq => hbi (heq ▸ hc.head_mem)
  have htotal : ((vlibBufferChainBuffer (vlibBufferAlloc vm [bi]) l bi).buffers
      first).totalLengthNotIncludingFirstBuffer
      = (vm.buffers first).totalLengthNotIncludingFirstBuffer := by
    rw [vlibBufferChainBuffer, modify_buffers_ne hfirst]
    by_cases hlast : first = l
    · rw [hlast, modify_buffers_self]
      rfl
    · rw [modify_buffers_ne hlast]
      rfl
  have hne : c ++ [l] ≠ [] := append_ne_nil_of_right_ne_nil c (cons_ne_nil l [])
  have hothers : (c ++ [l]).tail.map
      (fun b => ((vlibBufferChainBuffer (vlibBufferAlloc vm [bi]) l bi).buffers b).currentLength)
      = (c ++ [l]).tail.map fun b => (vm.buffers b).currentLength := by
    apply map_congr_left
    intro b hb
    exact (hg.other b fun heq => hbi (heq ▸ mem_of_mem_tail hb)).currentLength
  rw [TotalCorrect] at h ⊢
  rw [htotal, h, tail_append_of_ne_nil hne, map_append, List.sum_append, hothers, map_singleton,
    sum_singleton, hg.new_length, Nat.add_zero]

theorem Grown.appendMax (hg : Grown vm vm' l piece) (hle : piece.length ≤ appendMax n (vm.buffers l)) :
    appendMax n (vm'.buffers l) = appendMax n (vm.buffers l) - piece.length := by
  simp only [Vlib.appendMax] at hle ⊢
  rw [hg.currentData, hg.currentLength]
  omega

theorem appendMax_new (hg : Linked vm vm' l bi) : appendMax n (vm'.buffers bi) = n % 2 ^ 16 := by
  rw [appendMax, hg.new_data, hg.new_length]
  omega

theorem appendMax_lt (n : Nat) (b : VlibBuffer) : appendMax n b < 2 ^ 16 := by
  rw [appendMax]
  omega

theorem ChainAt.room (h : ChainAt n first vm c l) :
    (vm.buffers l).currentData + ((vm.buffers l).currentLength + appendMax n (vm.buffers l) : Nat) ≤ n := by
  have hsize := h.sizes l (mem_append_right c (mem_singleton.2 rfl))
  rw [appendMax]
  omega

/-- What the loop leaves, from a chain on, of data and with buffers to get. -/
structure AppendResult (n first : Nat) (vm : VlibMain) (c : List Nat) (l : Nat) (data : List UInt8) (copied : Nat)
    (got : List Nat) (r : Nat × Nat × VlibMain) : Prop where
  count : r.1 = copied + min data.length (appendMax n (vm.buffers l) + n % 2 ^ 16 * got.length)
  extended : ∃ c' used, Extended n first vm c l r.2.2 c' r.2.1 (data.take (r.1 - copied)) used
    ∧ (∃ rest, used ++ rest = got ∧ (r.1 - copied < data.length → rest = []))
    ∧ (TotalCorrect vm first (c ++ [l]) → TotalCorrect r.2.2 first (c' ++ [r.2.1]))

theorem append_done (copied : Nat) :
    vlibBufferChainAppendDataWithAlloc n first vm l [] copied got = (copied, l, vm) := by
  rw [vlibBufferChainAppendDataWithAlloc.eq_def, dif_pos rfl]

theorem append_out (hdata : data ≠ []) (hmax : appendMax n (vm.buffers l) = 0) (copied : Nat) :
    vlibBufferChainAppendDataWithAlloc n first vm l data copied [] = (copied, l, vm) := by
  rw [vlibBufferChainAppendDataWithAlloc.eq_def, dif_neg hdata]
  exact dif_pos hmax

theorem append_next (hdata : data ≠ []) (hmax : appendMax n (vm.buffers l) = 0) (copied : Nat)
    (hvm' : vm' = vlibBufferChainBuffer (vlibBufferAlloc vm [bi]) l bi) {max : Nat}
    (hmax' : max = appendMax n (vm'.buffers bi)) :
    vlibBufferChainAppendDataWithAlloc n first vm l data copied (bi :: got)
      = vlibBufferChainAppendDataWithAlloc n first (appendPiece first vm' bi (data.take max)) bi (data.drop max)
          (copied + (data.take max).length) got := by
  subst hvm' hmax'
  rw [vlibBufferChainAppendDataWithAlloc.eq_def, dif_neg hdata]
  exact dif_pos hmax

theorem append_more (hdata : data ≠ []) (hmax : appendMax n (vm.buffers l) ≠ 0) (copied : Nat) :
    vlibBufferChainAppendDataWithAlloc n first vm l data copied got
      = vlibBufferChainAppendDataWithAlloc n first (appendPiece first vm l (data.take (appendMax n (vm.buffers l)))) l
          (data.drop (appendMax n (vm.buffers l))) (copied + (data.take (appendMax n (vm.buffers l))).length) got := by
  rw [vlibBufferChainAppendDataWithAlloc.eq_def, dif_neg hdata]
  exact dif_neg hmax

theorem take_append_take (data : List UInt8) (a b : Nat) : data.take a ++ (data.drop a).take b = data.take (a + b) :=
  (take_add).symm

theorem AppendResult.more {r : Nat × Nat × VlibMain} {copied m : Nat} {c1 : List Nat} {l1 : Nat} (used : List Nat)
    (hk : (data.take m).length = min data.length (appendMax n (vm.buffers l) + n % 2 ^ 16 * used.length))
    (hext : Extended n first vm c l vm' c1 l1 (data.take m) used)
    (htotal : TotalCorrect vm first (c ++ [l]) → TotalCorrect vm' first (c1 ++ [l1]))
    (hroom : m < data.length → appendMax n (vm'.buffers l1) = 0)
    (hr : AppendResult n first vm' c1 l1 (data.drop m) (copied + (data.take m).length) got r) :
    AppendResult n first vm c l data copied (used ++ got) r := by
  obtain ⟨hcount, c', used', hext', ⟨rest, hgot, hrest⟩, htotal'⟩ := hr
  have htake : (data.take m).length = min m data.length := length_take
  have hdrop : (data.drop m).length = data.length - m := length_drop
  have hsplit : data.take (r.1 - copied) = data.take m ++
      (data.drop m).take (r.1 - (copied + (data.take m).length)) := by
    by_cases hm : m ≤ data.length
    · have hsum : r.1 - copied = m + (r.1 - (copied + (data.take m).length)) := by omega
      rw [hsum, take_append_take]
    · have hall : data.length ≤ r.1 - copied := by omega
      have hnil : data.drop m = [] := drop_eq_nil_of_le (Nat.le_of_not_le hm)
      rw [take_of_length_le hall, take_of_length_le (Nat.le_of_not_le hm), hnil, take_nil, append_nil]
  refine ⟨?_, c', used ++ used', ?_, ⟨rest, ?_, ?_⟩, fun h => htotal' (htotal h)⟩
  · rw [hcount, hdrop, length_append, Nat.mul_add]
    by_cases hshort : m < data.length
    · rw [hroom hshort]
      omega
    · omega
  · rw [hsplit]
    exact hext.trans hext'
  · rw [List.append_assoc, hgot]
  · intro hlt
    apply hrest
    omega

theorem append_result (hchain : ChainAt n first vm c l) (hfresh : FreshFor vm (c ++ [l]) got)
    (hlt : (vm.buffers l).currentLength + min data.length (appendMax n (vm.buffers l)) < 2 ^ 16) (copied : Nat) :
    AppendResult n first vm c l data copied got (vlibBufferChainAppendDataWithAlloc n first vm l data copied got) := by
  induction vm, l, data, copied, got using vlibBufferChainAppendDataWithAlloc.induct n first generalizing c with
  | case1 vm l copied got =>
    rw [append_done]
    refine ⟨(Nat.zero_min _).symm ▸ rfl, c, [], ?_, ⟨got, rfl, ?_⟩, id⟩
    · rw [take_nil]
      exact .refl hchain
    · intro hshort
      exact absurd hshort (Nat.not_lt_zero _)
  | case2 vm l data copied hdata max =>
    rename_i hmax
    rw [append_out hdata hmax]
    refine ⟨?_, c, [], ?_, ⟨[], rfl, fun _ => rfl⟩, id⟩
    · have hzero : min data.length (appendMax n (vm.buffers l) + n % 2 ^ 16 * ([] : List Nat).length) = 0 := by
        have hfull : appendMax n (vm.buffers l) = 0 := hmax
        rw [hfull, length_nil, Nat.mul_zero, Nat.add_zero, Nat.min_zero]
      rw [hzero]
      rfl
    · rw [Nat.sub_self, take_zero]
      exact .refl hchain
  | case3 vm l data copied hdata max hmax bi got vm1 max1 =>
    rename_i ih
    have hbi := hfresh.notMem bi mem_cons_self
    have hempty := hfresh.empty bi mem_cons_self
    have hne : bi ≠ l := fun heq => hbi (heq ▸ mem_append_right c (mem_singleton.2 rfl))
    have hlink : Linked vm vm1 l bi := linked_chainBuffer hne hempty
    have hmax1 : max1 = n % 2 ^ 16 := appendMax_new hlink
    have hlinked := hchain.linked hlink hbi
    have htake : (data.take max1).length = min max1 data.length := length_take
    have hmaxlt : max1 < 2 ^ 16 := appendMax_lt n (vm1.buffers bi)
    have hlen : (vm1.buffers bi).currentLength + (data.take max1).length < 2 ^ 16 := by
      rw [hlink.new_length, htake]
      omega
    have hgrown := grown_appendPiece first vm1 bi (data.take max1)
    have hafter := hgrown.appendMax (n := n) (htake ▸ Nat.min_le_left _ _)
    have hpiece := hlinked.chainAt.grown hgrown hlen (by
      have hroom := hlinked.chainAt.room
      omega)
    have hafter' : (data.take max1).length < data.length →
        appendMax n ((appendPiece first vm1 bi (data.take max1)).buffers bi) = 0 := by
      intro hshort
      have hroom : appendMax n (vm1.buffers bi) = max1 := rfl
      omega
    rw [append_next hdata hmax copied (rfl : vm1 = _) (rfl : max1 = _)]
    apply AppendResult.more [bi] ?_ (hlinked.trans hpiece) ?_ ?_ (ih hpiece.chainAt ?_ ?_)
    · have hzero : appendMax n (vm.buffers l) = 0 := hmax
      rw [htake, hzero, hmax1, length_singleton]
      omega
    · intro htotal
      exact (htotal.chainBuffer hchain.chain hbi hempty).grown hlinked.chainAt.chain hlen
    · intro hshort
      exact hafter' (by omega)
    · exact (hfresh.linked hlink).grown hgrown
    · have hdrop : (data.drop max1).length = data.length - max1 := length_drop
      have hroom : appendMax n (vm1.buffers bi) = max1 := rfl
      rw [hgrown.currentLength, hlink.new_length, htake, hafter, hroom]
      omega
  | case4 vm l data copied got hdata max hmax =>
    rename_i ih
    have hroom : appendMax n (vm.buffers l) = max := rfl
    have htake : (data.take max).length = min max data.length := length_take
    have hdrop : (data.drop max).length = data.length - max := length_drop
    have hlen : (vm.buffers l).currentLength + (data.take max).length < 2 ^ 16 := by
      rw [htake]
      omega
    have hgrown := grown_appendPiece first vm l (data.take max)
    have hafter := hgrown.appendMax (n := n) (htake ▸ Nat.min_le_left _ _)
    have hpiece := hchain.grown hgrown hlen (by
      have hle := hchain.room
      omega)
    rw [append_more hdata hmax copied]
    apply AppendResult.more [] ?_ hpiece ?_ ?_ (ih hpiece.chainAt ?_ ?_)
    · rw [length_nil, Nat.mul_zero, Nat.add_zero, htake, hroom, Nat.min_comm]
    · intro htotal
      exact htotal.grown hchain.chain hlen
    · intro hshort
      omega
    · exact hfresh.grown hgrown
    · rw [hgrown.currentLength, Nat.mod_eq_of_lt hlen, htake, hafter, hroom, htake]
      omega

theorem ChainAt.left (h : ChainAt n first vm c l) {k : Nat} (hk : k ≤ nLeftThisBuffer n (vm.buffers l)) :
    (vm.buffers l).currentData + ((vm.buffers l).currentLength + k : Nat) ≤ n := by
  have hsize := h.sizes l (mem_append_right c (mem_singleton.2 rfl))
  rw [nLeftThisBuffer] at hk
  omega

theorem addDataFrom_last (h : data.length ≤ nLeftThisBuffer n (vm.buffers l)) (got : List Nat) :
    addDataFrom n vm l data got = (addPiece vm l data, true) := by
  have hmin : min (nLeftThisBuffer n (vm.buffers l)) data.length = data.length := Nat.min_eq_right h
  cases got with
  | nil => simp only [addDataFrom, hmin, take_length, Nat.sub_self, decide_true]
  | cons bi got => simp only [addDataFrom, hmin, take_length, Nat.sub_self, if_true]

theorem addDataFrom_out (h : nLeftThisBuffer n (vm.buffers l) < data.length) :
    (addDataFrom n vm l data []).2 = false := by
  have hmin : min (nLeftThisBuffer n (vm.buffers l)) data.length = nLeftThisBuffer n (vm.buffers l) :=
    Nat.min_eq_left (Nat.le_of_lt h)
  simp only [addDataFrom, hmin]
  exact decide_eq_false (Nat.sub_ne_zero_of_lt h)

theorem addDataFrom_next (h : nLeftThisBuffer n (vm.buffers l) < data.length)
    (hvm' : vm' = addPiece vm l (data.take (nLeftThisBuffer n (vm.buffers l)))) :
    addDataFrom n vm l data (bi :: got)
      = addDataFrom n (((vlibBufferAlloc vm' [bi]).modify l fun b => { b with nextBuffer := bi }).modify l fun b =>
          { b with flags := { b.flags with nextPresent := true } }) bi
              (data.drop (nLeftThisBuffer n (vm.buffers l))) got := by
  have hmin : min (nLeftThisBuffer n (vm.buffers l)) data.length = nLeftThisBuffer n (vm.buffers l) :=
    Nat.min_eq_left (Nat.le_of_lt h)
  subst hvm'
  simp only [addDataFrom, hmin]
  exact if_neg (Nat.sub_ne_zero_of_lt h)

theorem addDataFrom_result (hchain : ChainAt n first vm c l) (hfresh : FreshFor vm (c ++ [l]) got)
    (hlt : (vm.buffers l).currentLength + min (nLeftThisBuffer n (vm.buffers l)) data.length < 2 ^ 16)
    (hdata : data.length < 2 ^ 16) (hok : (addDataFrom n vm l data got).2 = true) :
    ∃ c' l' used, Extended n first vm c l (addDataFrom n vm l data got).1 c' l' data used := by
  induction got generalizing vm c l data with
  | nil =>
    by_cases hlast : data.length ≤ nLeftThisBuffer n (vm.buffers l)
    · rw [addDataFrom_last hlast]
      rw [Nat.min_eq_right hlast] at hlt
      exact ⟨c, l, [], hchain.grown (grown_addPiece vm l data) hlt (hchain.left hlast)⟩
    · rw [addDataFrom_out (Nat.lt_of_not_le hlast)] at hok
      cases hok
  | cons bi got ih =>
    by_cases hlast : data.length ≤ nLeftThisBuffer n (vm.buffers l)
    · rw [addDataFrom_last hlast]
      rw [Nat.min_eq_right hlast] at hlt
      exact ⟨c, l, [], hchain.grown (grown_addPiece vm l data) hlt (hchain.left hlast)⟩
    · have hshort := Nat.lt_of_not_le hlast
      rw [Nat.min_eq_left (Nat.le_of_lt hshort)] at hlt
      have htake : (data.take (nLeftThisBuffer n (vm.buffers l))).length = nLeftThisBuffer n (vm.buffers l) := by
        rw [length_take]
        exact Nat.min_eq_left (Nat.le_of_lt hshort)
      have hbi := hfresh.notMem bi mem_cons_self
      have hne : bi ≠ l := fun heq => hbi (heq ▸ mem_append_right c (mem_singleton.2 rfl))
      have hgrown := grown_addPiece vm l (data.take (nLeftThisBuffer n (vm.buffers l)))
      have hpiece := hchain.grown hgrown (htake.symm ▸ hlt) (htake.symm ▸ hchain.left (Nat.le_refl _))
      have hfresh' := hfresh.grown hgrown
      have hlink := linked_addData hne (hfresh'.empty bi mem_cons_self)
      have hlinked := hpiece.trans (hpiece.chainAt.linked hlink hbi)
      have hrest : (data.drop (nLeftThisBuffer n (vm.buffers l))).length ≤ data.length := by
        rw [length_drop]
        exact Nat.sub_le _ _
      rw [addDataFrom_next hshort rfl] at hok ⊢
      obtain ⟨c', l', used, hext⟩ := ih hlinked.chainAt (hfresh'.linked hlink)
        (by
          rw [hlink.new_length, Nat.zero_add]
          exact Nat.lt_of_le_of_lt (Nat.min_le_right _ _) (Nat.lt_of_le_of_lt hrest hdata))
        (Nat.lt_of_le_of_lt hrest hdata) hok
      have hall := hlinked.trans hext
      rw [append_nil, take_append_drop] at hall
      exact ⟨c', l', _, hall⟩

theorem endOfChain_eq (h : IsChain vm i (c ++ [l])) {fuel : Nat} (hfuel : c.length ≤ fuel) :
    endOfChain vm fuel i = l := by
  induction fuel generalizing i c with
  | zero =>
    obtain rfl := eq_nil_of_length_eq_zero (Nat.le_zero.1 hfuel)
    cases h with
    | last _ => rfl
    | next _ hrest => cases hrest
  | succ fuel ih =>
    cases c with
    | nil =>
      cases h with
      | last hlast => rw [endOfChain, if_neg (Bool.eq_false_iff.1 hlast)]
      | next _ hrest => cases hrest
    | cons b c =>
      obtain ⟨rfl, hnext, hrest⟩ := h.of_cons (append_ne_nil_of_right_ne_nil c (cons_ne_nil l []))
      rw [endOfChain, if_pos hnext]
      exact ih hrest (Nat.le_of_succ_le_succ hfuel)

/-- The buffers when the total is no longer valid. -/
def clearTotalLengthValid (vm : VlibMain) (first : Nat) : VlibMain :=
  vm.modify first fun b => { b with flags := { b.flags with totalLengthValid := false } }

theorem clearTotalLengthValid_buffers (vm : VlibMain) (first b : Nat) :
    ∃ v, (clearTotalLengthValid vm first).buffers b
      = { vm.buffers b with flags := { (vm.buffers b).flags with totalLengthValid := v } } := by
  by_cases hb : b = first
  · rw [clearTotalLengthValid, hb, modify_buffers_self]
    exact ⟨_, rfl⟩
  · rw [clearTotalLengthValid, modify_buffers_ne hb]
    exact ⟨_, rfl⟩

theorem clearTotalLengthValid_segment (vm : VlibMain) (first b : Nat) :
    SameSegment (vm.buffers b) ((clearTotalLengthValid vm first).buffers b) := by
  obtain ⟨v, hv⟩ := clearTotalLengthValid_buffers vm first b
  rw [hv]
  exact ⟨rfl, rfl, rfl⟩

theorem clearTotalLengthValid_nextPresent (vm : VlibMain) (first b : Nat) :
    ((clearTotalLengthValid vm first).buffers b).flags.nextPresent = (vm.buffers b).flags.nextPresent := by
  obtain ⟨v, hv⟩ := clearTotalLengthValid_buffers vm first b
  rw [hv]

theorem clearTotalLengthValid_nextBuffer (vm : VlibMain) (first b : Nat) :
    ((clearTotalLengthValid vm first).buffers b).nextBuffer = (vm.buffers b).nextBuffer := by
  obtain ⟨v, hv⟩ := clearTotalLengthValid_buffers vm first b
  rw [hv]

theorem ChainAt.cleared (h : ChainAt n first vm c l) : ChainAt n first (clearTotalLengthValid vm first) c l where
  chain := h.chain.links fun b _ =>
    ⟨clearTotalLengthValid_nextPresent vm first b, clearTotalLengthValid_nextBuffer vm first b⟩
  sizes b hb := by
    have hsame := clearTotalLengthValid_segment vm first b
    rw [hsame.currentData, hsame.currentLength]
    exact h.sizes b hb

theorem FreshFor.cleared (h : FreshFor vm c got) : FreshFor (clearTotalLengthValid vm first) c got where
  nodup := h.nodup
  notMem := h.notMem
  empty b hb := by
    have hsame := clearTotalLengthValid_segment vm first b
    have hempty := h.empty b hb
    exact ⟨hsame.currentData.trans hempty.currentData, hsame.currentLength.trans hempty.currentLength,
      (clearTotalLengthValid_nextPresent vm first b).trans hempty.nextPresent⟩

theorem vlibBufferAddData_eq (hchain : ChainAt n first vm c l) (hfirst : first ≠ 0)
    (hnum : ∀ b ∈ c ++ [l], b < vm.nBuffers)
    (got : List Nat) : vlibBufferAddData n vm first data got
      = (first, addDataFrom n (clearTotalLengthValid vm first) l data got) := by
  have hlen := length_le_of_lt hchain.chain.nodup hnum
  rw [length_append] at hlen
  have hend : endOfChain (clearTotalLengthValid vm first) vm.nBuffers first = l :=
    endOfChain_eq hchain.cleared.chain (Nat.le_of_add_right_le hlen)
  rw [vlibBufferAddData, if_neg hfirst]
  exact congrArg (fun l => (first, addDataFrom n (clearTotalLengthValid vm first) l data got)) hend

/-- Data are behind the packet, all of them unless an allocation has failed. -/
def AppendOk (n first : Nat) (vm : VlibMain) (c : List Nat) (l : Nat) (data : List UInt8) (got : List Nat) : Prop :=
  ∃ copied l' vm', vlibBufferChainAppendDataWithAlloc n first vm l data 0 got = (copied, l', vm')
    ∧ ∃ c' used rest, c' ++ [l'] = c ++ [l] ++ used ∧ used ++ rest = got ∧ IsChain vm' first (c' ++ [l'])
      ∧ contents vm' (c' ++ [l']) = contents vm (c ++ [l]) ++ data.take copied
      ∧ copied ≤ data.length ∧ (copied < data.length → rest = [])
      ∧ (∀ b ∈ c' ++ [l'], (vm'.buffers b).currentData + (vm'.buffers b).currentLength ≤ n)
      ∧ (TotalCorrect vm first (c ++ [l]) → TotalCorrect vm' first (c' ++ [l']))

/-- When no allocation fails, the other function leaves the same packet. -/
def SamePacket (n first : Nat) (vm : VlibMain) (l : Nat) (data : List UInt8) (got got' : List Nat) : Prop :=
  (vlibBufferChainAppendDataWithAlloc n first vm l data 0 got).1 = data.length →
    (vlibBufferAddData n vm first data got').2.2 = true →
      ∃ ca cb, IsChain (vlibBufferChainAppendDataWithAlloc n first vm l data 0 got).2.2 first ca
        ∧ IsChain (vlibBufferAddData n vm first data got').2.1 first cb
        ∧ contents (vlibBufferAddData n vm first data got').2.1 cb
          = contents (vlibBufferChainAppendDataWithAlloc n first vm l data 0 got).2.2 ca

/-- The last segment stays countable in 16 bits: with as much of the data as there is room for, or, when the buffers to
get are too few anyway, with as much as 16 bits show. -/
def Countable (n : Nat) (l : VlibBuffer) (data : List UInt8) (got : List Nat) : Prop :=
  l.currentLength + min (nLeftThisBuffer n l) data.length < 2 ^ 16
    ∨ l.currentLength + min data.length (appendMax n l) < 2 ^ 16
      ∧ appendMax n l + n % 2 ^ 16 * got.length < data.length

theorem appendMax_eq (n : Nat) (b : VlibBuffer) : appendMax n b = nLeftThisBuffer n b % 2 ^ 16 := by
  rw [appendMax, nLeftThisBuffer]
  omega

theorem length_contents (vm : VlibMain) (c : List Nat) :
    (contents vm c).length = (c.map fun b => (vm.buffers b).currentLength).sum := by
  induction c with
  | nil => rfl
  | cons b c ih =>
    rw [contents, flatMap_cons, length_append, length_bytes, map_cons, sum_cons, ← ih]
    rfl

theorem Grown.length_contents (h : Grown vm vm' l piece) (hnd : (c ++ [l]).Nodup) :
    (Vlib.contents vm' (c ++ [l])).length + (vm.buffers l).currentLength
      = (Vlib.contents vm (c ++ [l])).length + ((vm.buffers l).currentLength + piece.length) % 2 ^ 16 := by
  have hothers : c.map (fun b => (vm'.buffers b).currentLength) = c.map fun b => (vm.buffers b).currentLength :=
    map_congr_left fun b hb =>
      (h.other b fun heq => (nodup_append.1 hnd).2.2 b hb l (mem_singleton.2 rfl) heq).currentLength
  rw [Vlib.length_contents, Vlib.length_contents, map_append, map_append, List.sum_append, List.sum_append, hothers,
    map_singleton, map_singleton, sum_singleton, sum_singleton, h.currentLength]
  omega

theorem ChainAt.wrapped (h : ChainAt n first vm c l) (hg : Grown vm vm' l piece)
    (hle : (vm.buffers l).currentLength + piece.length < 2 ^ 17)
    (hge : 2 ^ 16 ≤ (vm.buffers l).currentLength + piece.length)
    (hpiece : piece.length < 2 ^ 16) : ChainAt n first vm' c l where
  chain := hg.chain h.chain
  sizes b hb := by
    by_cases hl : b = l
    · have hsize := h.sizes l (hl ▸ hb)
      rw [hl, hg.currentData, hg.currentLength]
      omega
    · rw [(hg.other b hl).currentData, (hg.other b hl).currentLength]
      exact h.sizes b hb

theorem AppendResult.appendOk (h : AppendResult n first vm c l data 0 got
    (vlibBufferChainAppendDataWithAlloc n first vm l data 0 got)) : AppendOk n first vm c l data got := by
  obtain ⟨hcount, c', used, hext, ⟨rest, hgot, hrest⟩, htotal⟩ := h
  rw [Nat.sub_zero] at hext hrest
  refine ⟨_, _, _, rfl, c', used, rest, hext.buffers, hgot, hext.chainAt.chain, hext.contents, ?_, hrest,
      hext.chainAt.sizes,
    htotal⟩
  rw [hcount, Nat.zero_add]
  exact Nat.min_le_left _ _

/-- Past 16 bits the packet loses bytes. -/
theorem not_appendOk (hchain : ChainAt n first vm c l) (hfresh : FreshFor vm (c ++ [l]) got)
    (hl : (vm.buffers l).currentLength < 2 ^ 16)
    (hwrap : ¬ (vm.buffers l).currentLength + min data.length (appendMax n (vm.buffers l)) < 2 ^ 16) :
    ¬ AppendOk n first vm c l data got := by
  intro h
  obtain ⟨copied, l', vm', hr, c', used, rest, hbuffers, hgot, hchain', hcontents, hcopied, -⟩ := h
  have hmaxlt := appendMax_lt n (vm.buffers l)
  have hdata : data ≠ [] := by
    intro hnil
    rw [hnil, length_nil, Nat.zero_min] at hwrap
    exact hwrap hl
  have hmax : appendMax n (vm.buffers l) ≠ 0 := by omega
  have htake : (data.take (appendMax n (vm.buffers l))).length = min (appendMax n (vm.buffers l)) data.length :=
    length_take
  have hgrown := grown_appendPiece first vm l (data.take (appendMax n (vm.buffers l)))
  have hat := hchain.wrapped hgrown (by omega) (by omega) (by omega)
  have hlen := hgrown.length_contents hchain.chain.nodup
  have hroom : min (data.drop (appendMax n (vm.buffers l))).length
      (appendMax n ((appendPiece first vm l (data.take (appendMax n (vm.buffers l)))).buffers l)) = 0 := by
    have hdrop : (data.drop (appendMax n (vm.buffers l))).length = data.length - appendMax n (vm.buffers l) :=
      length_drop
    have hafter : appendMax n ((appendPiece first vm l (data.take (appendMax n (vm.buffers l)))).buffers l)
        = appendMax n (vm.buffers l) - (data.take (appendMax n (vm.buffers l))).length :=
      hgrown.appendMax (htake ▸ Nat.min_le_left _ _)
    omega
  have hresult := append_result hat (hfresh.grown hgrown) (by
    rw [hroom, hgrown.currentLength]
    exact Nat.mod_lt _ (by decide)) (0 + (data.take (appendMax n (vm.buffers l))).length)
  rw [← append_more hdata hmax, hr] at hresult
  obtain ⟨hcount, c2, used2, hext, -, -⟩ := hresult
  have hsame := hext.chainAt.chain.unique hchain'
  have heq := congrArg List.length (hext.contents.symm.trans (hsame ▸ hcontents))
  simp only [length_append, length_take, length_drop] at heq hlen hcount
  omega

theorem samePacket_of_left (hchain : ChainAt n first vm c l) (hfirst : first ≠ 0)
    (hnum : ∀ b ∈ c ++ [l], b < vm.nBuffers)
    {got' : List Nat} (hfresh' : FreshFor vm (c ++ [l]) got') (hdata : data.length < 2 ^ 16)
    (hleft : (vm.buffers l).currentLength + min (nLeftThisBuffer n (vm.buffers l)) data.length < 2 ^ 16)
    (hresult : AppendResult n first vm c l data 0 got (vlibBufferChainAppendDataWithAlloc n first vm l data 0 got)) :
    SamePacket n first vm l data got got' := by
  intro hall hok
  obtain ⟨-, c', used, hext, -, -⟩ := hresult
  rw [vlibBufferAddData_eq hchain hfirst hnum] at hok ⊢
  have hsame := clearTotalLengthValid_segment vm first l
  have hleft' : ((clearTotalLengthValid vm first).buffers l).currentLength
      + min (nLeftThisBuffer n ((clearTotalLengthValid vm first).buffers l)) data.length < 2 ^ 16 := by
    rw [nLeftThisBuffer, hsame.currentData, hsame.currentLength]
    exact hleft
  obtain ⟨c2, l2, used2, hext2⟩ := addDataFrom_result hchain.cleared hfresh'.cleared hleft' hdata hok
  refine ⟨_, _, hext.chainAt.chain, hext2.chainAt.chain, ?_⟩
  have hcleared : contents (clearTotalLengthValid vm first) (c ++ [l]) = contents vm (c ++ [l]) :=
    SameSegment.contents fun b _ => clearTotalLengthValid_segment vm first b
  rw [hext2.contents, hcleared, hext.contents, Nat.sub_zero, hall, take_length]

theorem countable_of_samePacket (hchain : ChainAt n first vm c l) (hfirst : first ≠ 0)
    (hnum : ∀ b ∈ c ++ [l], b < vm.nBuffers)
    {got' : List Nat} (hdata : data.length < 2 ^ 16) (hl : (vm.buffers l).currentLength < 2 ^ 16)
    (hmax : (vm.buffers l).currentLength + min data.length (appendMax n (vm.buffers l)) < 2 ^ 16)
    (hresult : AppendResult n first vm c l data 0 got (vlibBufferChainAppendDataWithAlloc n first vm l data 0 got))
    (hsame : SamePacket n first vm l data got got') : Countable n (vm.buffers l) data got := by
  by_cases hleft : (vm.buffers l).currentLength + min (nLeftThisBuffer n (vm.buffers l)) data.length < 2 ^ 16
  · exact .inl hleft
  · refine .inr ⟨hmax, Nat.lt_of_not_le fun henough => ?_⟩
    obtain ⟨hcount, c', used, hext, -, -⟩ := hresult
    have hmod := appendMax_eq n (vm.buffers l)
    -- there is room for all data in the last segment, past 16 bits
    have hroom : data.length ≤ nLeftThisBuffer n (vm.buffers l) := by omega
    have hsegment := clearTotalLengthValid_segment vm first l
    have hroom' : data.length ≤ nLeftThisBuffer n ((clearTotalLengthValid vm first).buffers l) := by
      rw [nLeftThisBuffer, hsegment.currentData, hsegment.currentLength]
      exact hroom
    have hadd : vlibBufferAddData n vm first data got' = _ := vlibBufferAddData_eq hchain hfirst hnum got'
    rw [addDataFrom_last hroom'] at hadd
    rw [SamePacket, hadd] at hsame
    have hall : (vlibBufferChainAppendDataWithAlloc n first vm l data 0 got).1 = data.length := by omega
    obtain ⟨ca, cb, ha, hb, heq⟩ := hsame hall rfl
    have hgrown := grown_addPiece (clearTotalLengthValid vm first) l data
    have hcb := (hgrown.chain hchain.cleared.chain).unique hb
    have hca := hext.chainAt.chain.unique ha
    have hlen := hgrown.length_contents hchain.chain.nodup
    have hcleared : contents (clearTotalLengthValid vm first) (c ++ [l]) = contents vm (c ++ [l]) :=
      SameSegment.contents fun b _ => clearTotalLengthValid_segment vm first b
    rw [← hcb, ← hca, hext.contents, Nat.sub_zero, hall, take_length] at heq
    have hlength := congrArg List.length heq
    dsimp only at hlength
    rw [hcleared, hsegment.currentLength] at hlen
    rw [length_append] at hlength
    omega

/-- **Appends**: with as many buffers as the allocations give, the data are put behind the packet, and the other
function leaves the same packet, exactly when the last segment stays countable. -/
theorem chainAppend_iff {got' : List Nat} (hchain : ChainAt n first vm c l) (hl : (vm.buffers l).currentLength < 2 ^ 16)
    (hfirst : first ≠ 0) (hnum : ∀ b ∈ c ++ [l], b < vm.nBuffers) (hfresh : FreshFor vm (c ++ [l]) got)
    (hfresh' : FreshFor vm (c ++ [l]) got') (hdata : data.length < 2 ^ 16) :
    AppendOk n first vm c l data got ∧ SamePacket n first vm l data got got' ↔ Countable n (vm.buffers l) data got := by
  by_cases hmax : (vm.buffers l).currentLength + min data.length (appendMax n (vm.buffers l)) < 2 ^ 16
  · have hresult := append_result hchain hfresh hmax 0
    constructor
    · intro h
      exact countable_of_samePacket hchain hfirst hnum hdata hl hmax hresult h.2
    · intro h
      refine ⟨hresult.appendOk, ?_⟩
      rcases h with hleft | ⟨-, hfew⟩
      · exact samePacket_of_left hchain hfirst hnum hfresh' hdata hleft hresult
      · intro hall
        have hcount := hresult.count
        omega
  · refine iff_of_false (fun h => not_appendOk hchain hfresh hl hmax h.1) ?_
    intro h
    have hmod := appendMax_eq n (vm.buffers l)
    rcases h with hleft | ⟨hmax', -⟩
    · omega
    · exact hmax hmax'

end

/-- One buffer that has been filled up to `len`. -/
def oneBuffer (len : Nat) : VlibMain :=
  let b : VlibBuffer :=
    { currentData := 0
      currentLength := len
      flags := ⟨false, true, false, false, 0⟩
      freeListIndex := 0
      totalLengthNotIncludingFirstBuffer := 0
      nextBuffer := 0
      nAddRefs := 0
      opaqueWords := []
      data := fun _ => 0 }
  { buffers := fun _ => b
    nBuffers := 2
    bufferInitTemplate := b
    freeList := [] }

theorem oneBuffer_chainAt {len n : Nat} (h : len ≤ n) : ChainAt n 1 (oneBuffer len) [] 1 where
  chain := .last rfl
  sizes b hb := by
    rw [mem_singleton.1 hb]
    have hsize : ((oneBuffer len).buffers 1).currentData + ((oneBuffer len).buffers 1).currentLength = (len : Int) :=
      Int.zero_add _
    rw [hsize]
    exact Int.ofNat_le.2 h

theorem freshFor_nil (vm : VlibMain) (c : List Nat) : FreshFor vm c [] :=
  ⟨nodup_nil, fun _ h => absurd h not_mem_nil, fun _ h => absurd h not_mem_nil⟩

theorem oneBuffer_num {len : Nat} : ∀ b ∈ ([] : List Nat) ++ [1], b < (oneBuffer len).nBuffers :=
  fun _ hb => mem_singleton.1 hb ▸ Nat.lt_succ_self 1

/-- A packet in the full buffer 1 and in buffer 2, which has room for three bytes; 3 and 4 are the buffers to get. -/
def twoBuffers : VlibMain :=
  let vm := oneBuffer 0
  let used (len next : Nat) : VlibBuffer :=
    { vm.bufferInitTemplate with
      currentLength := len
      flags := { vm.bufferInitTemplate.flags with nextPresent := next != 0 }
      nextBuffer := next }
  { vm with
    nBuffers := 5
    buffers := fun b => if b = 1 then used 4 2 else if b = 2 then used 1 0 else vm.buffers b }

theorem twoBuffers_chainAt : ChainAt 4 1 twoBuffers [1] 2 := ⟨.next rfl (.last rfl), by decide⟩

theorem twoBuffers_freshFor {b : Nat} (h : b ∉ [1, 2]) : FreshFor twoBuffers [1, 2] [b] where
  nodup := nodup_singleton b
  notMem bi hbi := mem_singleton.1 hbi ▸ h
  empty bi hbi := by
    rw [mem_singleton.1 hbi]
    have hbuffer : twoBuffers.buffers b = (oneBuffer 0).buffers b := by
      grind [twoBuffers]
    rw [hbuffer]
    exact ⟨rfl, rfl, rfl⟩

theorem chainAppend_iff_two_buffers :
    AppendOk 4 1 twoBuffers [1] 2 [1, 2, 3, 4, 5, 6, 7] [3]
      ∧ SamePacket 4 1 twoBuffers 2 [1, 2, 3, 4, 5, 6, 7] [3] [4] :=
  (chainAppend_iff twoBuffers_chainAt (by decide) (by decide) (by decide) (twoBuffers_freshFor (by decide))
    (twoBuffers_freshFor (by decide)) (by decide)).2 (.inl (by decide))

/-- In a buffer of 70000 bytes a segment of 5000 bytes takes 65000 more, and counts 4464. -/
theorem append_wraps :
    ¬ ∀ (n first : Nat) (vm : VlibMain) (c : List Nat) (l : Nat) (data : List UInt8) (got got' : List Nat),
    ChainAt n first vm c l → (vm.buffers l).currentLength < 2 ^ 16 → first ≠ 0 → (∀ b ∈ c ++ [l], b < vm.nBuffers) →
      FreshFor vm (c ++ [l]) got → FreshFor vm (c ++ [l]) got' → data.length < 2 ^ 16 →
        AppendOk n first vm c l data got ∧ SamePacket n first vm l data got got' := by
  intro h
  have hlen : (List.replicate 65000 (0 : UInt8)).length = 65000 := length_replicate
  have hbytes : ((oneBuffer 5000).buffers 1).currentLength = 5000 := rfl
  have hmax : appendMax 70000 ((oneBuffer 5000).buffers 1) = 65000 := by decide
  have hchain : ChainAt 70000 1 (oneBuffer 5000) [] 1 := oneBuffer_chainAt (by decide)
  have happend :=
    (h 70000 1 (oneBuffer 5000) [] 1 (List.replicate 65000 0) [] [] hchain (by decide) (by decide) oneBuffer_num
    (freshFor_nil _ _) (freshFor_nil _ _) (by rw [hlen]; decide)).1
  apply not_appendOk hchain (freshFor_nil _ _) (by decide) _ happend
  rw [hlen, hbytes, hmax]
  decide

end Vpp.Vlib
