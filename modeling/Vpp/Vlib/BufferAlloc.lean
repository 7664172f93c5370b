import Vpp.Vlib.Buffer

namespace Vpp.Vlib
open List

structure BufferFreeList where
  vm : VlibMain
  minNBuffersEachPhysmemAlloc : Nat
  nAlloc : Nat
  bufferMemoryAllocated : List (List Nat)

def zeroBuffer : VlibBuffer :=
  { currentData := 0
    currentLength := 0
    flags := ⟨false, false, false, false, 0⟩
    freeListIndex := 0
    totalLengthNotIncludingFirstBuffer := 0
    nextBuffer := 0
    nAddRefs := 0
    opaqueWords := []
    data := fun _ => 0 }

def addChunk (fl : BufferFreeList) (nThisChunk : Nat) (chunk : List Nat) : BufferFreeList :=
  { fl with
    vm := { fl.vm with
      buffers := fun bi =>
        if bi ∈ chunk then vlibBufferInitForFreeList zeroBuffer fl.vm.bufferInitTemplate else fl.vm.buffers bi
      nBuffers := fl.vm.nBuffers + nThisChunk
      freeList := fl.vm.freeList ++ chunk }
    nAlloc := fl.nAlloc + nThisChunk
    bufferMemoryAllocated := fl.bufferMemoryAllocated ++ [chunk] }

/-- One chunk after another while there are buffers to come, unless the allocator refuses one. The answers are those
of the allocator, which has no more memory when they are used up. -/
def fillChunks (fl : BufferFreeList) (nRemaining nAlloc : Nat) :
    List (Option (List Nat)) → Nat × BufferFreeList
  | [] => (nAlloc, fl)
  | answer :: answers =>
    if nRemaining > 0 then
      let nThisChunk := min nRemaining 16
      match answer with
      | none => (nAlloc, fl)
      | some chunk => fillChunks (addChunk fl nThisChunk chunk) (nRemaining - nThisChunk) (nAlloc + nThisChunk) answers
    else (nAlloc, fl)

def roundPow2 (x pow2 : Nat) : Nat := x + pow2 - 1 - (x + pow2 - 1) % pow2

/-- At least so many free buffers, if it can be; the difference is an `int`. -/
def fillFreeList (fl : BufferFreeList) (minFreeBuffers : Nat) (answers : List (Option (List Nat))) :
    Nat × BufferFreeList :=
  let n := (BitVec.ofInt 32 ((minFreeBuffers : Int) - fl.vm.freeList.length)).toInt
  if n ≤ 0 then (minFreeBuffers, fl)
  else
    let n := roundPow2 n.toNat (clibCacheLineBytes / 4)
    let n := max n fl.minNBuffersEachPhysmemAlloc
    fillChunks fl n 0 answers

/-- The number of buffers, and the buffers; nothing when the assertion fails that there are enough. -/
def allocFromFreeList (fl : BufferFreeList) (nAllocBuffers : Nat) (answers : List (Option (List Nat))) :
    Option (Nat × List Nat × BufferFreeList) :=
  let (nFilled, fl) := fillFreeList fl nAllocBuffers answers
  if nFilled = 0 then some (0, [], fl)
  else
    let len := fl.vm.freeList.length
    if nAllocBuffers ≤ len then
      some (nAllocBuffers, fl.vm.freeList.drop (len - nAllocBuffers),
        { fl with vm := { fl.vm with freeList := fl.vm.freeList.take (len - nAllocBuffers) } })
    else none

/-- A buffer and, if these are to be followed, its next ones. The number of buffers bounds the rounds. -/
def freeFrom (followBufferNext : Bool) : Nat → VlibMain → Nat → VlibMain
  | 0, vm, _ => vm
  | n + 1, vm, bi =>
    let nb := vm.buffers bi
    let vm := if nb.nAddRefs ≠ 0 then vm.modify bi fun b => { b with nAddRefs := b.nAddRefs - 1 }
      else vlibBufferAddToFreeList vm bi
    if followBufferNext && nb.flags.nextPresent then freeFrom followBufferNext n vm nb.nextBuffer else vm

def freeOne (followBufferNext : Bool) (vm : VlibMain) (bi : Nat) : VlibMain :=
  if (vm.buffers bi).flags.recycle then vm else freeFrom followBufferNext vm.nBuffers vm bi

def vlibBufferFreeInline (fl : BufferFreeList) (buffers : List Nat) (followBufferNext : Bool) : BufferFreeList :=
  { fl with vm := buffers.foldl (freeOne followBufferNext) fl.vm }

theorem freeFrom_follow (n : Nat) (vm : VlibMain) (bi : Nat) : freeFrom true n vm bi = freeChain n vm bi := by
  induction n generalizing vm bi with
  | zero => rfl
  | succ n ih => simp only [freeFrom, freeChain, ih, Bool.true_and]

theorem vlibBufferFreeInline_follow (fl : BufferFreeList) (buffers : List Nat) :
    (vlibBufferFreeInline fl buffers true).vm = vlibBufferFree fl.vm buffers := by
  rw [vlibBufferFreeInline]
  generalize fl.vm = vm
  induction buffers generalizing vm with
  | nil => rfl
  | cons bi buffers ih =>
    simp only [freeOne, freeFrom_follow, foldl_cons, vlibBufferFree] at ih ⊢
    exact ih _

def obtained (fl : BufferFreeList) : List Nat := fl.bufferMemoryAllocated.flatten

structure Lent where
  fl : BufferFreeList
  held : List Nat

structure Partition (w : Lent) : Prop where
  perm : (w.fl.vm.freeList ++ w.held).Perm (obtained w.fl)
  nodup : (obtained w.fl).Nodup
  nAlloc_eq : w.fl.nAlloc = (obtained w.fl).length
  nBuffers_eq : w.fl.vm.nBuffers = (obtained w.fl).length

def ChunksOk (seen : List Nat) (nRemaining : Nat) : List (Option (List Nat)) → Prop
  | some chunk :: answers =>
    0 < nRemaining → chunk.length = min nRemaining 16 ∧ chunk.Nodup ∧ (∀ b ∈ chunk, b ∉ seen)
      ∧ ChunksOk (seen ++ chunk) (nRemaining - min nRemaining 16) answers
  | _ => True

def grants : List (Option (List Nat)) → Nat
  | some _ :: answers => grants answers + 1
  | _ => 0

section
variable {fl : BufferFreeList} {held : List Nat}

theorem obtained_addChunk (fl : BufferFreeList) (n : Nat) (chunk : List Nat) :
    obtained (addChunk fl n chunk) = obtained fl ++ chunk := by
  rw [obtained, addChunk, flatten_append, flatten_singleton]
  rfl

theorem Partition.addChunk (h : Partition ⟨fl, held⟩) {chunk : List Nat} (hnd : chunk.Nodup)
    (hfresh : ∀ b ∈ chunk, b ∉ obtained fl) : Partition ⟨addChunk fl chunk.length chunk, held⟩ where
  perm := by
    rw [obtained_addChunk]
    apply List.Perm.trans _ (h.perm.append_right chunk)
    have hswap : (fl.vm.freeList ++ chunk ++ held).Perm (fl.vm.freeList ++ held ++ chunk) := by
      rw [List.append_assoc, List.append_assoc]
      exact perm_append_comm.append_left _
    exact hswap
  nodup := by
    rw [obtained_addChunk]
    exact nodup_append.2 ⟨h.nodup, hnd, fun a ha b hb hab => hfresh b hb (hab ▸ ha)⟩
  nAlloc_eq := by
    rw [obtained_addChunk, length_append, ← h.nAlloc_eq]
    rfl
  nBuffers_eq := by
    rw [obtained_addChunk, length_append, ← h.nBuffers_eq]
    rfl

/-- The chunks before the first refusal, behind the buffers that were free. -/
theorem fillChunks_spec {answers : List (Option (List Nat))} {r a : Nat} (h : Partition ⟨fl, held⟩)
    (hok : ChunksOk (obtained fl) r answers) :
    Partition ⟨(fillChunks fl r a answers).2, held⟩
      ∧ ∃ new, (fillChunks fl r a answers).2.vm.freeList = fl.vm.freeList ++ new
        ∧ (fillChunks fl r a answers).1 = a + new.length ∧ new.length = min (16 * grants answers) r := by
  induction answers generalizing fl r a with
  | nil => exact ⟨h, [], (append_nil _).symm, rfl, (Nat.zero_min r).symm⟩
  | cons answer answers ih =>
    by_cases hr : r > 0
    · cases answer with
      | none =>
        rw [fillChunks, if_pos hr]
        exact ⟨h, [], (append_nil _).symm, rfl, (Nat.zero_min r).symm⟩
      | some chunk =>
        obtain ⟨hlen, hnd, hfresh, hrest⟩ := hok hr
        rw [fillChunks, if_pos hr]
        have hadd := h.addChunk hnd hfresh
        rw [hlen] at hadd
        rw [← obtained_addChunk fl (min r 16)] at hrest
        obtain ⟨hpart, new, hfree, hcount, hnew⟩ := @ih _ _ (a + min r 16) hadd hrest
        refine ⟨hpart, chunk ++ new, ?_, ?_, ?_⟩
        · rw [hfree, ← List.append_assoc]
          rfl
        · rw [hcount, length_append, hlen, Nat.add_assoc]
        · rw [length_append, hlen, hnew, grants]
          omega
    · have hzero : r = 0 := Nat.eq_zero_of_not_pos hr
      rw [fillChunks, if_neg hr, hzero]
      exact ⟨h, [], (append_nil _).symm, rfl, (Nat.min_zero _).symm⟩

end

def requested (fl : BufferFreeList) (minFreeBuffers : Nat) : Nat :=
  max (roundPow2 (BitVec.ofInt 32 ((minFreeBuffers : Int) - fl.vm.freeList.length)).toInt.toNat
      (clibCacheLineBytes / 4))
    fl.minNBuffersEachPhysmemAlloc

def FreshAnswers (fl : BufferFreeList) (n : Nat) (answers : List (Option (List Nat))) : Prop :=
  ChunksOk (obtained fl) (requested fl n) answers

/-- Either no buffer comes back, or so many distinct ones, from the end of the filled free list. -/
def AllOrNothing (fl : BufferFreeList) (n : Nat) (answers : List (Option (List Nat))) : Prop :=
  ∃ m got fl', allocFromFreeList fl n answers = some (m, got, fl')
    ∧ (m = 0 ∧ got = []
      ∨ m = n ∧ got.length = n ∧ got.Nodup
        ∧ (fillFreeList fl n answers).2.vm.freeList = fl'.vm.freeList ++ got)

/-- There are enough free buffers, or the allocator grants none, or enough before it refuses one. -/
def Served (fl : BufferFreeList) (n : Nat) (answers : List (Option (List Nat))) : Prop :=
  n ≤ fl.vm.freeList.length
    ∨ n - fl.vm.freeList.length < 2 ^ 31 ∧ (grants answers = 0 ∨ n - fl.vm.freeList.length ≤ 16 * grants answers)

section
variable {fl : BufferFreeList} {held : List Nat} {n : Nat} {answers : List (Option (List Nat))}

theorem toInt_ofInt_small {x : Int} (h0 : 0 ≤ x) (h : x < 2147483648) : (BitVec.ofInt 32 x).toInt = x := by
  rw [BitVec.toInt_ofInt, Int.bmod_def]
  omega

theorem toInt_ofInt_large {x : Int} (h : 2147483648 ≤ x) (h' : x < 4294967296) : (BitVec.ofInt 32 x).toInt ≤ 0 := by
  rw [BitVec.toInt_ofInt, Int.bmod_def]
  omega

theorem le_requested {fl : BufferFreeList} {n : Nat} (hlt : fl.vm.freeList.length < n)
    (hsmall : n - fl.vm.freeList.length < 2 ^ 31) : n - fl.vm.freeList.length ≤ requested fl n := by
  rw [requested, toInt_ofInt_small (by omega) (by omega)]
  apply Nat.le_trans _ (Nat.le_max_left _ _)
  have hnat : ((n : Int) - fl.vm.freeList.length).toNat = n - fl.vm.freeList.length := by omega
  have hline : clibCacheLineBytes / 4 = 16 := rfl
  rw [hnat, hline, roundPow2]
  omega

theorem fillFreeList_enough
    (h : (BitVec.ofInt 32 ((n : Int) - fl.vm.freeList.length)).toInt ≤ 0) :
    fillFreeList fl n answers = (n, fl) := if_pos h

theorem fillFreeList_short (h : ¬ (BitVec.ofInt 32 ((n : Int) - fl.vm.freeList.length)).toInt ≤ 0) :
    fillFreeList fl n answers = fillChunks fl (requested fl n) 0 answers := if_neg h

theorem fillFreeList_spec (h : Partition ⟨fl, held⟩) (hok : FreshAnswers fl n answers) :
    Partition ⟨(fillFreeList fl n answers).2, held⟩ := by
  by_cases hneed : (BitVec.ofInt 32 ((n : Int) - fl.vm.freeList.length)).toInt ≤ 0
  · rw [fillFreeList_enough hneed]
    exact h
  · rw [fillFreeList_short hneed]
    exact (fillChunks_spec h hok).1

theorem allocFromFreeList_eq : allocFromFreeList fl n answers
    = if (fillFreeList fl n answers).1 = 0 then some (0, [], (fillFreeList fl n answers).2)
      else if n ≤ (fillFreeList fl n answers).2.vm.freeList.length then
        some (n, (fillFreeList fl n answers).2.vm.freeList.drop ((fillFreeList fl n answers).2.vm.freeList.length - n),
          { (fillFreeList fl n answers).2 with
            vm := { (fillFreeList fl n answers).2.vm with
              freeList := (fillFreeList fl n answers).2.vm.freeList.take
                ((fillFreeList fl n answers).2.vm.freeList.length - n) } })
      else none := rfl

theorem Partition.nodup_free (h : Partition ⟨fl, held⟩) : fl.vm.freeList.Nodup :=
  (nodup_append.1 (h.perm.nodup_iff.2 h.nodup)).1

theorem allOrNothing_iff_filled (h : Partition ⟨fl, held⟩) (hok : FreshAnswers fl n answers) :
    AllOrNothing fl n answers
      ↔ (fillFreeList fl n answers).1 = 0 ∨ n ≤ (fillFreeList fl n answers).2.vm.freeList.length := by
  have hnd := (fillFreeList_spec h hok).nodup_free
  rw [AllOrNothing, allocFromFreeList_eq]
  by_cases hzero : (fillFreeList fl n answers).1 = 0
  · rw [if_pos hzero]
    exact iff_of_true ⟨_, _, _, rfl, .inl ⟨rfl, rfl⟩⟩ (.inl hzero)
  · rw [if_neg hzero]
    by_cases hle : n ≤ (fillFreeList fl n answers).2.vm.freeList.length
    · rw [if_pos hle]
      refine iff_of_true ⟨_, _, _, rfl, .inr ⟨rfl, ?_, ?_, ?_⟩⟩ (.inr hle)
      · rw [length_drop]
        omega
      · exact hnd.sublist (drop_sublist _ _)
      · exact (take_append_drop _ _).symm
    · rw [if_neg hle]
      refine iff_of_false ?_ (fun hor => hor.elim hzero hle)
      intro ⟨m, got, fl', heq, _⟩
      exact absurd heq.symm (Option.some_ne_none _)

theorem allOrNothing_iff (h : Partition ⟨fl, held⟩) (hn : n < 2 ^ 32) (hok : FreshAnswers fl n answers) :
    AllOrNothing fl n answers ↔ Served fl n answers := by
  rw [allOrNothing_iff_filled h hok, Served]
  by_cases hneed : (BitVec.ofInt 32 ((n : Int) - fl.vm.freeList.length)).toInt ≤ 0
  · rw [fillFreeList_enough hneed]
    by_cases hle : n ≤ fl.vm.freeList.length
    · exact iff_of_true (.inr hle) (.inl hle)
    · have hlarge : ¬ n - fl.vm.freeList.length < 2 ^ 31 := by
        intro hsmall
        rw [toInt_ofInt_small (by omega) (by omega)] at hneed
        omega
      have hne : n ≠ 0 := by omega
      exact iff_of_false (fun hor => hor.elim hne hle) (fun hor => hor.elim hle fun hand => hlarge hand.1)
  · obtain ⟨-, new, hfree, hcount, hnew⟩ := fillChunks_spec (a := 0) h hok
    rw [fillFreeList_short hneed, hfree, hcount, Nat.zero_add, length_append, hnew]
    by_cases hle : n ≤ fl.vm.freeList.length
    · exact iff_of_true (.inr (Nat.le_add_right_of_le hle)) (.inl hle)
    · have hsmall : n - fl.vm.freeList.length < 2 ^ 31 := by
        apply Nat.lt_of_not_le
        intro hlarge
        exact hneed (toInt_ofInt_large (by omega) (by omega))
      have hreq := le_requested (Nat.lt_of_not_le hle) hsmall
      omega

theorem Partition.alloc (h : Partition ⟨fl, held⟩) (hok : FreshAnswers fl n answers) {m : Nat} {got : List Nat}
    {fl' : BufferFreeList} (hgot : allocFromFreeList fl n answers = some (m, got, fl')) :
    Partition ⟨fl', got ++ held⟩ := by
  have hfill := fillFreeList_spec h hok
  rw [allocFromFreeList_eq] at hgot
  by_cases hzero : (fillFreeList fl n answers).1 = 0
  · rw [if_pos hzero] at hgot
    cases hgot
    exact hfill
  · rw [if_neg hzero] at hgot
    by_cases hle : n ≤ (fillFreeList fl n answers).2.vm.freeList.length
    · rw [if_pos hle] at hgot
      cases hgot
      refine ⟨?_, hfill.nodup, hfill.nAlloc_eq, hfill.nBuffers_eq⟩
      rw [← List.append_assoc, take_append_drop]
      exact hfill.perm
    · rw [if_neg hle] at hgot
      cases hgot

end

/-- The buffers that a free of `bi` goes through. -/
def visited (vm : VlibMain) (followBufferNext : Bool) (bi : Nat) : List Nat :=
  if (vm.buffers bi).flags.recycle then []
  else if followBufferNext then chainFrom vm vm.nBuffers bi
  else [bi]

/-- Those of them that no other reference keeps. -/
def givenBack (vm : VlibMain) (followBufferNext : Bool) (bi : Nat) : List Nat :=
  (visited vm followBufferNext bi).filter fun b => (vm.buffers b).nAddRefs = 0

/-- The caller holds the buffer, and what comes behind it if that is freed too. -/
def MayFree (w : Lent) (followBufferNext : Bool) (bi : Nat) : Prop :=
  (w.fl.vm.buffers bi).flags.recycle = false →
    if followBufferNext then ∃ c, IsChain w.fl.vm bi c ∧ ∀ b ∈ c, b ∈ w.held else bi ∈ w.held

def Lent.freeOne (w : Lent) (followBufferNext : Bool) (bi : Nat) : Lent :=
  { fl := { w.fl with vm := Vlib.freeOne followBufferNext w.fl.vm bi }
    held := w.held.filter (· ∉ givenBack w.fl.vm followBufferNext bi) }

section
variable {vm : VlibMain} {c : List Nat} {follow : Bool}

def release (vm : VlibMain) (bi : Nat) : VlibMain :=
  if (vm.buffers bi).nAddRefs ≠ 0 then vm.modify bi fun b => { b with nAddRefs := b.nAddRefs - 1 }
  else vlibBufferAddToFreeList vm bi

theorem release_freeList (vm : VlibMain) (bi : Nat) :
    (release vm bi).freeList = vm.freeList ++ [bi].filter fun b => (vm.buffers b).nAddRefs = 0 := by
  rw [release]
  by_cases href : (vm.buffers bi).nAddRefs = 0
  · simp [href, vlibBufferAddToFreeList, VlibMain.modify]
  · simp [href, VlibMain.modify]

theorem release_buffers {bi b : Nat} (h : b ≠ bi) : (release vm bi).buffers b = vm.buffers b := by
  rw [release]
  by_cases href : (vm.buffers bi).nAddRefs ≠ 0
  · rw [if_pos href]
    exact Function.update_of_ne h _ _
  · rw [if_neg href]
    exact Function.update_of_ne h _ _

theorem release_nBuffers (vm : VlibMain) (bi : Nat) : (release vm bi).nBuffers = vm.nBuffers := by
  rw [release]
  split
  · rfl
  · rfl

theorem freeFrom_alone (n : Nat) (vm : VlibMain) (bi : Nat) : freeFrom false (n + 1) vm bi = release vm bi := by
  simp only [freeFrom, release, Bool.false_and, Bool.false_eq_true, if_false]

/-- A chain that is freed goes to the free list, but for the buffers with further references. -/
theorem freeFrom_chain {n bi : Nat} (h : IsChain vm bi c) (hfuel : c.length ≤ n) :
    (freeFrom true n vm bi).freeList = vm.freeList ++ c.filter (fun b => (vm.buffers b).nAddRefs = 0)
      ∧ (freeFrom true n vm bi).nBuffers = vm.nBuffers := by
  induction n generalizing vm bi c with
  | zero =>
    obtain ⟨cs, rfl⟩ := h.eq_cons
    cases hfuel
  | succ n ih =>
    have hnd := h.nodup
    cases h with
    | last hlast =>
      have hstep : freeFrom true (n + 1) vm bi = release vm bi := if_neg (by rw [hlast]; exact Bool.false_ne_true)
      rw [hstep, release_freeList, release_nBuffers]
      exact ⟨rfl, rfl⟩
    | next hnext hrest =>
      have hstep : freeFrom true (n + 1) vm bi = freeFrom true n (release vm bi) (vm.buffers bi).nextBuffer :=
        if_pos (by rw [hnext]; rfl)
      have hsame : ∀ b, b ∈ _ → (release vm bi).buffers b = vm.buffers b := fun b hb =>
        release_buffers fun heq => (nodup_cons.1 hnd).1 (heq ▸ hb)
      have hchain := hrest.links fun b hb => ⟨by rw [hsame b hb], by rw [hsame b hb]⟩
      obtain ⟨hfree, hn⟩ := ih hchain (Nat.le_of_succ_le_succ hfuel)
      have hrefs : ∀ b ∈ _, decide (((release vm bi).buffers b).nAddRefs = 0) = decide ((vm.buffers b).nAddRefs = 0) :=
        fun b hb => by rw [hsame b hb]
      rw [hstep, hfree, hn, release_freeList, release_nBuffers, List.append_assoc, filter_congr hrefs,
        ← filter_append]
      exact ⟨rfl, rfl⟩

variable {w : Lent}

theorem length_le_of_partition (h : Partition w) (hnd : c.Nodup) (hheld : ∀ b ∈ c, b ∈ w.held) :
    c.length ≤ w.fl.vm.nBuffers := by
  rw [h.nBuffers_eq]
  exact (subperm_of_subset hnd fun b hb => h.perm.subset (mem_append_right _ (hheld b hb))).length_le

theorem freeOne_spec (h : Partition w) {bi : Nat} (hok : MayFree w follow bi) :
    (visited w.fl.vm follow bi).Nodup ∧ (∀ b ∈ visited w.fl.vm follow bi, b ∈ w.held)
      ∧ (freeOne follow w.fl.vm bi).freeList = w.fl.vm.freeList ++ givenBack w.fl.vm follow bi
      ∧ (freeOne follow w.fl.vm bi).nBuffers = w.fl.vm.nBuffers := by
  rw [givenBack, visited, Vlib.freeOne]
  by_cases hrec : (w.fl.vm.buffers bi).flags.recycle = true
  · rw [if_pos hrec, if_pos hrec]
    exact ⟨nodup_nil, fun b hb => absurd hb not_mem_nil, (append_nil _).symm, rfl⟩
  · rw [if_neg hrec, if_neg hrec]
    have hmay := hok (Bool.eq_false_of_not_eq_true hrec)
    cases follow with
    | true =>
      obtain ⟨c, hchain, hheld⟩ := hmay
      have hfuel := length_le_of_partition h hchain.nodup hheld
      rw [if_pos rfl, hchain.chainFrom_eq hfuel]
      exact ⟨hchain.nodup, hheld, freeFrom_chain hchain hfuel⟩
    | false =>
      have hpos : 0 < w.fl.vm.nBuffers :=
        length_le_of_partition h (nodup_singleton bi) fun b hb => mem_singleton.1 hb ▸ hmay
      obtain ⟨n, hn⟩ := Nat.exists_eq_succ_of_ne_zero (Nat.ne_of_gt hpos)
      rw [if_neg Bool.false_ne_true, hn, freeFrom_alone, release_freeList, release_nBuffers]
      exact ⟨nodup_singleton bi, fun b hb => mem_singleton.1 hb ▸ hmay, rfl, hn.symm ▸ rfl⟩

theorem Partition.freeOne (h : Partition w) {bi : Nat} (hok : MayFree w follow bi) :
    Partition (w.freeOne follow bi) := by
  obtain ⟨hnd, hheld, hfree, hn⟩ := freeOne_spec h hok
  have hnodup := h.perm.nodup_iff.2 h.nodup
  have hback : (givenBack w.fl.vm follow bi).Perm (w.held.filter (· ∈ givenBack w.fl.vm follow bi)) := by
    apply (perm_ext_iff_of_nodup (hnd.filter _) ((nodup_append.1 hnodup).2.1.filter _)).2
    intro b
    constructor
    · intro hb
      exact mem_filter.2 ⟨hheld b (mem_filter.1 hb).1, decide_eq_true hb⟩
    · intro hb
      exact of_decide_eq_true (mem_filter.1 hb).2
  refine ⟨?_, h.nodup, h.nAlloc_eq, hn.trans h.nBuffers_eq⟩
  apply List.Perm.trans _ h.perm
  have hsplit : (givenBack w.fl.vm follow bi ++ w.held.filter (· ∉ givenBack w.fl.vm follow bi)).Perm w.held := by
    apply (hback.append_right _).trans
    have hparts := filter_append_perm (fun b => decide (b ∈ givenBack w.fl.vm follow bi)) w.held
    simpa only [decide_not] using hparts
  have hlist : (w.freeOne follow bi).fl.vm.freeList ++ (w.freeOne follow bi).held
      = w.fl.vm.freeList ++ (givenBack w.fl.vm follow bi ++ w.held.filter (· ∉ givenBack w.fl.vm follow bi)) := by
    rw [← List.append_assoc, ← hfree]
    rfl
  rw [hlist]
  exact hsplit.append_left _

end

inductive BufferOp where
  | alloc (n : Nat) (answers : List (Option (List Nat)))
  | free (buffers : List Nat) (followBufferNext : Bool)
  | write (bi : Nat) (b : VlibBuffer)

def MayFreeAll (followBufferNext : Bool) : Lent → List Nat → Prop
  | _, [] => True
  | w, bi :: buffers => MayFree w followBufferNext bi ∧
      MayFreeAll followBufferNext (w.freeOne followBufferNext bi) buffers

def Lent.free (w : Lent) (buffers : List Nat) (followBufferNext : Bool) : Lent :=
  buffers.foldl (fun w bi => w.freeOne followBufferNext bi) w

theorem Lent.free_fl (w : Lent) (buffers : List Nat) (follow : Bool) :
    (w.free buffers follow).fl = vlibBufferFreeInline w.fl buffers follow := by
  induction buffers generalizing w with
  | nil => rfl
  | cons bi buffers ih => exact ih (w.freeOne follow bi)

theorem Partition.free {follow : Bool} {buffers : List Nat} {w : Lent} (h : Partition w)
    (hok : MayFreeAll follow w buffers) :
    Partition (w.free buffers follow) := by
  induction buffers generalizing w with
  | nil => exact h
  | cons bi buffers ih => exact ih (h.freeOne hok.1) hok.2

def Lent.write (w : Lent) (bi : Nat) (b : VlibBuffer) : Lent :=
  { w with fl := { w.fl with vm := w.fl.vm.modify bi fun _ => b } }

theorem Partition.write (h : Partition w) (bi : Nat) (b : VlibBuffer) : Partition (w.write bi b) :=
  ⟨h.perm, h.nodup, h.nAlloc_eq, h.nBuffers_eq⟩

def BufferOp.Step (w : Lent) : BufferOp → Lent → Prop
  | .alloc n answers, w' => n < 2 ^ 32 ∧ FreshAnswers w.fl n answers
    ∧ ∃ m got fl', allocFromFreeList w.fl n answers = some (m, got, fl') ∧ w' = ⟨fl', got ++ w.held⟩
  | .free buffers follow, w' => MayFreeAll follow w buffers ∧ w' = w.free buffers follow
  | .write bi b, w' => bi ∈ w.held ∧ w' = w.write bi b

def BufferOp.IsServed (w : Lent) : BufferOp → Prop
  | .alloc n answers => Served w.fl n answers
  | _ => True

def ServedStep (w w' : Lent) : Prop := ∃ op : BufferOp, op.IsServed w ∧ op.Step w w'

/-- Nothing has been asked of the allocator. -/
structure Lent.Unused (w : Lent) : Prop where
  free : w.fl.vm.freeList = []
  held : w.held = []
  chunks : w.fl.bufferMemoryAllocated = []
  nAlloc : w.fl.nAlloc = 0
  nBuffers : w.fl.vm.nBuffers = 0

theorem Lent.Unused.partition (h : w.Unused) : Partition w where
  perm := by
    rw [h.free, h.held, obtained, h.chunks]
    exact List.Perm.nil
  nodup := by
    rw [obtained, h.chunks]
    exact nodup_nil
  nAlloc_eq := by
    rw [h.nAlloc, obtained, h.chunks]
    rfl
  nBuffers_eq := by
    rw [h.nBuffers, obtained, h.chunks]
    rfl

theorem Partition.step {w w' : Lent} (h : Partition w) (hstep : ServedStep w w') : Partition w' := by
  obtain ⟨op, -, hstep⟩ := hstep
  cases op with
  | alloc n answers =>
    obtain ⟨-, hok, m, got, fl', hgot, rfl⟩ := hstep
    exact Partition.alloc h hok hgot
  | free buffers follow =>
    obtain ⟨hok, rfl⟩ := hstep
    exact h.free hok
  | write bi b =>
    obtain ⟨-, rfl⟩ := hstep
    exact h.write bi b

/-- **All or nothing**: where every buffer is free or held, an allocation is all or nothing exactly when it is served;
and in runs whose allocations are served, every buffer that there has been is free or held, and once. -/
theorem bufferAlloc_iff (w : Lent) :
    (Partition w → ∀ (n : Nat) (answers : List (Option (List Nat))), n < 2 ^ 32 →
        FreshAnswers w.fl n answers → (AllOrNothing w.fl n answers ↔ Served w.fl n answers))
      ∧ (w.Unused → ∀ w' : Lent, Relation.ReflTransGen ServedStep w w' → Partition w') := by
  constructor
  · intro h n answers hn hok
    exact allOrNothing_iff h hn hok
  · intro hunused w' hrun
    induction hrun with
    | refl => exact hunused.partition
    | tail _ hstep ih => exact ih.step hstep

def unusedList : Lent :=
  { fl :=
      { vm :=
          { buffers := fun _ => zeroBuffer
            nBuffers := 0
            bufferInitTemplate := zeroBuffer
            freeList := [] }
        minNBuffersEachPhysmemAlloc := 256
        nAlloc := 0
        bufferMemoryAllocated := [] }
    held := [] }

def oneChunk : List (Option (List Nat)) := [some (List.range 16), none]

theorem unusedList_unused : unusedList.Unused := ⟨rfl, rfl, rfl, rfl, rfl⟩

def twoChunks : List (Option (List Nat)) := [some (List.range 16), some (List.range' 16 16)]

/-- Twenty buffers of two chunks, the last ones of the free list. -/
def lentTwenty : Lent :=
  match allocFromFreeList unusedList.fl 20 twoChunks with
  | some (_, got, fl) => ⟨fl, got⟩
  | none => unusedList

theorem freshAnswers_twoChunks : FreshAnswers unusedList.fl 20 twoChunks := by
  intro _
  refine ⟨by decide, by decide, fun b _ => not_mem_nil, fun _ => ⟨by decide, by decide, by decide, trivial⟩⟩

/-- Twenty buffers are asked for and come from two chunks, and the first two of them are given back. -/
theorem bufferAlloc_iff_two_chunks :
    AllOrNothing unusedList.fl 20 twoChunks ∧ Partition (lentTwenty.free [12, 13] true) ∧
      (lentTwenty.free [12, 13] true).held = List.range' 14 18 := by
  have hserved : Served unusedList.fl 20 twoChunks := .inr ⟨by decide, .inr (by decide)⟩
  have hlent : ServedStep unusedList lentTwenty :=
    ⟨.alloc 20 twoChunks, hserved, by decide, freshAnswers_twoChunks, 20, _, _, rfl, rfl⟩
  have hfreed : ServedStep lentTwenty (lentTwenty.free [12, 13] true) :=
    ⟨.free [12, 13] true, trivial,
      ⟨fun _ => ⟨[12], .last rfl, by decide⟩, fun _ => ⟨[13], .last rfl, by decide⟩, trivial⟩, rfl⟩
  refine ⟨?_, ?_, by decide⟩
  · exact ((bufferAlloc_iff unusedList).1 unusedList_unused.partition 20 twoChunks (by decide)
      freshAnswers_twoChunks).mpr hserved
  · exact (bufferAlloc_iff unusedList).2 unusedList_unused _ (.tail (.single hlent) hfreed)

/-- Of twenty buffers the refill gets sixteen, and the allocation goes on. -/
theorem alloc_partial : ¬ ∀ w : Lent, w.Unused → ∀ (n : Nat) (answers : List (Option (List Nat))), n < 2 ^ 32 →
    FreshAnswers w.fl n answers → AllOrNothing w.fl n answers := by
  intro h
  have hfresh : FreshAnswers unusedList.fl 20 oneChunk := by
    intro _
    refine ⟨by decide, by decide, fun b _ => not_mem_nil, trivial⟩
  obtain ⟨m, got, fl', hgot, -⟩ := h unusedList unusedList_unused 20 oneChunk (by decide) hfresh
  have hnone : (allocFromFreeList unusedList.fl 20 oneChunk).isSome = false := by decide
  rw [hgot] at hnone
  cases hnone

end Vpp.Vlib
