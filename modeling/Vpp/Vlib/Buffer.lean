import Mathlib.Algebra.Order.Group.Nat
import Mathlib.Data.List.Nodup
import Mathlib.Data.List.Perm.Subperm

namespace Vpp.Vlib
open Function List

def clibCacheLineBytes : Nat := 64

structure BufferFlags where
  nextPresent : Bool
  totalLengthValid : Bool
  extHdrValid : Bool
  recycle : Bool
  others : Nat
deriving DecidableEq

/-- A buffer. Its data starts at zero, with the room for headers before. -/
structure VlibBuffer where
  currentData : Int
  currentLength : Nat
  flags : BufferFlags
  freeListIndex : Nat
  totalLengthNotIncludingFirstBuffer : Nat
  nextBuffer : Nat
  nAddRefs : Nat
  opaqueWords : List (BitVec 32)
  data : Int → UInt8

structure VlibMain where
  buffers : Nat → VlibBuffer
  nBuffers : Nat
  bufferInitTemplate : VlibBuffer
  freeList : List Nat

def VlibMain.modify (vm : VlibMain) (bi : Nat) (g : VlibBuffer → VlibBuffer) : VlibMain :=
  { vm with buffers := update vm.buffers bi (g (vm.buffers bi)) }

def memcpy (dst : Int → UInt8) (d : Int) (src : Int → UInt8) (s : Int) (n : Nat) : Int → UInt8 :=
  fun x => if d ≤ x ∧ x < d + n then src (s + (x - d)) else dst x

/-- The buffers `got` are what an allocation came back with. -/
def vlibBufferAlloc (vm : VlibMain) (got : List Nat) : VlibMain :=
  { vm with freeList := vm.freeList.filter (· ∉ got) }

def vlibBufferInitForFreeList (dst src : VlibBuffer) : VlibBuffer :=
  { dst with
    currentData := src.currentData
    currentLength := src.currentLength
    flags := src.flags
    freeListIndex := src.freeListIndex
    totalLengthNotIncludingFirstBuffer := src.totalLengthNotIncludingFirstBuffer
    nAddRefs := src.nAddRefs }

def vlibBufferAddToFreeList (vm : VlibMain) (bi : Nat) : VlibMain :=
  let vm := vm.modify bi fun b => vlibBufferInitForFreeList b vm.bufferInitTemplate
  { vm with freeList := vm.freeList ++ [bi] }

/-- A buffer and, while there are any, its next ones. The number of buffers bounds the rounds. -/
def freeChain : Nat → VlibMain → Nat → VlibMain
  | 0, vm, _ => vm
  | n + 1, vm, bi =>
    let nb := vm.buffers bi
    let vm := if nb.nAddRefs ≠ 0 then vm.modify bi fun b => { b with nAddRefs := b.nAddRefs - 1 }
      else vlibBufferAddToFreeList vm bi
    if nb.flags.nextPresent then freeChain n vm nb.nextBuffer else vm

def vlibBufferFree (vm : VlibMain) : List Nat → VlibMain
  | [] => vm
  | bi :: buffers =>
    vlibBufferFree (if (vm.buffers bi).flags.recycle then vm else freeChain vm.nBuffers vm bi) buffers

def nBuffersFrom (vm : VlibMain) : Nat → Nat → Nat
  | 0, _ => 1
  | n + 1, s => if (vm.buffers s).flags.nextPresent then nBuffersFrom vm n (vm.buffers s).nextBuffer + 1 else 1

def BufferFlags.masked (f : BufferFlags) : BufferFlags := ⟨f.nextPresent, f.totalLengthValid, false, false, 0⟩

def copySegment (d s : VlibBuffer) : VlibBuffer :=
  { d with
    currentData := s.currentData
    currentLength := s.currentLength
    flags := s.flags.masked
    data := memcpy d.data s.currentData s.data s.currentData s.currentLength }

def copyFirst (d s : VlibBuffer) : VlibBuffer :=
  { copySegment d s with
    totalLengthNotIncludingFirstBuffer := s.totalLengthNotIncludingFirstBuffer
    opaqueWords := s.opaqueWords }

def copyNext (vm : VlibMain) (d s : Nat) : List Nat → VlibMain
  | [] => vm
  | new :: newBuffers =>
    let vm := vm.modify d fun b => { b with nextBuffer := new }
    let s := (vm.buffers s).nextBuffer
    copyNext (vm.modify new fun b => copySegment b (vm.buffers s)) new s newBuffers

def vlibBufferCopy (vm : VlibMain) (b : Nat) (got : List Nat) : VlibMain × Option Nat :=
  let nBuffers := nBuffersFrom vm vm.nBuffers b
  let vm := vlibBufferAlloc vm got
  if got.length < nBuffers then (vlibBufferFree vm got, none)
  else
    match got with
    | [] => (vm, none)
    | fd :: newBuffers => (copyNext (vm.modify fd fun d => copyFirst d (vm.buffers b)) fd b newBuffers, some fd)

/-- `k` copies, or fewer. -/
def cloneCopies (s : Nat) : Nat → VlibMain → List (List Nat) → VlibMain × List Nat
  | 0, vm, _ => (vm, [])
  | k + 1, vm, answers =>
    match vlibBufferCopy vm s (answers.headD []) with
    | (vm, none) => (vm, [])
    | (vm, some d) =>
      let (vm, ds) := cloneCopies s k vm answers.tail
      (vm, d :: ds)

def cloneHead (d s : VlibBuffer) (src headEndOffset : Nat) : VlibBuffer :=
  { d with
    currentData := s.currentData
    currentLength := headEndOffset
    freeListIndex := s.freeListIndex
    totalLengthNotIncludingFirstBuffer :=
      (s.totalLengthNotIncludingFirstBuffer + s.currentLength - headEndOffset) % 2 ^ 32
    flags := { s.flags with
      nextPresent := true
      extHdrValid := false }
    opaqueWords := s.opaqueWords
    data := memcpy d.data s.currentData s.data s.currentData headEndOffset
    nextBuffer := src }

def cloneHeads (src headEndOffset : Nat) : VlibMain → List Nat → VlibMain
  | vm, [] => vm
  | vm, d :: buffers =>
    cloneHeads src headEndOffset (vm.modify d fun b => cloneHead b (vm.buffers src) src headEndOffset) buffers

/-- The offset of the data has 16 bits, with a sign. -/
def vlibBufferAdvance (b : VlibBuffer) (l : Nat) : VlibBuffer :=
  { b with
    currentData := (b.currentData + l).bmod (2 ^ 16)
    currentLength := b.currentLength - l }

def VlibBuffer.AdvanceFits (b : VlibBuffer) (l : Nat) : Prop := -32768 ≤ b.currentData + l ∧ b.currentData + l < 32768

theorem VlibBuffer.AdvanceFits.currentData_eq (h : b.AdvanceFits l) :
    (vlibBufferAdvance b l).currentData = b.currentData + l :=
  Int.bmod_eq_of_le h.1 h.2

/-- A change of a buffer and, while there are any, of its next ones. -/
def modifyChain (g : VlibBuffer → VlibBuffer) : Nat → VlibMain → Nat → VlibMain
  | 0, vm, _ => vm
  | n + 1, vm, s =>
    let vm := vm.modify s g
    if (vm.buffers s).flags.nextPresent then modifyChain g n vm (vm.buffers s).nextBuffer else vm

/-- The buffers obtained by the calls that allocate are `answers`. -/
def vlibBufferClone (vm : VlibMain) (srcBuffer nBuffers headEndOffset : Nat) (answers : List (List Nat)) :
    VlibMain × List Nat :=
  let s := vm.buffers srcBuffer
  if s.currentLength ≤ headEndOffset + clibCacheLineBytes * 2 then
    let (vm, copies) := cloneCopies srcBuffer (nBuffers - 1) vm answers
    (vm, srcBuffer :: copies)
  else
    let buffers := answers.headD []
    let vm := vlibBufferAlloc vm buffers
    if buffers = [] then (vm, [srcBuffer])
    else
      let vm := cloneHeads srcBuffer headEndOffset vm buffers
      let vm := vm.modify srcBuffer fun b => vlibBufferAdvance b headEndOffset
      (modifyChain (fun b => { b with nAddRefs := buffers.length - 1 }) vm.nBuffers vm srcBuffer, buffers)

def attachHead (h t : VlibBuffer) (tail : Nat) : VlibBuffer :=
  { h with
    flags := { h.flags with
      nextPresent := true
      totalLengthValid := t.flags.totalLengthValid
      extHdrValid := false }
    nextBuffer := tail
    totalLengthNotIncludingFirstBuffer := (t.currentLength + t.totalLengthNotIncludingFirstBuffer) % 2 ^ 32 }

def vlibBufferAttachClone (vm : VlibMain) (head tail : Nat) : VlibMain :=
  let vm := vm.modify head fun h => attachHead h (vm.buffers tail) tail
  modifyChain (fun b => { b with nAddRefs := (b.nAddRefs + 1) % 2 ^ 8 }) vm.nBuffers vm tail

/-- The buffers from `i` on. -/
inductive IsChain (vm : VlibMain) : Nat → List Nat → Prop where
  | last : (vm.buffers i).flags.nextPresent = false → IsChain vm i [i]
  | next : (vm.buffers i).flags.nextPresent = true → IsChain vm (vm.buffers i).nextBuffer c → IsChain vm i (i :: c)

variable {vm vm' : VlibMain} {c c' got : List Nat} {b d i s : Nat}

def chainFrom (vm : VlibMain) : Nat → Nat → List Nat
  | 0, _ => []
  | n + 1, i => i :: if (vm.buffers i).flags.nextPresent then chainFrom vm n (vm.buffers i).nextBuffer else []

theorem IsChain.unique (h : IsChain vm i c) (h' : IsChain vm i c') : c = c' := by
  induction h generalizing c' with
  | last hn =>
    cases h' with
    | last _ => rfl
    | next hn' _ => rw [hn] at hn'; cases hn'
  | next hn _ ih =>
    cases h' with
    | last hn' => rw [hn] at hn'; cases hn'
    | next _ h' => rw [ih h']

theorem IsChain.head_mem (h : IsChain vm i c) : i ∈ c := by
  cases h with
  | last _ => exact mem_singleton.mpr rfl
  | next _ _ => exact mem_cons_self

theorem IsChain.eq_cons (h : IsChain vm i c) : ∃ cs, c = i :: cs := by
  cases h with
  | last _ => exact ⟨[], rfl⟩
  | next _ _ => exact ⟨_, rfl⟩

theorem IsChain.from_mem (h : IsChain vm i c) (hb : b ∈ c) : ∃ c', IsChain vm b c' ∧ c'.length ≤ c.length := by
  induction h with
  | last hn =>
    obtain rfl := mem_singleton.mp hb
    exact ⟨_, .last hn, le_refl _⟩
  | next hn h ih =>
    rcases mem_cons.mp hb with rfl | hb
    · exact ⟨_, .next hn h, le_refl _⟩
    · obtain ⟨c', hc', hle⟩ := ih hb
      exact ⟨c', hc', hle.trans (Nat.le_succ _)⟩

theorem IsChain.nodup (h : IsChain vm i c) : c.Nodup := by
  induction h with
  | last _ => exact nodup_singleton _
  | next hn h ih =>
    refine nodup_cons.mpr ⟨?_, ih⟩
    intro hm
    -- a shorter chain from the same buffer
    obtain ⟨c', hc', hle⟩ := h.from_mem hm
    have heq := hc'.unique (.next hn h)
    rw [heq, length_cons] at hle
    omega

theorem length_le_of_lt (hnd : c.Nodup) (hlt : ∀ b ∈ c, b < n) : c.length ≤ n := by
  have hsub := subperm_of_subset hnd fun b hb => mem_range.mpr (hlt b hb)
  have hle := hsub.length_le
  rwa [length_range] at hle

theorem IsChain.chainFrom_eq (h : IsChain vm i c) (hfuel : c.length ≤ n) : chainFrom vm n i = c := by
  induction h generalizing n with
  | last hn =>
    cases n with
    | zero => exact absurd hfuel (Nat.not_succ_le_zero _)
    | succ n => rw [chainFrom, hn]; rfl
  | next hn _ ih =>
    cases n with
    | zero => exact absurd hfuel (Nat.not_succ_le_zero _)
    | succ n => rw [chainFrom, if_pos hn, ih (Nat.le_of_succ_le_succ hfuel)]

theorem IsChain.nBuffersFrom_eq (h : IsChain vm i c) (hfuel : c.length ≤ n) : nBuffersFrom vm n i = c.length := by
  induction h generalizing n with
  | last hn =>
    cases n with
    | zero => exact absurd hfuel (Nat.not_succ_le_zero _)
    | succ n => rw [nBuffersFrom, hn]; rfl
  | next hn _ ih =>
    cases n with
    | zero => exact absurd hfuel (Nat.not_succ_le_zero _)
    | succ n => rw [nBuffersFrom, if_pos hn, ih (Nat.le_of_succ_le_succ hfuel)]; rfl

def bytesAt (data : Int → UInt8) (start : Int) (n : Nat) :
    List UInt8 := (List.range n).map fun k : Nat => data (start + k)

def VlibBuffer.bytes (b : VlibBuffer) : List UInt8 := bytesAt b.data b.currentData b.currentLength

def contents (vm : VlibMain) (c : List Nat) : List UInt8 := c.flatMap fun b => (vm.buffers b).bytes

theorem bytesAt_add (data : Int → UInt8) (start : Int) (m n : Nat) :
    bytesAt data start (m + n) = bytesAt data start m ++ bytesAt data (start + m) n := by
  unfold bytesAt
  rw [range_add, map_append, List.map_map]
  congr 2
  funext k
  exact congrArg data (by simp [Int.add_assoc])

theorem bytesAt_memcpy (dst src : Int → UInt8) (o : Int) (n : Nat) :
    bytesAt (memcpy dst o src o n) o n = bytesAt src o n := by
  apply map_congr_left
  intro k hk
  have hk := mem_range.mp hk
  rw [memcpy, if_pos ⟨by omega, by omega⟩]
  exact congrArg src (by omega)

theorem length_bytes (b : VlibBuffer) : b.bytes.length = b.currentLength := by
  rw [VlibBuffer.bytes, bytesAt, length_map, length_range]

def VlibBuffer.body (b : VlibBuffer) : VlibBuffer := { b with nAddRefs := 0 }

theorem VlibBuffer.of_body {p : VlibBuffer → α} (hp : ∀ b, p b.body = p b) {b b' : VlibBuffer}
    (h : b.body = b'.body) : p b = p b' := (hp b).symm.trans ((congrArg p h).trans (hp b'))

/-- The buffers of `c` are the same but for references. -/
def SameOn (vm vm' : VlibMain) (c : List Nat) : Prop := ∀ b ∈ c, (vm'.buffers b).body = (vm.buffers b).body

theorem SameOn.tail (h : SameOn vm vm' (i :: c)) : SameOn vm vm' c := fun b hb => h b (mem_cons_of_mem i hb)

theorem SameOn.flags (h : SameOn vm vm' c) (hb : b ∈ c) : (vm'.buffers b).flags = (vm.buffers b).flags :=
  VlibBuffer.of_body (p := VlibBuffer.flags) (fun _ => rfl) (h b hb)

theorem SameOn.nextBuffer (h : SameOn vm vm' c) (hb : b ∈ c) :
    (vm'.buffers b).nextBuffer = (vm.buffers b).nextBuffer := VlibBuffer.of_body (p := VlibBuffer.nextBuffer)
    (fun _ => rfl) (h b hb)

theorem IsChain.links (h : IsChain vm i c) (hl : ∀ b ∈ c,
    (vm'.buffers b).flags.nextPresent = (vm.buffers b).flags.nextPresent ∧
      (vm'.buffers b).nextBuffer = (vm.buffers b).nextBuffer) : IsChain vm' i c := by
  induction h with
  | last hn => exact .last ((hl _ (mem_singleton.mpr rfl)).1.trans hn)
  | next hn _ ih =>
    obtain ⟨hn', hnext⟩ := hl _ mem_cons_self
    exact .next (hn'.trans hn) (hnext ▸ ih fun b hb => hl b (mem_cons_of_mem _ hb))

theorem IsChain.same (h : IsChain vm i c) (hs : SameOn vm vm' c) : IsChain vm' i c :=
  h.links fun _ hb => ⟨congrArg BufferFlags.nextPresent (hs.flags hb), hs.nextBuffer hb⟩

theorem contents_same (hs : SameOn vm vm' c) : contents vm' c = contents vm c := by
  apply flatMap_congr
  intro b hb
  exact VlibBuffer.of_body (p := VlibBuffer.bytes) (fun _ => rfl) (hs b hb)

@[simp] theorem modify_buffers_self (vm : VlibMain) (i : Nat) (g : VlibBuffer → VlibBuffer) :
    (vm.modify i g).buffers i = g (vm.buffers i) := update_self ..

theorem modify_buffers_ne (hb : b ≠ i) : (vm.modify i g).buffers b = vm.buffers b := update_of_ne hb ..

theorem addToFreeList_buffers_self (vm : VlibMain) (i : Nat) : (vlibBufferAddToFreeList vm i).buffers i =
    vlibBufferInitForFreeList (vm.buffers i) vm.bufferInitTemplate := update_self ..

theorem addToFreeList_buffers_ne (hb : b ≠ i) : (vlibBufferAddToFreeList vm i).buffers b = vm.buffers b :=
  update_of_ne hb ..

theorem modifyChain_spec {g : VlibBuffer → VlibBuffer} (hg : ∀ b, (g b).body = b.body) (h : IsChain vm i c)
    (hfuel : c.length ≤ n) :
    (∀ b, (modifyChain g n vm i).buffers b = if b ∈ c then g (vm.buffers b) else vm.buffers b) ∧
    (modifyChain g n vm i).freeList = vm.freeList ∧ (modifyChain g n vm i).nBuffers = vm.nBuffers ∧
    (modifyChain g n vm i).bufferInitTemplate = vm.bufferInitTemplate := by
  have hflags (b) : (g b).flags = b.flags := VlibBuffer.of_body (p := VlibBuffer.flags) (fun _ => rfl) (hg b)
  induction n generalizing vm i c with
  | zero =>
    cases h <;> exact absurd hfuel (Nat.not_succ_le_zero _)
  | succ n ih =>
    rw [modifyChain, modify_buffers_self, hflags]
    cases h with
    | last hn =>
      rw [hn]
      refine ⟨?_, rfl, rfl, rfl⟩
      intro b
      by_cases hb : b = i
      · rw [hb, if_pos (mem_singleton.mpr rfl)]
        exact modify_buffers_self ..
      · rw [if_neg fun hm => hb (mem_singleton.mp hm)]
        exact modify_buffers_ne hb
    | next hn h =>
      have hnot := (nodup_cons.mp (IsChain.next hn h).nodup).1
      have hnext : (g (vm.buffers i)).nextBuffer = (vm.buffers i).nextBuffer := 
        VlibBuffer.of_body (p := VlibBuffer.nextBuffer) (fun _ => rfl) (hg _)
      have hsame {b} (hb : b ≠ i) : (vm.modify i g).buffers b = vm.buffers b := modify_buffers_ne hb
      have hon : SameOn vm (vm.modify i g) _ := fun b hb => by rw [hsame fun he => hnot (he ▸ hb)]
      have hrest := ih (h.same hon) (Nat.le_of_succ_le_succ hfuel)
      rw [if_pos hn, hnext]
      refine ⟨?_, hrest.2.1, hrest.2.2.1, hrest.2.2.2⟩
      intro b
      rw [hrest.1]
      by_cases hb : b = i
      · rw [hb, if_neg hnot, if_pos mem_cons_self]
        exact modify_buffers_self ..
      · rw [hsame hb]
        simp only [mem_cons, hb, false_or]

def freed (vm : VlibMain) (b : VlibBuffer) : VlibBuffer :=
  if b.nAddRefs ≠ 0 then { b with nAddRefs := b.nAddRefs - 1 } else vlibBufferInitForFreeList b vm.bufferInitTemplate

theorem freeChain_spec (h : IsChain vm i c) (hfuel : c.length ≤ n) :
    (∀ b, (freeChain n vm i).buffers b = if b ∈ c then freed vm (vm.buffers b) else vm.buffers b) ∧
    (freeChain n vm i).freeList = vm.freeList ++ c.filter (fun b => (vm.buffers b).nAddRefs = 0) ∧
    (freeChain n vm i).nBuffers = vm.nBuffers ∧
    (freeChain n vm i).bufferInitTemplate = vm.bufferInitTemplate := by
  induction n generalizing vm i c with
  | zero =>
    cases h <;> exact absurd hfuel (Nat.not_succ_le_zero _)
  | succ n ih =>
    rw [freeChain]
    -- the first buffer
    obtain ⟨vm₁, hvm, hself, hother, hlist, hn₁, ht₁⟩ : ∃ vm₁ : VlibMain,
        (if (vm.buffers i).nAddRefs ≠ 0 then vm.modify i fun b => { b with nAddRefs := b.nAddRefs - 1 }
          else vlibBufferAddToFreeList vm i) = vm₁ ∧
        vm₁.buffers i = freed vm (vm.buffers i) ∧ (∀ b, b ≠ i → vm₁.buffers b = vm.buffers b) ∧
        vm₁.freeList = vm.freeList ++ [i].filter (fun b => (vm.buffers b).nAddRefs = 0) ∧
        vm₁.nBuffers = vm.nBuffers ∧ vm₁.bufferInitTemplate = vm.bufferInitTemplate := by
      refine ⟨_, rfl, ?_⟩
      by_cases hr : (vm.buffers i).nAddRefs = 0
      · rw [if_neg (not_not.mpr hr), freed, if_neg (not_not.mpr hr), filter_singleton, decide_eq_true hr]
        exact ⟨addToFreeList_buffers_self vm i, fun b hb => addToFreeList_buffers_ne hb, rfl, rfl, rfl⟩
      · rw [if_pos hr, freed, if_pos hr, filter_singleton, decide_eq_false hr]
        exact ⟨modify_buffers_self .., fun b hb => modify_buffers_ne hb, (append_nil _).symm, rfl, rfl⟩
    rw [hvm]
    cases h with
    | last hn =>
      rw [hn]
      refine ⟨?_, hlist, hn₁, ht₁⟩
      intro b
      by_cases hb : b = i
      · rw [hb, if_pos (mem_singleton.mpr rfl)]
        exact hself
      · rw [if_neg fun hm => hb (mem_singleton.mp hm)]
        exact hother b hb
    | @next _ c hn h =>
      have hnot := (nodup_cons.mp (IsChain.next hn h).nodup).1
      have hsame {b} (hb : b ∈ c) : vm₁.buffers b = vm.buffers b := hother b fun he => hnot (he ▸ hb)
      obtain ⟨hbuf, hfree, hn₂, ht₂⟩ := ih (h.same fun b hb => by rw [hsame hb]) (Nat.le_of_succ_le_succ hfuel)
      rw [if_pos hn]
      refine ⟨?_, ?_, hn₂.trans hn₁, ht₂.trans ht₁⟩
      · intro b
        rw [hbuf]
        by_cases hb : b = i
        · rw [hb, if_neg hnot, if_pos mem_cons_self]
          exact hself
        · rw [hother b hb, freed, ht₁]
          simp only [mem_cons, hb, false_or]
          rfl
      · have hfilter : c.filter (fun b => (vm₁.buffers b).nAddRefs = 0) =
            c.filter (fun b => (vm.buffers b).nAddRefs = 0) := by
          apply filter_congr
          intro b hb
          rw [hsame hb]
        rw [hfree, hlist, hfilter, List.append_assoc, ← filter_append, singleton_append]

end Vpp.Vlib
