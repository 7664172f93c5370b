import Vpp.Infra.Bitops
import Vpp.Lib.Ranked

namespace Vpp.Infra
open Vpp.Lib Function List BitVec Option

/-- A sparsely indexed vector: the header and the elements, the first of which stands for an invalid index. -/
structure SparseVec (α : Type) where
  isMemberBitmap : List (BitVec 64)
  memberCounts : List (BitVec 16)
  rangeFlags : List (BitVec 8)
  elts : List α

def sparseVecInvalidIndex : Nat := 0

def sparseVecIsRange : BitVec 8 := 1 <<< 0
def sparseVecIsValidRange : BitVec 8 := 1 <<< 1

def sparseVecNew (zero : α) (sparseIndexBits : Nat) : SparseVec α :=
  let n := 1 <<< (sparseIndexBits - 6)
  { isMemberBitmap := List.replicate n 0
    memberCounts := List.replicate n 0
    rangeFlags := []
    elts := [zero] }

def memberBit (sparseIndex : Nat) : BitVec 64 := 1 <<< (sparseIndex % 64)

/-- The index in the vector, and, for an insertion, whether the member is new and the header with it. -/
def sparseVecIndexInternal (v : SparseVec α) (sparseIndex : Nat) (maybeRange : BitVec 64) (insert : Bool) :
    BitVec 64 × Bool × SparseVec α :=
  let i := sparseIndex / 64
  let b := memberBit sparseIndex
  let w := v.isMemberBitmap.getD i 0
  let d := (v.memberCounts.getD i 0).setWidth 64 + countSetBits (w &&& (b - 1))
  let isMember : Bool := w &&& b ≠ 0
  let isMember : Bool :=
    if maybeRange ≠ 0 then
      let r := v.rangeFlags.getD d.toNat 0
      let isRange := (maybeRange &&& (r &&& sparseVecIsRange).setWidth 64).setWidth 8
      let isValidRange : Bool := r &&& sparseVecIsValidRange ≠ 0
      if isRange ≠ 0 then isValidRange else isMember
    else isMember
  if insert then
    let v :=
      if isMember then v
      else
        { v with
          isMemberBitmap := v.isMemberBitmap.set i (w ||| b)
          memberCounts := v.memberCounts.mapIdx fun j c => if i < j then c + 1 else c }
    (1 + d, !isMember, v)
  else
    let d := if isMember then d else 0
    (isMember.toNat + d, false, v)

def sparseVecIndex (v : SparseVec α) (sparseIndex : Nat) : BitVec 64 :=
  (sparseVecIndexInternal v sparseIndex 0 false).1

/-- Two indices at a time: the masks are taken to have at most one bit set, unless one has more. -/
def sparseVecIndex2 (v : SparseVec α) (si0 si1 : BitVec 32) : BitVec 32 × BitVec 32 :=
  let i0 := si0.toNat / 64
  let i1 := si1.toNat / 64
  let b0 := memberBit si0.toNat
  let b1 := memberBit si1.toNat
  let w0 := v.isMemberBitmap.getD i0 0
  let w1 := v.isMemberBitmap.getD i1 0
  let v0 := w0 &&& (b0 - 1)
  let v1 := w1 &&& (b1 - 1)
  let guess0 : Nat := (v0 ≠ 0 : Bool).toNat
  let guess1 : Nat := (v1 ≠ 0 : Bool).toNat
  let d0 : BitVec 32 := (v.memberCounts.getD i0 0).setWidth 32 + guess0
  let d1 : BitVec 32 := (v.memberCounts.getD i1 0).setWidth 32 + guess1
  let wrong := !isPow2 v0 || !isPow2 v1
  let d0 := if wrong then d0 + (countSetBits v0 - guess0).setWidth 32 else d0
  let d1 := if wrong then d1 + (countSetBits v1 - guess1).setWidth 32 else d1
  let isMember0 : Bool := w0 &&& b0 ≠ 0
  let isMember1 : Bool := w1 &&& b1 ≠ 0
  let d0 := if isMember0 then d0 else 0
  let d1 := if isMember1 then d1 else 0
  (isMember0.toNat + d0, isMember1.toNat + d1)

def sparseVecValidate (zero : α) (v : Option (SparseVec α)) (i : Nat) : Nat × SparseVec α :=
  let v := v.getD (sparseVecNew zero 16)
  let (index, insert, v) := sparseVecIndexInternal v i 0 true
  (index.toNat, if insert then { v with elts := v.elts.insertIdx index.toNat zero } else v)

def sparseVecStore (zero : α) (v : SparseVec α) (i : BitVec 16) (x : α) : SparseVec α :=
  let (index, v) := sparseVecValidate zero (some v) i.toNat
  { v with elts := v.elts.set index x }

theorem memberBit_eq (i : Nat) : memberBit i = BitVec.twoPow 64 (i % 64) := (twoPow_eq 64 (i % 64)).symm

theorem and_memberBit (w : BitVec 64) (i : Nat) : decide (w &&& memberBit i ≠ 0) = w.getLsbD (i % 64) := by
  have hlt : i % 64 < 64 := Nat.mod_lt i (by decide)
  have hne : BitVec.twoPow 64 (i % 64) ≠ 0#64 := by
    intro h
    have hbit := congrArg (fun x : BitVec 64 => x.getLsbD (i % 64)) h
    simp [hlt] at hbit
  rw [memberBit_eq, and_twoPow]
  by_cases hw : w.getLsbD (i % 64)
  · rw [if_pos hw, hw]
    exact decide_eq_true hne
  · rw [if_neg hw, Bool.eq_false_of_not_eq_true hw]
    rfl

theorem getLsbD_or_memberBit (w : BitVec 64) (i k : Nat) :
    (w ||| memberBit i).getLsbD k = (w.getLsbD k || decide (k = i % 64)) := by
  have hlt : i % 64 < 64 := Nat.mod_lt i (by decide)
  rw [memberBit_eq, getLsbD_or, getLsbD_twoPow]
  simp [hlt, eq_comm]

theorem toNat_memberBit_sub (i : Nat) : (memberBit i - 1).toNat = 2 ^ (i % 64) - 1 := by
  have hbit : (memberBit i).toNat = 2 ^ (i % 64) := by
    rw [memberBit_eq, toNat_twoPow_of_lt (Nat.mod_lt i (by decide))]
  have hle : 1 ≤ memberBit i := by
    rw [le_def, hbit]
    exact Nat.two_pow_pos _
  rw [toNat_sub_of_le hle, hbit]
  rfl

theorem countSetBits_below (w : BitVec 64) (i : Nat) :
    (countSetBits (w &&& (memberBit i - 1))).toNat = Nat.count (fun k => w.getLsbD k) (i % 64) := by
  have hbit (k : Nat) : (w &&& (memberBit i - 1)).getLsbD k = true ↔ w.getLsbD k = true ∧ k < i % 64 := by
    rw [getLsbD_and, BitVec.getLsbD, BitVec.getLsbD, toNat_memberBit_sub, Nat.testBit_two_pow_sub_one,
      Bool.and_eq_true, decide_eq_true_iff]
  rw [countSetBits_eq, ← count_below (Nat.le_of_lt (Nat.mod_lt i (by decide)))]
  exact count_congr fun k _ => hbit k

namespace SparseVec

def isMember (v : SparseVec α) (i : Nat) : Bool := (v.isMemberBitmap.getD (i / 64) 0).getLsbD (i % 64)

/-- The members below an index: the count of its word, and the bits below its own. -/
def membersBelow (v : SparseVec α) (i : Nat) : Nat :=
  (v.memberCounts.getD (i / 64) 0).toNat + Nat.count (fun k => (v.isMemberBitmap.getD (i / 64) 0).getLsbD k) (i % 64)

def indexOf (v : SparseVec α) (i : Nat) : Nat := if v.isMember i then 1 + v.membersBelow i else sparseVecInvalidIndex

def position (v : SparseVec α) (i : Nat) : BitVec 64 :=
  (v.memberCounts.getD (i / 64) 0).setWidth 64 + countSetBits (v.isMemberBitmap.getD (i / 64) 0 &&& (memberBit i - 1))

def withMember (v : SparseVec α) (i : Nat) : SparseVec α :=
  { v with
    isMemberBitmap := v.isMemberBitmap.set (i / 64) (v.isMemberBitmap.getD (i / 64) 0 ||| memberBit i)
    memberCounts := v.memberCounts.mapIdx fun j c => if i / 64 < j then c + 1 else c }

end SparseVec

variable (v : SparseVec α)

theorem sparseVecIndexInternal_lookup (i : Nat) :
    sparseVecIndexInternal v i 0 false
      = ((v.isMember i).toNat + (if v.isMember i then v.position i else 0), false, v) := by
  rw [SparseVec.isMember, ← and_memberBit]
  rfl

theorem sparseVecIndexInternal_insert (i : Nat) :
    sparseVecIndexInternal v i 0 true
      = (1 + v.position i, !v.isMember i, if v.isMember i then v else v.withMember i) := by
  rw [SparseVec.isMember, ← and_memberBit]
  rfl

theorem toNat_position (i : Nat) : (v.position i).toNat = v.membersBelow i := by
  have hcount := (v.memberCounts.getD (i / 64) 0).isLt
  have hbelow := countSetBits_below (v.isMemberBitmap.getD (i / 64) 0) i
  have hle := Nat.count_le (fun k => (v.isMemberBitmap.getD (i / 64) 0).getLsbD k = true) (n := i % 64)
  have hwide : ((v.memberCounts.getD (i / 64) 0).setWidth 64).toNat = (v.memberCounts.getD (i / 64) 0).toNat := by
    rw [toNat_setWidth]
    omega
  have hlt : i % 64 < 64 := Nat.mod_lt i (by decide)
  rw [SparseVec.position, toNat_add_of_lt, hwide, hbelow, SparseVec.membersBelow]
  omega

theorem membersBelow_lt (i : Nat) : v.membersBelow i < 2 ^ 16 + 64 := by
  have hcount := (v.memberCounts.getD (i / 64) 0).isLt
  have hle := Nat.count_le (fun k => (v.isMemberBitmap.getD (i / 64) 0).getLsbD k = true) (n := i % 64)
  have hlt : i % 64 < 64 := Nat.mod_lt i (by decide)
  rw [SparseVec.membersBelow]
  omega

theorem sparseVecIndex_eq (i : Nat) : (sparseVecIndex v i).toNat = v.indexOf i := by
  have hposition := toNat_position v i
  have hlt := membersBelow_lt v i
  rw [sparseVecIndex, sparseVecIndexInternal_lookup, SparseVec.indexOf]
  cases v.isMember i with
  | false => rfl
  | true =>
    have hone : ((true.toNat : Nat) : BitVec 64).toNat = 1 := by decide
    rw [if_pos rfl, if_pos rfl, toNat_add_of_lt, hone, hposition]
    rw [hone, hposition]
    omega

theorem toNat_guessed (c : BitVec 16) {x : BitVec 64} {wrong : Bool} (h : wrong = false → isPow2 x = true) :
    (if wrong = true then
      c.setWidth 32 + ((decide (x ≠ 0)).toNat : BitVec 32) +
          (countSetBits x - ((decide (x ≠ 0)).toNat : BitVec 64)).setWidth 32
    else c.setWidth 32 + ((decide (x ≠ 0)).toNat : BitVec 32)).toNat = c.toNat + (countSetBits x).toNat := by
  have hc := c.isLt
  have hguess := Bool.toNat_le (decide (x ≠ 0))
  have hcount : (countSetBits x).toNat ≤ 64 := by
    rw [countSetBits_eq]
    exact Nat.count_le _
  cases wrong with
  | true =>
    rw [if_pos rfl]
    simp only [toNat_add, toNat_sub, toNat_setWidth, natCast_eq_ofNat, toNat_ofNat]
    omega
  | false =>
    have hone := countSetBits_of_isPow2 (h rfl)
    rw [if_neg Bool.false_ne_true, hone]
    simp only [toNat_add, toNat_setWidth, natCast_eq_ofNat, toNat_ofNat]
    omega

theorem toNat_member {x : BitVec 32} {isMember : Bool} {n : Nat} (hx : x.toNat = n) (hn : n < 2 ^ 17) :
    (((isMember.toNat : Nat) : BitVec 32) + if isMember then x else 0).toNat = if isMember then 1 + n else 0 := by
  cases isMember with
  | false => rfl
  | true =>
    have hone : ((true.toNat : Nat) : BitVec 32).toNat = 1 := by decide
    rw [if_pos rfl, if_pos rfl, toNat_add, hone, hx]
    omega

theorem sparseVecIndex2_eq (si0 si1 : BitVec 32) :
    (sparseVecIndex2 v si0 si1).1.toNat = v.indexOf si0.toNat ∧
        (sparseVecIndex2 v si0 si1).2.toNat = v.indexOf si1.toNat := by
  have hguessed (i : Nat) {wrong : Bool}
      (h : wrong = false → isPow2 (v.isMemberBitmap.getD (i / 64) 0 &&& (memberBit i - 1)) = true) :=
    (toNat_guessed (v.memberCounts.getD (i / 64) 0) h).trans (congrArg _ (countSetBits_below _ i))
  have hlt (i : Nat) : v.membersBelow i < 2 ^ 17 := Nat.lt_trans (membersBelow_lt v i) (by decide)
  constructor
  · rw [SparseVec.indexOf, SparseVec.isMember, ← and_memberBit]
    apply toNat_member _ (hlt si0.toNat)
    apply hguessed
    intro hwrong
    simpa using (Bool.or_eq_false_iff.1 hwrong).1
  · rw [SparseVec.indexOf, SparseVec.isMember, ← and_memberBit]
    apply toNat_member _ (hlt si1.toNat)
    apply hguessed
    intro hwrong
    simpa using (Bool.or_eq_false_iff.1 hwrong).2

namespace SparseVec

/-- The vector holds the values of a map from 16-bit indices. -/
structure Represents (v : SparseVec α) (m : Nat → Option α) : Prop where
  bitmap_length : v.isMemberBitmap.length = 1024
  counts_length : v.memberCounts.length = 1024
  member : ∀ i < 2 ^ 16, v.isMember i = (m i).isSome
  count : ∀ j < 1024, (v.memberCounts.getD j 0).toNat = rank m (64 * j)
  elts : ∃ invalid body, v.elts = invalid :: body ∧ Ranked body m (2 ^ 16)

variable {v : SparseVec α} {m : Nat → Option α}

theorem Represents.membersBelow_eq (h : v.Represents m) {i : Nat} (hi : i < 2 ^ 16) : v.membersBelow i = rank m i := by
  have hword : i / 64 < 1024 := Nat.div_lt_of_lt_mul hi
  have hsplit : rank m i = rank m (64 * (i / 64)) + Nat.count (fun k => (m (64 * (i / 64) + k)).isSome) (i % 64) := by
    rw [rank, rank, ← Nat.count_add, Nat.div_add_mod]
  rw [membersBelow, h.count _ hword, hsplit]
  congr 1
  apply count_congr
  intro k hk
  have hlt : i % 64 < 64 := Nat.mod_lt i (by decide)
  have hdiv : (64 * (i / 64) + k) / 64 = i / 64 := by omega
  have hmod : (64 * (i / 64) + k) % 64 = k := by omega
  have hmember := h.member (64 * (i / 64) + k) (by omega)
  rw [isMember, hdiv, hmod] at hmember
  rw [hmember]

theorem Represents.indexOf_eq (h : v.Represents m) {i : Nat} (hi : i < 2 ^ 16) :
    v.indexOf i = if (m i).isSome then 1 + rank m i else 0 := by
  rw [indexOf, h.member i hi, h.membersBelow_eq hi]
  rfl

theorem represents_new (zero : α) : (sparseVecNew zero 16).Represents fun _ => none where
  bitmap_length := length_replicate
  counts_length := length_replicate
  member i _ := by
    have hzero : (sparseVecNew zero 16).isMemberBitmap.getD (i / 64) 0 = 0 := by
      rw [sparseVecNew, getD_eq_getElem?_getD, getElem?_getD_replicate_default_eq]
    rw [isMember, hzero]
    exact getLsbD_zero
  count j _ := by
    have hzero : (sparseVecNew zero 16).memberCounts.getD j 0 = 0 := by
      rw [sparseVecNew, getD_eq_getElem?_getD, getElem?_getD_replicate_default_eq]
    rw [hzero, rank_empty]
    rfl
  elts := ⟨zero, [], rfl, Ranked.empty _⟩

theorem isMember_withMember (hlen : v.isMemberBitmap.length = 1024) {i k : Nat} (hi : i < 2 ^ 16) :
    (v.withMember i).isMember k = (v.isMember k || decide (k = i)) := by
  have hword : i / 64 < v.isMemberBitmap.length := hlen ▸ Nat.div_lt_of_lt_mul hi
  by_cases hk : k / 64 = i / 64
  · have hsame : k % 64 = i % 64 ↔ k = i := by omega
    rw [isMember, isMember, withMember, hk, getD_eq_getElem?_getD, getElem?_set_self hword, getD_some,
      getLsbD_or_memberBit]
    simp only [hsame]
  · have hne : k ≠ i := fun h => hk (h ▸ rfl)
    rw [isMember, isMember, withMember, getD_eq_getElem?_getD, getElem?_set_ne (Ne.symm hk),
      ← getD_eq_getElem?_getD, decide_eq_false hne, Bool.or_false]

theorem counts_withMember (h : v.Represents m) {i j : Nat} (hi : m i = none) (hj : j < 1024) (x : α) :
    ((v.withMember i).memberCounts.getD j 0).toNat = rank (update m i (some x)) (64 * j) := by
  have hlt : j < v.memberCounts.length := h.counts_length ▸ hj
  have hcount := h.count j hj
  rw [getD_eq_getElem?_getD, List.getElem?_eq_getElem hlt, getD_some] at hcount
  rw [withMember, getD_eq_getElem?_getD, getElem?_mapIdx, List.getElem?_eq_getElem hlt, map_some,
    getD_some, rank_update_of_none hi, ← hcount]
  have hbelow : i / 64 < j ↔ i < 64 * j := by omega
  by_cases hij : i < 64 * j
  · have hroom : rank m (64 * j) ≤ 64 * j := Nat.count_le _
    rw [if_pos (hbelow.2 hij), if_pos hij, toNat_add]
    apply Nat.mod_eq_of_lt
    rw [hcount]
    exact Nat.lt_of_le_of_lt (Nat.succ_le_succ hroom) (by omega)
  · rw [if_neg (fun h => hij (hbelow.1 h)), if_neg hij, Nat.add_zero]

theorem Represents.withMember (h : v.Represents m) {i : Nat} (hlt : i < 2 ^ 16) (hi : m i = none) (x : α)
    {invalid : α} {body : List α} (hbody : Ranked body (update m i (some x)) (2 ^ 16)) :
    SparseVec.Represents { v.withMember i with elts := invalid :: body } (update m i (some x)) where
  bitmap_length := length_set.trans h.bitmap_length
  counts_length := length_mapIdx.trans h.counts_length
  member k hk := by
    apply Eq.trans (isMember_withMember h.bitmap_length hlt)
    rw [h.member k hk]
    by_cases hki : k = i
    · rw [hki, update_self, decide_eq_true rfl, Bool.or_true]
      rfl
    · rw [update_of_ne hki, decide_eq_false hki, Bool.or_false]
  count j hj := counts_withMember h hi hj x
  elts := ⟨invalid, body, rfl, hbody⟩

theorem Represents.withElts (h : v.Represents m) {i : Nat} (hi : (m i).isSome) (x : α)
    {invalid : α} {body : List α} (hbody : Ranked body (update m i (some x)) (2 ^ 16)) :
    SparseVec.Represents { v with elts := invalid :: body } (update m i (some x)) where
  bitmap_length := h.bitmap_length
  counts_length := h.counts_length
  member k hk := by
    apply Eq.trans (h.member k hk)
    by_cases hki : k = i
    · rw [hki, update_self, hi]
      rfl
    · rw [update_of_ne hki]
  count j hj := by
    rw [rank_update_of_some hi]
    exact h.count j hj
  elts := ⟨invalid, body, rfl, hbody⟩

theorem store_of_member (zero : α) {i : BitVec 16} (h : v.isMember i.toNat = true) (x : α) :
    sparseVecStore zero v i x = { v with elts := v.elts.set (1 + v.position i.toNat).toNat x } := by
  rw [sparseVecStore, sparseVecValidate, getD_some, sparseVecIndexInternal_insert, h]
  rfl

theorem store_of_new (zero : α) {i : BitVec 16} (h : v.isMember i.toNat = false) (x : α) :
    sparseVecStore zero v i x
      = { v.withMember i.toNat with
          elts := (v.elts.insertIdx (1 + v.position i.toNat).toNat zero).set (1 + v.position i.toNat).toNat x } := by
  rw [sparseVecStore, sparseVecValidate, getD_some, sparseVecIndexInternal_insert, h]
  rfl

theorem Represents.store (zero : α) (h : v.Represents m) (i : BitVec 16) (x : α) :
    (sparseVecStore zero v i x).Represents (update m i.toNat (some x)) := by
  have hlt := i.isLt
  obtain ⟨invalid, body, helts, hbody⟩ := h.elts
  have hmember := h.member _ hlt
  have hposition : (1 + v.position i.toNat).toNat = rank m i.toNat + 1 := by
    have hroom := membersBelow_lt v i.toNat
    have hone : (1 : BitVec 64).toNat = 1 := rfl
    rw [toNat_add_of_lt, toNat_position, h.membersBelow_eq hlt, hone, Nat.add_comm]
    rw [toNat_position, hone]
    omega
  cases hi : m i.toNat with
  | some y =>
    rw [hi] at hmember
    have hsome : (m i.toNat).isSome := hi ▸ rfl
    rw [store_of_member zero hmember, hposition, helts, set_cons_succ]
    exact h.withElts hsome x (hbody.set hlt hsome x)
  | none =>
    rw [hi] at hmember
    rw [store_of_new zero hmember, hposition, helts, insertIdx_succ_cons, set_cons_succ, set_insertIdx_self]
    exact h.withMember hlt hi x (hbody.insert hlt hi x)

end SparseVec

def sparseVecRun (zero : α) (ops : List (BitVec 16 × α)) : SparseVec α :=
  ops.foldl (fun v op => sparseVecStore zero v op.1 op.2) (sparseVecNew zero 16)

def lastStored (ops : List (BitVec 16 × α)) : Nat → Option α :=
  ops.foldl (fun m op => update m op.1.toNat (some op.2)) fun _ => none

theorem represents_run (zero : α) (ops : List (BitVec 16 × α)) :
    (sparseVecRun zero ops).Represents (lastStored ops) := by
  induction ops using List.reverseRecOn with
  | nil => exact SparseVec.represents_new zero
  | append_singleton ops op ih =>
    rw [sparseVecRun, lastStored, foldl_concat, foldl_concat]
    exact ih.store zero op.1 op.2

/-- **Refinement of a map**: after any run of stores, the index of a stored key is that of the value last stored for
it, any other key has none, indices grow with their keys, and two keys are looked up as each alone. -/
theorem sparseVec_refines (zero : α) (ops : List (BitVec 16 × α)) :
    let v := sparseVecRun zero ops
    (∀ (i : BitVec 16) (x : α), lastStored ops i.toNat = some x →
        (sparseVecIndex v i.toNat).toNat ≠ sparseVecInvalidIndex ∧ v.elts[(sparseVecIndex v i.toNat).toNat]? = some x)
      ∧ (∀ i : BitVec 16, lastStored ops i.toNat = none → (sparseVecIndex v i.toNat).toNat = sparseVecInvalidIndex)
      ∧ (∀ i j : BitVec 16, (lastStored ops i.toNat).isSome → (lastStored ops j.toNat).isSome → i < j →
        sparseVecIndex v i.toNat < sparseVecIndex v j.toNat)
      ∧ ∀ i j : BitVec 16, (sparseVecIndex2 v (i.setWidth 32) (j.setWidth 32)).1.toNat =
          (sparseVecIndex v i.toNat).toNat
        ∧ (sparseVecIndex2 v (i.setWidth 32) (j.setWidth 32)).2.toNat = (sparseVecIndex v j.toNat).toNat := by
  intro v
  have h := represents_run zero ops
  have hindex (i : BitVec 16) :
      (sparseVecIndex v i.toNat).toNat = if (lastStored ops i.toNat).isSome then 1 + rank (lastStored ops) i.toNat
          else 0 :=
    (sparseVecIndex_eq v i.toNat).trans (h.indexOf_eq i.isLt)
  refine ⟨?_, ?_, ?_, ?_⟩
  · intro i x hx
    obtain ⟨invalid, body, helts, hbody⟩ := h.elts
    rw [hindex, hx, isSome_some, if_pos rfl, helts, Nat.add_comm, getElem?_cons_succ]
    exact ⟨Nat.succ_ne_zero _, hbody.getElem_rank _ x i.isLt hx⟩
  · intro i hi
    rw [hindex, hi]
    rfl
  · intro i j hi hj hij
    rw [lt_def, hindex, hindex, if_pos hi, if_pos hj]
    exact Nat.add_lt_add_left (rank_lt hi (lt_def.1 hij)) 1
  · intro i j
    have hwide (k : BitVec 16) : (k.setWidth 32).toNat = k.toNat := by
      rw [toNat_setWidth]
      exact Nat.mod_eq_of_lt (Nat.lt_trans k.isLt (by decide))
    obtain ⟨hfst, hsnd⟩ := sparseVecIndex2_eq v (i.setWidth 32) (j.setWidth 32)
    rw [hwide] at hfst hsnd
    exact ⟨hfst.trans (sparseVecIndex_eq v i.toNat).symm, hsnd.trans (sparseVecIndex_eq v j.toNat).symm⟩

end Vpp.Infra
