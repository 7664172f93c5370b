import Mathlib.Algebra.BigOperators.Group.Finset.Piecewise
import Mathlib.Data.BitVec
import Mathlib.Tactic.Ring
import Vpp.Lib.Pool

namespace Vpp.Mtrie
open Vpp.Lib Function

/-- A leaf: `1 + 2 * adjIndex` for a terminal, `2 * plyIndex` for the next ply. -/
abbrev Leaf := Nat

def leafEmpty : Leaf := 1 + 2 * 0

def leafRoot : Leaf := 0 + 2 * 0

def leafIsTerminal (n : Leaf) : Bool := n &&& 1 = 1

def leafGetAdjIndex (n : Leaf) : Nat := n >>> 1

/-- Leaves are 32 bits wide: an index from 2 ^ 31 on loses its top bit. -/
def leafSetAdjIndex (adjIndex : Nat) : Leaf := (1 + 2 * adjIndex) % 2 ^ 32

def leafGetNextPlyIndex (n : Leaf) : Nat := n >>> 1

/-- There are always less than 2 ^ 31 plies. -/
def leafSetNextPlyIndex (i : Nat) : Leaf := 0 + 2 * i

/-- An address as the number that its bytes spell in network order. -/
abbrev Ip4Address := BitVec 32

def asU8 (a : Ip4Address) (k : Nat) : Nat := a.toNat / 2 ^ (24 - 8 * k) % 256

def fibMask (len : Nat) : Ip4Address :=
  if len < 32 then BitVec.ofNat 32 ((2 ^ len - 1) <<< (32 - len)) else ~~~0

/-- One ply, with the prefix length of each terminal leaf and the number of leaves that are not
empty. -/
structure Ply where
  leaves : Nat → Leaf
  dstAddressBitsOfLeaves : Nat → Nat
  nNonEmptyLeafs : Int
  deriving Inhabited

structure Mtrie where
  plyPool : Pool Ply
  defaultLeaf : Leaf

/-- Assign leaf `i` and its prefix length, and adjust the count. -/
def Ply.assign (p : Ply) (i : Nat) (leaf : Leaf) (bits : Nat) (n : Int) : Ply :=
  ⟨update p.leaves i leaf, update p.dstAddressBitsOfLeaves i bits,
    p.nNonEmptyLeafs + n⟩

def plyInit (init : Leaf) (prefixLen : Nat) : Ply :=
  ⟨fun _ => init, fun _ => prefixLen, if init = leafEmpty then 0 else 256⟩

def plyCreate (pool : Pool Ply) (initLeaf : Leaf) (prefixLen : Nat) : Pool Ply × Leaf :=
  let (pool, i) := pool.get
  (pool.set i (plyInit initLeaf prefixLen), leafSetNextPlyIndex i)

/-- The loop body that both set functions share: a terminal leaf that is not more specific is
replaced. -/
def replaceLeaf (newLeaf : Leaf) (newBits : Nat) (ply i : Nat) (pool : Pool Ply) : Pool Ply :=
  pool.modify ply fun p =>
    p.assign i newLeaf newBits (if p.leaves i = leafEmpty then 1 else 0)

/-- The recursion ends at the fourth ply, whose leaves are terminal; `d` plies are left. -/
def setPlyWithMoreSpecificLeaf (newLeaf : Leaf) (newBits : Nat) :
    (d : Nat) → (ply : Nat) → Pool Ply → Pool Ply
  | 0, _, pool => pool
  | d + 1, ply, pool =>
    (List.range 256).foldl (fun pool i =>
      let oldLeaf := (pool.eltAt ply).leaves i
      if leafIsTerminal oldLeaf = false then
        setPlyWithMoreSpecificLeaf newLeaf newBits d (leafGetNextPlyIndex oldLeaf) pool
      else if (pool.eltAt ply).dstAddressBitsOfLeaves i ≤ newBits then
        replaceLeaf newLeaf newBits ply i pool
      else pool) pool

structure SetUnsetLeafArgs where
  dstAddress : Ip4Address
  dstAddressLength : Nat
  adjIndex : Nat

def setLeaf (a : SetUnsetLeafArgs) : (d : Nat) → (oldPly k : Nat) → Pool Ply → Pool Ply
  | 0, _, _, pool => pool
  | d + 1, oldPly, k, pool =>
    let nDstBitsNextPlies : Int := a.dstAddressLength - 8 * (k + 1)
    let dstByte := asU8 a.dstAddress k
    if nDstBitsNextPlies ≤ 0 then
      (List.range' dstByte (1 <<< (-nDstBitsNextPlies).toNat)).foldl (fun pool i =>
        let oldLeaf := (pool.eltAt oldPly).leaves i
        if (pool.eltAt oldPly).dstAddressBitsOfLeaves i ≤ a.dstAddressLength then
          let newLeaf := leafSetAdjIndex a.adjIndex
          if leafIsTerminal oldLeaf then replaceLeaf newLeaf a.dstAddressLength oldPly i pool
          else setPlyWithMoreSpecificLeaf newLeaf a.dstAddressLength d
            (leafGetNextPlyIndex oldLeaf) pool
        else if leafIsTerminal oldLeaf = false then
          setLeaf a d (leafGetNextPlyIndex oldLeaf) (k + 1) pool
        else pool) pool
    else
      let oldLeaf := (pool.eltAt oldPly).leaves dstByte
      if leafIsTerminal oldLeaf then
        let (pool, newLeaf) :=
          plyCreate pool oldLeaf ((pool.eltAt oldPly).dstAddressBitsOfLeaves dstByte)
        let pool := pool.modify oldPly fun p =>
          p.assign dstByte newLeaf 0 (-(if oldLeaf = leafEmpty then 0 else 1) + 1)
        setLeaf a d (leafGetNextPlyIndex newLeaf) (k + 1) pool
      else setLeaf a d (leafGetNextPlyIndex oldLeaf) (k + 1) pool

/-- The loop of `unset_leaf` over the leaves that are left, with the recursive call as a parameter.
The flag says that the ply was deleted. -/
def unsetLeaves (recurse : Nat → Pool Ply → Pool Ply × Bool) (delLeaf : Leaf) (oldPly k : Nat) :
    List Nat → Pool Ply → Pool Ply × Bool
  | [], pool => (pool, false)
  | i :: is, pool =>
    let oldLeaf := (pool.eltAt oldPly).leaves i
    let (pool, hit) :=
      if oldLeaf = delLeaf then (pool, true)
      else if leafIsTerminal oldLeaf = false then recurse (leafGetNextPlyIndex oldLeaf) pool
      else (pool, false)
    if hit then
      let pool := pool.modify oldPly fun p => p.assign i leafEmpty 0 (-1)
      if (pool.eltAt oldPly).nNonEmptyLeafs = 0 ∧ k > 0 then (pool.put oldPly, true)
      else unsetLeaves recurse delLeaf oldPly k is pool
    else unsetLeaves recurse delLeaf oldPly k is pool

def unsetLeaf (a : SetUnsetLeafArgs) : (d : Nat) → (oldPly k : Nat) → Pool Ply → Pool Ply × Bool
  | 0, _, _, pool => (pool, false)
  | d + 1, oldPly, k, pool =>
    let nDstBitsNextPlies : Int := a.dstAddressLength - 8 * (k + 1)
    let dstByte := asU8 a.dstAddress k
    let dstByte := if nDstBitsNextPlies < 0
      then dstByte - dstByte % 2 ^ (-nDstBitsNextPlies).toNat else dstByte
    let nDstBitsThisPly := min 8 (-nDstBitsNextPlies).toNat
    unsetLeaves (fun ply pool => unsetLeaf a d ply (k + 1) pool) (leafSetAdjIndex a.adjIndex) oldPly k
      (List.range' dstByte (1 <<< nDstBitsThisPly)) pool

def ip4MtrieInit : Mtrie := ⟨(plyCreate .empty leafEmpty 0).1, leafEmpty⟩

def indexInvalid : Nat := 2 ^ 32 - 1

/-- The search for the next less specific route, from length `i` down. The parameter gives the
forwarding index of the entry that `fib_entry_by_dst_address` has for a length and a key. -/
def insertLessSpecific (fibEntry : Nat → Ip4Address → Option Nat) (dstAddress : Ip4Address) :
    Nat → Pool Ply → Pool Ply
  | 0, pool => pool
  | i + 1, pool =>
    let key := dstAddress &&& fibMask (i + 1)
    match fibEntry (i + 1) key with
    | some lbi =>
      if indexInvalid = lbi then insertLessSpecific fibEntry dstAddress i pool
      else setLeaf ⟨key, i + 1, lbi⟩ 4 0 0 pool
    | none => insertLessSpecific fibEntry dstAddress i pool

def ip4FibMtrieAddDelRoute (fibEntry : Nat → Ip4Address → Option Nat) (m : Mtrie)
    (dstAddress : Ip4Address) (dstAddressLength adjIndex : Nat) (isDel : Bool) : Mtrie :=
  let dstAddress := dstAddress &&& fibMask dstAddressLength
  let a : SetUnsetLeafArgs := ⟨dstAddress, dstAddressLength, adjIndex⟩
  if isDel = false then
    if dstAddressLength = 0 then { m with defaultLeaf := leafSetAdjIndex adjIndex }
    else { m with plyPool := setLeaf a 4 0 0 m.plyPool }
  else if dstAddressLength = 0 then { m with defaultLeaf := leafEmpty }
  else
    let pool := (unsetLeaf a 4 0 0 m.plyPool).1
    { m with plyPool := insertLessSpecific fibEntry dstAddress (dstAddressLength - 1) pool }

def ip4FibMtrieLookupStep (m : Mtrie) (currentLeaf : Leaf) (dstAddress : Ip4Address) (k : Nat) : Leaf :=
  if leafIsTerminal currentLeaf then currentLeaf
  else (m.plyPool.eltAt (currentLeaf >>> 1)).leaves (asU8 dstAddress k)

/-- The four steps of a forwarding node and its use of the default leaf. -/
def lookupLeaf (m : Mtrie) (dstAddress : Ip4Address) : Leaf :=
  let leaf := ip4FibMtrieLookupStep m leafRoot dstAddress 0
  let leaf := ip4FibMtrieLookupStep m leaf dstAddress 1
  let leaf := ip4FibMtrieLookupStep m leaf dstAddress 2
  let leaf := ip4FibMtrieLookupStep m leaf dstAddress 3
  if leaf = leafEmpty then m.defaultLeaf else leaf

@[simp] theorem leafIsTerminal_iff (n : Leaf) : leafIsTerminal n = true ↔ n % 2 = 1 := by
  simp [leafIsTerminal, Nat.and_one_is_mod]

@[simp] theorem leafIsTerminal_false (n : Leaf) : leafIsTerminal n = false ↔ n % 2 = 0 := by
  rw [← Bool.not_eq_true, leafIsTerminal_iff]
  exact Nat.mod_two_ne_one

theorem leafGetNextPlyIndex_set (i : Nat) : leafGetNextPlyIndex (leafSetNextPlyIndex i) = i := by
  simp [leafGetNextPlyIndex, leafSetNextPlyIndex, Nat.shiftRight_one]

theorem leafIsTerminal_setNextPlyIndex (i : Nat) : leafIsTerminal (leafSetNextPlyIndex i) = false := by
  rw [leafIsTerminal_false]
  show (0 + 2 * i) % 2 = 0
  omega

theorem leafSetNextPlyIndex_ne (i : Nat) : leafSetNextPlyIndex i ≠ leafEmpty := by
  show 0 + 2 * i ≠ 1
  omega

def nonEmptyLeaves (leaves : Nat → Leaf) : Int :=
  ∑ i ∈ Finset.range 256, if leaves i = leafEmpty then 0 else 1

theorem nonEmptyLeaves_update (leaves : Nat → Leaf) (hi : i < 256) (leaf : Leaf) :
    nonEmptyLeaves (update leaves i leaf) = nonEmptyLeaves leaves +
      ((if leaf = leafEmpty then 0 else 1) - if leaves i = leafEmpty then 0 else 1) := by
  have hmem := Finset.mem_range.mpr hi
  have hupd : (fun j => if update leaves i leaf j = leafEmpty then (0 : Int) else 1) =
      update (fun j => if leaves j = leafEmpty then 0 else 1) i
        (if leaf = leafEmpty then 0 else 1) := by
    funext j
    by_cases hj : j = i
    · subst hj
      simp
    · simp [hj]
  unfold nonEmptyLeaves
  rw [hupd, Finset.sum_update_of_mem hmem, Finset.sum_eq_add_sum_sdiff_singleton_of_mem hmem]
  ring

theorem eq_empty_of_nonEmptyLeaves (h : nonEmptyLeaves leaves = 0) (hi : i < 256) :
    leaves i = leafEmpty := by
  have hnn : ∀ i ∈ Finset.range 256, (0 : Int) ≤ if leaves i = leafEmpty then 0 else 1 := by
    intro i _
    split <;> decide
  have := (Finset.sum_eq_zero_iff_of_nonneg hnn).mp h i (Finset.mem_range.mpr hi)
  by_contra hne
  simp [hne] at this

theorem nonEmptyLeaves_const (leaf : Leaf) :
    nonEmptyLeaves (fun _ => leaf) = if leaf = leafEmpty then 0 else 256 := by
  unfold nonEmptyLeaves
  split <;> simp

/-- The ply at `idx` with at most `d` levels below it, where `sub` are the trees of those levels. The
plies of its tree are `S`, those under leaf `i` are `C i`. -/
structure Node (p : Pool Ply) (d : Nat) (sub : Nat → Set Nat → Prop) (idx : Nat) (S : Set Nat)
    (C : Nat → Set Nat) : Prop where
  live : p.Live idx
  count : (p.eltAt idx).nNonEmptyLeafs = nonEmptyLeaves (p.eltAt idx).leaves
  mem : ∀ j, j ∈ S ↔ j = idx ∨ ∃ i, i < 256 ∧ j ∈ C i
  not_self : ∀ i, i < 256 → idx ∉ C i
  disjoint : ∀ i i' j, i < 256 → i' < 256 → j ∈ C i → j ∈ C i' → i = i'
  terminal : ∀ i, i < 256 → leafIsTerminal ((p.eltAt idx).leaves i) = true → C i = ∅ ∧
    (p.eltAt idx).dstAddressBitsOfLeaves i ≤ 8 * (4 - d)
  empty : ∀ i, i < 256 → (p.eltAt idx).leaves i = leafEmpty →
    (p.eltAt idx).dstAddressBitsOfLeaves i = 0
  next : ∀ i, i < 256 → leafIsTerminal ((p.eltAt idx).leaves i) = false →
    (p.eltAt idx).dstAddressBitsOfLeaves i = 0 ∧
    sub (leafGetNextPlyIndex ((p.eltAt idx).leaves i)) (C i)

/-- The plies `S` form a tree of at most `d` levels with its root at `idx`. -/
def Tree (p : Pool Ply) : Nat → Nat → Set Nat → Prop
  | 0 => fun _ _ => False
  | d + 1 => fun idx S => ∃ C, Node p d (Tree p d) idx S C

def find (p : Pool Ply) : Nat → List Nat → Leaf × Nat
  | _, [] => (leafEmpty, 0)
  | idx, b :: bs =>
    let leaf := (p.eltAt idx).leaves b
    if leafIsTerminal leaf then (leaf, (p.eltAt idx).dstAddressBitsOfLeaves b)
    else find p (leafGetNextPlyIndex leaf) bs

/-- A path of `d` bytes. -/
def Bytes (d : Nat) (bs : List Nat) : Prop := bs.length = d ∧ ∀ b ∈ bs, b < 256

variable {p p' p'' : Pool Ply} {S S' S'' : Set Nat} {C : Nat → Set Nat}

theorem Bytes.tail (h : Bytes (d + 1) (b :: bs)) : Bytes d bs :=
  ⟨Nat.succ.inj h.1, fun b' hb => h.2 b' (.tail _ hb)⟩

theorem Tree.frame (ht : Tree p d idx S)
    (hsame : ∀ j ∈ S, p'.Live j ∧ p'.eltAt j = p.eltAt j) :
    Tree p' d idx S ∧ ∀ bs, Bytes d bs → find p' idx bs = find p idx bs := by
  induction d generalizing idx S with
  | zero => exact ht.elim
  | succ d ih =>
    obtain ⟨C, hn⟩ := ht
    obtain ⟨hlive, helt⟩ := hsame idx ((hn.mem idx).mpr (.inl rfl))
    have hsub (i : Nat) (hi : i < 256) (j : Nat) (hj : j ∈ C i) : p'.Live j ∧ p'.eltAt j = p.eltAt j :=
      hsame j ((hn.mem j).mpr (.inr ⟨i, hi, hj⟩))
    constructor
    · refine ⟨C, hlive, ?_, hn.mem, hn.not_self, hn.disjoint, ?_, ?_, ?_⟩
      · rw [helt]
        exact hn.count
      · rw [helt]
        exact hn.terminal
      · rw [helt]
        exact hn.empty
      · intro i hi hl
        rw [helt] at hl ⊢
        obtain ⟨hb, ht⟩ := hn.next i hi hl
        exact ⟨hb, (ih ht (hsub i hi)).1⟩
    · intro bs hbs
      cases bs with
      | nil => rfl
      | cons b bs =>
        have hb := hbs.2 b (.head _)
        simp only [find, helt]
        split
        · rfl
        · next hl =>
          obtain ⟨_, ht⟩ := hn.next b hb (Bool.not_eq_true _ ▸ hl)
          exact (ih ht (hsub b hb)).2 bs hbs.tail

theorem Tree.plyInit (hlive : p.Live idx) (helt : p.eltAt idx = Mtrie.plyInit leaf bits)
    (hl : leafIsTerminal leaf = true) (hbits : bits ≤ 8 * (4 - d)) (hempty : leaf = leafEmpty → bits = 0) :
    Tree p (d + 1) idx {idx} := by
  refine ⟨fun _ => ∅, hlive, ?_, by simp, by simp, by simp, ?_, ?_, ?_⟩
  · rw [helt]
    exact (nonEmptyLeaves_const leaf).symm
  · intro i _ _
    rw [helt]
    exact ⟨rfl, hbits⟩
  · intro i _ he
    rw [helt] at he ⊢
    exact hempty he
  · intro i _ he
    rw [helt] at he
    exact absurd (hl.symm.trans he) (by decide)

theorem Tree.live (ht : Tree p d idx S) (hj : j ∈ S) : p.Live j := by
  induction d generalizing idx S with
  | zero => exact ht.elim
  | succ d ih =>
    obtain ⟨C, hn⟩ := ht
    rcases (hn.mem j).mp hj with rfl | ⟨i, hi, hj⟩
    · exact hn.live
    · by_cases hl : leafIsTerminal ((p.eltAt idx).leaves i) = true
      · rw [(hn.terminal i hi hl).1] at hj
        exact hj.elim
      · exact ih (hn.next i hi (by simpa using hl)).2 hj

end Vpp.Mtrie
