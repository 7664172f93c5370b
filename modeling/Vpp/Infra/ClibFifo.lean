import Vpp.Infra.Bitops
import Vpp.Lib.Ring

namespace Vpp.Infra
open Vpp.Lib List Option

/-- The vector of a fifo with its header, whose words have 32 bits. A null pointer has no vector. -/
structure ClibFifo (α : Type) where
  vec : Nat → α
  len : Nat
  headIndex : Nat
  tailIndex : Nat

namespace ClibFifo

variable {α : Type}

def clibFifoLen (v : Option (ClibFifo α)) : Nat := (v.map len).getD 0

def clibFifoElts : Option (ClibFifo α) → Nat
  | none => 0
  | some f =>
    let r : Int := f.tailIndex - f.headIndex
    (if r < 0 then r + f.len else r).toNat

def clibFifoFreeElts (v : Option (ClibFifo α)) : Int := clibFifoLen v - clibFifoElts v

def copyOld (zero : α) (vOld : Option (ClibFifo α)) (nCopy : Nat) : Nat → α :=
  match vOld with
  | none => fun _ => zero
  | some f =>
    if f.headIndex + nCopy ≥ f.len then
      let n := f.len - f.headIndex
      memcpy (memcpy (fun _ => zero) 0 f.vec f.headIndex n) n f.vec 0 (nCopy - n)
    else memcpy (fun _ => zero) 0 f.vec f.headIndex nCopy

def clibFifoResize (zero : α) (vOld : Option (ClibFifo α)) (nNewElts : Nat) : ClibFifo α :=
  let nOldElts := clibFifoElts vOld
  let n := nNewElts + nOldElts
  let n := if n < 32 then 32 else maxPow2 n
  { vec := copyOld zero vOld nOldElts, len := n % 2 ^ 32, headIndex := 0, tailIndex := nOldElts % 2 ^ 32 }

/-- Where the tail goes. It is put one whole turn beyond the head to mark a full fifo. -/
def advancedTail (f : ClibFifo α) (nElts : Int) : Int :=
  if clibFifoFreeElts (some f) - nElts = 0 then f.headIndex + f.len
  else
    let n := f.tailIndex + nElts
    if n ≥ f.len then n - f.len else if n < 0 then n + f.len else n

/-- The new fifo and the index that the caller gets. The header of a null pointer cannot be accessed. -/
def clibFifoAdvanceTail (zero : α) (v : Option (ClibFifo α)) (nElts : Int) : Option (ClibFifo α × Nat) :=
  let v := if clibFifoFreeElts v < nElts then some (clibFifoResize zero v nElts.toNat) else v
  v.map fun f =>
    let tail := (advancedTail f nElts % 2 ^ 32).toNat
    ({ f with tailIndex := tail }, if nElts > 0 then f.tailIndex else tail)

def clibFifoAdvanceHead (v : Option (ClibFifo α)) (nElts : Nat) : Option (ClibFifo α × Nat) :=
  v.map fun f =>
    let tail := if f.tailIndex = f.headIndex + f.len then f.headIndex else f.tailIndex
    let n := f.headIndex + nElts
    let n := if n ≥ f.len then n - f.len else n
    ({ f with headIndex := n % 2 ^ 32, tailIndex := tail }, f.headIndex)

def clibFifoAdd1 (zero : α) (v : Option (ClibFifo α)) (e : α) : Option (ClibFifo α) := do
  let (f, i) ← clibFifoAdvanceTail zero v 1
  some { f with vec := Function.update f.vec i e }

/-- A copy of a negative number of elements runs over the end of the memory. -/
def clibFifoAdd (zero : α) (v : Option (ClibFifo α)) (es : List α) : Option (ClibFifo α) := do
  let e := fun i => es.getD i zero
  let n0 : Int := es.length
  let (f, i) ← clibFifoAdvanceTail zero v n0
  let n1 : Int := i + n0 - f.len
  let n1 := if n1 < 0 then 0 else n1
  let n0 := n0 - n1
  if n0 < 0 then none
  else
    let vec := memcpy f.vec i e 0 n0.toNat
    some { f with vec := if n1 ≠ 0 then memcpy vec 0 e n0.toNat n1.toNat else vec }

def clibFifoSub1 (v : Option (ClibFifo α)) : Option (ClibFifo α × α) := do
  let (f, i) ← clibFifoAdvanceHead v 1
  some (f, f.vec i)

def clibFifoEltIndex (v : Option (ClibFifo α)) (i : Nat) : Nat :=
  match v with
  | none => 0
  | some f =>
    let result := f.headIndex + i
    if result ≥ f.len then result - f.len else result

def clibFifoEltAtIndex (v : Option (ClibFifo α)) (i : Nat) : Option α :=
  v.map fun f => f.vec (clibFifoEltIndex v i)

/-- The elements that the loop visits with `n` of them to go. -/
def visits (vec : Nat → α) (l : Nat) : (n i : Nat) → List α
  | 0, _ => []
  | n + 1, i => vec i :: visits vec l n (if i + 1 ≥ l then 0 else i + 1)

def clibFifoForeach (v : Option (ClibFifo α)) : List α :=
  match v with
  | none => []
  | some f => visits f.vec f.len (clibFifoElts v) f.headIndex

inductive Op (α : Type) where
  | add1 (e : α)
  | add (es : List α)
  | sub1
  | advanceHead (n : Nat)
  /-- The tail goes back by `n`. -/
  | advanceTail (n : Nat)

def exec (zero : α) (v : Option (ClibFifo α)) : Op α → Option (Option (ClibFifo α) × List α)
  | .add1 e => (clibFifoAdd1 zero v e).map fun f => (some f, [])
  | .add es => (clibFifoAdd zero v es).map fun f => (some f, [])
  | .sub1 => (clibFifoSub1 v).map fun (f, e) => (some f, [e])
  | .advanceHead n => (clibFifoAdvanceHead v n).map fun (f, _) => (some f, [])
  | .advanceTail n => (clibFifoAdvanceTail zero v (-n)).map fun (f, _) => (some f, [])

def run (zero : α) : Option (ClibFifo α) → List (Op α) → Option (Option (ClibFifo α) × List α)
  | v, [] => some (v, [])
  | v, op :: ops => do
    let (v', out) ← exec zero v op
    let (v'', outs) ← run zero v' ops
    some (v'', out ++ outs)

def Op.onQueue (q : List α) : Op α → Option (List α × List α)
  | .add1 e => some (q ++ [e], [])
  | .add es => some (q ++ es, [])
  | .sub1 => match q with
    | [] => none
    | e :: q => some (q, [e])
  | .advanceHead n => if n ≤ q.length then some (q.drop n, []) else none
  | .advanceTail n => if 0 < n ∧ n ≤ q.length then some (q.take (q.length - n), []) else none

def queueRun : List α → List (Op α) → Option (List α × List α)
  | q, [] => some (q, [])
  | q, op :: ops => do
    let (q', out) ← op.onQueue q
    let (q'', outs) ← queueRun q' ops
    some (q'', out ++ outs)

def Op.entered : Op α → List α
  | .add1 e => [e]
  | .add es => es
  | _ => []

structure Shows (v : Option (ClibFifo α)) (q : List α) : Prop where
  elts : clibFifoElts v = q.length
  eltAt : ∀ i < q.length, clibFifoEltAtIndex v i = q[i]?
  foreach : clibFifoForeach v = q

/-- `k` elements from the head on. -/
structure Placed (f : ClibFifo α) (k : Nat) : Prop where
  head_lt : f.headIndex < f.len
  len_le : f.len ≤ 2 ^ 31
  count_le : k ≤ f.len
  tail : f.tailIndex = if k = f.len then f.headIndex + f.len else (f.headIndex + k) % f.len

structure Holds (f : ClibFifo α) (q : List α) : Prop where
  placed : f.Placed q.length
  contents : ringCells f.vec f.len f.headIndex q.length = q

def Describes (v : Option (ClibFifo α)) (q : List α) : Prop :=
  match v with
  | none => q = []
  | some f => f.Holds q

variable {f : ClibFifo α}

theorem Placed.tail_eq {k : Nat} (h : f.Placed k) :
    f.tailIndex = if k = f.len ∨ f.headIndex + k < f.len then f.headIndex + k
      else f.headIndex + k - f.len := by
  have htail := h.tail
  have hcount := h.count_le
  have hhead := h.head_lt
  rw [mod_once (by omega)] at htail
  rw [htail]
  by_cases hk : k = f.len
  · rw [if_pos hk, if_pos (Or.inl hk), hk]
  · rw [if_neg hk]
    simp only [hk, false_or]

theorem Placed.elts {k : Nat} (h : f.Placed k) : clibFifoElts (some f) = k := by
  have htail := h.tail_eq
  have hcount := h.count_le
  have hhead := h.head_lt
  simp only [clibFifoElts]
  split at htail <;> split <;> omega

theorem Placed.freeElts {k : Nat} (h : f.Placed k) :
    clibFifoFreeElts (some f) = (f.len : Int) - k := by
  rw [clibFifoFreeElts, h.elts]
  rfl

theorem Placed.full_iff {k : Nat} (h : f.Placed k) :
    f.tailIndex = f.headIndex + f.len ↔ k = f.len := by
  have htail := h.tail_eq
  have hcount := h.count_le
  have hhead := h.head_lt
  split at htail <;> omega

theorem Placed.advancedTail {k k' : Nat} (h : f.Placed k) {nElts : Int}
    (hk : (k' : Int) = k + nElts) (hle : k' ≤ f.len) :
    f.advancedTail nElts = (if k' = f.len then f.headIndex + f.len else (f.headIndex + k') % f.len : Nat) := by
  have htail := h.tail_eq
  have hcount := h.count_le
  have hhead := h.head_lt
  rw [ClibFifo.advancedTail, h.freeElts]
  by_cases hfull : k' = f.len
  · rw [if_pos hfull, if_pos (by omega)]
    rfl
  · rw [if_neg hfull, if_neg (by omega)]
    obtain ⟨hmod, hlt⟩ | ⟨hmod, hge⟩ := mod_cases (show f.headIndex + k' < 2 * f.len by omega)
    · rw [hmod]
      simp only
      split at htail <;> split <;> omega
    · rw [hmod]
      simp only
      split at htail <;> split <;> omega

theorem maxPow2_bounds {n : Nat} (hpos : 0 < n) (hle : n ≤ 2 ^ 31) :
    n ≤ maxPow2 n ∧ maxPow2 n ≤ 2 ^ 31 := by
  obtain ⟨k, hk, hbound⟩ := maxPow2_eq hpos
  rw [hk]
  constructor
  · exact (hbound k).2 (Nat.le_refl k)
  · exact Nat.pow_le_pow_right (by decide) ((hbound 31).1 hle)

variable (zero : α)

theorem copyOld_eq {f : ClibFifo α} (h : f.headIndex < f.len) (n : Nat) :
    copyOld zero (some f) n = ringRead (fun _ => zero) f.vec f.len f.headIndex n := by
  rw [ringRead, firstPiece]
  by_cases hn : f.headIndex + n ≥ f.len
  · rw [Nat.min_eq_left (by omega)]
    simp only [copyOld, if_pos hn]
  · rw [Nat.min_eq_right (by omega), Nat.sub_self, memcpy_zero]
    simp only [copyOld, if_neg hn]

theorem cells_copyOld {v : Option (ClibFifo α)} {q : List α} (h : Describes v q) :
    cells (copyOld zero v q.length) q.length = q := by
  cases v with
  | none =>
    have hq : q = [] := h
    subst hq
    rfl
  | some f =>
    have hf : f.Holds q := h
    rw [copyOld_eq zero hf.placed.head_lt, cells_ringRead _ hf.placed.head_lt hf.placed.count_le]
    exact hf.contents

theorem Describes.elts {v : Option (ClibFifo α)} {q : List α} (h : Describes v q) :
    clibFifoElts v = q.length := by
  cases v with
  | none =>
    have hq : q = [] := h
    subst hq
    rfl
  | some f =>
    have hf : f.Holds q := h
    exact hf.placed.elts

/-- The new vector has the old elements at its start and room for the new ones. -/
theorem clibFifoResize_spec {v : Option (ClibFifo α)} {q : List α} (h : Describes v q) {n : Nat}
    (hpos : 0 < n) (hle : q.length + n ≤ 2 ^ 31) :
    (clibFifoResize zero v n).Holds q ∧ q.length + n ≤ (clibFifoResize zero v n).len := by
  have hlen : (clibFifoResize zero v n).len ≤ 2 ^ 31 ∧ q.length + n ≤ (clibFifoResize zero v n).len := by
    simp only [clibFifoResize, h.elts]
    obtain ⟨hlow, hhigh⟩ := maxPow2_bounds (show 0 < n + q.length by omega) (by omega)
    split <;> omega
  obtain ⟨hmax, hroom⟩ := hlen
  have hcells := cells_copyOld zero h
  have hhead : (clibFifoResize zero v n).headIndex = 0 := rfl
  constructor
  · constructor
    · constructor
      · omega
      · exact hmax
      · omega
      · have htail : (clibFifoResize zero v n).tailIndex = q.length % 2 ^ 32 := by
          rw [← h.elts]
          rfl
        rw [if_neg (by omega), htail, hhead, Nat.zero_add, Nat.mod_eq_of_lt (by omega),
          Nat.mod_eq_of_lt (by omega)]
    · refine Eq.trans ?_ hcells
      rw [hhead]
      apply ringCells_eq_cells
      intro i hi
      rw [Nat.zero_add, Nat.mod_eq_of_lt (by omega), ← h.elts]
      rfl
  · exact hroom

/-- The fifo in which the tail is moved: the old one if it has the room. -/
theorem Describes.grow {v : Option (ClibFifo α)} {q : List α} (h : Describes v q) {nElts : Int}
    {k : Nat} (hk : (k : Int) = q.length + nElts) (hle : k ≤ 2 ^ 31) (hnull : v = none → 0 < nElts) :
    ∃ f, (if clibFifoFreeElts v < nElts then some (clibFifoResize zero v nElts.toNat) else v) = some f ∧
      f.Holds q ∧ k ≤ f.len := by
  by_cases hfree : clibFifoFreeElts v < nElts
  · have hpos : 0 < nElts := by
      cases v with
      | none => exact hnull rfl
      | some f =>
        have hf : f.Holds q := h
        have := hf.placed.count_le
        rw [hf.placed.freeElts] at hfree
        omega
    obtain ⟨hf, hroom⟩ := clibFifoResize_spec zero h (show 0 < nElts.toNat by omega) (by omega)
    exact ⟨_, if_pos hfree, hf, by omega⟩
  · cases v with
    | none =>
      have hzero : clibFifoFreeElts (none : Option (ClibFifo α)) = 0 := rfl
      have := hnull rfl
      omega
    | some f =>
      have hf : f.Holds q := h
      rw [hf.placed.freeElts] at hfree
      exact ⟨f, if_neg (by rw [hf.placed.freeElts]; exact hfree), hf, by omega⟩

theorem clibFifoAdvanceTail_spec {v : Option (ClibFifo α)} {q : List α} (h : Describes v q)
    {nElts : Int} {k : Nat} (hk : (k : Int) = q.length + nElts) (hle : k ≤ 2 ^ 31)
    (hnull : v = none → 0 < nElts) :
    ∃ f i, clibFifoAdvanceTail zero v nElts = some (f, i) ∧ f.Placed k ∧ q.length ≤ f.len ∧
      ringCells f.vec f.len f.headIndex q.length = q ∧
      i = if 0 < nElts then (f.headIndex + q.length) % f.len else f.tailIndex := by
  obtain ⟨f, hv, hf, hroom⟩ := h.grow zero hk hle hnull
  have hadv := hf.placed.advancedTail hk hroom
  have hhead := hf.placed.head_lt
  have hlen := hf.placed.len_le
  have htail : (f.advancedTail nElts % 2 ^ 32).toNat
      = if k = f.len then f.headIndex + f.len else (f.headIndex + k) % f.len := by
    have hmod : (f.headIndex + k) % f.len < f.len := Nat.mod_lt _ (by omega)
    rw [hadv]
    split <;> omega
  refine ⟨{ f with tailIndex := (f.advancedTail nElts % 2 ^ 32).toNat },
    if nElts > 0 then f.tailIndex else (f.advancedTail nElts % 2 ^ 32).toNat, ?_,
    ⟨hhead, hlen, hroom, htail⟩, hf.placed.count_le, hf.contents, ?_⟩
  · simp only [clibFifoAdvanceTail, hv]
    rfl
  by_cases hpos : 0 < nElts
  · have hne : q.length ≠ f.len := by omega
    rw [if_pos hpos, if_pos hpos, hf.placed.tail, if_neg hne]
  · rw [if_neg hpos, if_neg hpos]

theorem clibFifoAdvanceHead_spec {q : List α} (h : f.Holds q) {n : Nat} (hn : n ≤ q.length)
    (hzero : n = 0 → q.length ≠ f.len) :
    ∃ f', clibFifoAdvanceHead (some f) n = some (f', f.headIndex) ∧ f'.vec = f.vec ∧
      f'.Holds (q.drop n) := by
  have hhead := h.placed.head_lt
  have hlen := h.placed.len_le
  have hcount := h.placed.count_le
  have htail := h.placed.tail_eq
  have hnew : (if f.headIndex + n ≥ f.len then f.headIndex + n - f.len else f.headIndex + n) % 2 ^ 32
      = (f.headIndex + n) % f.len := by
    rw [mod_once (show f.headIndex + n < 2 * f.len by omega)]
    split <;> split <;> omega
  refine ⟨_, rfl, rfl, ?_⟩
  constructor
  · rw [length_drop]
    constructor
    · rw [hnew]
      exact Nat.mod_lt _ (by omega)
    · exact hlen
    · exact Nat.le_trans (Nat.sub_le _ _) hcount
    · have hne : q.length - n ≠ f.len := by omega
      have hsum : f.headIndex + n + (q.length - n) = f.headIndex + q.length := by omega
      rw [hnew, Nat.mod_add_mod, if_neg hne, hsum, mod_once (show f.headIndex + q.length < 2 * f.len by omega)]
      dsimp only
      split at htail <;> split <;> split <;> omega
  · rw [length_drop, hnew]
    have hsplit := ringCells_add f.vec f.len f.headIndex n (q.length - n)
    rw [Nat.add_sub_cancel' hn, h.contents] at hsplit
    conv_rhs => rw [hsplit]
    rw [drop_left' (length_ringCells _ _ _ _)]

theorem clibFifoEltIndex_eq {k i : Nat} (h : f.Placed k) (hi : i < k) :
    clibFifoEltIndex (some f) i = (f.headIndex + i) % f.len := by
  have hhead := h.head_lt
  have hcount := h.count_le
  rw [mod_once (by omega), clibFifoEltIndex]
  split <;> split <;> omega

theorem visits_eq (vec : Nat → α) {l i : Nat} (n : Nat) (hi : i < l) : visits vec l n i = ringCells vec l i n := by
  induction n generalizing i with
  | zero => rfl
  | succ n ih =>
    have hl : 0 < l := by omega
    have hnext : (if i + 1 ≥ l then 0 else i + 1) = (i + 1) % l := by
      split
      case isTrue h =>
        have he : i + 1 = l := by omega
        rw [he, Nat.mod_self]
      case isFalse h => rw [Nat.mod_eq_of_lt (by omega)]
    have hfirst : ringCells vec l i 1 = [vec i] := by simp [ringCells, Nat.mod_eq_of_lt hi]
    rw [visits, hnext, ih (Nat.mod_lt _ hl), Nat.add_comm n 1, ringCells_add, hfirst]
    rfl

theorem Holds.shows {q : List α} (h : f.Holds q) : Shows (some f) q := by
  constructor
  · exact h.placed.elts
  · intro i hi
    have hget : (ringCells f.vec f.len f.headIndex q.length)[i]? = some (f.vec ((f.headIndex + i) % f.len)) := by
      simp [ringCells, hi]
    rw [h.contents] at hget
    rw [hget, clibFifoEltAtIndex, clibFifoEltIndex_eq h.placed hi]
    rfl
  · rw [clibFifoForeach, h.placed.elts, visits_eq _ _ h.placed.head_lt]
    exact h.contents

theorem Describes.shows {v : Option (ClibFifo α)} {q : List α} (h : Describes v q) : Shows v q := by
  cases v with
  | none =>
    have hq : q = [] := h
    subst hq
    exact ⟨rfl, fun i hi => absurd hi (Nat.not_lt_zero i), rfl⟩
  | some f => exact Holds.shows h

theorem clibFifoAdd1_spec {v : Option (ClibFifo α)} {q : List α} (h : Describes v q) (e : α)
    (hle : q.length + 1 ≤ 2 ^ 31) : ∃ f, clibFifoAdd1 zero v e = some f ∧ f.Holds (q ++ [e]) := by
  have hk : ((q.length + 1 : Nat) : Int) = q.length + 1 := rfl
  obtain ⟨f, i, he, hf, _, hcells, hi⟩ := clibFifoAdvanceTail_spec zero h hk hle fun _ => by decide
  rw [if_pos (by decide)] at hi
  have hpos : i < f.len := by
    rw [hi]
    exact Nat.mod_lt _ (Nat.zero_lt_of_lt hf.head_lt)
  refine ⟨{ f with vec := Function.update f.vec i e }, by rw [clibFifoAdd1, he]; rfl, ?_⟩
  have hlen : (q ++ [e]).length = q.length + 1 := length_append
  constructor
  · rw [hlen]
    exact ⟨hf.head_lt, hf.len_le, hf.count_le, hf.tail⟩
  · rw [hlen, ← ringWrite_one f.vec hpos (fun _ => e), hi, ringCells_ringWrite hf.head_lt hf.count_le, hcells]
    rfl

theorem clibFifoAdd_eq {v : Option (ClibFifo α)} {es : List α} {f : ClibFifo α} {i : Nat}
    (he : clibFifoAdvanceTail zero v es.length = some (f, i)) (hi : i ≤ f.len) :
    clibFifoAdd zero v es
      = some { f with vec := ringWrite f.vec f.len i (fun j => es.getD j zero) es.length } := by
  simp only [clibFifoAdd, he, bind, Option.bind]
  by_cases hwrap : ((i : Int) + es.length - f.len) < 0
  · have hpiece : firstPiece f.len i es.length = es.length := by
      rw [firstPiece]
      omega
    rw [if_pos hwrap, if_neg (by omega), ringWrite, hpiece, Nat.sub_self, memcpy_zero]
    simp
  · have hpiece : firstPiece f.len i es.length = f.len - i := by
      rw [firstPiece]
      omega
    have hn0 : ((es.length : Int) - (i + es.length - f.len)).toNat = f.len - i := by omega
    have hn1 : ((i : Int) + es.length - f.len).toNat = es.length - (f.len - i) := by omega
    rw [if_neg hwrap, if_neg (by omega), ringWrite, hpiece, hn0, hn1]
    by_cases hnone : (i : Int) + es.length - f.len = 0
    · have hrest : es.length - (f.len - i) = 0 := by omega
      rw [if_neg (by simpa using hnone), hrest, memcpy_zero]
    · rw [if_pos hnone]

/-- There is a header, and its tail is inside the vector or at its end. -/
def Unmarked (v : Option (ClibFifo α)) : Prop :=
  ∃ f, v = some f ∧ (f.tailIndex = f.headIndex + f.len → f.headIndex = 0)

theorem clibFifoAdvanceTail_zero {f : ClibFifo α} {k : Nat} (h : f.Placed k) :
    clibFifoAdvanceTail zero (some f) 0 = some (f, f.tailIndex) := by
  have hhead := h.head_lt
  have hlen := h.len_le
  have hcount := h.count_le
  have hadv := h.advancedTail (Int.add_zero (k : Int)).symm hcount
  rw [← h.tail] at hadv
  have hsmall : f.tailIndex < 2 ^ 32 := by
    have := h.tail_eq
    split at this <;> omega
  have htail : (f.advancedTail 0 % 2 ^ 32).toNat = f.tailIndex := by
    rw [hadv]
    omega
  have hfree : ¬ clibFifoFreeElts (some f) < 0 := by
    rw [h.freeElts]
    omega
  simp only [clibFifoAdvanceTail, if_neg hfree, map_some, htail]
  rfl

theorem clibFifoAdd_none {v : Option (ClibFifo α)} {q : List α} (h : Describes v q)
    (hv : Unmarked v) : ∃ f, clibFifoAdd zero v [] = some f ∧ f.Holds q := by
  obtain ⟨f, rfl, hmark⟩ := hv
  have hf : f.Holds q := h
  have hle : f.tailIndex ≤ f.len := by
    have hfull := hf.placed.full_iff
    have htail := hf.placed.tail_eq
    have hhead := hf.placed.head_lt
    have hcount := hf.placed.count_le
    split at htail <;> omega
  have he : clibFifoAdvanceTail zero (some f) ([] : List α).length = some (f, f.tailIndex) :=
    clibFifoAdvanceTail_zero zero hf.placed
  have hwrite : ringWrite f.vec f.len f.tailIndex (fun j => ([] : List α).getD j zero) 0 = f.vec := by
    rw [ringWrite, firstPiece, Nat.min_zero, Nat.sub_zero, memcpy_zero, memcpy_zero]
  refine ⟨_, clibFifoAdd_eq zero he hle, ?_⟩
  rw [length_nil, hwrite]
  exact hf

theorem clibFifoAdd_spec {v : Option (ClibFifo α)} {q : List α} (h : Describes v q) (es : List α)
    (hle : q.length + es.length ≤ 2 ^ 31) (hnone : es = [] → Unmarked v) :
    ∃ f, clibFifoAdd zero v es = some f ∧ f.Holds (q ++ es) := by
  cases es with
  | nil =>
    rw [append_nil]
    exact clibFifoAdd_none zero h (hnone rfl)
  | cons e es =>
    have hlen : (q ++ e :: es).length = q.length + (e :: es).length := length_append
    have hsome : 0 < ((e :: es).length : Int) := Int.natCast_pos.2 (Nat.succ_pos _)
    obtain ⟨f, i, he, hf, _, hcells, hi⟩ :=
      clibFifoAdvanceTail_spec zero h (Int.natCast_add q.length (e :: es).length) hle fun _ => hsome
    rw [if_pos hsome] at hi
    have hpos : i < f.len := by
      rw [hi]
      exact Nat.mod_lt _ (Nat.zero_lt_of_lt hf.head_lt)
    refine ⟨_, clibFifoAdd_eq zero he (Nat.le_of_lt hpos), ?_⟩
    constructor
    · rw [hlen]
      exact ⟨hf.head_lt, hf.len_le, hf.count_le, hf.tail⟩
    · rw [hlen]
      dsimp only
      rw [hi, ringCells_ringWrite hf.head_lt hf.count_le, hcells, cells_getD]

/-- What an operation needs of the fifo: the vector stays below 2^32 elements, the head does not move by
nothing on a full fifo, and nothing is only added where the tail is not marked. -/
def Safe (v : Option (ClibFifo α)) : Op α → Prop
  | .add1 _ => clibFifoElts v + 1 ≤ 2 ^ 31
  | .add es => clibFifoElts v + es.length ≤ 2 ^ 31 ∧ (es = [] → Unmarked v)
  | .sub1 => True
  | .advanceHead n => n = 0 → ∃ f, v = some f ∧ f.tailIndex ≠ f.headIndex + f.len
  | .advanceTail _ => True

def SafeRun (zero : α) : Option (ClibFifo α) → List (Op α) → Prop
  | _, [] => True
  | v, op :: ops => Safe v op ∧ ∀ v' out, exec zero v op = some (v', out) → SafeRun zero v' ops

theorem advanceHead_step {v : Option (ClibFifo α)} {q : List α} (h : Describes v q) {n : Nat}
    (hn : n ≤ q.length) (safe : n = 0 → ∃ f, v = some f ∧ f.tailIndex ≠ f.headIndex + f.len) :
    ∃ f f', v = some f ∧ f.Holds q ∧ clibFifoAdvanceHead v n = some (f', f.headIndex) ∧ f'.vec = f.vec ∧
      f'.Holds (q.drop n) := by
  cases v with
  | none =>
    have hq : q = [] := h
    have hzero : n = 0 := by
      rw [hq] at hn
      exact Nat.le_zero.1 hn
    obtain ⟨f, hf, _⟩ := safe hzero
    cases hf
  | some f =>
    have hf : f.Holds q := h
    have hzero : n = 0 → q.length ≠ f.len := by
      intro h0 hfull
      obtain ⟨g, hg, hne⟩ := safe h0
      cases hg
      exact hne (hf.placed.full_iff.2 hfull)
    obtain ⟨f', he, hvec, hf'⟩ := clibFifoAdvanceHead_spec hf hn hzero
    exact ⟨f, f', rfl, hf, he, hvec, hf'⟩

theorem advanceTail_step {v : Option (ClibFifo α)} {q : List α} (h : Describes v q) {n : Nat}
    (hpos : 0 < n) (hn : n ≤ q.length) :
    ∃ f i, clibFifoAdvanceTail zero v (-n) = some (f, i) ∧ f.Holds (q.take (q.length - n)) := by
  have hlen : (q.take (q.length - n)).length = q.length - n := by
    rw [length_take]
    omega
  cases v with
  | none =>
    have hq : q = [] := h
    subst hq
    exact absurd hn (by simp; omega)
  | some f₀ =>
    have hf₀ : f₀.Holds q := h
    have hcount := hf₀.placed.count_le
    have hmax := hf₀.placed.len_le
    obtain ⟨f, i, he, hf, hroom, hcells, _⟩ := clibFifoAdvanceTail_spec zero h
      (show ((q.length - n : Nat) : Int) = q.length + -n by omega) (by omega) fun hv => nomatch hv
    refine ⟨f, i, he, ?_⟩
    constructor
    · rw [hlen]
      exact hf
    · have hsplit := ringCells_add f.vec f.len f.headIndex (q.length - n) n
      rw [Nat.sub_add_cancel hn, hcells] at hsplit
      rw [hlen]
      generalize q.length - n = m at *
      conv_rhs => rw [hsplit]
      rw [take_left' (length_ringCells _ _ _ _)]

theorem exec_step {v : Option (ClibFifo α)} {q q' out : List α} {op : Op α} (h : Describes v q)
    (legal : op.onQueue q = some (q', out)) (safe : Safe v op) :
    ∃ v', exec zero v op = some (v', out) ∧ Describes v' q' := by
  cases op with
  | add1 e =>
    have hle : clibFifoElts v + 1 ≤ 2 ^ 31 := safe
    rw [h.elts] at hle
    obtain ⟨f, he, hf⟩ := clibFifoAdd1_spec zero h e hle
    cases legal
    exact ⟨some f, by rw [exec, he]; rfl, hf⟩
  | add es =>
    obtain ⟨hle, hnone⟩ : clibFifoElts v + es.length ≤ 2 ^ 31 ∧ (es = [] → Unmarked v) := safe
    rw [h.elts] at hle
    obtain ⟨f, he, hf⟩ := clibFifoAdd_spec zero h es hle hnone
    cases legal
    exact ⟨some f, by rw [exec, he]; rfl, hf⟩
  | sub1 =>
    cases q with
    | nil => cases legal
    | cons e q =>
      cases legal
      have hone : 1 ≤ (e :: q').length := Nat.succ_pos _
      obtain ⟨f, f', rfl, hf, he, hvec, hf'⟩ := advanceHead_step h hone fun h0 => absurd h0 (by decide)
      have hfirst : f.vec f.headIndex = e := by
        have hget := (hf.shows.eltAt 0 hone)
        rw [clibFifoEltAtIndex, clibFifoEltIndex_eq hf.placed hone, Nat.add_zero,
          Nat.mod_eq_of_lt hf.placed.head_lt] at hget
        exact Option.some.inj hget
      refine ⟨some f', ?_, hf'⟩
      have hsub : clibFifoSub1 (some f) = some (f', e) := by
        simp only [clibFifoSub1, he, bind, Option.bind, hvec, hfirst]
      rw [exec, hsub]
      rfl
  | advanceHead n =>
    rw [Op.onQueue] at legal
    split at legal
    case isTrue hn =>
      cases legal
      obtain ⟨f, f', rfl, _, he, _, hf'⟩ := advanceHead_step h hn safe
      exact ⟨some f', by rw [exec, he]; rfl, hf'⟩
    case isFalse => cases legal
  | advanceTail n =>
    rw [Op.onQueue] at legal
    split at legal
    case isTrue hn =>
      cases legal
      obtain ⟨f, i, he, hf⟩ := advanceTail_step zero h hn.1 hn.2
      exact ⟨some f, by rw [exec, he]; rfl, hf⟩
    case isFalse => cases legal

theorem run_step {v : Option (ClibFifo α)} {q q' outs : List α} {ops : List (Op α)}
    (h : Describes v q) (legal : queueRun q ops = some (q', outs)) (safe : SafeRun zero v ops) :
    ∃ v', run zero v ops = some (v', outs) ∧ Describes v' q' := by
  induction ops generalizing v q outs with
  | nil =>
    cases legal
    exact ⟨v, rfl, h⟩
  | cons op ops ih =>
    obtain ⟨hsafe, hrest⟩ := safe
    obtain ⟨⟨q₁, out⟩, hop, hcont⟩ := bind_eq_some_iff.1 legal
    obtain ⟨⟨q₂, outs'⟩, hops, heq⟩ := bind_eq_some_iff.1 hcont
    cases heq
    obtain ⟨v₁, he, hv₁⟩ := exec_step zero h hop hsafe
    obtain ⟨v', hrun, hv'⟩ := ih hv₁ hops (hrest v₁ out he)
    exact ⟨v', by rw [run, he]; simp only [bind, Option.bind, hrun], hv'⟩

/-- What leaves and what stays is in the order in which it came. -/
theorem onQueue_order {q q' out : List α} {op : Op α} (legal : op.onQueue q = some (q', out)) :
    (out ++ q').Sublist (q ++ op.entered) := by
  cases op with
  | add1 e =>
    cases legal
    exact .refl _
  | add es =>
    cases legal
    exact .refl _
  | sub1 =>
    cases q with
    | nil => cases legal
    | cons e q =>
      cases legal
      exact sublist_append_left _ _
  | advanceHead n =>
    rw [Op.onQueue] at legal
    split at legal
    case isTrue =>
      cases legal
      exact (drop_sublist n q).trans (sublist_append_left _ _)
    case isFalse => cases legal
  | advanceTail n =>
    rw [Op.onQueue] at legal
    split at legal
    case isTrue =>
      cases legal
      exact (take_sublist _ q).trans (sublist_append_left _ _)
    case isFalse => cases legal

theorem queueRun_order {q q' outs : List α} {ops : List (Op α)} (legal : queueRun q ops = some (q', outs)) :
    (outs ++ q').Sublist (q ++ ops.flatMap Op.entered) := by
  induction ops generalizing q outs with
  | nil =>
    cases legal
    exact sublist_append_left _ _
  | cons op ops ih =>
    obtain ⟨⟨q₁, out⟩, hop, hcont⟩ := bind_eq_some_iff.1 legal
    obtain ⟨⟨q₂, outs'⟩, hops, heq⟩ := bind_eq_some_iff.1 hcont
    cases heq
    rw [flatMap_cons, ← List.append_assoc, List.append_assoc out]
    apply ((ih hops).append_left out).trans
    rw [← List.append_assoc]
    exact (onQueue_order hop).append_right _

/-- A fifo is a queue as long as every operation meets its condition. -/
theorem clibFifo_isQueue (zero : α) (ops : List (Op α)) (q outs : List α)
    (legal : queueRun [] ops = some (q, outs)) (safe : SafeRun zero none ops) :
    ∃ v, run zero none ops = some (v, outs) ∧ Shows v q ∧
      (outs ++ q).Sublist (ops.flatMap Op.entered) := by
  have hnone : Describes (none : Option (ClibFifo α)) [] := rfl
  obtain ⟨v, hrun, hv⟩ := run_step zero hnone legal safe
  exact ⟨v, hrun, hv.shows, queueRun_order legal⟩

theorem clibFifo_isQueue_three :
    ∃ v, run 0 none [.add [5, 6, 7], .sub1, .advanceTail 1] = some (v, [5]) ∧ Shows v [6] ∧
      ([5] ++ [6]).Sublist [5, 6, 7] :=
  clibFifo_isQueue 0 [.add [5, 6, 7], .sub1, .advanceTail 1] [6] [5] rfl
    ⟨⟨by decide, fun h => absurd h (by decide)⟩, fun _ _ _ => ⟨trivial, fun _ _ _ => ⟨trivial, fun _ _ _ => trivial⟩⟩⟩

/-- Moving the head of a full fifo by nothing takes the mark off the tail and empties it. -/
theorem advanceHead_nothing :
    ¬ ∀ (ops : List (Op Nat)) (q outs : List Nat), queueRun [] ops = some (q, outs) →
      ∃ v, run 0 none ops = some (v, outs) ∧ Shows v q ∧ (outs ++ q).Sublist (ops.flatMap Op.entered) := by
  intro h
  obtain ⟨v, hrun, hshows, _⟩ := h [.add (List.range 32), .advanceHead 0] (List.range 32) [] rfl
  have hempty : (run 0 none [.add (List.range 32), .advanceHead 0]).map (fun r => clibFifoElts r.1) = some 0 := by
    decide
  rw [hrun] at hempty
  have hzero : clibFifoElts v = 0 := Option.some.inj hempty
  rw [hshows.elts] at hzero
  exact absurd hzero (by decide)

end ClibFifo

end Vpp.Infra
