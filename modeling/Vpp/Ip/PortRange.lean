import Mathlib.Algebra.BigOperators.Fin
import Mathlib.Data.BitVec
import Vpp.Lib.Slots

namespace Vpp.Ip
open Vpp.Lib Function List

abbrev U16x8 := Fin 8 → BitVec 16

def u16x8Splat (x : BitVec 16) : U16x8 := fun _ => x

def u16x8SubSaturate (x y : U16x8) : U16x8 := fun k => if y k ≤ x k then x k - y k else 0

def u16x8Add (x y : U16x8) : U16x8 := fun k => x k + y k

def u16x8IsEqual (x y : U16x8) : U16x8 := fun k => if x k = y k then BitVec.allOnes 16 else 0

def u16x8ZeroByteMask (x : U16x8) : BitVec 16 :=
  (BitVec.ofBoolListLE (List.ofFn fun i : Fin 16 => x ⟨i / 2, by omega⟩ == 0)).setWidth 16

structure ProtocolPortRange where
  low : U16x8
  hi : U16x8

abbrev Ports := BitVec 16 × BitVec 16

abbrev nBlocksPerDpo : Nat := 8

def nPortRangesPerDpo : Nat := 64

structure ProtocolPortRangeDpo where
  nUsedBlocks : Nat
  nFreeRanges : Nat
  blocks : Fin nBlocksPerDpo → ProtocolPortRange

def ProtocolPortRange.zero : ProtocolPortRange := ⟨fun _ => 0, fun _ => 0⟩

def ProtocolPortRange.lane (b : ProtocolPortRange) (k : Fin 8) : Ports := (b.low k, b.hi k)

def ProtocolPortRange.set (b : ProtocolPortRange) (k : Fin 8) (r : Ports) : ProtocolPortRange :=
  ⟨update b.low k r.1, update b.hi k r.2⟩

def protocolPortRangeDpoAlloc : ProtocolPortRangeDpo := ⟨0, nPortRangesPerDpo, fun _ => .zero⟩

def nextDrop : Nat := 0

def winnerMask (b : ProtocolPortRange) (dstPort : BitVec 16) : BitVec 16 :=
  let key := u16x8Splat dstPort
  let diff1 := u16x8SubSaturate b.low key
  let diff2 := u16x8SubSaturate b.hi key
  let sum := u16x8Add diff1 diff2
  let sumEqualDiff2 := u16x8IsEqual sum diff2
  let sumNonzero := ~~~u16x8ZeroByteMask sum
  let sumEqual := ~~~u16x8ZeroByteMask sumEqualDiff2
  sumNonzero &&& sumEqual

/-- The number of blocks that the loop for the last port looks at. -/
def nPreDataBlocks : Nat := 4

/-- A read past the blocks finds what follows the object in the pool. -/
def blockAt (past : Nat → ProtocolPortRange) (d : ProtocolPortRangeDpo) (i : Nat) : ProtocolPortRange :=
  if h : i < nBlocksPerDpo then d.blocks ⟨i, h⟩ else past i

def checkAdjPortRangeX1 (past : Nat → ProtocolPortRange) (pprDpo : Option ProtocolPortRangeDpo)
    (dstPort : BitVec 16) (next : Nat) : Nat :=
  match pprDpo with
  | none => nextDrop
  | some d =>
    if dstPort = 0 then nextDrop
    else if dstPort = 65535 then
      if (List.range nPreDataBlocks).any fun i => (List.finRange 8).any fun j => (blockAt past d i).low j == 65535
      then next else nextDrop
    else if (List.range d.nUsedBlocks).any fun i => winnerMask (blockAt past d i) dstPort != 0 then next
    else nextDrop

/-- The blocks and the two indices, which are not set again between one range and the next. -/
structure Fill where
  blocks : Fin nBlocksPerDpo → ProtocolPortRange
  j : Nat
  k : Nat

def freeLane (b : ProtocolPortRange) (k : Nat) : Option (Fin 8) :=
  (List.finRange 8).find? fun i => k ≤ i && b.low i == 0

/-- The two inner loops, with the number of blocks left: the lane stays at its end when the block changes. -/
def fillRange (r : Ports) : Nat → Fill → Fill
  | 0, f => f
  | n + 1, f =>
    if h : f.j < nBlocksPerDpo then
      match freeLane (f.blocks ⟨f.j, h⟩) f.k with
      | some k => { f with k := k, blocks := update f.blocks ⟨f.j, h⟩ ((f.blocks ⟨f.j, h⟩).set k r) }
      | none => fillRange r n { f with j := f.j + 1, k := 8 }
    else f

def fillRanges (rs : List Ports) (f : Fill) : Fill :=
  rs.foldl (fun f r => fillRange r (nBlocksPerDpo - f.j) f) f

def exceededNumberOfRangesCapacity : Int := -95

def incorrectAdjacencyType : Int := -94

/-- The return value, and the object that the prefix has in the FIB afterwards. -/
def addPortRangeAdjacency (pprDpo : Option ProtocolPortRangeDpo) (rs : List Ports) :
    Int × Option ProtocolPortRangeDpo :=
  let d := pprDpo.getD protocolPortRangeDpoAlloc
  if d.nFreeRanges < rs.length then (exceededNumberOfRangesCapacity, pprDpo)
  else
    let f := fillRanges rs ⟨d.blocks, 0, 0⟩
    (0, some { d with blocks := f.blocks, nUsedBlocks := f.j + 1 })

def findRange (blocks : Fin nBlocksPerDpo → ProtocolPortRange) (r : Ports) : Option (Fin nBlocksPerDpo × Fin 8) :=
  (List.finRange nBlocksPerDpo).findSome? fun j =>
    ((List.finRange 8).find? fun k => r.1 == (blocks j).low k && r.2 == (blocks j).hi k).map fun k => (j, k)

def clearRange (blocks : Fin nBlocksPerDpo → ProtocolPortRange) (r : Ports) : Fin nBlocksPerDpo → ProtocolPortRange :=
  match findRange blocks r with
  | some (j, k) => update blocks j ((blocks j).set k (0, 0))
  | none => blocks

/-- The loop that counts has the lane outside and the block inside. -/
def countFree (blocks : Fin nBlocksPerDpo → ProtocolPortRange) : Nat :=
  ((List.finRange 8).map fun i => (List.finRange nBlocksPerDpo).countP fun j => (blocks j).low i == 0).sum

def removePortRangeAdjacency (pprDpo : Option ProtocolPortRangeDpo) (rs : List Ports) :
    Int × Option ProtocolPortRangeDpo :=
  match pprDpo with
  | none => (incorrectAdjacencyType, none)
  | some d =>
    let blocks := rs.foldl clearRange d.blocks
    let nFreeRanges := countFree blocks
    if nFreeRanges = nPortRangesPerDpo then (0, none)
    else (0, some { d with blocks := blocks, nFreeRanges := nFreeRanges })

theorem getLsbD_zeroByteMask (x : U16x8) (hi : i < 16) :
    (u16x8ZeroByteMask x).getLsbD i = (x ⟨i / 2, by omega⟩ == 0) := by
  rw [u16x8ZeroByteMask, BitVec.getLsbD_setWidth, BitVec.getLsbD_ofBoolListLE, getD_eq_getElem?_getD,
    List.getElem?_ofFn]
  simp [hi]

theorem isEqual_ne_zero : u16x8IsEqual x y k ≠ 0 ↔ x k = y k := by
  rw [u16x8IsEqual]
  split
  · rename_i he
    exact iff_of_true (by decide) he
  · rename_i hne
    exact iff_of_false (by decide) hne

/-- The sum of the two differences is the second one, and not zero. -/
theorem sum_winner (l h p : BitVec 16) :
    ((if p ≤ l then l - p else 0) + (if p ≤ h then h - p else 0) ≠ 0 ∧
      (if p ≤ l then l - p else 0) + (if p ≤ h then h - p else 0) = if p ≤ h then h - p else 0) ↔ l ≤ p ∧ p < h := by
  have hsub : ∀ x : BitVec 16, (if p ≤ x then x - p else 0) = 0 ↔ x ≤ p := by
    intro x
    split
    · rename_i hle
      rw [BitVec.sub_eq_iff_eq_add, zero_add]
      constructor
      · intro he
        rw [he]
        exact BitVec.le_refl _
      · intro hge
        exact BitVec.le_antisymm hge hle
    · rename_i hlt
      have hlt' : x < p := BitVec.not_le.mp hlt
      simp [BitVec.le_of_lt hlt']
  generalize hd1 : (if p ≤ l then l - p else 0) = d1
  generalize hd2 : (if p ≤ h then h - p else 0) = d2
  have h1 := hsub l
  have h2 := hsub h
  rw [hd1] at h1
  rw [hd2] at h2
  have hadd : d1 + d2 = d2 ↔ d1 = 0 := by simp
  rw [hadd]
  constructor
  · intro ⟨hne, hz⟩
    subst hz
    rw [zero_add, Ne, h2, BitVec.not_le] at hne
    exact ⟨h1.mp rfl, hne⟩
  · intro ⟨hl, hlt⟩
    have hz := h1.mpr hl
    subst hz
    rw [zero_add, Ne, h2, BitVec.not_le]
    exact ⟨hlt, rfl⟩

def inRange (p : BitVec 16) (r : Ports) : Prop := r.1 ≤ p ∧ p < r.2

instance : Decidable (inRange p r) := inferInstanceAs (Decidable (_ ∧ _))

theorem winnerMask_ne_zero : winnerMask b p ≠ 0 ↔ ∃ k, inRange p (b.lane k) := by
  have hbit : ∀ (k : Fin 8) (i : Nat), i < 16 → i / 2 = k.val →
      ((winnerMask b p).getLsbD i = true ↔ inRange p (b.lane k)) := by
    intro k i hi hk
    have hfin : (⟨i / 2, by omega⟩ : Fin 8) = k := Fin.ext hk
    rw [winnerMask, BitVec.getLsbD_and, BitVec.getLsbD_not, BitVec.getLsbD_not, getLsbD_zeroByteMask _ hi,
      getLsbD_zeroByteMask _ hi, hfin]
    have hwin := sum_winner (b.low k) (b.hi k) p
    simp only [hi, decide_true, Bool.true_and, Bool.and_eq_true, Bool.not_eq_true', beq_eq_false_iff_ne]
    rw [inRange, ProtocolPortRange.lane, ← hwin]
    apply and_congr Iff.rfl
    exact isEqual_ne_zero
  constructor
  · intro hne
    obtain ⟨i, hi⟩ : ∃ i, (winnerMask b p).getLsbD i = true := by
      by_contra hall
      apply hne
      apply BitVec.eq_of_getLsbD_eq
      intro i _
      simp only [not_exists, Bool.not_eq_true] at hall
      simp [hall i]
    have hlt : i < 16 := BitVec.lt_of_getLsbD hi
    exact ⟨⟨i / 2, by omega⟩, (hbit ⟨i / 2, by omega⟩ i hlt rfl).mp hi⟩
  · intro ⟨k, hk⟩ hz
    have hbad := (hbit k (2 * k.val) (by omega) (by omega)).mpr hk
    simp [hz] at hbad

variable {b : ProtocolPortRange}

abbrev usedLane (r : Ports) : Prop := r.1 ≠ 0

def ProtocolPortRange.ranges (b : ProtocolPortRange) : Multiset Ports := occupied usedLane b.lane

theorem lane_set (b : ProtocolPortRange) (k : Fin 8) (r : Ports) : (b.set k r).lane = update b.lane k r := by
  funext i
  by_cases hi : i = k
  · subst hi
    simp [ProtocolPortRange.lane, ProtocolPortRange.set]
  · simp [ProtocolPortRange.lane, ProtocolPortRange.set, hi]

theorem ranges_zero : ProtocolPortRange.zero.ranges = 0 := by
  apply Multiset.eq_zero_of_forall_notMem
  intro r hr
  obtain ⟨⟨i, hi⟩, hused⟩ := mem_occupied.mp hr
  exact hused (hi ▸ rfl)

theorem ranges_fill (hfree : b.low k = 0) (hr : usedLane r) : (b.set k r).ranges = r ::ₘ b.ranges := by
  rw [ProtocolPortRange.ranges, lane_set]
  exact occupied_fill (fun h => h hfree) hr

theorem ranges_clear (hused : usedLane (b.lane k)) : b.lane k ::ₘ (b.set k (0, 0)).ranges = b.ranges := by
  rw [ProtocolPortRange.ranges, lane_set]
  exact occupied_clear hused (fun h => h rfl)

theorem freeLane_spec (h : freeLane b k = some i) : b.low i = 0 ∧ ∀ i' < i, k ≤ i'.val → b.low i' ≠ 0 := by
  obtain ⟨hp, n, hn, he, hbefore⟩ := find?_eq_some_iff_getElem.mp h
  simp only [getElem_finRange, Fin.cast_mk] at he
  simp only [Bool.and_eq_true, decide_eq_true_eq, beq_iff_eq] at hp
  refine ⟨hp.2, ?_⟩
  intro i' hlt hk hz
  have hi' : i'.val < n := by
    rw [← he] at hlt
    exact hlt
  have hnot := hbefore i'.val hi'
  simp [hk, hz] at hnot

theorem freeLane_isSome (hlanes : ∀ i : Fin 8, i.val < k → b.low i ≠ 0) (hroom : b.ranges.card < 8) :
    ∃ i, freeLane b k = some i := by
  obtain ⟨i, hi⟩ : ∃ i, ¬ usedLane (b.lane i) := exists_free hroom
  have hz : b.low i = 0 := not_not.mp hi
  have hk : k ≤ i.val := by
    by_contra hlt
    exact hlanes i (Nat.lt_of_not_le hlt) hz
  apply Option.isSome_iff_exists.mp
  rw [freeLane, find?_isSome]
  exact ⟨i, mem_finRange i, by simp [hk, hz]⟩

/-- One range goes to the first block while that has a lane left. -/
theorem fillRange_first (hj : f.j = 0) (hlanes : ∀ i : Fin 8, i.val < f.k → (f.blocks 0).low i ≠ 0) (hr : usedLane r)
    (hroom : (f.blocks 0).ranges.card < 8) :
    let f' := fillRange r (nBlocksPerDpo - f.j) f
    f'.j = 0 ∧ (∀ i : Fin 8, i.val < f'.k → (f'.blocks 0).low i ≠ 0) ∧
      (f'.blocks 0).ranges = r ::ₘ (f.blocks 0).ranges ∧ ∀ j ≠ 0, f'.blocks j = f.blocks j := by
  obtain ⟨i, hi⟩ := freeLane_isSome hlanes hroom
  obtain ⟨hfree, hbefore⟩ := freeLane_spec hi
  have hstep : fillRange r (nBlocksPerDpo - f.j) f =
      { f with k := i, blocks := update f.blocks 0 ((f.blocks 0).set i r) } := by
    obtain ⟨blocks, j, k⟩ := f
    subst hj
    simp only [nBlocksPerDpo, fillRange] at hi ⊢
    simp [hi]
  intro f'
  have hf' : f' = { f with k := i, blocks := update f.blocks 0 ((f.blocks 0).set i r) } := hstep
  rw [hf']
  simp only [update_self]
  refine ⟨hj, ?_, ranges_fill hfree hr, fun j hne => update_of_ne hne _ _⟩
  intro i' hlt
  have hne : i' ≠ i := fun he => by simp [he] at hlt
  rw [ProtocolPortRange.set]
  simp only [ne_eq, hne, not_false_eq_true, update_of_ne]
  by_cases hk : i'.val < f.k
  · exact hlanes i' hk
  · exact hbefore i' hlt (Nat.le_of_not_lt hk)

theorem fillRanges_first (hj : f.j = 0) (hlanes : ∀ i : Fin 8, i.val < f.k → (f.blocks 0).low i ≠ 0)
    (hrs : ∀ r ∈ rs, usedLane r) (hroom : (f.blocks 0).ranges.card + rs.length ≤ 8) :
    let f' := fillRanges rs f
    f'.j = 0 ∧ (f'.blocks 0).ranges = (f.blocks 0).ranges + ↑rs ∧ ∀ j ≠ 0, f'.blocks j = f.blocks j := by
  induction rs generalizing f with
  | nil =>
    refine ⟨hj, ?_, fun _ _ => rfl⟩
    simp [fillRanges]
  | cons r rs ih =>
    rw [length_cons] at hroom
    obtain ⟨hj', hlanes', hranges, hother⟩ := fillRange_first hj hlanes (hrs r mem_cons_self) (by omega)
    obtain ⟨hj'', hranges', hother'⟩ := ih hj' hlanes' (fun r' h => hrs r' (mem_cons_of_mem r h))
      (by rw [hranges, Multiset.card_cons]; omega)
    refine ⟨hj'', ?_, ?_⟩
    · exact hranges'.trans (by rw [hranges, ← Multiset.cons_coe, Multiset.cons_add, Multiset.add_cons])
    · intro j hne
      exact (hother' j hne).trans (hother j hne)

def Clean (blocks : Fin nBlocksPerDpo → ProtocolPortRange) : Prop :=
  ∀ j k, usedLane ((blocks j).lane k) ∨ (blocks j).lane k = (0, 0)

theorem Clean.update (h : Clean blocks) (hr : usedLane r ∨ r = (0, 0)) (j : Fin nBlocksPerDpo) (k : Fin 8) :
    Clean (update blocks j ((blocks j).set k r)) := by
  intro j' k'
  by_cases hj : j' = j
  · subst hj
    rw [update_self, lane_set]
    by_cases hk : k' = k
    · subst hk
      rwa [update_self]
    · rw [update_of_ne hk]
      exact h j' k'
  · rw [update_of_ne hj]
    exact h j' k'

theorem Clean.fillRange (h : Clean f.blocks) (hr : usedLane r) (n : Nat) : Clean (fillRange r n f).blocks := by
  induction n generalizing f with
  | zero => exact h
  | succ n ih =>
    rw [Ip.fillRange]
    split
    · split
      · exact h.update (.inl hr) _ _
      · exact ih h
    · exact h

theorem Clean.fillRanges (h : Clean f.blocks) (hrs : ∀ r ∈ rs, usedLane r) : Clean (fillRanges rs f).blocks := by
  induction rs generalizing f with
  | nil => exact h
  | cons r rs ih =>
    exact ih (h.fillRange (hrs r mem_cons_self) _) fun r' h' => hrs r' (mem_cons_of_mem r h')

theorem Clean.clearRange (h : Clean blocks) (r : Ports) : Clean (clearRange blocks r) := by
  rw [Ip.clearRange]
  split
  · exact h.update (.inr rfl) _ _
  · exact h

theorem Clean.clearRanges (h : Clean blocks) (rs : List Ports) : Clean (rs.foldl Ip.clearRange blocks) := by
  induction rs generalizing blocks with
  | nil => exact h
  | cons r rs ih => exact ih (h.clearRange r)

def FirstOnly (blocks : Fin nBlocksPerDpo → ProtocolPortRange) : Prop := ∀ j ≠ 0, blocks j = .zero

theorem findRange_spec (h : findRange blocks r = some (j, k)) : (blocks j).lane k = r := by
  obtain ⟨j', _, hj'⟩ := exists_of_findSome?_eq_some h
  obtain ⟨k', hk', he⟩ := Option.map_eq_some_iff.mp hj'
  have hp := find?_some hk'
  obtain ⟨rfl, rfl⟩ := Prod.mk.inj he
  simp only [Bool.and_eq_true, beq_iff_eq] at hp
  exact Prod.ext hp.1.symm hp.2.symm

theorem findRange_none (h : findRange blocks r = none) (j : Fin nBlocksPerDpo) (k : Fin 8) :
    (blocks j).lane k ≠ r := by
  intro he
  have hj := findSome?_eq_none_iff.mp h j (mem_finRange j)
  have hk := find?_eq_none.mp (Option.map_eq_none_iff.mp hj) k (mem_finRange k)
  apply hk
  rw [← he]
  simp [ProtocolPortRange.lane]

theorem clearRange_spec (hfirst : FirstOnly blocks) (hr : usedLane r) :
    (clearRange blocks r 0).ranges = (blocks 0).ranges.erase r ∧ FirstOnly (clearRange blocks r) := by
  rw [clearRange]
  cases hfind : findRange blocks r with
  | none =>
    refine ⟨?_, hfirst⟩
    rw [Multiset.erase_of_notMem]
    intro hmem
    obtain ⟨⟨k, hk⟩, _⟩ := mem_occupied.mp hmem
    exact findRange_none hfind 0 k hk
  | some jk =>
    obtain ⟨j, k⟩ := jk
    have hlane := findRange_spec hfind
    have hj : j = 0 := by
      by_contra hne
      rw [hfirst j hne] at hlane
      exact hr (hlane ▸ rfl)
    subst hj
    constructor
    · have hclear : (blocks 0).lane k ::ₘ ((blocks 0).set k (0, 0)).ranges = (blocks 0).ranges :=
        ranges_clear (hlane ▸ hr)
      rw [← hclear, hlane, Multiset.erase_cons_head]
      simp
    · intro j hne
      simp only [update_of_ne hne]
      exact hfirst j hne

theorem clearRanges_spec {rs : List Ports} (hfirst : FirstOnly blocks) (hrs : ∀ r ∈ rs, usedLane r) :
    (rs.foldl clearRange blocks 0).ranges = (blocks 0).ranges - ↑rs ∧ FirstOnly (rs.foldl clearRange blocks) := by
  induction rs generalizing blocks with
  | nil => exact ⟨(Multiset.sub_zero _).symm, hfirst⟩
  | cons r rs ih =>
    obtain ⟨hranges, hfirst'⟩ := clearRange_spec hfirst (hrs r mem_cons_self)
    obtain ⟨hranges', hfirst''⟩ := ih hfirst' fun r' h => hrs r' (mem_cons_of_mem r h)
    refine ⟨?_, hfirst''⟩
    rw [foldl_cons, hranges', hranges, ← Multiset.cons_coe, Multiset.sub_cons]

/-- The number of slots that hold no range. -/
def unused (blocks : Fin nBlocksPerDpo → ProtocolPortRange) : Nat :=
  (Finset.univ.filter fun s : Fin nBlocksPerDpo × Fin 8 => (blocks s.1).low s.2 = 0).card

theorem countFree_eq_unused (blocks : Fin nBlocksPerDpo → ProtocolPortRange) : countFree blocks = unused blocks := by
  have hcount : ∀ i : Fin 8, ((List.finRange nBlocksPerDpo).countP fun j => (blocks j).low i == 0) =
      ∑ j, if (blocks j).low i = 0 then 1 else 0 := by
    intro i
    rw [Finset.sum_boole, Nat.cast_id]
    simp only [Finset.card_def, Finset.filter_val, ← Multiset.countP_eq_card_filter]
    rfl
  rw [countFree, unused, Finset.card_filter, Fintype.sum_prod_type_right]
  simp only [hcount]
  rw [← sum_ofFn, ofFn_eq_map]

theorem unused_add_card (hfirst : FirstOnly blocks) : unused blocks + (blocks 0).ranges.card = nPortRangesPerDpo := by
  have hcard : (blocks 0).ranges.card + (Finset.univ.filter fun k => (blocks 0).low k = 0).card = 8 := by
    have h := card_occupied_add usedLane (blocks 0).lane
    simp only [not_not] at h
    exact h
  have hrest : ∀ j : Fin 7, (∑ k, if (blocks j.succ).low k = 0 then 1 else 0) = 8 := by
    intro j
    rw [hfirst j.succ (Fin.succ_ne_zero j)]
    rfl
  rw [unused, Finset.card_filter, Fintype.sum_prod_type, Fin.sum_univ_succ]
  simp only [hrest]
  rw [← Finset.card_filter, nPortRangesPerDpo]
  simp only [Finset.sum_const, Finset.card_univ, Fintype.card_fin, smul_eq_mul]
  omega

/-- A range that starts after port zero and is not empty. -/
abbrev PortRange := { r : Ports // 0 < r.1 ∧ r.1 < r.2 }

def ports (rs : List PortRange) : List Ports := rs.map Subtype.val

inductive Op where
  | add (rs : List PortRange)
  | remove (rs : List PortRange)

def step (s : Option ProtocolPortRangeDpo) : Op → Option ProtocolPortRangeDpo
  | .add rs => (addPortRangeAdjacency s (ports rs)).2
  | .remove rs => (removePortRangeAdjacency s (ports rs)).2

/-- The ranges added and not removed since, and whether none was added after the last removal. -/
structure Live where
  ranges : Multiset Ports
  counted : Bool

def Live.step (t : Live) : Op → Live
  | .add rs =>
    if t.ranges.card + rs.length ≤ nPortRangesPerDpo then ⟨t.ranges + ↑(ports rs), t.counted && rs.isEmpty⟩ else t
  | .remove rs => ⟨t.ranges - ↑(ports rs), true⟩

def Live.empty : Live := ⟨0, true⟩

def nFreeOf (s : Option ProtocolPortRangeDpo) : Nat := (s.getD protocolPortRangeDpoAlloc).nFreeRanges

/-- An addition is refused, or its ranges find lanes in the first block. -/
def Fits (s : Option ProtocolPortRangeDpo) (t : Live) : Op → Prop
  | .add rs => t.ranges.card + rs.length ≤ 8 ∨ nFreeOf s < rs.length
  | .remove _ => True

def AllFit : Option ProtocolPortRangeDpo → Live → List Op → Prop
  | _, _, [] => True
  | s, t, op :: ops => Fits s t op ∧ AllFit (step s op) (t.step op) ops

structure Tracks (d : ProtocolPortRangeDpo) (t : Live) : Prop where
  first : FirstOnly d.blocks
  clean : Clean d.blocks
  ranges : (d.blocks 0).ranges = t.ranges
  room : t.ranges.card ≤ 8
  used : d.nUsedBlocks ≤ 1
  usedPos : t.ranges ≠ 0 → d.nUsedBlocks = 1
  free : nPortRangesPerDpo ≤ d.nFreeRanges + t.ranges.card
  counted : d.nFreeRanges + t.ranges.card = nPortRangesPerDpo ↔ t.counted = true

def Inv (s : Option ProtocolPortRangeDpo) (t : Live) : Prop :=
  Tracks (s.getD protocolPortRangeDpoAlloc) t ∧ (s = none → t.ranges = 0)

theorem usedLane_ports (rs : List PortRange) : ∀ r ∈ ports rs, usedLane r := by
  intro r hr
  obtain ⟨r', _, rfl⟩ := List.mem_map.mp hr
  intro hz
  have hpos := r'.2.1
  rw [hz] at hpos
  exact absurd hpos (BitVec.lt_irrefl 0)

theorem inv_empty : Inv none .empty := by
  refine ⟨⟨fun _ _ => rfl, fun _ _ => .inr rfl, ranges_zero, ?_, Nat.zero_le 1, fun h => absurd rfl h, ?_, ?_⟩,
      fun _ => rfl⟩
  all_goals simp [Live.empty, protocolPortRangeDpoAlloc]

theorem Inv.add (h : Inv s t) (hfit : Fits s t (.add rs)) : Inv (step s (.add rs)) (t.step (.add rs)) := by
  obtain ⟨ht, hnone⟩ := h
  have hlen : (ports rs).length = rs.length := length_map _
  have hfree := ht.free
  rw [step, addPortRangeAdjacency, Live.step, hlen]
  obtain hroom | hover := hfit
  · have hroom' : ((s.getD protocolPortRangeDpoAlloc).blocks 0).ranges.card + (ports rs).length ≤ 8 := by
      rw [ht.ranges, hlen]
      exact hroom
    have hspec := fillRanges_first (f := ⟨(s.getD protocolPortRangeDpoAlloc).blocks, 0, 0⟩) rfl
      (fun i hi => absurd hi (Nat.not_lt_zero _)) (usedLane_ports rs) hroom'
    obtain ⟨hj, hranges, hother⟩ := hspec
    have hno : ¬ (s.getD protocolPortRangeDpoAlloc).nFreeRanges < rs.length := by
      rw [nPortRangesPerDpo] at hfree
      omega
    have hyes : t.ranges.card + rs.length ≤ nPortRangesPerDpo := by
      rw [nPortRangesPerDpo]
      omega
    rw [if_neg hno, if_pos hyes]
    have hcard : (t.ranges + ↑(ports rs)).card = t.ranges.card + rs.length := by
      rw [Multiset.card_add, Multiset.coe_card, hlen]
    refine ⟨⟨?_, ht.clean.fillRanges (usedLane_ports rs), ?_, ?_, ?_, ?_, ?_, ?_⟩, fun hbad => nomatch hbad⟩
    · intro j hne
      exact (hother j hne).trans (ht.first j hne)
    · exact hranges.trans (by rw [ht.ranges])
    · rw [hcard]
      exact hroom
    · simp [hj]
    · intro _
      simp [hj]
    · rw [hcard]
      simp only [Option.getD_some]
      omega
    · rw [hcard, Bool.and_eq_true, ← ht.counted, List.isEmpty_iff, ← length_eq_zero_iff]
      simp only [Option.getD_some]
      omega
  · have hyes : (s.getD protocolPortRangeDpoAlloc).nFreeRanges < rs.length := hover
    have hno : ¬ t.ranges.card + rs.length ≤ nPortRangesPerDpo := by omega
    rw [if_pos hyes, if_neg hno]
    exact ⟨ht, hnone⟩

theorem Inv.remove (h : Inv s t) : Inv (step s (.remove rs)) (t.step (.remove rs)) := by
  obtain ⟨ht, hnone⟩ := h
  rw [step, Live.step]
  cases s with
  | none =>
    have hzero : t.ranges - ↑(ports rs) = 0 := by rw [hnone rfl, Multiset.zero_sub]
    rw [hzero]
    exact inv_empty
  | some d =>
    rw [Option.getD_some] at ht
    obtain ⟨hranges, hfirst⟩ := clearRanges_spec ht.first (usedLane_ports rs)
    rw [ht.ranges] at hranges
    have hcard := unused_add_card hfirst
    rw [hranges] at hcard
    simp only [removePortRangeAdjacency, countFree_eq_unused]
    split
    · rename_i hall
      have hzero : t.ranges - ↑(ports rs) = 0 := by
        apply Multiset.card_eq_zero.mp
        rw [hall] at hcard
        omega
      rw [hzero]
      exact inv_empty
    · have hle : (t.ranges - ↑(ports rs)).card ≤ t.ranges.card := Multiset.card_le_card (Multiset.sub_le_self _ _)
      refine ⟨⟨hfirst, ht.clean.clearRanges _, hranges, hle.trans ht.room, ht.used, ?_, ?_, ?_⟩, fun hbad =>
        nomatch hbad⟩
      · intro hne
        apply ht.usedPos
        intro hz
        rw [hz, Multiset.zero_sub] at hne
        exact hne rfl
      · exact hcard.ge
      · exact iff_of_true hcard rfl

theorem inv_run (h : Inv s t) (hfit : AllFit s t ops) : Inv (ops.foldl step s) (ops.foldl Live.step t) := by
  induction ops generalizing s t with
  | nil => exact h
  | cons op ops ih =>
    obtain ⟨hop, hrest⟩ := hfit
    cases op with
    | add rs => exact ih (h.add hop) hrest
    | remove rs => exact ih h.remove hrest

theorem Tracks.mem_ranges (h : Tracks d t) : r ∈ t.ranges ↔ (∃ k, (d.blocks 0).lane k = r) ∧ usedLane r := by
  rw [← h.ranges]
  exact mem_occupied

theorem Tracks.winner (h : Tracks d t) : winnerMask (d.blocks 0) p ≠ 0 ↔ ∃ r ∈ t.ranges, inRange p r := by
  rw [winnerMask_ne_zero]
  constructor
  · intro ⟨k, hin⟩
    refine ⟨_, h.mem_ranges.mpr ⟨⟨k, rfl⟩, ?_⟩, hin⟩
    obtain hused | hzero := h.clean 0 k
    · exact hused
    · rw [hzero] at hin
      exact absurd hin.2 (BitVec.not_lt_zero)
  · intro ⟨r, hr, hin⟩
    obtain ⟨⟨k, rfl⟩, _⟩ := h.mem_ranges.mp hr
    exact ⟨k, hin⟩

instance (t : Live) (p : BitVec 16) : Decidable (∃ r ∈ t.ranges, inRange p r) :=
  Multiset.decidableExistsMultiset

theorem Inv.check (h : Inv s t) (past : Nat → ProtocolPortRange) (hp : 0 < p) (hp' : p < 65535) (next : Nat) :
    checkAdjPortRangeX1 past s p next = if ∃ r ∈ t.ranges, inRange p r then next else nextDrop := by
  obtain ⟨ht, hnone⟩ := h
  have hne : p ≠ 0 := fun hz => absurd (hz ▸ hp) (BitVec.lt_irrefl 0)
  have hne' : p ≠ 65535 := fun hz => absurd (hz ▸ hp') (BitVec.lt_irrefl _)
  cases s with
  | none => simp [checkAdjPortRangeX1, hnone rfl]
  | some d =>
    have hwin := ht.winner (p := p)
    have hany : ((List.range d.nUsedBlocks).any fun i => winnerMask (blockAt past d i) p != 0) = true ↔
        ∃ r ∈ t.ranges, inRange p r := by
      rw [← hwin, List.any_eq_true]
      constructor
      · intro ⟨i, hi, hm⟩
        have hi0 : i = 0 := by
          have hlt := mem_range.mp hi
          have hle := ht.used
          simp only [Option.getD_some] at hle
          omega
        subst hi0
        exact bne_iff_ne.mp hm
      · intro hm
        have hused : d.nUsedBlocks = 1 := by
          apply ht.usedPos
          intro hz
          obtain ⟨r, hr, _⟩ := hwin.mp hm
          rw [hz] at hr
          exact Multiset.notMem_zero r hr
        exact ⟨0, mem_range.mpr (by omega), bne_iff_ne.mpr hm⟩
    simp only [checkAdjPortRangeX1, if_neg hne, if_neg hne', hany]

/-- When every addition fits the first block, the check finds what is live, and the count of free ranges is right in
the states that no addition follows the last removal of. -/
theorem portRange_run (hfit : AllFit none .empty ops) :
    let s := ops.foldl step none
    let t := ops.foldl Live.step .empty
    (∀ past p next, 0 < p → p < 65535 →
      checkAdjPortRangeX1 past s p next = if ∃ r ∈ t.ranges, inRange p r then next else nextDrop) ∧
    ∀ d, s = some d → (d.nFreeRanges = unused d.blocks ↔ t.counted = true) := by
  intro s t
  have hinv : Inv s t := inv_run inv_empty hfit
  refine ⟨fun past p next hp hp' => hinv.check past hp hp' next, ?_⟩
  intro d hd
  obtain ⟨ht, _⟩ := hinv
  rw [hd] at ht
  have hcard := unused_add_card ht.first
  rw [ht.ranges] at hcard
  rw [← ht.counted, ← hcard]
  simp only [Option.getD_some]
  omega

def dnsPorts : PortRange := ⟨(53, 54), by decide⟩

def webPorts : PortRange := ⟨(80, 90), by decide⟩

theorem portRange_run_web :
    let ops := [Op.add [dnsPorts, webPorts], .remove [dnsPorts]]
    let s := ops.foldl step none
    checkAdjPortRangeX1 (fun _ => .zero) s 85 1 = 1 ∧ checkAdjPortRangeX1 (fun _ => .zero) s 53 1 = nextDrop ∧
      ∀ d, s = some d → d.nFreeRanges = unused d.blocks := by
  have hfit : AllFit none .empty [.add [dnsPorts, webPorts], .remove [dnsPorts]] := ⟨.inl (by decide), trivial, trivial⟩
  obtain ⟨hcheck, hfree⟩ := portRange_run hfit
  refine ⟨?_, ?_, ?_⟩
  · rw [hcheck _ _ _ (by decide) (by decide)]
    decide
  · rw [hcheck _ _ _ (by decide) (by decide)]
    decide
  · intro d hd
    exact (hfree d hd).mpr rfl

def nineRanges : List PortRange :=
  [⟨(10, 15), by decide⟩, ⟨(20, 25), by decide⟩, ⟨(30, 35), by decide⟩, ⟨(40, 45), by decide⟩, ⟨(50, 55), by decide⟩,
    ⟨(60, 65), by decide⟩, ⟨(70, 75), by decide⟩, ⟨(80, 85), by decide⟩, ⟨(90, 95), by decide⟩]

/-- The ninth range is lost, and the additions are not counted. -/
theorem portRange_run_fails :
    let s := step none (.add nineRanges)
    let t := Live.empty.step (.add nineRanges)
    (∃ r ∈ t.ranges, inRange 92 r) ∧ checkAdjPortRangeX1 (fun _ => .zero) s 92 1 = nextDrop ∧
      (s.map fun d => (d.nFreeRanges, unused d.blocks)) = some (64, 56) := by
  refine ⟨by decide, by decide +kernel, by decide +kernel⟩

end Vpp.Ip
