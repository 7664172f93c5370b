import Mathlib.Data.BitVec
import Vpp.Lib.SlabHeap

namespace Vpp.Bihash
open Vpp.Lib List

section

/-- What an instance supplies to the template: the pair that memory set to 0xff spells, the free-slot
test, the key comparison and the hash of a key. -/
structure Template (K V : Type) where
  ones : K × V
  isFree : K × V → Bool
  keyCompare : K → K → Bool
  hash : K → BitVec 64

def kvpPerPage : Nat := 4

/-- A bucket; offset zero marks one that never held an element. -/
structure Bucket where
  offset : Nat
  linearSearch : Bool
  log2Pages : Nat
  deriving DecidableEq, Repr, Inhabited

/-- The cells of a value array with `2 ^ log2Pages` pages. -/
def pagesSize (log2Pages : Nat) : Nat := kvpPerPage * 2 ^ log2Pages

/-- The table. A value array is a block of the heap, its pages one after the other. -/
structure Table (K V : Type) where
  log2Nbuckets : Nat
  buckets : Nat → Bucket
  heap : SlabHeap (K × V)

variable {K V : Type}

/-- `log2Nbuckets` is the logarithm of the number of buckets, rounded up to a power of two. -/
def clibBihashInit (log2Nbuckets : Nat) : Table K V := ⟨log2Nbuckets, fun _ => default, .empty⟩

def Table.nbuckets (h : Table K V) : Nat := 2 ^ h.log2Nbuckets

def Table.values (h : Table K V) (b : Bucket) : List (K × V) := h.heap.block b.offset

def bucketIndex (t : Template K V) (log2Nbuckets : Nat) (key : K) : Nat :=
  (t.hash key).toNat &&& (2 ^ log2Nbuckets - 1)

/-- The home page of a key in an array with `2 ^ log2Pages` pages. -/
def homePage (t : Template K V) (log2Nbuckets log2Pages : Nat) (key : K) : Nat :=
  ((t.hash key).toNat >>> log2Nbuckets) &&& (2 ^ log2Pages - 1)

def slot (t : Template K V) (values : List (K × V)) (i : Nat) : K × V := values.getD i t.ones

/-- The loop over `n` cells from cell `i` on for the first that satisfies `p`. -/
def findSlot (t : Template K V) (p : K × V → Bool) (values : List (K × V)) : Nat → Nat → Option Nat
  | 0, _ => none
  | n + 1, i => if p (slot t values i) then some i else findSlot t p values n (i + 1)

def valueAlloc (t : Template K V) (h : Table K V) (log2Pages : Nat) : Table K V × Nat :=
  let (heap, o) := h.heap.alloc log2Pages (pagesSize log2Pages) t.ones
  ({ h with heap }, o)

def valueFree (h : Table K V) (o : Nat) : Table K V :=
  { h with heap := h.heap.free (Nat.log2 ((h.heap.block o).length / kvpPerPage)) o }

def setValues (h : Table K V) (o : Nat) (values : List (K × V)) : Table K V :=
  { h with heap := h.heap.write o values }

def rehashInto (t : Template K V) (log2Nbuckets newLog2Pages : Nat) :
    List (K × V) → List (K × V) → Option (List (K × V))
  | [], newValues => some newValues
  | kv :: old, newValues =>
    if t.isFree kv then rehashInto t log2Nbuckets newLog2Pages old newValues
    else match findSlot t t.isFree newValues kvpPerPage
        (kvpPerPage * homePage t log2Nbuckets newLog2Pages kv.1) with
      | some j => rehashInto t log2Nbuckets newLog2Pages old (newValues.set j kv)
      | none => none

def splitAndRehash (t : Template K V) (h : Table K V) (oldValues : List (K × V))
    (newLog2Pages : Nat) : Table K V × Option Nat :=
  let (h, o) := valueAlloc t h newLog2Pages
  match rehashInto t h.log2Nbuckets newLog2Pages oldValues (h.heap.block o) with
  | some newValues => (setValues h o newValues, some o)
  | none => (valueFree h o, none)

/-- The inner loop of the linear rehash, with `n` cells left from cell `j` on. -/
def placeLinear (t : Template K V) (kv : K × V) (newValues : List (K × V)) :
    Nat → Nat → Option (List (K × V) × Nat)
  | 0, _ => none
  | n + 1, j =>
    if t.isFree kv then some (newValues, j)
    else if t.isFree (slot t newValues j) then some (newValues.set j kv, j + 1)
    else placeLinear t kv newValues n (j + 1)

def rehashLinear (t : Template K V) (newLength : Nat) :
    List (K × V) → List (K × V) → Nat → Option (List (K × V))
  | [], newValues, _ => some newValues
  | kv :: old, newValues, j =>
    match placeLinear t kv newValues (newLength - j) j with
    | some (newValues, j) => rehashLinear t newLength old newValues j
    | none => none

def splitAndRehashLinear (t : Template K V) (h : Table K V) (oldValues : List (K × V))
    (newLog2Pages : Nat) : Table K V × Option Nat :=
  let (h, o) := valueAlloc t h newLog2Pages
  match rehashLinear t (pagesSize newLog2Pages) oldValues (h.heap.block o) 0 with
  | some newValues => (setValues h o newValues, some o)
  | none => (valueFree h o, none)

/-- The first cell that a key may occupy in an array, and how many follow it. -/
def searchStart (t : Template K V) (log2Nbuckets : Nat) (linear : Bool) (log2Pages : Nat) (key : K) :
    Nat :=
  if linear then 0 else kvpPerPage * homePage t log2Nbuckets log2Pages key

def searchLimit (linear : Bool) (log2Pages : Nat) : Nat :=
  if linear then kvpPerPage <<< log2Pages else kvpPerPage

def addToSplit (t : Template K V) (h : Table K V) (addV : K × V) (o : Nat) (linear : Bool)
    (newLog2Pages : Nat) : Option (Table K V) :=
  (findSlot t t.isFree (h.heap.block o) (searchLimit linear newLog2Pages)
    (searchStart t h.log2Nbuckets linear newLog2Pages addV.1)).map fun i =>
      setValues h o ((h.heap.block o).set i addV)

/-- The bucket takes the new array, and the old one is freed. The count of linear buckets, which the
code derives from an uninitialised bucket, is left out. -/
def expandOk (h : Table K V) (i : Nat) (saved : Bucket) (o : Nat) (linear : Bool) (log2Pages : Nat) :
    Table K V :=
  valueFree { h with buckets := Function.update h.buckets i ⟨o, linear, log2Pages⟩ } saved.offset

/-- From the label `mark_linear` on; the argument is the logarithm before it is decremented.
There is no result where the code would dereference null or wrap the logarithm. -/
def markLinear (t : Template K V) (i : Nat) (saved : Bucket) (workingCopy : List (K × V))
    (addV : K × V) : Table K V → Nat → Option (Table K V)
  | _, 0 => none
  | h, newLog2Pages + 1 =>
    match splitAndRehashLinear t h workingCopy newLog2Pages with
    | (_, none) => none
    | (h, some o) =>
      match addToSplit t h addV o true newLog2Pages with
      | some h => some (expandOk h i saved o true newLog2Pages)
      | none => markLinear t i saved workingCopy addV (valueFree h o) newLog2Pages

/-- From the label `try_resplit` on, with the logarithm after its increment. -/
def tryResplit (t : Template K V) (i : Nat) (saved : Bucket) (workingCopy : List (K × V))
    (addV : K × V) (h : Table K V) (newLog2Pages : Nat) : Option (Table K V) :=
  match splitAndRehash t h workingCopy newLog2Pages with
  | (h, none) => markLinear t i saved workingCopy addV h newLog2Pages
  | (h, some o) =>
    match addToSplit t h addV o false newLog2Pages with
    | some h => some (expandOk h i saved o false newLog2Pages)
    | none => markLinear t i saved workingCopy addV (valueFree h o) newLog2Pages

def splitBucket (t : Template K V) (i : Nat) (saved : Bucket) (workingCopy : List (K × V))
    (addV : K × V) (h : Table K V) : Option (Table K V) :=
  let newLog2Pages := saved.log2Pages + 1
  match splitAndRehash t h workingCopy newLog2Pages with
  | (h, none) => tryResplit t i saved workingCopy addV h (newLog2Pages + 1)
  | (h, some o) =>
    match addToSplit t h addV o false newLog2Pages with
    | some h => some (expandOk h i saved o false newLog2Pages)
    | none => tryResplit t i saved workingCopy addV (valueFree h o) (newLog2Pages + 1)

/-- Add or delete a pair. While an update runs, other threads see the working copy through the
bucket; every path leaves the bucket at its saved or at its new value. -/
def clibBihashAddDel [DecidableEq K] (t : Template K V) (h : Table K V) (addV : K × V)
    (isAdd : Bool) : Option (Table K V × Int) :=
  let i := bucketIndex t h.log2Nbuckets addV.1
  let saved := h.buckets i
  if saved.offset = 0 then
    if isAdd = false then some (h, -1)
    else
      let (h, o) := valueAlloc t h 0
      let h := setValues h o ((h.heap.block o).set 0 addV)
      some ({ h with buckets := Function.update h.buckets i ⟨o, false, 0⟩ }, 0)
  else
    let workingCopy := h.values saved
    let limit := searchLimit saved.linearSearch saved.log2Pages
    let start := searchStart t h.log2Nbuckets saved.linearSearch saved.log2Pages addV.1
    let sameKey (kv : K × V) : Bool := decide (kv.1 = addV.1)
    if isAdd then
      match findSlot t sameKey (h.values saved) limit start with
      | some j => some (setValues h saved.offset ((h.values saved).set j addV), 0)
      | none =>
        match findSlot t t.isFree (h.values saved) limit start with
        | some j => some (setValues h saved.offset ((h.values saved).set j addV), 0)
        | none => (splitBucket t i saved workingCopy addV h).map fun h => (h, 0)
    else
      match findSlot t sameKey (h.values saved) limit start with
      | some j => some (setValues h saved.offset ((h.values saved).set j t.ones), 0)
      | none => some (h, -3)

def searchPair (t : Template K V) (h : Table K V) (key : K) : Option (K × V) :=
  let b := h.buckets (bucketIndex t h.log2Nbuckets key)
  if b.offset = 0 then none
  else (findSlot t (fun kv => t.keyCompare kv.1 key) (h.values b)
    (searchLimit b.linearSearch b.log2Pages)
    (searchStart t h.log2Nbuckets b.linearSearch b.log2Pages key)).map (slot t (h.values b))

/-- The returned value and what `valuep` holds afterwards. -/
def clibBihashSearch (t : Template K V) (h : Table K V) (searchKey valuep : K × V) : Int × (K × V) :=
  match searchPair t h searchKey.1 with
  | some kv => (0, kv)
  | none => (-1, valuep)

def clibBihashSearchInline (t : Template K V) (h : Table K V) (kvp : K × V) : Int × (K × V) :=
  match searchPair t h kvp.1 with
  | some kv => (0, kv)
  | none => (-1, kvp)

def clibBihashSearchInline2 (t : Template K V) (h : Table K V) (searchKey valuep : K × V) :
    Int × (K × V) :=
  match searchPair t h searchKey.1 with
  | some kv => (0, kv)
  | none => (-1, valuep)

/-- The loops over the pages and the cells of bucket `i`. -/
def visitBucket (t : Template K V) (h : Table K V) (i : Nat) : List (K × V) :=
  let b := h.buckets i
  if b.offset = 0 then []
  else (List.range (2 ^ b.log2Pages)).flatMap fun j =>
    ((List.range kvpPerPage).map fun k => slot t (h.values b) (kvpPerPage * j + k)).filter
      fun kv => !t.isFree kv

def clibBihashForeachKeyValuePair (t : Template K V) (h : Table K V) : List (K × V) :=
  (List.range h.nbuckets).flatMap (visitBucket t h)

end

variable {K V : Type} {t : Template K V}

/-- What the template relies on: the comparison is equality and cleared cells are free. -/
structure Template.Lawful (t : Template K V) : Prop where
  compare_iff : ∀ a b, t.keyCompare a b = true ↔ a = b
  ones_free : t.isFree t.ones = true

/-- A pair that no cell test mistakes for a cleared one. -/
def Template.Storable (t : Template K V) (kv : K × V) : Prop := t.isFree kv = false ∧ kv.1 ≠ t.ones.1

theorem findSlot_some (h : findSlot t p values n i = some j) :
    i ≤ j ∧ j < i + n ∧ p (slot t values j) = true := by
  induction n generalizing i with
  | zero => simp [findSlot] at h
  | succ n ih =>
    unfold findSlot at h
    split at h
    · next hp =>
      obtain rfl := Option.some.inj h
      exact ⟨Nat.le_refl _, by omega, hp⟩
    · obtain ⟨h1, h2, h3⟩ := ih h
      exact ⟨by omega, by omega, h3⟩

theorem findSlot_none (h : findSlot t p values n i = none) (h1 : i ≤ j) (h2 : j < i + n) :
    p (slot t values j) = false := by
  induction n generalizing i with
  | zero => omega
  | succ n ih =>
    unfold findSlot at h
    split at h
    · simp at h
    · next hp =>
      by_cases he : j = i
      · subst he
        exact Bool.eq_false_iff.mpr hp
      · exact ih h (by omega) (by omega)

theorem slot_set (hi : i < values.length) :
    slot t (values.set i kv) j = if j = i then kv else slot t values j := by
  simp only [slot, getD_eq_getElem?_getD, getElem?_set]
  by_cases he : j = i
  · subst he
    simp [hi]
  · simp [he, Ne.symm he]

theorem slot_of_le (h : values.length ≤ i) : slot t values i = t.ones := by
  simp [slot, getD_eq_getElem?_getD, List.getElem?_eq_none h]

theorem lt_length_of_slot_ne (h : slot t values i ≠ t.ones) : i < values.length := by
  by_contra hge
  exact h (slot_of_le (Nat.le_of_not_lt hge))

theorem homePage_lt (t : Template K V) (n L : Nat) (key : K) : homePage t n L key < 2 ^ L := by
  have h1 : homePage t n L key ≤ 2 ^ L - 1 := Nat.and_le_right
  have h2 : 0 < 2 ^ L := Nat.two_pow_pos L
  omega

theorem bucketIndex_lt (t : Template K V) (n : Nat) (key : K) : bucketIndex t n key < 2 ^ n := by
  have h1 : bucketIndex t n key ≤ 2 ^ n - 1 := Nat.and_le_right
  have h2 : 0 < 2 ^ n := Nat.two_pow_pos n
  omega

/-- Cell `i` is one that the search for `key` looks at. -/
def Searched (t : Template K V) (n : Nat) (linear : Bool) (L : Nat) (key : K) (i : Nat) : Prop :=
  searchStart t n linear L key ≤ i ∧ i < searchStart t n linear L key + searchLimit linear L

theorem Searched.lt_size (h : Searched t n linear L key i) : i < pagesSize L := by
  obtain ⟨_, h2⟩ := h
  cases linear with
  | true =>
    simp only [searchStart, searchLimit, ↓reduceIte, Nat.shiftLeft_eq] at h2
    simp only [pagesSize]
    omega
  | false =>
    simp only [searchStart, searchLimit, Bool.false_eq_true, ↓reduceIte] at h2
    have hp := homePage_lt t n L key
    simp only [pagesSize, kvpPerPage] at h2 ⊢
    omega

theorem searched_linear (h : i < pagesSize L) : Searched t n true L key i := by
  simp only [Searched, searchStart, searchLimit, ↓reduceIte, Nat.shiftLeft_eq]
  exact ⟨Nat.zero_le _, by simpa [pagesSize] using h⟩

/-- A value array of bucket `b`: every cell is cleared or holds a storable pair where the search for
its key looks, and no key occurs twice. -/
structure ArrayOk (t : Template K V) (n b : Nat) (linear : Bool) (L : Nat) (values : List (K × V)) :
    Prop where
  length : values.length = pagesSize L
  cells : ∀ i, slot t values i = t.ones ∨ t.Storable (slot t values i)
  home : ∀ i, slot t values i ≠ t.ones →
    bucketIndex t n (slot t values i).1 = b ∧ Searched t n linear L (slot t values i).1 i
  unique : ∀ i j, slot t values i ≠ t.ones → (slot t values i).1 = (slot t values j).1 → i = j

/-- The array holds the pair `(k, v)`. -/
def Holds (t : Template K V) (values : List (K × V)) (k : K) (v : V) : Prop :=
  (k, v) ≠ t.ones ∧ ∃ i, slot t values i = (k, v)

variable {n b L : Nat} {linear : Bool} {values : List (K × V)}

theorem slot_replicate (t : Template K V) (m i : Nat) : slot t (List.replicate m t.ones) i = t.ones := by
  simp only [slot, getD_eq_getElem?_getD, getElem?_replicate]
  split <;> rfl

theorem ArrayOk.cleared (t : Template K V) (n b : Nat) (linear : Bool) (L : Nat) :
    ArrayOk t n b linear L (List.replicate (pagesSize L) t.ones) := by
  refine ⟨by simp, fun i => .inl (slot_replicate ..), ?_, ?_⟩
  · intro i hi
    exact absurd (slot_replicate ..) hi
  · intro i j hi
    exact absurd (slot_replicate ..) hi

theorem ArrayOk.storable (h : ArrayOk t n b linear L values) (hi : slot t values i ≠ t.ones) :
    t.Storable (slot t values i) := (h.cells i).resolve_left hi

theorem slot_ne_of_key (hk : key ≠ t.ones.1) (hi : (slot t values i).1 = key) :
    slot t values i ≠ t.ones := by
  intro he
  exact hk (hi ▸ congrArg Prod.fst he)

theorem ArrayOk.isFree_iff (hl : t.Lawful) (h : ArrayOk t n b linear L values) :
    t.isFree (slot t values i) = true ↔ slot t values i = t.ones := by
  constructor
  · intro hf
    rcases h.cells i with he | hs
    · exact he
    · exact absurd (hs.1.symm.trans hf) (by decide)
  · intro he
    rw [he]
    exact hl.ones_free

/-- Writing a storable pair where its key is searched, over a cell that is cleared or already has
the key, when no other cell has it. -/
theorem ArrayOk.put (h : ArrayOk t n b linear L values) (hs : t.Storable kv)
    (hb : bucketIndex t n kv.1 = b) (hj : Searched t n linear L kv.1 j)
    (hno : ∀ i, (slot t values i).1 = kv.1 → i = j) :
    ArrayOk t n b linear L (values.set j kv) := by
  have hlt : j < values.length := h.length ▸ hj.lt_size
  refine ⟨by rw [length_set, h.length], ?_, ?_, ?_⟩
  · intro i
    rw [slot_set hlt]
    split
    · exact .inr hs
    · exact h.cells i
  · intro i
    rw [slot_set hlt]
    split
    · next he =>
      subst he
      exact fun _ => ⟨hb, hj⟩
    · exact h.home i
  · intro i i'
    rw [slot_set hlt, slot_set hlt]
    split
    · next he =>
      split
      · next he' => exact fun _ _ => he.trans he'.symm
      · exact fun _ hk => he.trans (hno i' hk.symm).symm
    · split
      · next he' => exact fun _ hk => (hno i hk).trans he'.symm
      · exact h.unique i i'

theorem ArrayOk.clear (h : ArrayOk t n b linear L values) (j : Nat) :
    ArrayOk t n b linear L (values.set j t.ones) := by
  by_cases hlt : j < values.length
  · refine ⟨by rw [length_set, h.length], ?_, ?_, ?_⟩
    · intro i
      rw [slot_set hlt]
      split
      · exact .inl rfl
      · exact h.cells i
    · intro i
      rw [slot_set hlt]
      split
      · exact fun hne => absurd rfl hne
      · exact h.home i
    · intro i i'
      rw [slot_set hlt, slot_set hlt]
      split
      · exact fun hne => absurd rfl hne
      · next hne =>
        split
        · -- a storable pair does not have the key of a cleared cell
          intro hi hk
          exact absurd hk (h.storable hi).2
        · exact h.unique i i'
  · rw [set_eq_of_length_le (Nat.le_of_not_lt hlt)]
    exact h

theorem ArrayOk.holds_put (h : ArrayOk t n b linear L values) (hs : t.Storable kv)
    (hj : Searched t n linear L kv.1 j) (hno : ∀ i, (slot t values i).1 = kv.1 → i = j)
    (hold : slot t values j = t.ones ∨ (slot t values j).1 = kv.1) (k : K) (v : V) :
    Holds t (values.set j kv) k v ↔ k = kv.1 ∧ v = kv.2 ∨ k ≠ kv.1 ∧ Holds t values k v := by
  have hlt : j < values.length := h.length ▸ hj.lt_size
  constructor
  · rintro ⟨hne, i, hi⟩
    rw [slot_set hlt] at hi
    split at hi
    · subst hi
      exact .inl ⟨rfl, rfl⟩
    · next hij =>
      refine .inr ⟨?_, hne, i, hi⟩
      rintro rfl
      exact hij (hno i (by rw [hi]))
  · rintro (⟨rfl, rfl⟩ | ⟨hk, hne, i, hi⟩)
    · refine ⟨fun he => hs.2 (congrArg Prod.fst he), j, ?_⟩
      rw [slot_set hlt, if_pos rfl]
    · refine ⟨hne, i, ?_⟩
      have hij : i ≠ j := by
        rintro rfl
        rcases hold with ho | ho
        · exact hne (hi.symm.trans ho)
        · exact hk ((congrArg Prod.fst hi).symm.trans ho)
      rw [slot_set hlt, if_neg hij, hi]

theorem ArrayOk.holds_clear (h : ArrayOk t n b linear L values) (hk : key ≠ t.ones.1)
    (hj : (slot t values j).1 = key) (k : K) (v : V) :
    Holds t (values.set j t.ones) k v ↔ k ≠ key ∧ Holds t values k v := by
  have hone := slot_ne_of_key hk hj
  have hlt := lt_length_of_slot_ne hone
  constructor
  · rintro ⟨hne, i, hi⟩
    rw [slot_set hlt] at hi
    split at hi
    · exact absurd hi.symm hne
    · next hij =>
      refine ⟨?_, hne, i, hi⟩
      rintro rfl
      exact hij (h.unique j i hone (hj.trans (congrArg Prod.fst hi).symm)).symm
  · rintro ⟨hkk, hne, i, hi⟩
    refine ⟨hne, i, ?_⟩
    have hij : i ≠ j := by
      rintro rfl
      exact hkk ((congrArg Prod.fst hi).symm.trans hj)
    rw [slot_set hlt, if_neg hij, hi]

theorem ArrayOk.searched (h : ArrayOk t n b linear L values) (hv : Holds t values k v) :
    ∃ i, slot t values i = (k, v) ∧ Searched t n linear L k i := by
  obtain ⟨hne, i, hi⟩ := hv
  have hs := (h.home i (hi ▸ hne)).2
  rw [hi] at hs
  exact ⟨i, hi, hs⟩

end Vpp.Bihash
