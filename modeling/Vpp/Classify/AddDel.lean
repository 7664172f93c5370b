import Vpp.Lib.FirstFit
import Vpp.Lib.Mixing

namespace Vpp.Classify
open Vpp.Lib Function Option

abbrev U32x4 := BitVec 64 × BitVec 64

/-- An entry is its flag, its key of `n` vectors and what is copied with them. -/
structure VnetClassifyEntry (n : Nat) (α : Type) where
  free : Bool
  key : Fin n → U32x4
  rest : α

structure VnetClassifyBucket (n : Nat) (α : Type) where
  log2Pages : Nat
  entries : Nat → VnetClassifyEntry n α

/-- A table that matches `n` vectors, with memory for all the pages that it needs. -/
structure VnetClassifyTable (n : Nat) (α : Type) where
  mask : Fin n → U32x4
  log2Nbuckets : Nat
  entriesPerPage : Nat
  buckets : Nat → Option (VnetClassifyBucket n α)
  activeElements : BitVec 32

def prime1 : BitVec 64 := 11400714785074694791
def prime2 : BitVec 64 := 14029467366897019727
def prime3 : BitVec 64 := 1609587929392839161
def prime4 : BitVec 64 := 9650029242287828579
def prime5 : BitVec 64 := 2870177450012600261

def clibXxhash (key : BitVec 64) : BitVec 64 :=
  let k1 := key * prime2
  let k1 := k1.rotateLeft 31
  let k1 := k1 * prime1
  let h := (0x9e3779b97f4a7c13 + prime5 + 8) ^^^ k1
  let h := h.rotateLeft 27 * prime1 + prime4
  let h := h ^^^ h >>> 33
  let h := h * prime2
  let h := h ^^^ h >>> 29
  let h := h * prime3
  h ^^^ h >>> 32

variable {n : Nat} {α : Type}

def xorSum (mask key : Fin n → U32x4) : U32x4 :=
  (List.finRange n).foldl
      (fun sum i => (sum.1 ^^^ ((key i).1 &&& (mask i).1), sum.2 ^^^ ((key i).2 &&& (mask i).2))) (0, 0)

def vnetClassifyHashPacket (mask key : Fin n → U32x4) : BitVec 64 :=
  clibXxhash ((xorSum mask key).1 ^^^ (xorSum mask key).2)

def hashBits (hash : BitVec 64) (shift bits : Nat) : Nat := ((hash >>> shift) &&& BitVec.ofNat 64 (2 ^ bits - 1)).toNat

def bucketIndex (t : VnetClassifyTable n α) (key : Fin n → U32x4) : Nat :=
  hashBits (vnetClassifyHashPacket t.mask key) 0 t.log2Nbuckets

/-- Where the entries of a key begin in so many pages. -/
def pageIndex (t : VnetClassifyTable n α) (log2Pages : Nat) (key : Fin n → U32x4) : Nat :=
  hashBits (vnetClassifyHashPacket t.mask key) t.log2Nbuckets log2Pages

variable [Inhabited α]

def freeEntry : VnetClassifyEntry n α := ⟨true, fun _ => (BitVec.allOnes 64, BitVec.allOnes 64), default⟩

def busyEntry (v : VnetClassifyEntry n α) : VnetClassifyEntry n α := { v with free := false }

def isBusy (entries : Nat → VnetClassifyEntry n α) (i : Nat) : Bool := !(entries i).free

/-- The first free entry of a key is written. Nothing when there is none. -/
def place (t : VnetClassifyTable n α) (log2Pages : Nat) (entries : Nat → VnetClassifyEntry n α)
    (v : VnetClassifyEntry n α) : Option (Nat → VnetClassifyEntry n α) :=
  let h := pageIndex t log2Pages v.key
  (firstFree (isBusy entries) h t.entriesPerPage).map fun k => update entries (h + k) (busyEntry v)

def VnetClassifyBucket.values (t : VnetClassifyTable n α) (b : VnetClassifyBucket n α) : List (VnetClassifyEntry n α) :=
  (List.range (2 ^ b.log2Pages * t.entriesPerPage)).map b.entries

/-- Nothing when an entry finds no place in the new pages. -/
def splitAndRehash (t : VnetClassifyTable n α) (oldValues : List (VnetClassifyEntry n α)) (newLog2Pages : Nat) :
    Option (Nat → VnetClassifyEntry n α) :=
  oldValues.foldlM (fun newValues v => if v.free then some newValues else place t newLog2Pages newValues v)
    fun _ => freeEntry

/-- From `expand_again` on. Nothing when the pages are too few for so many tries. -/
def expandAgain (t : VnetClassifyTable n α) (b : VnetClassifyBucket n α) (addV : VnetClassifyEntry n α) :
    (tries : Nat) → (newLog2Pages : Nat) → Option (VnetClassifyBucket n α)
  | 0, _ => none
  | tries + 1, newLog2Pages =>
    match (splitAndRehash t (b.values t) newLog2Pages).bind fun entries => place t newLog2Pages entries addV with
    | some entries => some ⟨newLog2Pages, entries⟩
    | none => expandAgain t b addV tries (newLog2Pages + 1)

/-- With one more the number of entries, an `int`, is 0: there are no pages, and the first entry is written through a
null vector. -/
def maxLog2Pages : Nat := 30

def vnetClassifyNewTable (mask : Fin n → U32x4) (log2Nbuckets : Nat) : VnetClassifyTable n α :=
  ⟨mask, log2Nbuckets, 2, fun _ => none, 0⟩

def VnetClassifyTable.setBucket (t : VnetClassifyTable n α) (i : Nat) (b : VnetClassifyBucket n α) :
    VnetClassifyTable n α :=
  { t with buckets := update t.buckets i (some b) }

def VnetClassifyTable.setEntry (t : VnetClassifyTable n α) (i : Nat) (b : VnetClassifyBucket n α) (j : Nat)
    (v : VnetClassifyEntry n α) : VnetClassifyTable n α :=
  t.setBucket i { b with entries := update b.entries j v }

def findKey (t : VnetClassifyTable n α) (b : VnetClassifyBucket n α) (key : Fin n → U32x4) : Option Nat :=
  let h := pageIndex t b.log2Pages key
  ((List.range t.entriesPerPage).find? fun k => decide ((b.entries (h + k)).key = key)).map (h + ·)

def findFree (t : VnetClassifyTable n α) (b : VnetClassifyBucket n α) (key : Fin n → U32x4) : Option Nat :=
  let h := pageIndex t b.log2Pages key
  (firstFree (isBusy b.entries) h t.entriesPerPage).map (h + ·)

/-- Nothing when the call does not return. -/
def vnetClassifyAddDel (t : VnetClassifyTable n α) (addV : VnetClassifyEntry n α) (isAdd : Bool) :
    Option (Int × VnetClassifyTable n α) :=
  let i := bucketIndex t addV.key
  let inc := { t with activeElements := t.activeElements + 1 }
  match t.buckets i with
  | none =>
    if isAdd then some (0, inc.setBucket i ⟨0, update (fun _ => freeEntry) 0 (busyEntry addV)⟩)
    else some (-1, t)
  | some b =>
    match findKey t b addV.key, isAdd with
    | some j, true => some (0, t.setEntry i b j (busyEntry addV))
    | some j, false => some (0, { t with activeElements := t.activeElements - 1 }.setEntry i b j freeEntry)
    | none, false => some (-3, t)
    | none, true =>
      match findFree t b addV.key with
      | some j => some (0, inc.setEntry i b j (busyEntry addV))
      | none =>
        (expandAgain t b addV (maxLog2Pages - b.log2Pages) (b.log2Pages + 1)).map fun b => (0, inc.setBucket i b)

variable {t : VnetClassifyTable n α} {b : VnetClassifyBucket n α} {v : VnetClassifyEntry n α}

def busySet (entries : Nat → VnetClassifyEntry n α) : Set Nat := { i | isBusy entries i = true }

theorem busySet_free : busySet (fun _ => freeEntry : Nat → VnetClassifyEntry n α) = ∅ := by
  ext i
  exact iff_of_false Bool.false_ne_true (Set.notMem_empty i)

omit [Inhabited α] in
theorem busySet_update (entries : Nat → VnetClassifyEntry n α) (i : Nat) (v : VnetClassifyEntry n α) :
    busySet (update entries i (busyEntry v)) = insert i (busySet entries) := by
  ext j
  simp only [busySet, isBusy, Set.mem_ofPred_eq, Set.mem_insert_iff, update_apply]
  split_ifs with he
  · exact iff_of_true rfl (.inl he)
  · rw [or_iff_right he]

omit [Inhabited α] in
theorem place_eq_some_iff (log2Pages : Nat) (entries : Nat → VnetClassifyEntry n α) :
    place t log2Pages entries v = some entries' ↔
      ∃ k, (k < t.entriesPerPage ∧ (∀ j < k, pageIndex t log2Pages v.key + j ∈ busySet entries) ∧
        pageIndex t log2Pages v.key + k ∉ busySet entries) ∧
        update entries (pageIndex t log2Pages v.key + k) (busyEntry v) = entries' := by
  simp only [place, map_eq_some_iff, firstFree_eq_some_iff, busySet, Set.mem_ofPred_eq, Bool.not_eq_true]

def placeAll (t : VnetClassifyTable n α) (log2Pages : Nat) (entries : Nat → VnetClassifyEntry n α)
    (vs : List (VnetClassifyEntry n α)) : Option (Nat → VnetClassifyEntry n α) :=
  vs.foldlM (place t log2Pages) entries

omit [Inhabited α] in
theorem placeAll_isSome_iff (log2Pages : Nat) (entries : Nat → VnetClassifyEntry n α)
    (vs : List (VnetClassifyEntry n α)) : (placeAll t log2Pages entries vs).isSome = true ↔
      Fits t.entriesPerPage (busySet entries) (vs.map fun v => pageIndex t log2Pages v.key) := by
  induction vs generalizing entries with
  | nil => exact iff_of_true rfl (.nil _)
  | cons v vs ih =>
    have hstep : (placeAll t log2Pages entries (v :: vs)).isSome = true ↔
        ∃ entries', place t log2Pages entries v = some entries' ∧ (placeAll t log2Pages entries' vs).isSome = true := by
      rw [placeAll, List.foldlM_cons]
      cases place t log2Pages entries v with
      | none => simp
      | some entries' => simp [placeAll]
    rw [hstep, List.map_cons, Fits.cons_iff]
    simp only [place_eq_some_iff, ih]
    constructor
    · intro ⟨entries', ⟨k, hk, hset⟩, hrest⟩
      rw [← hset, busySet_update] at hrest
      exact ⟨k, hk, hrest⟩
    · intro ⟨k, hk, hrest⟩
      rw [← busySet_update _ _ v] at hrest
      exact ⟨_, ⟨k, hk, rfl⟩, hrest⟩

theorem splitAndRehash_eq (oldValues : List (VnetClassifyEntry n α)) (newLog2Pages : Nat) :
    splitAndRehash t oldValues newLog2Pages =
      placeAll t newLog2Pages (fun _ => freeEntry) (oldValues.filter fun v => !v.free) := by
  rw [splitAndRehash]
  generalize (fun _ => freeEntry : Nat → VnetClassifyEntry n α) = entries
  induction oldValues generalizing entries with
  | nil => rfl
  | cons v vs ih =>
    rw [List.foldlM_cons, List.filter_cons]
    cases hfree : v.free with
    | true => simpa using ih entries
    | false =>
      simp only [Bool.not_false, if_true, Bool.false_eq_true, if_false, placeAll, List.foldlM_cons]
      congr 1
      funext entries'
      exact ih entries'

/-- The keys that have to find a place when one more is added to a bucket, in their order. -/
def keysWith (t : VnetClassifyTable n α) (b : VnetClassifyBucket n α) (key : Fin n → U32x4) : List (Fin n → U32x4) :=
  ((b.values t).filter fun v => !v.free).map (·.key) ++ [key]

/-- In so many pages the hashes of the keys leave room for each key behind those before it. -/
def RoomInPages (t : VnetClassifyTable n α) (log2Pages : Nat) (keys : List (Fin n → U32x4)) : Prop :=
  Room t.entriesPerPage
    (keys.map fun key => hashBits (vnetClassifyHashPacket t.mask key) t.log2Nbuckets log2Pages)

omit [Inhabited α] in
theorem fits_iff_roomInPages (t : VnetClassifyTable n α) (log2Pages : Nat) (keys : List (Fin n → U32x4)) :
    Fits t.entriesPerPage ∅ (keys.map (pageIndex t log2Pages)) ↔ RoomInPages t log2Pages keys := fits_iff_room

theorem split_isSome_iff (t : VnetClassifyTable n α) (b : VnetClassifyBucket n α) (v : VnetClassifyEntry n α)
    (log2Pages : Nat) :
    ((splitAndRehash t (b.values t) log2Pages).bind fun entries => place t log2Pages entries v).isSome = true ↔
      RoomInPages t log2Pages (keysWith t b v.key) := by
  have hall : (splitAndRehash t (b.values t) log2Pages).bind (fun entries => place t log2Pages entries v) =
      placeAll t log2Pages (fun _ => freeEntry) ((b.values t).filter (fun v => !v.free) ++ [v]) := by
    rw [splitAndRehash_eq, placeAll, placeAll, List.foldlM_append]
    simp
  rw [hall, placeAll_isSome_iff, busySet_free, ← fits_iff_roomInPages, keysWith]
  simp only [List.map_append, List.map_map, List.map_cons, List.map_nil]
  rfl

theorem expandAgain_isSome_iff (t : VnetClassifyTable n α) (b : VnetClassifyBucket n α) (v : VnetClassifyEntry n α)
    (tries log2Pages : Nat) : (expandAgain t b v tries log2Pages).isSome = true ↔
      ∃ m, log2Pages ≤ m ∧ m < log2Pages + tries ∧ RoomInPages t m (keysWith t b v.key) := by
  induction tries generalizing log2Pages with
  | zero =>
    apply iff_of_false Bool.false_ne_true
    intro ⟨m, hle, hlt, _⟩
    omega
  | succ tries ih =>
    have hfit := split_isSome_iff t b v log2Pages
    rw [expandAgain]
    split
    · next entries hsome =>
      rw [hsome] at hfit
      exact iff_of_true rfl ⟨log2Pages, Nat.le_refl _, Nat.lt_add_of_pos_right (Nat.succ_pos _), hfit.mp rfl⟩
    · next hnone =>
      rw [hnone] at hfit
      rw [ih]
      constructor
      · intro ⟨m, hle, hlt, hm⟩
        exact ⟨m, by omega, by omega, hm⟩
      · intro ⟨m, hle, hlt, hm⟩
        have hne : m ≠ log2Pages := by
          intro he
          rw [he] at hm
          exact Bool.false_ne_true (hfit.mpr hm)
        exact ⟨m, by omega, by omega, hm⟩

/-- The bucket of a key is empty, or has its entry or an empty one for it, or there is a number of pages in which the
hashes of its keys and of the new one leave room for all of them. -/
def AddFits (t : VnetClassifyTable n α) (key : Fin n → U32x4) : Prop :=
  ∀ b, t.buckets (bucketIndex t key) = some b → (findKey t b key).isSome = true ∨ (findFree t b key).isSome = true ∨
    ∃ log2Pages, b.log2Pages < log2Pages ∧ log2Pages ≤ maxLog2Pages ∧ RoomInPages t log2Pages (keysWith t b key)

theorem vnetClassifyAddDel_isSome_iff (t : VnetClassifyTable n α) (v : VnetClassifyEntry n α) :
    (vnetClassifyAddDel t v true).isSome = true ↔ AddFits t v.key := by
  rw [vnetClassifyAddDel, AddFits]
  cases hb : t.buckets (bucketIndex t v.key) with
  | none => simp
  | some b =>
    simp only [some_inj, forall_eq']
    cases hkey : findKey t b v.key with
    | some j => simp
    | none =>
      cases hfree : findFree t b v.key with
      | some j => simp
      | none =>
        simp only [isSome_map, expandAgain_isSome_iff, isSome_none, Bool.false_eq_true, false_or]
        apply exists_congr
        intro m
        constructor
        · intro ⟨hle, hlt, hm⟩
          exact ⟨hle, by omega, hm⟩
        · intro ⟨hlt, hmax, hm⟩
          exact ⟨hlt, by omega, hm⟩

def addAll : VnetClassifyTable n α → List (VnetClassifyEntry n α) → Option (VnetClassifyTable n α)
  | t, [] => some t
  | t, v :: vs =>
    match vnetClassifyAddDel t v true with
    | some (_, t) => addAll t vs
    | none => none

def AllFit : VnetClassifyTable n α → List (VnetClassifyEntry n α) → Prop
  | _, [] => True
  | t, v :: vs => AddFits t v.key ∧ ∀ rv t', vnetClassifyAddDel t v true = some (rv, t') → AllFit t' vs

theorem addAll_isSome_iff (t : VnetClassifyTable n α) (vs : List (VnetClassifyEntry n α)) :
    (addAll t vs).isSome = true ↔ AllFit t vs := by
  induction vs generalizing t with
  | nil => exact iff_of_true rfl trivial
  | cons v vs ih =>
    have hstep := vnetClassifyAddDel_isSome_iff t v
    rw [addAll, AllFit, ← hstep]
    cases hcall : vnetClassifyAddDel t v true with
    | none => simp
    | some r =>
      obtain ⟨rv, t'⟩ := r
      simp only [ih, isSome_some, true_and, some_inj, Prod.mk.injEq]
      constructor
      · intro hrest rv' t'' he
        exact he.2 ▸ hrest
      · intro hrest
        exact hrest rv t' ⟨rfl, rfl⟩

/-- Each round of the hash can be undone. -/
theorem clibXxhash_injective : Function.Injective clibXxhash := by
  have hmul1 : Function.Injective fun x : BitVec 64 => x * prime1 :=
    (IsUnit.of_mul_eq_one 614540362697595703 (by decide)).mul_left_injective
  have hmul2 : Function.Injective fun x : BitVec 64 => x * prime2 :=
    (IsUnit.of_mul_eq_one 839798700976720815 (by decide)).mul_left_injective
  have hmul3 : Function.Injective fun x : BitVec 64 => x * prime3 :=
    (IsUnit.of_mul_eq_one 16855272203555305545 (by decide)).mul_left_injective
  have hkey : Function.Injective fun key : BitVec 64 => (key * prime2).rotateLeft 31 * prime1 :=
    hmul1.comp ((rotateLeft_injective (by decide) (by decide)).comp hmul2)
  have hmix : Function.Injective fun h : BitVec 64 => h.rotateLeft 27 * prime1 + prime4 :=
    (add_left_injective prime4).comp (hmul1.comp (rotateLeft_injective (by decide) (by decide)))
  have hlast : Function.Injective fun h : BitVec 64 => (h ^^^ h >>> 29) * prime3 :=
    hmul3.comp (xorShift_injective (by decide))
  have hfirst : Function.Injective fun h : BitVec 64 => (h ^^^ h >>> 33) * prime2 :=
    hmul2.comp (xorShift_injective (by decide))
  intro x y h
  have hin := hmix (hfirst (hlast (xorShift_injective (s := 32) (by decide) h)))
  exact hkey ((BitVec.xor_right_inj _).mp hin)

/-- What the hash is made of: all words of the key under the mask, added without carry. -/
def wordSum (mask key : Fin n → U32x4) : BitVec 64 := (xorSum mask key).1 ^^^ (xorSum mask key).2

theorem hash_eq_iff (mask key key' : Fin n → U32x4) :
    vnetClassifyHashPacket mask key = vnetClassifyHashPacket mask key' ↔ wordSum mask key = wordSum mask key' :=
  clibXxhash_injective.eq_iff

/-- Additions return exactly as long as the hashes leave room for each of them, and the hashes of two keys are the same
exactly when their words have one sum. -/
theorem vnet_classify_add_returns (t : VnetClassifyTable n α) (vs : List (VnetClassifyEntry n α)) :
    ((addAll t vs).isSome = true ↔ AllFit t vs) ∧
    ∀ key key', vnetClassifyHashPacket t.mask key = vnetClassifyHashPacket t.mask key' ↔
      wordSum t.mask key = wordSum t.mask key' :=
  ⟨addAll_isSome_iff t vs, hash_eq_iff t.mask⟩

omit [Inhabited α] in
theorem not_roomInPages (key : Fin n → U32x4) (hmany : t.entriesPerPage < keys.countP fun k : Fin n → U32x4 =>
      wordSum t.mask k = wordSum t.mask key) : ¬ RoomInPages t log2Pages keys := by
  intro hroom
  have hcount := ((fits_iff_roomInPages t log2Pages keys).mpr hroom).count_le (pageIndex t log2Pages key)
  have hle : keys.countP (fun k => wordSum t.mask k = wordSum t.mask key) ≤
      (keys.map (pageIndex t log2Pages)).count (pageIndex t log2Pages key) := by
    rw [List.count_eq_countP, List.countP_map]
    apply List.countP_mono_left
    intro k _ hsame
    have hsame := (hash_eq_iff t.mask k key).mpr (of_decide_eq_true hsame)
    have hpage : pageIndex t log2Pages k = pageIndex t log2Pages key := by
      rw [pageIndex, pageIndex, hsame]
    rw [Function.comp_apply, hpage]
    exact beq_self_eq_true _
  exact Nat.not_lt.mpr (hle.trans (Nat.le_of_add_right_le hcount)) hmany

/-- With more keys of one sum than a page has entries there is no number of pages. -/
theorem vnet_classify_add_collision (hb : t.buckets (bucketIndex t v.key) = some b) (hkey : findKey t b v.key = none)
    (hfree : findFree t b v.key = none) (hmany : t.entriesPerPage < (keysWith t b v.key).countP fun k =>
      wordSum t.mask k = wordSum t.mask v.key) : vnetClassifyAddDel t v true = none := by
  apply not_isSome_iff_eq_none.mp
  rw [vnetClassifyAddDel_isSome_iff]
  intro hfits
  have hcases := hfits b hb
  rw [hkey, hfree] at hcases
  obtain h | h | ⟨m, _, _, hm⟩ := hcases
  · exact Bool.false_ne_true h
  · exact Bool.false_ne_true h
  · exact not_roomInPages v.key hmany hm

def allBits : Fin 1 → U32x4 := fun _ => (BitVec.allOnes 64, BitVec.allOnes 64)

def twinKey (i : BitVec 64) : Fin 1 → U32x4 := fun _ => (i, i)

def twin (i : BitVec 64) : VnetClassifyEntry 1 Unit := ⟨false, twinKey i, ()⟩

theorem twin_sum (i : BitVec 64) : wordSum allBits (twinKey i) = 0 := by
  have hsum : xorSum allBits (twinKey i) = (i, i) := by
    simp only [xorSum, allBits, twinKey, BitVec.and_allOnes]
    simp [List.finRange_succ]
  rw [wordSum, hsum]
  exact BitVec.xor_self

theorem twin_hash (i : BitVec 64) : vnetClassifyHashPacket allBits (twinKey i) = clibXxhash 0 :=
  congrArg clibXxhash (twin_sum i)

def twinIndex : Nat := hashBits (clibXxhash 0) 0 1

def oneTwinBucket : VnetClassifyBucket 1 Unit := ⟨0, update (fun _ => freeEntry) 0 (twin 1)⟩

def oneTwin : VnetClassifyTable 1 Unit :=
  { (vnetClassifyNewTable allBits 1) with activeElements := 1 }.setBucket twinIndex oneTwinBucket

def twins : VnetClassifyBucket 1 Unit := { oneTwinBucket with entries := update oneTwinBucket.entries 1 (twin 2) }

def twinsTable : VnetClassifyTable 1 Unit := { oneTwin with activeElements := 2 }.setBucket twinIndex twins

omit [Inhabited α] in
theorem pageIndex_zero (t : VnetClassifyTable n α) (key : Fin n → U32x4) : pageIndex t 0 key = 0 := by
  simp [pageIndex, hashBits]

theorem twin_bucket {t : VnetClassifyTable 1 Unit} (hmask : t.mask = allBits) (hlog2 : t.log2Nbuckets = 1)
    (i : BitVec 64) :
    bucketIndex t (twin i).key = twinIndex := by
  have hhash : vnetClassifyHashPacket t.mask (twin i).key = clibXxhash 0 := hmask ▸ twin_hash i
  rw [bucketIndex, hhash, hlog2, twinIndex]

theorem add_first_twin : vnetClassifyAddDel (vnetClassifyNewTable allBits 1) (twin 1) true = some (0, oneTwin) := by
  have hindex := twin_bucket (t := vnetClassifyNewTable allBits 1) rfl rfl 1
  rw [vnetClassifyAddDel, hindex]
  rfl

theorem add_second_twin : vnetClassifyAddDel oneTwin (twin 2) true = some (0, twinsTable) := by
  have hindex : bucketIndex oneTwin (twin 2).key = twinIndex := twin_bucket rfl rfl 2
  have hb : oneTwin.buckets twinIndex = some oneTwinBucket := by
    simp only [oneTwin, VnetClassifyTable.setBucket, update_self]
  have hpage : pageIndex oneTwin oneTwinBucket.log2Pages (twin 2).key = 0 := pageIndex_zero _ _
  have hkey : findKey oneTwin oneTwinBucket (twin 2).key = none := by
    rw [findKey, hpage]
    decide
  have hfree : findFree oneTwin oneTwinBucket (twin 2).key = some 1 := by
    rw [findFree, hpage]
    decide
  simp only [vnetClassifyAddDel, hindex, hb, hkey, hfree]
  rfl

theorem add_third_twin : vnetClassifyAddDel twinsTable (twin 3) true = none := by
  have hindex : bucketIndex twinsTable (twin 3).key = twinIndex := twin_bucket rfl rfl 3
  have hb : twinsTable.buckets (bucketIndex twinsTable (twin 3).key) = some twins := by
    rw [hindex]
    simp only [twinsTable, VnetClassifyTable.setBucket, update_self]
  have hpage : pageIndex twinsTable twins.log2Pages (twin 3).key = 0 := pageIndex_zero _ _
  apply vnet_classify_add_collision hb
  · rw [findKey, hpage]
    decide
  · rw [findFree, hpage]
    decide
  · have hkeys : keysWith twinsTable twins (twin 3).key = [twinKey 1, twinKey 2, twinKey 3] := rfl
    have hmask : twinsTable.mask = allBits := rfl
    have hkey : (twin 3).key = twinKey 3 := rfl
    rw [hkeys, hmask, hkey]
    simp only [twin_sum]
    decide

theorem vnet_classify_add_returns_fails :
    ¬ ∀ (n : Nat) (mask : Fin n → U32x4) (log2Nbuckets : Nat) (vs : List (VnetClassifyEntry n Unit)),
      (vs.map (·.key)).Nodup → (∀ v ∈ vs, ∀ i, (v.key i).1 &&& (mask i).1 = (v.key i).1 ∧
        (v.key i).2 &&& (mask i).2 = (v.key i).2) →
      (addAll (vnetClassifyNewTable mask log2Nbuckets) vs).isSome = true := by
  intro hall
  have h := hall 1 allBits 1 [twin 1, twin 2, twin 3] (by decide) (by decide)
  rw [addAll, add_first_twin] at h
  simp only [addAll, add_second_twin, add_third_twin] at h
  exact Bool.false_ne_true h

end Vpp.Classify
