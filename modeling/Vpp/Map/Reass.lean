import Mathlib.Algebra.Order.Ring.Rat
import Mathlib.Data.BitVec
import Vpp.Lib.Circles
import Vpp.Lib.EndedList
import Vpp.Lib.Pool
import Vpp.Lib.Slots

namespace Vpp.Map
open Vpp.Lib Function

def mapReassIndexNone : Nat := 0xffff

def none32 : BitVec 32 := BitVec.allOnes 32

structure MapIp4ReassKey where
  src : BitVec 32
  dst : BitVec 32
  fragmentId : BitVec 16
  protocol : BitVec 8
deriving DecidableEq, Inhabited

structure MapIp4Reass where
  key : MapIp4ReassKey
  ts : ℚ
  expectedTotal : Nat
  forwarded : Nat
  port : Int
  bucket : Nat
  bucketNext : Nat
  fifoPrev : Nat
  fifoNext : Nat
  fragments : Fin 5 → BitVec 32
deriving Inhabited

/-- The configuration. The size of the pool is checked when it is set. -/
structure ReassConf where
  poolSize : Nat
  poolSize_le : poolSize ≤ 0xfeff
  lifetimeMs : Nat
  buffers : Nat
  log2len : Nat
  log2len_pos : 1 ≤ log2len
  log2len_lt : log2len < 31
  hash : MapIp4ReassKey → BitVec 32

/-- A table whose chains have numbers of 16 bits. -/
structure MapConf extends ReassConf where
  log2len_le : log2len ≤ 16

instance : Coe MapConf ReassConf := ⟨MapConf.toReassConf⟩

/-- The table of chains is a vector of `2 ^ log2len` indices. -/
structure MapMain where
  pool : Pool MapIp4Reass
  hashTable : Nat → Nat
  allocated : Nat
  fifoLast : Nat
  bufferedCounter : Nat

def u16 (v : Nat) : Nat := v % 2 ^ 16

def ReassConf.lifetime (c : ReassConf) : ℚ := (c.lifetimeMs : ℚ) / 1000

def ReassConf.bucketOf (c : ReassConf) (k : MapIp4ReassKey) : Nat := ((c.hash k) >>> (32 - c.log2len)).toNat

def cached (r : MapIp4Reass) : List (BitVec 32) := ((List.finRange 5).map r.fragments).filter (· ≠ none32)

def mapIp4ReassGetFragments (m : MapMain) (r : Nat) : MapMain × List (BitVec 32) :=
  let pi := cached (m.pool.eltAt r)
  ({ m with pool := m.pool.modify r fun r => { r with fragments := fun _ => none32 }
            bufferedCounter := m.bufferedCounter - pi.length }, pi)

def mapIp4ReassAddFragment (c : ReassConf) (m : MapMain) (r : Nat) (pi : BitVec 32) : MapMain × Int :=
  if c.buffers ≤ m.bufferedCounter then (m, -1)
  else
    match (List.finRange 5).find? fun i => (m.pool.eltAt r).fragments i = none32 with
    | some i =>
      ({ m with pool := m.pool.modify r fun r => { r with fragments := update r.fragments i pi }
                bufferedCounter := m.bufferedCounter + 1 }, 0)
    | none => (m, -1)

def bucketNexts (p : Pool MapIp4Reass) (i : Nat) : Nat := (p.eltAt i).bucketNext

def setBucketNext (p : Pool MapIp4Reass) (i n : Nat) :
    Pool MapIp4Reass := p.modify i fun r => { r with bucketNext := n }

def setFifoNext (p : Pool MapIp4Reass) (i n : Nat) : Pool MapIp4Reass := p.modify i fun r => { r with fifoNext := n }

def setFifoPrev (p : Pool MapIp4Reass) (i n : Nat) : Pool MapIp4Reass := p.modify i fun r => { r with fifoPrev := n }

/-- A walk takes at most a step for each place of the pool. -/
def mapIp4ReassLookup (c : ReassConf) (m : MapMain) (k : MapIp4ReassKey) (bucket : Nat) (now : ℚ) :
    Option (Option Nat) :=
  findNode (bucketNexts m.pool) mapReassIndexNone
    (fun i => (m.pool.eltAt i).key = k && now < (m.pool.eltAt i).ts + c.lifetime) m.pool.elts.length
    (m.hashTable bucket)

def unlinkBucket (m : MapMain) (r : Nat) : Option MapMain :=
  let bucket := (m.pool.eltAt r).bucket
  (findPred (bucketNexts m.pool) r m.pool.elts.length (m.hashTable bucket) none).map fun
    | some r2 => { m with pool := setBucketNext m.pool r2 (bucketNexts m.pool r) }
    | none => { m with hashTable := update m.hashTable bucket (bucketNexts m.pool r) }

def unlinkFifo (m : MapMain) (r : Nat) : MapMain :=
  let prev := (m.pool.eltAt r).fifoPrev
  let next := (m.pool.eltAt r).fifoNext
  if next = r then { m with fifoLast := mapReassIndexNone }
  else
    { m with fifoLast := if m.fifoLast = r then prev else m.fifoLast
             pool := setFifoPrev (setFifoNext m.pool prev next) next prev }

/-- Free an entry, with the fragments that it held. Nothing when a walk does not end. -/
def mapIp4ReassFree (m : MapMain) (r : Nat) : Option (MapMain × List (BitVec 32)) :=
  let (m, pi) := mapIp4ReassGetFragments m r
  (unlinkBucket m r).map fun m =>
    let m := unlinkFifo m r
    ({ m with pool := m.pool.put r, allocated := m.allocated - 1 }, pi)

def collectGarbage (c : ReassConf) (now : ℚ) : Nat → MapMain → Option (MapMain × List (BitVec 32))
  | n, m =>
    if m.fifoLast = mapReassIndexNone then some (m, [])
    else if (m.pool.eltAt m.fifoLast).ts + c.lifetime < now then
      match n with
      | 0 => none
      | n + 1 =>
        (mapIp4ReassFree m m.fifoLast).bind fun (m, pi) =>
          (collectGarbage c now n m).map fun (m, pi') => (m, pi ++ pi')
    else some (m, [])

def linkEntry (c : ReassConf) (m : MapMain) (ri : Nat) (k : MapIp4ReassKey) (now : ℚ) : MapMain :=
  let h := c.bucketOf k
  let r : MapIp4Reass :=
    { key := k, ts := now, expectedTotal := 0xffff, forwarded := 0, port := -1, bucket := u16 h
      bucketNext := m.hashTable h, fifoPrev := u16 ri, fifoNext := u16 ri, fragments := fun _ => none32 }
  let hashTable := update m.hashTable h (u16 ri)
  if m.fifoLast ≠ mapReassIndexNone then
    let next := (m.pool.eltAt m.fifoLast).fifoNext
    let pool := m.pool.set ri { r with fifoNext := next, fifoPrev := m.fifoLast }
    { m with pool := setFifoPrev (setFifoNext pool m.fifoLast (u16 ri)) next (u16 ri), hashTable := hashTable }
  else { m with pool := m.pool.set ri r, hashTable := hashTable, fifoLast := u16 ri }

def mapIp4ReassGet (c : ReassConf) (m : MapMain) (k : MapIp4ReassKey) (now : ℚ) :
    Option (MapMain × Option Nat × List (BitVec 32)) :=
  (collectGarbage c now m.pool.elts.length m).bind fun (m, pi) =>
    (mapIp4ReassLookup c m k (c.bucketOf k) now).map fun
      | some r => (m, some r, pi)
      | none =>
        if c.poolSize ≤ m.allocated then (m, none, pi)
        else
          let (pool, ri) := m.pool.get
          (linkEntry c { m with pool := pool, allocated := m.allocated + 1 } ri k now, some ri, pi)

def dropAll (p : Pool MapIp4Reass) (last : Nat) : Nat → Nat → Option (List (BitVec 32))
  | n, ri =>
    let next := (p.eltAt ri).fifoNext
    if next = last then some (cached (p.eltAt ri))
    else
      match n with
      | 0 => none
      | n + 1 => (dropAll p last n next).map fun pi => cached (p.eltAt ri) ++ pi

def freshMain : MapMain :=
  { pool := .empty, hashTable := fun _ => mapReassIndexNone, allocated := 0, fifoLast := mapReassIndexNone
    bufferedCounter := 0 }

def mapIp4ReassReinit (m : MapMain) : Option (MapMain × List (BitVec 32)) :=
  if m.fifoLast = mapReassIndexNone then some (freshMain, [])
  else (dropAll m.pool m.fifoLast m.pool.elts.length m.fifoLast).map fun pi => (freshMain, pi)

def links (p : Pool MapIp4Reass) : Links := ⟨fun i => (p.eltAt i).fifoNext, fun i => (p.eltAt i).fifoPrev⟩

structure SameData (p p' : Pool MapIp4Reass) : Prop where
  live : ∀ i, p'.Live i ↔ p.Live i
  length : p'.elts.length = p.elts.length
  ts : ∀ i, (p'.eltAt i).ts = (p.eltAt i).ts
  bucket : ∀ i, (p'.eltAt i).bucket = (p.eltAt i).bucket
  fragments : ∀ i, (p'.eltAt i).fragments = (p.eltAt i).fragments

theorem SameData.trans (h : SameData p p') (h' : SameData p' p'') : SameData p p'' :=
  ⟨fun i => (h'.live i).trans (h.live i), h'.length.trans h.length, fun i => (h'.ts i).trans (h.ts i),
    fun i => (h'.bucket i).trans (h.bucket i), fun i => (h'.fragments i).trans (h.fragments i)⟩

theorem sameData_refl (p : Pool MapIp4Reass) : SameData p p :=
  ⟨fun _ => Iff.rfl, rfl, fun _ => rfl, fun _ => rfl, fun _ => rfl⟩

theorem sameData_modify {g : MapIp4Reass → MapIp4Reass} (hts : ∀ a, (g a).ts = a.ts)
    (hbucket : ∀ a, (g a).bucket = a.bucket) (hfragments : ∀ a, (g a).fragments = a.fragments)
    (p : Pool MapIp4Reass) (i : Nat) : SameData p (p.modify i g) :=
  ⟨fun _ => Pool.live_modify, Pool.length_modify p i g, Pool.proj_modify (f := MapIp4Reass.ts) hts p i,
    Pool.proj_modify (f := MapIp4Reass.bucket) hbucket p i,
    Pool.proj_modify (f := MapIp4Reass.fragments) hfragments p i⟩

theorem links_modify {g : MapIp4Reass → MapIp4Reass} (hnext : ∀ a, (g a).fifoNext = a.fifoNext)
    (hprev : ∀ a, (g a).fifoPrev = a.fifoPrev) (p : Pool MapIp4Reass) (i : Nat) : links (p.modify i g) = links p := by
  rw [links, links, funext (Pool.proj_modify (f := MapIp4Reass.fifoNext) hnext p i),
    funext (Pool.proj_modify (f := MapIp4Reass.fifoPrev) hprev p i)]

theorem bucketNexts_modify {g : MapIp4Reass → MapIp4Reass} (h : ∀ a, (g a).bucketNext = a.bucketNext)
    (p : Pool MapIp4Reass) (i : Nat) : bucketNexts (p.modify i g) = bucketNexts p :=
  funext (Pool.proj_modify (f := MapIp4Reass.bucketNext) h p i)

section Writes
variable {p : Pool MapIp4Reass} (i n : Nat)

theorem sameData_setBucketNext : SameData p (setBucketNext p i n) :=
  sameData_modify (g := fun r => { r with bucketNext := n }) (fun _ => rfl) (fun _ => rfl) (fun _ => rfl) p i

theorem sameData_setFifoNext : SameData p (setFifoNext p i n) :=
  sameData_modify (g := fun r => { r with fifoNext := n }) (fun _ => rfl) (fun _ => rfl) (fun _ => rfl) p i

theorem sameData_setFifoPrev : SameData p (setFifoPrev p i n) :=
  sameData_modify (g := fun r => { r with fifoPrev := n }) (fun _ => rfl) (fun _ => rfl) (fun _ => rfl) p i

theorem links_setBucketNext : links (setBucketNext p i n) = links p :=
  links_modify (g := fun r => { r with bucketNext := n }) (fun _ => rfl) (fun _ => rfl) p i

theorem bucketNexts_setFifoNext : bucketNexts (setFifoNext p i n) = bucketNexts p :=
  bucketNexts_modify (g := fun r => { r with fifoNext := n }) (fun _ => rfl) p i

theorem bucketNexts_setFifoPrev : bucketNexts (setFifoPrev p i n) = bucketNexts p :=
  bucketNexts_modify (g := fun r => { r with fifoPrev := n }) (fun _ => rfl) p i

variable (hi : p.Live i)
include hi

theorem bucketNexts_setBucketNext : bucketNexts (setBucketNext p i n) = update (bucketNexts p) i n := by
  funext j
  rw [bucketNexts, setBucketNext, Pool.eltAt_modify hi]
  by_cases hj : j = i
  · rw [if_pos hj, hj, update_self]
  · rw [if_neg hj, update_of_ne hj]
    rfl

theorem links_setFifoNext : links (setFifoNext p i n) = (links p).setNext i n := by
  have hprev := Pool.proj_modify (f := MapIp4Reass.fifoPrev) (g := fun r => { r with fifoNext := n }) (fun _ => rfl) p i
  have hnext : (fun j => ((setFifoNext p i n).eltAt j).fifoNext) = update (links p).next i n := by
    funext j
    rw [setFifoNext, Pool.eltAt_modify hi]
    by_cases hj : j = i
    · rw [if_pos hj, hj, update_self]
    · rw [if_neg hj, update_of_ne hj]
      rfl
  rw [links, hnext, setFifoNext, funext hprev]
  rfl

theorem links_setFifoPrev : links (setFifoPrev p i n) = (links p).setPrev i n := by
  have hnext := Pool.proj_modify (f := MapIp4Reass.fifoNext) (g := fun r => { r with fifoPrev := n }) (fun _ => rfl) p i
  have hprev : (fun j => ((setFifoPrev p i n).eltAt j).fifoPrev) = update (links p).prev i n := by
    funext j
    rw [setFifoPrev, Pool.eltAt_modify hi]
    by_cases hj : j = i
    · rw [if_pos hj, hj, update_self]
    · rw [if_neg hj, update_of_ne hj]
      rfl
  rw [links, hprev, setFifoPrev, funext hnext]
  rfl

end Writes

abbrev isFragment (pi : BitVec 32) : Prop := pi ≠ none32

theorem coe_cached (r : MapIp4Reass) : (cached r : Multiset (BitVec 32)) = occupied isFragment r.fragments := by
  rw [cached, occupied, contents, ← Multiset.filter_coe, ← Multiset.map_coe]
  rfl

theorem occupied_none : occupied isFragment (fun _ : Fin 5 => none32) = 0 := by
  simp [occupied, contents]

def cachedAll (p : Pool MapIp4Reass) (fifo : List Nat) : Multiset (BitVec 32) :=
  (fifo.map fun i => occupied isFragment (p.eltAt i).fragments).sum

theorem cachedAll_congr {p p' : Pool MapIp4Reass} (h : ∀ i ∈ fifo, (p'.eltAt i).fragments = (p.eltAt i).fragments) :
    cachedAll p' fifo = cachedAll p fifo := by
  rw [cachedAll, cachedAll]
  congr 1
  apply List.map_congr_left
  intro i hi
  rw [h i hi]

theorem cachedAll_split (p : Pool MapIp4Reass) (xs ys : List Nat) (r : Nat) :
    cachedAll p (xs ++ r :: ys) = occupied isFragment (p.eltAt r).fragments + cachedAll p (xs ++ ys) := by
  simp only [cachedAll, List.map_append, List.map_cons, List.sum_append, List.sum_cons]
  rw [← add_assoc, add_comm (List.map _ xs).sum, add_assoc]

def buckets (c : ReassConf) : Nat := 2 ^ c.log2len

/-- The chain of each bucket has the entries `live` that are in it. -/
structure Chains (c : ReassConf) (m : MapMain) (live : List Nat) (chain : Nat → List Nat) : Prop where
  linked : ∀ b < buckets c, Linked (bucketNexts m.pool) mapReassIndexNone (m.hashTable b) (chain b)
  mem : ∀ b < buckets c, ∀ i, i ∈ chain b ↔ i ∈ live ∧ (m.pool.eltAt i).bucket = b
  nodup : ∀ b < buckets c, (chain b).Nodup
  bucket_lt : ∀ i ∈ live, (m.pool.eltAt i).bucket < buckets c

/-- The table, the list and the pool agree: `fifo` has the entries from the oldest to the newest, and each bucket its
chain. -/
structure Inv (c : ReassConf) (m : MapMain) (now : ℚ) (fifo : List Nat) (chain : Nat → List Nat) : Prop where
  live : ∀ i, i ∈ fifo ↔ m.pool.Live i
  queue : (links m.pool).Queue mapReassIndexNone m.fifoLast fifo
  sorted : fifo.Pairwise fun i j => (m.pool.eltAt i).ts ≤ (m.pool.eltAt j).ts
  past : ∀ i ∈ fifo, (m.pool.eltAt i).ts ≤ now
  chains : Chains c m fifo chain
  allocated : m.allocated = fifo.length
  counter : m.bufferedCounter = (cachedAll m.pool fifo).card
  size : m.pool.elts.length ≤ c.poolSize

section
variable {c : ReassConf} {m m' : MapMain} {now : ℚ} {fifo : List Nat} {chain : Nat → List Nat}

theorem Chains.congr (h : Chains c m live chain) (hnexts : bucketNexts m'.pool = bucketNexts m.pool)
    (htable : m'.hashTable = m.hashTable) (hbucket : ∀ i, (m'.pool.eltAt i).bucket = (m.pool.eltAt i).bucket) :
    Chains c m' live chain := by
  refine ⟨?_, ?_, h.nodup, ?_⟩
  · rw [hnexts, htable]
    exact h.linked
  · intro b hb i
    rw [hbucket]
    exact h.mem b hb i
  · intro i hi
    rw [hbucket]
    exact h.bucket_lt i hi

theorem Chains.length_le (h : Chains c m live chain) (hlive : ∀ i ∈ live, m.pool.Live i) (hb : b < buckets c) :
    (chain b).length ≤ m.pool.elts.length :=
  length_le_of_lt (h.nodup b hb) fun i hi => (hlive i ((h.mem b hb i).mp hi).1).1

theorem Inv.length_le (h : Inv c m now fifo chain) : fifo.length ≤ m.pool.elts.length :=
  length_le_of_lt h.queue.nodup fun i hi => ((h.live i).mp hi).1

theorem Inv.lt_none (h : Inv c m now fifo chain) (hi : i ∈ fifo) : i < mapReassIndexNone := by
  have hlt := ((h.live i).mp hi).1
  have hsize := h.size
  have hmax := c.poolSize_le
  rw [mapReassIndexNone]
  omega

theorem Inv.later (h : Inv c m now fifo chain) (hle : now ≤ now') : Inv c m now' fifo chain :=
  { h with past := fun i hi => (h.past i hi).trans hle }

end

end Vpp.Map
