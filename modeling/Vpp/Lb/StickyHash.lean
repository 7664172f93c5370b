import Mathlib.Data.BitVec
import Mathlib.Data.Fintype.Prod
import Vpp.Lb.NewFlowTable

namespace Vpp.Lb
open Function List

structure RefcountPerCpu where
  counters : Nat → BitVec 32
  length : Nat
  beyond : ∀ i, length ≤ i → counters i = 0

/-- The first bytes of a vector of counters. The low byte of a counter comes first. -/
def memcpyCounters (bytes : Nat) (counters : Nat → BitVec 32) (i : Nat) : BitVec 32 :=
  BitVec.ofNat 32 ((counters i).toNat % 2 ^ (8 * (bytes - 4 * i)))

/-- A longer vector. The copy takes as many bytes as there were counters. -/
def RefcountPerCpu.resize (r : RefcountPerCpu) (size : Nat) : RefcountPerCpu where
  counters i := if i ≤ size then memcpyCounters r.length r.counters i else 0
  length := size + 1
  beyond _ hi := if_neg (Nat.not_le.mpr hi)

def RefcountPerCpu.grow (r : RefcountPerCpu) (i : Nat) : RefcountPerCpu :=
  if r.length ≤ i then r.resize (max (u32 (i + 16)) (u32 (r.length * 2))) else r

theorem RefcountPerCpu.beyond_update (r : RefcountPerCpu) (hi : i < r.length) (v : BitVec 32) :
    ∀ j, r.length ≤ j → update r.counters i v j = 0 := by
  intro j hj
  have hne : j ≠ i := Nat.ne_of_gt (Nat.lt_of_lt_of_le hi hj)
  rw [update_of_ne hne]
  exact r.beyond j hj

def RefcountPerCpu.bump (r : RefcountPerCpu) (i : Nat) (hi : i < r.length) (v : BitVec 32) : RefcountPerCpu where
  counters := update r.counters i (r.counters i + v)
  length := r.length
  beyond := r.beyond_update hi _

/-- Nothing when the counter is past the vector. -/
def vlibRefcountAdd (r : RefcountPerCpu) (i v : BitVec 32) : Option RefcountPerCpu :=
  if hi : i.toNat < (r.grow i.toNat).length then some ((r.grow i.toNat).bump i.toNat hi v) else none

def moveReference (r : RefcountPerCpu) (old new : BitVec 32) : Option RefcountPerCpu :=
  (vlibRefcountAdd r old (-1)).bind fun r => vlibRefcountAdd r new 1

def RefcountPerCpu.Keeps (r : RefcountPerCpu) (i : BitVec 32) : Prop :=
  r.length ≤ i.toNat → i.toNat + 16 < 2 ^ 32 ∧ ∀ j < r.length, memcpyCounters r.length r.counters j = r.counters j

theorem memcpyCounters_zero (h : counters i = 0) : memcpyCounters bytes counters i = 0 := by
  have hzero : (counters i).toNat = 0 := by rw [h]; rfl
  rw [memcpyCounters, hzero, Nat.zero_mod]
  rfl

variable {r : RefcountPerCpu}

theorem RefcountPerCpu.Keeps.grow_counters (h : r.Keeps i) :
    (r.grow i.toNat).counters = r.counters ∧ i.toNat < (r.grow i.toNat).length ∧
      r.length ≤ (r.grow i.toNat).length := by
  rw [grow]
  by_cases hle : r.length ≤ i.toNat
  · rw [if_pos hle]
    obtain ⟨hfits, hcopy⟩ := h hle
    have hroom : i.toNat < max (u32 (i.toNat + 16)) (u32 (r.length * 2)) + 1 := by
      have hu : u32 (i.toNat + 16) = i.toNat + 16 := Nat.mod_eq_of_lt hfits
      rw [hu]
      omega
    have hsize : i.toNat < (r.resize (max (u32 (i.toNat + 16)) (u32 (r.length * 2)))).length := hroom
    have hlen := Nat.le_trans hle (Nat.le_of_lt hsize)
    apply And.intro _ ⟨hsize, hlen⟩
    funext j
    by_cases hj : j < r.length
    · have hj' : j ≤ max (u32 (i.toNat + 16)) (u32 (r.length * 2)) := by omega
      exact (if_pos hj').trans (hcopy j hj)
    · have hzero := r.beyond j (Nat.not_lt.mp hj)
      have hcopied : memcpyCounters r.length r.counters j = 0 := memcpyCounters_zero hzero
      rw [hzero]
      simp only [resize, hcopied, ite_self]
  · rw [if_neg hle]
    exact ⟨rfl, Nat.not_le.mp hle, le_rfl⟩

theorem RefcountPerCpu.keeps_of_lt (h : i ≠ 0 → i.toNat < r.length) : r.Keeps i := by
  intro hle
  by_cases hzero : i = 0
  · have hlen : r.length = 0 := by
      rw [hzero] at hle
      exact Nat.le_zero.mp hle
    apply And.intro
    · rw [hzero]
      decide
    · intro j hj
      rw [hlen] at hj
      exact absurd hj (Nat.not_lt_zero j)
  · exact absurd (h hzero) (Nat.not_lt.mpr hle)

def indicator (a b : BitVec 32) : BitVec 32 := if a = b then 1 else 0

theorem vlibRefcountAdd_spec (h : r.Keeps i) (v : BitVec 32) :
    ∃ r', vlibRefcountAdd r i v = some r' ∧ r.length ≤ r'.length ∧ i.toNat < r'.length ∧
      ∀ a : BitVec 32, r'.counters a.toNat = r.counters a.toNat + if a = i then v else 0 := by
  obtain ⟨hsame, hlt, hle⟩ := h.grow_counters
  refine ⟨(r.grow i.toNat).bump i.toNat hlt v, dif_pos hlt, hle, hlt, ?_⟩
  intro a
  have hbump : ((r.grow i.toNat).bump i.toNat hlt v).counters = update (r.grow i.toNat).counters i.toNat
      ((r.grow i.toNat).counters i.toNat + v) := rfl
  rw [hbump, hsame]
  by_cases ha : a = i
  · rw [ha, if_pos rfl, update_self]
  · have hne : a.toNat ≠ i.toNat := fun he => ha (BitVec.eq_of_toNat_eq he)
    rw [if_neg ha, update_of_ne hne, add_zero]

theorem moveReference_spec (hold : old ≠ 0 → old.toNat < r.length)
    (hnew : ∀ r', vlibRefcountAdd r old (-1) = some r' → r'.Keeps new) :
    ∃ r', moveReference r old new = some r' ∧ r.length ≤ r'.length ∧
      ∀ a : BitVec 32, r'.counters a.toNat + indicator a old = r.counters a.toNat + indicator a new := by
  obtain ⟨r₁, hrun₁, hlen₁, _, hcount₁⟩ := vlibRefcountAdd_spec (RefcountPerCpu.keeps_of_lt hold) (-1)
  obtain ⟨r₂, hrun₂, hlen₂, _, hcount₂⟩ := vlibRefcountAdd_spec (hnew r₁ hrun₁) 1
  have hrun : moveReference r old new = some r₂ := by
    rw [moveReference, hrun₁]
    exact hrun₂
  refine ⟨r₂, hrun, hlen₁.trans hlen₂, ?_⟩
  intro a
  rw [hcount₂, hcount₁, indicator, indicator]
  split_ifs <;> ring

def dereference (r : RefcountPerCpu) : List (BitVec 32) → Option RefcountPerCpu
  | [] => some r
  | v :: vs => (moveReference r v 0).bind fun r => dereference r vs

theorem ofNat_count_cons (a v : BitVec 32) (vs : List (BitVec 32)) :
    BitVec.ofNat 32 ((v :: vs).count a) = BitVec.ofNat 32 (vs.count a) + indicator a v := by
  rw [count_cons, BitVec.ofNat_add, indicator]
  by_cases h : a = v
  · rw [if_pos h, if_pos (beq_iff_eq.mpr h.symm)]
    rfl
  · have hne : ¬ (v == a) = true := fun he => h (beq_iff_eq.mp he).symm
    rw [if_neg h, if_neg hne]
    rfl

theorem dereference_spec {vs : List (BitVec 32)}
    (hvs : ∀ v ∈ vs, v ≠ 0 → v.toNat < r.length) :
    ∃ r', dereference r vs = some r' ∧
      ∀ a : BitVec 32, a ≠ 0 → r'.counters a.toNat + BitVec.ofNat 32 (vs.count a) = r.counters a.toNat := by
  induction vs generalizing r with
  | nil =>
    apply Exists.intro r
    apply And.intro rfl
    intro a _
    exact BitVec.add_zero _
  | cons v vs ih =>
    have hzero : ∀ r', vlibRefcountAdd r v (-1) = some r' → r'.Keeps 0 := fun r' _ =>
      RefcountPerCpu.keeps_of_lt fun h => absurd rfl h
    obtain ⟨r₁, hrun₁, hlen₁, hcount₁⟩ := moveReference_spec (hvs v mem_cons_self) hzero
    have hvs₁ : ∀ w ∈ vs, w ≠ 0 → w.toNat < r₁.length := fun w hw hne =>
      Nat.lt_of_lt_of_le (hvs w (mem_cons_of_mem v hw) hne) hlen₁
    obtain ⟨r₂, hrun₂, hcount₂⟩ := ih hvs₁
    apply Exists.intro r₂
    apply And.intro (by rw [dereference, hrun₁]; exact hrun₂)
    intro a ha
    have hsame : indicator a 0 = 0 := if_neg ha
    have hstep := hcount₁ a
    rw [hsame, add_zero] at hstep
    rw [ofNat_count_cons, ← BitVec.add_assoc, hcount₂ a ha, hstep]

open Vpp.Lib

/-- The mark that no entry was found. -/
def notFound : BitVec 32 := BitVec.allOnes 32

structure Entry where
  hash : BitVec 32
  timeout : BitVec 32
  vip : BitVec 32
  value : BitVec 32

/-- Four entries in a bucket. The size of the memory, with a bucket more, is a 32-bit value. -/
structure LbHash where
  bucketsMask : BitVec 32
  timeout : BitVec 32
  fits : 64 * (bucketsMask.toNat + 3) < 2 ^ 32
  entries : Fin (bucketsMask.toNat + 1) × Fin 4 → Entry

def LbHash.nbuckets (h : LbHash) : BitVec 32 := h.bucketsMask + 1

def isPow2 (n : BitVec 32) : Bool := n &&& (n - 1) == 0

/-- Nothing when the memory would not hold the buckets of the mask. -/
def lbHashAlloc (buckets timeout : BitVec 32) : Option LbHash :=
  if h : isPow2 buckets ∧ 64 * ((buckets - 1).toNat + 3) < 2 ^ 32 then
    some { bucketsMask := buckets - 1, timeout := timeout, fits := h.2, entries := fun _ => ⟨0, 0, 0, 0⟩ }
  else none

theorem LbHash.and_mask_lt (h : LbHash) (hash : BitVec 32) :
    (hash &&& h.bucketsMask).toNat < h.bucketsMask.toNat + 1 := by
  rw [BitVec.toNat_and]
  exact Nat.lt_succ_of_le Nat.and_le_right

def LbHash.bucketOf (h : LbHash) (hash : BitVec 32) : Fin (h.bucketsMask.toNat + 1) :=
  ⟨(hash &&& h.bucketsMask).toNat, h.and_mask_lt hash⟩

def Entry.live (e : Entry) (now : BitVec 32) : Bool := now.slt e.timeout

def Entry.matches (e : Entry) (hash vip now : BitVec 32) : Bool := e.live now && e.hash == hash && e.vip == vip

def firstLane (p : Fin 4 → Bool) : Option (Fin 4) := [0, 1, 2, 3].find? p

def LbHash.availableIndex (h : LbHash) (hash now : BitVec 32) : Option (Fin 4) :=
  firstLane fun i => !(h.entries (h.bucketOf hash, i)).live now

def LbHash.foundIndex (h : LbHash) (hash vip now : BitVec 32) : Option (Fin 4) :=
  firstLane fun i => (h.entries (h.bucketOf hash, i)).matches hash vip now

def LbHash.foundValue (h : LbHash) (hash vip now : BitVec 32) : BitVec 32 :=
  (h.foundIndex hash vip now).elim notFound fun i => (h.entries (h.bucketOf hash, i)).value

def LbHash.setEntry (h : LbHash) (p : Fin (h.bucketsMask.toNat + 1) × Fin 4) (e : Entry) : LbHash :=
  { h with entries := update h.entries p e }

def lbHashGet (h : LbHash) (hash vip now : BitVec 32) : LbHash × Option (Fin 4) × BitVec 32 :=
  ((h.foundIndex hash vip now).elim h fun i =>
      h.setEntry (h.bucketOf hash, i) { h.entries (h.bucketOf hash, i) with timeout := now + h.timeout },
    h.availableIndex hash now, h.foundValue hash vip now)

def lbHashAvailableValue (h : LbHash) (hash : BitVec 32) (i : Fin 4) : BitVec 32 :=
  (h.entries (h.bucketOf hash, i)).value

def lbHashPut (h : LbHash) (hash value vip : BitVec 32) (i : Fin 4) (now : BitVec 32) : LbHash :=
  h.setEntry (h.bucketOf hash, i) ⟨hash, now + h.timeout, vip, value⟩

def LbHash.values (h : LbHash) : List (BitVec 32) :=
  (List.finRange (h.bucketsMask.toNat + 1) ×ˢ List.finRange 4).map fun p => (h.entries p).value

structure NewFlowTable where
  mask : BitVec 32
  asIndex : BitVec 32 → BitVec 32
  ne_notFound : ∀ b, asIndex b ≠ notFound

structure LbMain where
  vips : BitVec 32 → NewFlowTable
  perCpuStickyBuckets : BitVec 32
  flowTimeout : BitVec 32
  stickyHt : Option LbHash
  asRefcount : RefcountPerCpu
  lbTime : BitVec 32

def LbMain.regenerate (s : LbMain) : Option LbMain :=
  (lbHashAlloc s.perCpuStickyBuckets s.flowTimeout).map fun h => { s with stickyHt := some h }

def lbGetStickyTable (s : LbMain) : Option LbMain :=
  match s.stickyHt with
  | none => s.regenerate
  | some h =>
    if s.perCpuStickyBuckets = h.nbuckets then some { s with stickyHt := some { h with timeout := s.flowTimeout } }
    else (dereference s.asRefcount h.values).bind fun r => { s with asRefcount := r }.regenerate

inductive Counter
  | nextPacket
  | firstPacket
  | untrackedPacket
  | noServer
deriving DecidableEq

def LbMain.newFlowAs (s : LbMain) (hash vip : BitVec 32) : BitVec 32 :=
  (s.vips vip).asIndex (hash &&& (s.vips vip).mask)

def lbNodePacket (s : LbMain) (hash vip : BitVec 32) : Option (LbMain × BitVec 32 × Counter) :=
  s.stickyHt.bind fun h =>
    match lbHashGet h hash vip s.lbTime with
    | (h', available, asIndex) =>
      if asIndex ≠ notFound then some ({ s with stickyHt := some h' }, asIndex, .nextPacket)
      else
        let asIndex := s.newFlowAs hash vip
        match available with
        | some i =>
          (moveReference s.asRefcount (lbHashAvailableValue h' hash i) asIndex).map fun r =>
            ({ s with asRefcount := r, stickyHt := some (lbHashPut h' hash asIndex vip i s.lbTime) }, asIndex,
              if asIndex = 0 then .noServer else .firstPacket)
        | none => some ({ s with stickyHt := some h' }, asIndex, .untrackedPacket)

def lbNodeFn (s : LbMain) (now : BitVec 32) (packets : List (BitVec 32 × BitVec 32)) : Option LbMain :=
  (lbGetStickyTable { s with lbTime := now }).bind fun s =>
    packets.foldlM (fun s p => (lbNodePacket s p.1 p.2).map Prod.fst) s

def lbConf (s : LbMain) (buckets timeout : BitVec 32) : LbMain :=
  if isPow2 buckets then { s with perCpuStickyBuckets := buckets, flowTimeout := timeout } else s

/-- What the thread and the configuration do. A frame is its start and its packets. -/
inductive Event
  | conf (buckets timeout : BitVec 32)
  | newFlowTable (vip : BitVec 32) (table : NewFlowTable)
  | frame (now : BitVec 32)
  | packet (hash vip : BitVec 32)

def step (s : LbMain) : Event → Option LbMain
  | .conf buckets timeout => some (lbConf s buckets timeout)
  | .newFlowTable vip table => some { s with vips := update s.vips vip table }
  | .frame now => lbGetStickyTable { s with lbTime := now }
  | .packet hash vip => (lbNodePacket s hash vip).map Prod.fst

def run (s : LbMain) : List Event → Option LbMain
  | [] => some s
  | e :: es => (step s e).bind fun s => run s es

def LbMain.init (vips : BitVec 32 → NewFlowTable) : LbMain where
  vips := vips
  perCpuStickyBuckets := 1 <<< 10
  flowTimeout := 40
  stickyHt := none
  asRefcount := { counters := fun _ => 0, length := 0, beyond := fun _ _ => rfl }
  lbTime := 0

theorem lbNodeFn_eq_run (s : LbMain) (now : BitVec 32) (packets : List (BitVec 32 × BitVec 32)) :
    lbNodeFn s now packets = run s (.frame now :: packets.map fun p => .packet p.1 p.2) := by
  rw [lbNodeFn, run, step]
  apply congrArg
  funext s'
  induction packets generalizing s' with
  | nil => rfl
  | cons p packets ih =>
    rw [foldlM_cons, map_cons, run, step]
    cases lbNodePacket s' p.1 p.2 with
    | none => rfl
    | some out => exact ih out.1

end Vpp.Lb
