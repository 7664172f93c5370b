import Vpp.Lib.Pool
import Vpp.Lb.HashGet

namespace Vpp.Lb
open Vpp.Lib List Option

def ip46PrefixNormalize (vipPrefix : Address) (plen : BitVec 8) : Address :=
  let first : BitVec 64 := vipPrefix.extractLsb' 64 64
  let second : BitVec 64 := vipPrefix.extractLsb' 0 64
  if plen = 0 then 0
  else if plen ≤ 64 then (first &&& BitVec.allOnes 64 <<< (64 - plen.toNat)) ++ (0 : BitVec 64)
  else first ++ (second &&& BitVec.allOnes 64 <<< ((128 - (plen.toNat : Int)) % 64).toNat)

def ip46AddressIsIp4 (a : Address) : Bool := a.extractLsb' 32 96 == 0

def ip46PrefixIsIp4 (a : Address) (plen : BitVec 8) : Bool := decide (96 ≤ plen) && ip46AddressIsIp4 a

inductive LbVipType where
  | ip6Gre6
  | ip6Gre4
  | ip4Gre6
  | ip4Gre4
  deriving DecidableEq

def lbVipIsGre4 (type : LbVipType) : Bool := type == .ip6Gre4 || type == .ip4Gre4

def positions (p : Pool α) : List Nat := (List.range p.elts.length).filter fun i => p.Live i

structure As extends LbAs where
  vipIndex : Nat
  lastUsed : BitVec 32

instance : Inhabited As := ⟨⟨⟨0, false⟩, 0, 0⟩⟩

theorem noAs_pos : 0 < noAs := by decide

instance : Inhabited (Fin noAs) := ⟨⟨0, noAs_pos⟩⟩

/-- The servers of all services. An index is below the one that stands for no server. -/
structure AsPool where
  pool : Pool As
  length_le : pool.elts.length ≤ noAs

theorem get_lt {p : Pool As} (h : p.get.1.elts.length ≤ noAs) : p.get.2 < noAs := by
  have hlive : p.get.1.Live p.get.2 := Pool.live_get.mpr (.inr rfl)
  exact Nat.lt_of_lt_of_le hlive.1 h

theorem put_length_le (p : AsPool) (i : Nat) : (p.pool.put i).elts.length ≤ noAs := by
  rw [Pool.length_put]
  exact p.length_le

theorem modify_length_le (p : AsPool) (i : Nat) (f : As → As) : (p.pool.modify i f).elts.length ≤ noAs := by
  rw [Pool.length_modify]
  exact p.length_le

/-- Nothing when the vector would need more elements than an index reaches. -/
def AsPool.get (p : AsPool) : Option (AsPool × Fin noAs) :=
  if h : p.pool.get.1.elts.length ≤ noAs then some (⟨p.pool.get.1, h⟩, ⟨p.pool.get.2, get_lt h⟩) else none

def AsPool.put (p : AsPool) (i : Nat) : AsPool := ⟨p.pool.put i, put_length_le p i⟩

def AsPool.modify (p : AsPool) (i : Nat) (f : As → As) : AsPool := ⟨p.pool.modify i f, modify_length_le p i f⟩

/-- A service. The mask of its table is one less than its length, `2 ^ logLen`. -/
structure VipEntry where
  vipPrefix : Address
  plen : BitVec 8
  type : LbVipType
  used : Bool
  lastGarbageCollection : BitVec 32
  asIndexes : Pool (Fin noAs)
  logLen : Nat
  logLen_lt : logLen < 32
  newFlowTable : Nat → Nat

theorem zero_lt_logLen : 0 < 32 := by decide

instance : Inhabited VipEntry := ⟨⟨0, 0, .ip6Gre6, false, 0, .empty, 0, zero_lt_logLen, fun _ => 0⟩⟩

def VipEntry.servers (v : VipEntry) : List (Fin noAs) := (positions v.asIndexes).map v.asIndexes.eltAt

structure LbControl where
  writerLock : Bool
  vips : Pool VipEntry
  ass : AsPool
  asRefcount : Nat → BitVec 32

inductive Ret where
  | ok
  | valueExist
  | noSuchEntry
  | invalidMemorySize
  | invalidAddressFamily
  deriving DecidableEq

/-- Nothing when it waits for a lock that nobody puts back. -/
def lbGetWriterLock (s : LbControl) : Option LbControl :=
  if s.writerLock then none else some { s with writerLock := true }

def lbPutWriterLock (s : LbControl) : LbControl := { s with writerLock := false }

theorem VipEntry.servers_lt (v : VipEntry) : ∀ i ∈ v.servers.map Fin.val, i < noAs := by
  intro i hi
  obtain ⟨a, _, rfl⟩ := List.mem_map.mp hi
  exact a.isLt

def VipEntry.lbVip (v : VipEntry) : LbVip := ⟨v.servers.map Fin.val, v.servers_lt, v.logLen, v.logLen_lt⟩

def updateNewFlowTable (xxhash : Address → BitVec 64) (s : LbControl) (v : VipEntry) : Option VipEntry :=
  (lbVipUpdateNewFlowTable xxhash (fun i => (s.ass.pool.eltAt i).toLbAs) v.lbVip).map fun table =>
    { v with newFlowTable := table }

def updateTableOf (xxhash : Address → BitVec 64) (s : LbControl) (vip : Nat) : Option LbControl :=
  (updateNewFlowTable xxhash s (s.vips.eltAt vip)).map fun v => { s with vips := s.vips.set vip v }

def garbageRun : BitVec 32 := 60

def concurrencyTimeout : BitVec 32 := 10

def collect (now : BitVec 32) (refcount : Nat → BitVec 32) (st : Pool (Fin noAs) × AsPool) (position : Nat) :
    Pool (Fin noAs) × AsPool :=
  let i := st.1.eltAt position
  let as := st.2.pool.eltAt i
  if !as.used && clibU32LoopGt now (as.lastUsed + concurrencyTimeout) && refcount i == 0 then
    (st.1.put position, st.2.put i)
  else st

def lbVipGarbageCollection (s : LbControl) (vip : Nat) (now : BitVec 32) : LbControl :=
  let v := s.vips.eltAt vip
  if !clibU32LoopGt now (v.lastGarbageCollection + garbageRun) then s
  else
    let st := (positions v.asIndexes).foldl (collect now s.asRefcount) (v.asIndexes, s.ass)
    { s with vips := s.vips.set vip { v with lastGarbageCollection := now, asIndexes := st.1 }, ass := st.2 }

def lbVipFindIndexWithLock (s : LbControl) (vipPrefix : Address) (plen : BitVec 8) : Option Nat :=
  (positions s.vips).find? fun i =>
    let v := s.vips.eltAt i
    v.used && v.plen == plen && v.vipPrefix == ip46PrefixNormalize vipPrefix plen

def lbAsFindIndexVip (s : LbControl) (vip : Nat) (address : Address) : Option (Fin noAs) :=
  (s.vips.eltAt vip).servers.find? fun i =>
    let as := s.ass.pool.eltAt i
    as.vipIndex == vip && as.address == address

theorem log2_lt (n : BitVec 32) : n.toNat.log2 < 32 := by
  by_cases h : n.toNat = 0
  · rw [h]
    decide
  · exact (Nat.log2_lt h).mpr n.isLt

/-- The table of a new length of `0`, a power of two for the check, would have `2 ^ 32` entries: no vector has them. -/
def lbVipAdd (xxhash : Address → BitVec 64) (s : LbControl) (vipPrefix : Address) (plen : BitVec 8)
    (type : LbVipType) (newLength now : BitVec 32) : Option (LbControl × Ret) :=
  (lbGetWriterLock s).bind fun s =>
    let p := ip46PrefixNormalize vipPrefix plen
    if (lbVipFindIndexWithLock s p plen).isSome then some (lbPutWriterLock s, .valueExist)
    else
      let p := ip46PrefixNormalize p plen
      if !isPow2 newLength then some (lbPutWriterLock s, .invalidMemorySize)
      else if ip46PrefixIsIp4 p plen && type != .ip4Gre4 && type != .ip4Gre6 then some (s, .invalidAddressFamily)
      else if newLength = 0 then none
      else
        let v : VipEntry :=
          { vipPrefix := p, plen := plen, type := type, used := true, lastGarbageCollection := now
            asIndexes := .empty, logLen := newLength.toNat.log2, logLen_lt := log2_lt newLength
            newFlowTable := fun _ => 0 }
        (updateNewFlowTable xxhash s v).map fun v =>
          (lbPutWriterLock { s with vips := s.vips.get.1.set s.vips.get.2 v }, .ok)

/-- The addresses that are left, from the last one to the first, with the results so far. -/
def addCheck (s : LbControl) (vip : Nat) (isIp4 : Bool) (addresses : List Address) :
    Nat → List Nat → List (Fin noAs) → Except Ret (List Nat × List (Fin noAs))
  | 0, toBeAdded, toBeUpdated => .ok (toBeAdded, toBeUpdated)
  | n + 1, toBeAdded, toBeUpdated =>
    let address := addresses.getD n 0
    match lbAsFindIndexVip s vip address with
    | some i =>
      if (s.ass.pool.eltAt i).used then .error .valueExist
      else addCheck s vip isIp4 addresses n toBeAdded (toBeUpdated ++ [i])
    | none =>
      if ip46AddressIsIp4 address != isIp4 then .error .invalidAddressFamily
      else if (addresses.take n).contains address then addCheck s vip isIp4 addresses n toBeAdded toBeUpdated
      else addCheck s vip isIp4 addresses n (toBeAdded ++ [n]) toBeUpdated

def reuseAs (s : LbControl) (i : Fin noAs) : LbControl :=
  { s with ass := s.ass.modify i fun as => { as with used := true } }

/-- The time of a server that is taken from the pool stays what it was. -/
def createAs (vip : Nat) (s : LbControl) (address : Address) : Option LbControl :=
  s.ass.get.map fun (ass, i) =>
    let v := s.vips.eltAt vip
    { s with
      ass := ass.modify i fun as => { as with address := address, used := true, vipIndex := vip }
      vips := s.vips.set vip { v with asIndexes := v.asIndexes.get.1.set v.asIndexes.get.2 i } }

def lbVipAddAss (xxhash : Address → BitVec 64) (s : LbControl) (vip : Nat) (addresses : List Address)
    (now : BitVec 32) : Option (LbControl × Ret) :=
  (lbGetWriterLock s).bind fun s =>
    if !decide (s.vips.Live vip) then some (lbPutWriterLock s, .noSuchEntry)
    else
      match addCheck s vip (lbVipIsGre4 (s.vips.eltAt vip).type) addresses addresses.length [] [] with
      | .error r => some (lbPutWriterLock s, r)
      | .ok (toBeAdded, toBeUpdated) =>
        ((toBeAdded.map fun n => addresses.getD n 0).foldlM (createAs vip) (toBeUpdated.foldl reuseAs s)).bind fun s =>
          (updateTableOf xxhash s vip).map fun s => (lbPutWriterLock (lbVipGarbageCollection s vip now), .ok)

/-- The search for duplicates of the address at `n` leaves out the one before it. -/
def delCheck (s : LbControl) (vip : Nat) (addresses : List Address) :
    Nat → List (Fin noAs) → Except Ret (List (Fin noAs))
  | 0, indexes => .ok indexes
  | n + 1, indexes =>
    let address := addresses.getD n 0
    match lbAsFindIndexVip s vip address with
    | none => .error .noSuchEntry
    | some i =>
      if (addresses.take (n - 1)).contains address then delCheck s vip addresses n indexes
      else delCheck s vip addresses n (indexes ++ [i])

def retireAs (now : BitVec 32) (s : LbControl) (i : Fin noAs) : LbControl :=
  { s with ass := s.ass.modify i fun as => { as with used := false, lastUsed := now } }

/-- The time is read once for the servers and once for the garbage. -/
def lbVipDelAssWithlock (xxhash : Address → BitVec 64) (s : LbControl) (vip : Nat) (addresses : List Address)
    (now later : BitVec 32) : Option (LbControl × Ret) :=
  if !decide (s.vips.Live vip) then some (s, .noSuchEntry)
  else
    match delCheck s vip addresses addresses.length [] with
    | .error r => some (s, r)
    | .ok indexes =>
      let s := lbVipGarbageCollection s vip later
      if indexes.isEmpty then some (s, .ok)
      else (updateTableOf xxhash (indexes.foldl (retireAs now) s) vip).map fun s => (s, .ok)

def lbVipDelAss (xxhash : Address → BitVec 64) (s : LbControl) (vip : Nat) (addresses : List Address)
    (now later : BitVec 32) : Option (LbControl × Ret) :=
  (lbGetWriterLock s).bind fun s =>
    (lbVipDelAssWithlock xxhash s vip addresses now later).map fun (s, r) => (lbPutWriterLock s, r)

/-- What the deletion of the servers returns is not looked at. -/
def lbVipDel (xxhash : Address → BitVec 64) (s : LbControl) (vip : Nat) (now later : BitVec 32) :
    Option (LbControl × Ret) :=
  (lbGetWriterLock s).bind fun s =>
    if !decide (s.vips.Live vip) then some (lbPutWriterLock s, .noSuchEntry)
    else
      let ass := (s.vips.eltAt vip).servers.map fun i : Fin noAs => (s.ass.pool.eltAt i).address
      (if ass.isEmpty then some (s, .ok) else lbVipDelAssWithlock xxhash s vip ass now later).map fun (s, _) =>
        (lbPutWriterLock { s with vips := s.vips.modify vip fun v => { v with used := false } }, .ok)

inductive LbCall where
  | vipAdd (vipPrefix : Address) (plen : BitVec 8) (type : LbVipType) (newLength now : BitVec 32)
  | vipDel (vip : Nat) (now later : BitVec 32)
  | addAss (vip : Nat) (addresses : List Address) (now : BitVec 32)
  | delAss (vip : Nat) (addresses : List Address) (now later : BitVec 32)

def LbCall.run (xxhash : Address → BitVec 64) (s : LbControl) : LbCall → Option (LbControl × Ret)
  | vipAdd p plen type newLength now => lbVipAdd xxhash s p plen type newLength now
  | vipDel vip now later => lbVipDel xxhash s vip now later
  | addAss vip addresses now => lbVipAddAss xxhash s vip addresses now
  | delAss vip addresses now later => lbVipDelAss xxhash s vip addresses now later

/-- The lock is put back, and an error leaves the services, their servers and their tables alone. -/
structure Atomic (s : LbControl) (r : LbControl × Ret) : Prop where
  released : r.1.writerLock = false
  unchanged : r.2 ≠ .ok → r.1.vips = s.vips ∧ r.1.ass = s.ass

/-- A new service gets as far as the check of the address family, and the check says no. -/
def Forgets (s : LbControl) : LbCall → Prop
  | .vipAdd p plen type newLength _ =>
    lbVipFindIndexWithLock s (ip46PrefixNormalize p plen) plen = none ∧ isPow2 newLength = true ∧
      ip46PrefixIsIp4 (ip46PrefixNormalize (ip46PrefixNormalize p plen) plen) plen = true ∧ type ≠ .ip4Gre4 ∧
          type ≠ .ip4Gre6
  | .vipDel .. => False
  | .addAss .. => False
  | .delAss .. => False

/-- A table of `2 ^ 32` entries, or more servers than indices. -/
def OutOfMemory (s : LbControl) : LbCall → Prop
  | .vipAdd _ _ _ newLength _ => newLength = 0
  | .vipDel .. => False
  | .addAss _ addresses _ => noAs < s.ass.pool.elts.length + addresses.length
  | .delAss .. => False

section Calls
variable {s : LbControl} (xxhash : Address → BitVec 64)

theorem lbVipUpdateNewFlowTable_isSome (ass : Nat → LbAs) (v : LbVip) :
    ∃ table, lbVipUpdateNewFlowTable xxhash ass v = some table := by
  by_cases hne : usedAss ass v = []
  · have hall : (v.asIndexes.all fun i => !(ass i).used) = true := by
      apply List.all_eq_true.mpr
      intro i hi
      have hnot := filter_eq_nil_iff.mp hne i hi
      simpa using hnot
    exact ⟨_, if_pos hall⟩
  · obtain ⟨table, hrun, _⟩ := lbVipUpdateNewFlowTable_spec xxhash hne
    exact ⟨table, hrun⟩

theorem updateNewFlowTable_isSome (s : LbControl) (v : VipEntry) : ∃ v', updateNewFlowTable xxhash s v = some v' := by
  obtain ⟨table, hrun⟩ := lbVipUpdateNewFlowTable_isSome xxhash (fun i => (s.ass.pool.eltAt i).toLbAs) v.lbVip
  rw [updateNewFlowTable, hrun]
  exact ⟨_, rfl⟩

theorem updateTableOf_isSome (s : LbControl) (vip : Nat) : ∃ s', updateTableOf xxhash s vip = some s' := by
  obtain ⟨v, hv⟩ := updateNewFlowTable_isSome xxhash s (s.vips.eltAt vip)
  rw [updateTableOf, hv]
  exact ⟨_, rfl⟩

theorem lbGetWriterLock_free (h : s.writerLock = false) : lbGetWriterLock s = some { s with writerLock := true } := by
  rw [lbGetWriterLock, h]
  rfl

theorem lbGetWriterLock_taken (h : s.writerLock = true) : lbGetWriterLock s = none := by
  rw [lbGetWriterLock, h]
  rfl

theorem Atomic.ok (s' : LbControl) : Atomic s (lbPutWriterLock s', .ok) where
  released := rfl
  unchanged h := absurd rfl h

theorem Atomic.error (r : Ret) : Atomic s (lbPutWriterLock { s with writerLock := true }, r) where
  released := rfl
  unchanged _ := ⟨rfl, rfl⟩

theorem createAs_some (vip : Nat) (address : Address) (h : s.ass.pool.elts.length < noAs) :
    ∃ s', createAs vip s address = some s' ∧ s'.ass.pool.elts.length ≤ s.ass.pool.elts.length + 1 := by
  have hle : s.ass.pool.get.1.elts.length ≤ s.ass.pool.elts.length + 1 := by
    rw [Pool.length_get]
    split
    · exact Nat.le_refl _
    · exact Nat.le_succ _
  have hget : s.ass.get = some (⟨s.ass.pool.get.1, Nat.le_trans hle h⟩,
      ⟨s.ass.pool.get.2, get_lt (Nat.le_trans hle h)⟩) :=
    dif_pos (Nat.le_trans hle h)
  rw [createAs, hget]
  apply Exists.intro
  apply And.intro rfl
  simp only [AsPool.modify, Pool.length_modify]
  exact hle

theorem createAs_all (vip : Nat) (addresses : List Address) (h : s.ass.pool.elts.length + addresses.length ≤ noAs) :
    ∃ s', addresses.foldlM (createAs vip) s = some s' := by
  induction addresses generalizing s with
  | nil => exact ⟨s, rfl⟩
  | cons a as ih =>
    rw [length_cons] at h
    have hlt : s.ass.pool.elts.length < noAs := by omega
    obtain ⟨s', hs', hle⟩ := createAs_some vip a hlt
    have hrest : s'.ass.pool.elts.length + as.length ≤ noAs := by omega
    obtain ⟨s'', hs''⟩ := ih hrest
    rw [foldlM_cons, hs']
    exact ⟨s'', hs''⟩

theorem reuseAs_length (indexes : List (Fin noAs)) (s : LbControl) :
    (indexes.foldl reuseAs s).ass.pool.elts.length = s.ass.pool.elts.length := by
  induction indexes generalizing s with
  | nil => rfl
  | cons i is ih => exact (ih (reuseAs s i)).trans (Pool.length_modify _ _ _)

theorem addCheck_length (h : addCheck s vip isIp4 addresses n toBeAdded toBeUpdated = .ok (a, u)) :
    a.length ≤ toBeAdded.length + n := by
  induction n generalizing toBeAdded toBeUpdated with
  | zero =>
    cases h
    exact Nat.le_refl _
  | succ n ih =>
    rw [addCheck] at h
    split at h
    · split at h
      · cases h
      · have hle := ih h
        omega
    · split at h
      · cases h
      · split at h
        · have hle := ih h
          omega
        · have hle := ih h
          rw [length_append, length_singleton] at hle
          omega

theorem lbVipAddAss_some (h : s.writerLock = false) (hm : s.ass.pool.elts.length + addresses.length ≤ noAs) :
    lbVipAddAss xxhash s vip addresses now ≠ none := by
  rw [lbVipAddAss, lbGetWriterLock_free h, bind_some]
  split
  · exact some_ne_none _
  · split
    · exact some_ne_none _
    · next added updated hcheck =>
      have hlen := addCheck_length hcheck
      rw [length_nil, Nat.zero_add] at hlen
      have hfits : (updated.foldl reuseAs { s with writerLock := true }).ass.pool.elts.length +
          (added.map fun n => addresses.getD n 0).length ≤ noAs := by
        rw [reuseAs_length, length_map]
        exact Nat.le_trans (Nat.add_le_add_left hlen _) hm
      obtain ⟨s', hs'⟩ := createAs_all vip _ hfits
      obtain ⟨s'', hs''⟩ := updateTableOf_isSome xxhash s' vip
      rw [hs', bind_some, hs'']
      exact some_ne_none _

theorem lbVipAddAss_atomic (h : s.writerLock = false) (hr : r ∈ lbVipAddAss xxhash s vip addresses now) :
    Atomic s r := by
  rw [mem_def, lbVipAddAss, lbGetWriterLock_free h, bind_some] at hr
  split at hr
  · exact Option.some.inj hr ▸ .error _
  · split at hr
    · exact Option.some.inj hr ▸ .error _
    · obtain ⟨s', _, hs'⟩ := bind_eq_some_iff.mp hr
      obtain ⟨s'', _, rfl⟩ := map_eq_some_iff.mp hs'
      exact .ok _

theorem lbVipDelAssWithlock_spec (s : LbControl) (vip : Nat) (addresses : List Address) (now later : BitVec 32) :
    ∃ r, lbVipDelAssWithlock xxhash s vip addresses now later = some r ∧ (r.2 ≠ .ok → r.1 = s) := by
  rw [lbVipDelAssWithlock]
  split
  · exact ⟨_, rfl, fun _ => rfl⟩
  · split
    · exact ⟨_, rfl, fun _ => rfl⟩
    · next indexes hcheck =>
      obtain ⟨s', hs'⟩ := updateTableOf_isSome xxhash
        (indexes.foldl (retireAs now) (lbVipGarbageCollection s vip later)) vip
      simp only [hs']
      split
      · exact ⟨_, rfl, fun hne => absurd rfl hne⟩
      · exact ⟨_, rfl, fun hne => absurd rfl hne⟩

theorem lbVipDelAss_atomic (h : s.writerLock = false) (vip : Nat) (addresses : List Address) (now later : BitVec 32) :
    ∃ r, lbVipDelAss xxhash s vip addresses now later = some r ∧ Atomic s r := by
  obtain ⟨⟨s', ret⟩, hrun, hsame⟩ :=
    lbVipDelAssWithlock_spec xxhash { s with writerLock := true } vip addresses now later
  rw [lbVipDelAss, lbGetWriterLock_free h, bind_some, hrun]
  refine ⟨_, rfl, ⟨rfl, ?_⟩⟩
  intro hne
  have hs : s' = { s with writerLock := true } := hsame hne
  rw [hs]
  exact ⟨rfl, rfl⟩

theorem lbVipDel_atomic (h : s.writerLock = false) (vip : Nat) (now later : BitVec 32) :
    ∃ r, lbVipDel xxhash s vip now later = some r ∧ Atomic s r := by
  rw [lbVipDel, lbGetWriterLock_free h, bind_some]
  split
  · exact ⟨_, rfl, .error _⟩
  · obtain ⟨r, hrun, _⟩ := lbVipDelAssWithlock_spec xxhash { s with writerLock := true } vip
      ((s.vips.eltAt vip).servers.map fun i : Fin noAs => (s.ass.pool.eltAt i).address) now later
    simp only [hrun]
    split
    · exact ⟨_, rfl, .ok _⟩
    · exact ⟨_, rfl, .ok _⟩

inductive AddCase (s : LbControl) (p : Address) (plen : BitVec 8) (type : LbVipType) (newLength now : BitVec 32) :
    Option (LbControl × Ret) → Prop
  | refused (r : Ret) (hnot : ¬ Forgets s (.vipAdd p plen type newLength now)) :
    AddCase s p plen type newLength now (some (lbPutWriterLock { s with writerLock := true }, r))
  | forgot (hf : Forgets s (.vipAdd p plen type newLength now)) :
    AddCase s p plen type newLength now (some ({ s with writerLock := true }, .invalidAddressFamily))
  | memory (hnot : ¬ Forgets s (.vipAdd p plen type newLength now)) (hzero : newLength = 0) :
    AddCase s p plen type newLength now none
  | added (s' : LbControl) (hnot : ¬ Forgets s (.vipAdd p plen type newLength now)) :
    AddCase s p plen type newLength now (some (lbPutWriterLock s', .ok))

theorem lbVipAdd_cases (h : s.writerLock = false) (p : Address) (plen : BitVec 8) (type : LbVipType)
    (newLength now : BitVec 32) :
    AddCase s p plen type newLength now (lbVipAdd xxhash s p plen type newLength now) := by
  rw [lbVipAdd, lbGetWriterLock_free h, bind_some]
  have hfind : lbVipFindIndexWithLock { s with writerLock := true } (ip46PrefixNormalize p plen) plen =
      lbVipFindIndexWithLock s (ip46PrefixNormalize p plen) plen := rfl
  simp only [hfind]
  split
  · next hsome =>
    apply AddCase.refused
    intro ⟨hnone, _⟩
    rw [hnone] at hsome
    cases hsome
  · next hnone =>
    split
    · next hpow =>
      apply AddCase.refused
      intro ⟨_, hp, _⟩
      rw [hp] at hpow
      cases hpow
    · next hpow =>
      split
      · next hfamily =>
        apply AddCase.forgot
        simp only [Bool.and_eq_true, bne_iff_ne] at hfamily
        simp only [Bool.not_eq_true', Bool.not_eq_false] at hpow
        exact ⟨not_isSome_iff_eq_none.mp hnone, hpow, hfamily.1.1, hfamily.1.2, hfamily.2⟩
      · next hfamily =>
        have hnot : ¬ Forgets s (.vipAdd p plen type newLength now) := by
          intro ⟨_, _, h4, hgre4, hgre6⟩
          apply hfamily
          rw [h4, Bool.true_and, Bool.and_eq_true, bne_iff_ne, bne_iff_ne]
          exact ⟨hgre4, hgre6⟩
        split
        · next hzero => exact .memory hnot hzero
        · generalize hv : VipEntry.mk _ _ _ _ _ _ _ _ _ = v
          obtain ⟨v', hv'⟩ := updateNewFlowTable_isSome xxhash { s with writerLock := true } v
          rw [hv']
          exact .added _ hnot

theorem lb_call_atomic (h : s.writerLock = false) (c : LbCall) :
    (c.run xxhash s = none → OutOfMemory s c) ∧ ((∀ r ∈ c.run xxhash s, Atomic s r) ↔ ¬ Forgets s c) := by
  cases c with
  | vipAdd p plen type newLength now =>
    have hcase := lbVipAdd_cases xxhash h p plen type newLength now
    simp only [LbCall.run]
    generalize lbVipAdd xxhash s p plen type newLength now = o at hcase ⊢
    cases hcase with
    | refused r hnot => simpa [hnot] using Atomic.error r
    | forgot hf =>
      apply And.intro (fun hnone => absurd hnone (some_ne_none _))
      apply iff_of_false _ (not_not.mpr hf)
      intro hall
      cases (hall _ rfl).released
    | memory hnot hzero => simpa [hnot, OutOfMemory] using hzero
    | added s' hnot => simpa [hnot] using Atomic.ok s'
  | vipDel vip now later =>
    obtain ⟨r, hrun, hr⟩ := lbVipDel_atomic xxhash h vip now later
    simpa [LbCall.run, hrun, Forgets] using hr
  | addAss vip addresses now =>
    apply And.intro
    · intro hnone
      by_contra hm
      exact lbVipAddAss_some xxhash h (Nat.not_lt.mp hm) hnone
    · apply iff_of_true _ (fun hf => hf)
      intro r hr
      exact lbVipAddAss_atomic xxhash h hr
  | delAss vip addresses now later =>
    obtain ⟨r, hrun, hr⟩ := lbVipDelAss_atomic xxhash h vip addresses now later
    simpa [LbCall.run, hrun, Forgets] using hr

theorem run_of_taken (h : s.writerLock = true) (c : LbCall) : c.run xxhash s = none := by
  have hwait := lbGetWriterLock_taken h
  cases c with
  | vipAdd p plen type newLength now => rw [LbCall.run, lbVipAdd, hwait, bind_none]
  | vipDel vip now later => rw [LbCall.run, lbVipDel, hwait, bind_none]
  | addAss vip addresses now => rw [LbCall.run, lbVipAddAss, hwait, bind_none]
  | delAss vip addresses now later => rw [LbCall.run, lbVipDelAss, hwait, bind_none]

/-- A call that finds the lock free returns when there is memory. It puts the lock back and an error changes nothing,
except when a new service has the address family of another type: then no later call returns. -/
theorem lb_calls_atomic (h : s.writerLock = false) (c : LbCall) :
    (c.run xxhash s = none → OutOfMemory s c) ∧ ((∀ r ∈ c.run xxhash s, Atomic s r) ↔ ¬ Forgets s c) ∧
      (Forgets s c → ∀ r ∈ c.run xxhash s, ∀ c' : LbCall, c'.run xxhash r.1 = none) := by
  obtain ⟨htotal, hatomic⟩ := lb_call_atomic xxhash h c
  refine ⟨htotal, hatomic, ?_⟩
  intro hf r hr c'
  apply run_of_taken
  cases c with
  | vipAdd p plen type newLength now =>
    have hcase := lbVipAdd_cases xxhash h p plen type newLength now
    rw [LbCall.run] at hr
    rw [mem_def.mp hr] at hcase
    cases hcase with
    | refused r hnot => exact absurd hf hnot
    | forgot hf => rfl
    | added s' hnot => exact absurd hf hnot
  | vipDel vip now later => exact absurd hf id
  | addAss vip addresses now => exact absurd hf id
  | delAss vip addresses now later => exact absurd hf id

end Calls

def emptyControl : LbControl := ⟨false, .empty, ⟨.ofElts [default], noAs_pos⟩, fun _ => 0⟩

/-- The prefix of 10.0.0.0/8 as one of IPv6 traffic. -/
def mistyped : LbCall := .vipAdd 0x0a000000 104 .ip6Gre6 1024 0

theorem lb_calls_atomic_empty :
    (mistyped.run (fun a => a.setWidth 64) emptyControl = none → OutOfMemory emptyControl mistyped) ∧
      ((∀ r ∈ mistyped.run (fun a => a.setWidth 64) emptyControl, Atomic emptyControl r) ↔
        ¬ Forgets emptyControl mistyped) ∧
      (Forgets emptyControl mistyped → ∀ r ∈ mistyped.run (fun a => a.setWidth 64) emptyControl,
        ∀ c' : LbCall, c'.run (fun a => a.setWidth 64) r.1 = none) := by
  exact lb_calls_atomic (fun a => a.setWidth 64) rfl mistyped

theorem lb_calls_atomic_fails :
    ¬ ∀ (xxhash : Address → BitVec 64) (s : LbControl) (c : LbCall), s.writerLock = false →
      ∃ r, c.run xxhash s = some r ∧ Atomic s r := by
  intro hall
  obtain ⟨r, hrun, hr⟩ := hall (fun a => a.setWidth 64) emptyControl mistyped rfl
  have hheld : mistyped.run (fun a => a.setWidth 64) emptyControl =
      some ({ emptyControl with writerLock := true }, .invalidAddressFamily) := by rfl
  rw [hheld] at hrun
  cases hrun
  cases hr.released

end Vpp.Lb
