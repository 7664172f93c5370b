import Mathlib.Data.Fintype.Pi
import Vpp.Lb.StickyFlows

namespace Vpp.Lb
open Function BitVec

abbrev Lanes := Fin 4 → BitVec 32

def mmSet1Epi32 (x : BitVec 32) : Lanes := fun _ => x

def laneMask (p : Bool) : BitVec 32 := if p then .allOnes 32 else 0

def mmCmpgtEpi32 (a b : Lanes) : Lanes := fun i => laneMask ((b i).slt (a i))

def mmCmpeqEpi32 (a b : Lanes) : Lanes := fun i => laneMask (a i == b i)

def mmAndSi128 (a b : Lanes) : Lanes := fun i => a i &&& b i

theorem lane_lt (k : Fin 16) : k.val / 4 < 4 := Nat.div_lt_of_lt_mul k.isLt

theorem noLane_lt : 0 < 4 := by decide

def laneOf (k : Fin 16) : Fin 4 := ⟨k.val / 4, lane_lt k⟩

def mmMovemaskEpi8 (a : Lanes) (k : Fin 16) : Bool := (a (laneOf k)).getLsbD (8 * (k.val % 4) + 7)

def ctz (bitmask : Fin 16 → Bool) : Option (Fin 16) := (List.finRange 16).find? bitmask

def lbHashGetSse (h : LbHash) (hash vip now : BitVec 32) : LbHash × Option (Fin 4) × BitVec 32 :=
  let b := h.bucketOf hash
  let mask := mmCmpgtEpi32 (fun i => (h.entries (b, i)).timeout) (mmSet1Epi32 now)
  let availableIndex := (ctz fun k => !mmMovemaskEpi8 mask k).map laneOf
  let mask := mmAndSi128 mask (mmCmpeqEpi32 (fun i => (h.entries (b, i)).hash) (mmSet1Epi32 hash))
  let mask := mmAndSi128 mask (mmCmpeqEpi32 (fun i => (h.entries (b, i)).vip) (mmSet1Epi32 vip))
  let bit := ctz (mmMovemaskEpi8 mask)
  let foundIndex := bit.elim ⟨0, noLane_lt⟩ laneOf
  let e := h.entries (b, foundIndex)
  (h.setEntry (b, foundIndex) { e with timeout := if bit.isSome then now + h.timeout else e.timeout },
    availableIndex, if bit.isSome then e.value else notFound)

def clibU32LoopGt (a b : BitVec 32) : Bool := (a - b).ult 0x7fffffff

def getLoop (h : LbHash) (hash vip now : BitVec 32) (available : Option (Fin 4)) (found : BitVec 32) :
    List (Fin 4) → LbHash × Option (Fin 4) × BitVec 32
  | [] => (h, available, found)
  | i :: is =>
    let e := h.entries (h.bucketOf hash, i)
    let cmp := e.hash == hash && e.vip == vip
    let timeouted := clibU32LoopGt now e.timeout
    let found := if cmp || timeouted then found else e.value
    let h := h.setEntry (h.bucketOf hash, i) { e with timeout := if cmp || timeouted then now + h.timeout
        else e.timeout }
    let available := if timeouted && available.isNone then some i else available
    if !cmp then (h, available, found) else getLoop h hash vip now available found is

def lbHashGetPortable (h : LbHash) (hash vip now : BitVec 32) : LbHash × Option (Fin 4) × BitVec 32 :=
  getLoop h hash vip now none notFound (List.finRange 4)

def LbHash.slot (h : LbHash) (hash : BitVec 32) (i : Fin 4) : Entry := h.entries (h.bucketOf hash, i)

def Entry.isOf (e : Entry) (hash vip : BitVec 32) : Bool := e.hash == hash && e.vip == vip

def Entry.expired (e : Entry) (now : BitVec 32) : Bool := e.timeout.toNat ≤ now.toNat

def LbHash.refresh (h : LbHash) (hash now : BitVec 32) (i : Fin 4) : LbHash :=
  h.setEntry (h.bucketOf hash, i) { h.slot hash i with timeout := now + h.timeout }

/-- The first entry of the flow that has not expired. -/
def LbHash.hit (h : LbHash) (hash vip now : BitVec 32) : Option (Fin 4) :=
  firstLane fun i => (h.slot hash i).isOf hash vip && !(h.slot hash i).expired now

def lbHashGetSpec (h : LbHash) (hash vip now : BitVec 32) : LbHash × Option (Fin 4) × BitVec 32 :=
  ((h.hit hash vip now).elim h (h.refresh hash now), firstLane fun i => (h.slot hash i).expired now,
    (h.hit hash vip now).elim notFound fun i => (h.slot hash i).value)

/-- All times are below `2 ^ 31`. -/
structure LbHash.TimesFit (h : LbHash) (hash now : BitVec 32) : Prop where
  now : now.toNat < 2 ^ 31
  timeout : h.timeout.toNat < 2 ^ 31
  slots : ∀ i, (h.slot hash i).timeout.toNat < 2 ^ 31

variable {h : LbHash} {hash vip now : BitVec 32}

theorem laneMask_and (p q : Bool) : laneMask p &&& laneMask q = laneMask (p && q) := by
  cases p <;> cases q <;> decide

theorem ctz_movemask (p : Fin 4 → Bool) : (ctz (mmMovemaskEpi8 fun i => laneMask (p i))).map laneOf = firstLane p := by
  revert p
  decide

theorem ctz_not_movemask (p : Fin 4 → Bool) :
    (ctz fun k => !mmMovemaskEpi8 (fun i => laneMask (p i)) k).map laneOf = firstLane fun i => !p i := by
  revert p
  decide

theorem LbHash.setEntry_entries (h : LbHash) (q : Fin (h.bucketsMask.toNat + 1) × Fin 4) :
    h.setEntry q (h.entries q) = h := by
  rw [setEntry, update_eq_self]

theorem lbHashGetSse_eq (h : LbHash) (hash vip now : BitVec 32) :
    lbHashGetSse h hash vip now = lbHashGet h hash vip now := by
  have hmask : mmAndSi128
      (mmAndSi128 (mmCmpgtEpi32 (fun i => (h.entries (h.bucketOf hash, i)).timeout) (mmSet1Epi32 now))
      (mmCmpeqEpi32 (fun i => (h.entries (h.bucketOf hash, i)).hash) (mmSet1Epi32 hash)))
      (mmCmpeqEpi32 (fun i => (h.entries (h.bucketOf hash, i)).vip) (mmSet1Epi32 vip)) =
      fun i => laneMask ((h.entries (h.bucketOf hash, i)).matches hash vip now) := by
    funext i
    rw [mmAndSi128, mmAndSi128, mmCmpgtEpi32, mmCmpeqEpi32, mmCmpeqEpi32, laneMask_and, laneMask_and]
    rfl
  have hfound := ctz_movemask fun i => (h.entries (h.bucketOf hash, i)).matches hash vip now
  have havailable : (ctz fun k => !mmMovemaskEpi8 (mmCmpgtEpi32 (fun i => (h.entries (h.bucketOf hash, i)).timeout)
      (mmSet1Epi32 now)) k).map laneOf = h.availableIndex hash now :=
    ctz_not_movemask fun i => (h.entries (h.bucketOf hash, i)).live now
  rw [lbHashGetSse, lbHashGet, LbHash.foundValue, LbHash.foundIndex, ← hfound]
  dsimp only
  rw [havailable, hmask]
  cases ctz (mmMovemaskEpi8 fun i => laneMask ((h.entries (h.bucketOf hash, i)).matches hash vip now)) with
  | none =>
    exact congrArg (·, h.availableIndex hash now, notFound) (h.setEntry_entries _)
  | some k => rfl

theorem LbHash.TimesFit.live (hfit : h.TimesFit hash now) (i : Fin 4) :
    (h.slot hash i).live now = !(h.slot hash i).expired now := by
  have hnow := toInt_eq_toNat_of_lt (show 2 * now.toNat < 2 ^ 32 by have := hfit.now; omega)
  have htime := toInt_eq_toNat_of_lt (show 2 * (h.slot hash i).timeout.toNat < 2 ^ 32 by have := hfit.slots i; omega)
  rw [Entry.live, Entry.expired, slt_eq_decide, hnow, htime, ← decide_not]
  exact decide_eq_decide.mpr (by omega)

theorem LbHash.TimesFit.sse (hfit : h.TimesFit hash now) :
    lbHashGetSse h hash vip now = lbHashGetSpec h hash vip now := by
  have havailable : h.availableIndex hash now = firstLane fun i => (h.slot hash i).expired now := by
    apply congrArg firstLane
    funext i
    exact (congrArg not (hfit.live i)).trans (Bool.not_not _)
  have hfound : h.foundIndex hash vip now = h.hit hash vip now := by
    apply congrArg firstLane
    funext i
    rw [Entry.matches, Bool.and_assoc, Bool.and_comm]
    exact congrArg (_ && ·) (hfit.live i)
  rw [lbHashGetSse_eq, lbHashGet, LbHash.foundValue, havailable, hfound]
  rfl

def LbHash.refreshedEntry (h : LbHash) (hash now : BitVec 32) (p : Fin 4 → Bool)
    (q : Fin (h.bucketsMask.toNat + 1) × Fin 4) : Entry :=
  if q.1 = h.bucketOf hash ∧ p q.2 = true then { h.entries q with timeout := now + h.timeout } else h.entries q

def LbHash.refreshed (h : LbHash) (hash now : BitVec 32) (p : Fin 4 → Bool) : LbHash :=
  { h with entries := h.refreshedEntry hash now p }

theorem LbHash.refreshedEntry_false (h : LbHash) (hash now : BitVec 32) :
    h.refreshedEntry hash now (fun _ => false) = h.entries := by
  funext q
  exact if_neg fun he => Bool.false_ne_true he.2

theorem LbHash.refreshed_false (h : LbHash) (hash now : BitVec 32) : h.refreshed hash now (fun _ => false) = h := by
  rw [refreshed, refreshedEntry_false]

/-- Refreshing two sets of entries is the same when the entries of only one set are fresh already. -/
theorem LbHash.refreshed_eq_iff (h : LbHash) (hash now : BitVec 32) (p q : Fin 4 → Bool) :
    h.refreshed hash now p = h.refreshed hash now q ↔ ∀ i, p i ≠ q i → (h.slot hash i).timeout = now + h.timeout := by
  have hentries : h.refreshed hash now p = h.refreshed hash now q ↔
      h.refreshedEntry hash now p = h.refreshedEntry hash now q := by
    rw [refreshed, refreshed, mk.injEq, heq_eq_eq]
    simp only [true_and]
  rw [hentries]
  constructor
  · intro heq i hne
    have hslot := congrArg Entry.timeout (congrFun heq (h.bucketOf hash, i))
    rw [refreshedEntry, refreshedEntry] at hslot
    cases hp : p i with
    | false =>
      have hq : q i = true := by
        rw [hp] at hne
        exact (Bool.eq_true_of_not_eq_false fun hq => hne hq.symm)
      simp only [hp, hq, and_true, if_true, Bool.false_eq_true, and_false, if_false] at hslot
      exact hslot
    | true =>
      have hq : q i = false := by
        rw [hp] at hne
        exact (Bool.eq_false_of_not_eq_true fun hq => hne hq.symm)
      simp only [hp, hq, and_true, if_true, Bool.false_eq_true, and_false, if_false] at hslot
      exact hslot.symm
  · intro hfresh
    funext ⟨b, i⟩
    by_cases hb : b = h.bucketOf hash
    · subst hb
      by_cases hne : p i = q i
      · rw [refreshedEntry, refreshedEntry]
        simp only [hne]
      · have hsame : { h.entries (h.bucketOf hash, i) with timeout := now + h.timeout } =
            h.entries (h.bucketOf hash, i) := by
          rw [← hfresh i hne]
          rfl
        rw [refreshedEntry, refreshedEntry, hsame, ite_self, ite_self]
    · rw [refreshedEntry, refreshedEntry, if_neg fun he => hb he.1, if_neg fun he => hb he.1]

theorem LbHash.refreshedEntry_step (h : LbHash) (hash now : BitVec 32) (p : Fin 4 → Bool) (i : Fin 4) (c : Bool)
    (hp : p i = false) :
    update (h.refreshedEntry hash now p) (h.bucketOf hash, i)
        { h.slot hash i with timeout := if c then now + h.timeout else (h.slot hash i).timeout } =
      h.refreshedEntry hash now fun j => p j || (j == i && c) := by
  funext ⟨b, j⟩
  by_cases he : (b, j) = (h.bucketOf hash, i)
  · obtain ⟨rfl, rfl⟩ := Prod.mk.inj he
    rw [update_self, refreshedEntry]
    cases c with
    | false => simp [hp, slot]
    | true => simp [slot]
  · rw [update_of_ne he, refreshedEntry, refreshedEntry]
    by_cases hb : b = h.bucketOf hash
    · have hj : j ≠ i := fun hj => he (by rw [hb, hj])
      simp [hj]
    · rw [if_neg fun h => hb h.1, if_neg fun h => hb h.1]

theorem LbHash.refreshed_slot (h : LbHash) (hash now : BitVec 32) (hp : p i = false) :
    (h.refreshed hash now p).slot hash i = h.slot hash i := by
  refine if_neg fun he => ?_
  rw [hp] at he
  exact Bool.false_ne_true he.2

theorem LbHash.refreshed_step (h : LbHash) (hash now : BitVec 32) (p : Fin 4 → Bool) (i : Fin 4) (c : Bool)
    (hp : p i = false) :
    (h.refreshed hash now p).setEntry ((h.refreshed hash now p).bucketOf hash, i)
        { (h.refreshed hash now p).slot hash i with
          timeout := if c then now + (h.refreshed hash now p).timeout
              else ((h.refreshed hash now p).slot hash i).timeout } =
      h.refreshed hash now fun j => p j || (j == i && c) := by
  rw [refreshed_slot h hash now hp]
  exact congrArg (fun entries => { h with entries := entries }) (h.refreshedEntry_step hash now p i c hp)

theorem LbHash.refresh_eq (h : LbHash) (hash now : BitVec 32) (i : Fin 4) :
    h.refresh hash now i = h.refreshed hash now fun j => j == i := by
  have hstep := h.refreshedEntry_step hash now (fun _ => false) i true rfl
  rw [refreshedEntry_false] at hstep
  simp only [Bool.false_or, Bool.and_true, if_true] at hstep
  exact congrArg (fun entries => { h with entries := entries }) hstep

section Loop
variable (m x : Fin 4 → Bool)

/-- The entries that the loop refreshes, when `m` are of the flow and `x` have timed out. -/
def loopWrites : List (Fin 4) → Fin 4 → Bool
  | [], _ => false
  | i :: is, j => (j == i && (m i || x i)) || (m i && loopWrites is j)

def loopAvailable : List (Fin 4) → Option (Fin 4)
  | [] => none
  | i :: is => (if x i then some i else none).or (if m i then loopAvailable is else none)

def loopFound : List (Fin 4) → Option (Fin 4)
  | [] => none
  | i :: is => if m i then loopFound is else if x i then none else some i

def reached (i : Fin 4) : Bool := decide (∀ j, j < i → m j = true)

theorem loopWrites_eq (i : Fin 4) : loopWrites m x [0, 1, 2, 3] i = (reached m i && (m i || x i)) := by
  revert m x i
  decide

theorem loopAvailable_eq : loopAvailable m x [0, 1, 2, 3] = firstLane fun i => reached m i && x i := by
  revert m x
  decide

theorem loopFound_eq : loopFound m x [0, 1, 2, 3] = (firstLane fun i => !m i).filter fun i => !x i := by
  revert m x
  decide

theorem firstLane_eq_iff {p q : Fin 4 → Bool} (hpq : ∀ i, p i = true → q i = true) :
    firstLane p = firstLane q ↔ ∀ i, q i = true → ∃ j, j ≤ i ∧ p j = true := by
  revert p q
  decide

end Loop

/-- The slots of the flow, and those that the loop takes for timed out. -/
def LbHash.ofFlow (h : LbHash) (hash vip : BitVec 32) (i : Fin 4) : Bool := (h.slot hash i).isOf hash vip

def LbHash.timeouted (h : LbHash) (hash now : BitVec 32) (i : Fin 4) : Bool := clibU32LoopGt now (h.slot hash i).timeout

theorem getLoop_eq {p : Fin 4 → Bool} (hp : ∀ i ∈ is, p i = false) (hnd : is.Nodup) (a : Option (Fin 4))
    (f : BitVec 32) :
    getLoop (h.refreshed hash now p) hash vip now a f is =
      (h.refreshed hash now fun j => p j || loopWrites (h.ofFlow hash vip) (h.timeouted hash now) is j,
        a.or (loopAvailable (h.ofFlow hash vip) (h.timeouted hash now) is),
        (loopFound (h.ofFlow hash vip) (h.timeouted hash now) is).elim f fun i => (h.slot hash i).value) := by
  induction is generalizing p a f with
  | nil =>
    simp only [getLoop, loopWrites, loopAvailable, loopFound, Bool.or_false, Option.or_none, Option.elim_none]
  | cons i is ih =>
    obtain ⟨hi, hnd⟩ := List.nodup_cons.mp hnd
    have hpi : p i = false := hp i List.mem_cons_self
    have hslot := h.refreshed_slot hash now hpi
    have hp' : ∀ j ∈ is, (p j || (j == i && (h.ofFlow hash vip i || h.timeouted hash now i))) = false := by
      intro j hj
      have hne : j ≠ i := fun he => hi (he ▸ hj)
      rw [hp j (List.mem_cons_of_mem i hj), beq_false_of_ne hne]
      rfl
    have hgo : getLoop (h.refreshed hash now p) hash vip now a f (i :: is) =
        if !h.ofFlow hash vip i then
          (h.refreshed hash now fun j => p j || (j == i && (h.ofFlow hash vip i || h.timeouted hash now i)),
            if h.timeouted hash now i && a.isNone then some i else a,
            if h.ofFlow hash vip i || h.timeouted hash now i then f else (h.slot hash i).value)
        else getLoop (h.refreshed hash now fun j => p j || (j == i && (h.ofFlow hash vip i || h.timeouted hash now i)))
          hash vip now (if h.timeouted hash now i && a.isNone then some i else a)
          (if h.ofFlow hash vip i || h.timeouted hash now i then f else (h.slot hash i).value) is := by
      rw [← h.refreshed_step hash now p i _ hpi]
      rw [LbHash.ofFlow, LbHash.timeouted, ← hslot]
      rfl
    rw [hgo, loopAvailable, loopFound]
    cases hm : h.ofFlow hash vip i with
    | false =>
      cases hx : h.timeouted hash now i with
      | false => simp [loopWrites, hm, hx]
      | true => cases a with
        | none => simp [loopWrites, hm, hx]
        | some k => simp [loopWrites, hm, hx]
    | true =>
      rw [hm] at hp'
      have hrest := ih hp' hnd
      cases hx : h.timeouted hash now i with
      | false => simpa [loopWrites, hm, hx, Bool.or_assoc] using hrest _ _
      | true => cases a with
        | none => simpa [loopWrites, hm, hx, Bool.or_assoc] using hrest (some i) f
        | some k => simpa [loopWrites, hm, hx, Bool.or_assoc] using hrest (some k) f

theorem lbHashGetPortable_eq (h : LbHash) (hash vip now : BitVec 32) :
    lbHashGetPortable h hash vip now =
      (h.refreshed hash now fun i => reached (h.ofFlow hash vip) i && (h.ofFlow hash vip i || h.timeouted hash now i),
        firstLane fun i => reached (h.ofFlow hash vip) i && h.timeouted hash now i,
        ((firstLane fun i => !h.ofFlow hash vip i).filter fun i => !h.timeouted hash now i).elim notFound fun i =>
          (h.slot hash i).value) := by
  have hnd : [(0 : Fin 4), 1, 2, 3].Nodup := by decide
  have hnew : ∀ i ∈ [(0 : Fin 4), 1, 2, 3], (fun _ => false) i = false := fun _ _ => rfl
  have hloop : getLoop (h.refreshed hash now fun _ => false) hash vip now none notFound [0, 1, 2, 3] = _ :=
    getLoop_eq hnew hnd none notFound
  rw [LbHash.refreshed_false, loopAvailable_eq, loopFound_eq] at hloop
  have hall : List.finRange 4 = [0, 1, 2, 3] := rfl
  rw [lbHashGetPortable, hall]
  simpa only [Bool.false_or, loopWrites_eq, Option.none_or] using hloop

theorem lbHashGetSpec_eq (h : LbHash) (hash vip now : BitVec 32) :
    lbHashGetSpec h hash vip now =
      (h.refreshed hash now fun i => h.hit hash vip now == some i, firstLane fun i => (h.slot hash i).expired now,
        (h.hit hash vip now).elim notFound fun i => (h.slot hash i).value) := by
  rw [lbHashGetSpec]
  cases h.hit hash vip now with
  | none =>
    have hnone : (fun i : Fin 4 => (none : Option (Fin 4)) == some i) = fun _ => false := rfl
    rw [hnone, LbHash.refreshed_false]
    rfl
  | some i =>
    have hsome : (fun j : Fin 4 => some i == some j) = fun j => j == i := by
      funext j
      exact Bool.beq_comm
    rw [hsome, ← LbHash.refresh_eq]
    rfl

theorem LbHash.TimesFit.expired (hfit : h.TimesFit hash now) (ht : h.timeouted hash now i = true) :
    (h.slot hash i).expired now = true := by
  have hlt := hfit.slots i
  have hnow := hfit.now
  rw [timeouted, clibU32LoopGt, BitVec.ult, decide_eq_true_eq, toNat_sub] at ht
  have hmax : (0x7fffffff : BitVec 32).toNat = 2 ^ 31 - 1 := rfl
  rw [hmax] at ht
  rw [Entry.expired, decide_eq_true_eq]
  omega

/-- The first expired slot is one that the loop gets to, an entry that only one of the versions refreshes is as fresh
already, and the entry that ends the loop has the value of the entry that is asked for. -/
structure LbHash.Agrees (h : LbHash) (hash vip now : BitVec 32) : Prop where
  slot : ∀ i, (h.slot hash i).expired now = true →
    ∃ j, j ≤ i ∧ (reached (h.ofFlow hash vip) j && h.timeouted hash now j) = true
  fresh : ∀ i, (reached (h.ofFlow hash vip) i && (h.ofFlow hash vip i || h.timeouted hash now i)) ≠
    (h.hit hash vip now == some i) → (h.slot hash i).timeout = now + h.timeout
  value : ((firstLane fun i => !h.ofFlow hash vip i).filter fun i => !h.timeouted hash now i).elim notFound
    (fun i => (h.slot hash i).value) = (h.hit hash vip now).elim notFound fun i => (h.slot hash i).value

/-- Both versions do what the lookup is for. -/
theorem lb_hash_get_versions (hfit : h.TimesFit hash now) :
    (lbHashGetSse h hash vip now = lbHashGetSpec h hash vip now ∧
      lbHashGetPortable h hash vip now = lbHashGetSpec h hash vip now) ↔ h.Agrees hash vip now := by
  have hslot := firstLane_eq_iff (p := fun i => reached (h.ofFlow hash vip) i && h.timeouted hash now i)
    (q := fun i => (h.slot hash i).expired now) fun i hi => hfit.expired (Bool.and_eq_true_iff.mp hi).2
  rw [and_iff_right hfit.sse, lbHashGetPortable_eq, lbHashGetSpec_eq, Prod.mk.injEq, Prod.mk.injEq,
    LbHash.refreshed_eq_iff, hslot]
  constructor
  · intro ⟨hfresh, hslot, hvalue⟩
    exact ⟨hslot, hfresh, hvalue⟩
  · intro hagree
    exact ⟨hagree.fresh, hagree.slot, hagree.value⟩

def otherFlow : LbHash where
  bucketsMask := 0
  timeout := 40
  fits := oneBucket_fits
  entries _ := ⟨1, 100, 0, 7⟩

theorem otherFlow_fits : otherFlow.TimesFit 2 10 := by
  refine ⟨by decide, by decide, fun i => ?_⟩
  revert i
  decide

/-- The entry of the flow is followed by one of another flow with the same value. -/
def sameValue : LbHash where
  bucketsMask := 0
  timeout := 40
  fits := oneBucket_fits
  entries q := if q.2.val = 0 then ⟨1, 30, 0, 7⟩ else if q.2.val = 1 then ⟨2, 60, 0, 7⟩ else ⟨3, 60, 0, 9⟩

theorem lb_hash_get_versions_same_value : lbHashGetPortable sameValue 1 0 10 = lbHashGetSpec sameValue 1 0 10 := by
  have hfit : sameValue.TimesFit 1 10 := by
    refine ⟨by decide, by decide, fun i => ?_⟩
    revert i
    decide
  refine ((lb_hash_get_versions hfit).mpr ⟨?_, ?_, ?_⟩).2
  · decide
  · decide
  · decide

/-- The loop returns the value of the other flow. -/
theorem lb_hash_get_versions_fails :
    otherFlow.TimesFit 2 10 ∧ (lbHashGetSse otherFlow 2 0 10).2.2 = notFound ∧
      (lbHashGetPortable otherFlow 2 0 10).2.2 = 7 ∧
        ¬ (lbHashGetSse otherFlow 2 0 10 = lbHashGetSpec otherFlow 2 0 10 ∧
          lbHashGetPortable otherFlow 2 0 10 = lbHashGetSpec otherFlow 2 0 10) := by
  have hvalue : (lbHashGetPortable otherFlow 2 0 10).2.2 ≠ (lbHashGetSpec otherFlow 2 0 10).2.2 := by decide
  exact ⟨otherFlow_fits, by decide, by decide, fun h => hvalue (congrArg (fun out => out.2.2) h.2)⟩

end Vpp.Lb
