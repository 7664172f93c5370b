import Mathlib.Data.Nat.Prime.Basic
import Vpp.Lib.Slots
import Vpp.Lib.Ring

namespace Vpp.Lb
open Vpp.Lib Function List Option

abbrev Address := BitVec 128

structure LbAs where
  address : Address
  used : Bool

def noAs : Nat := 2 ^ 32 - 1

/-- A service with the servers of its pool, in the order of the pool. The table has `2 ^ logLen` buckets. -/
structure LbVip where
  asIndexes : List Nat
  index_lt : ∀ i ∈ asIndexes, i < noAs
  logLen : Nat
  logLen_lt : logLen < 32

def LbVip.newFlowTableMask (v : LbVip) : Nat := 2 ^ v.logLen - 1

def u32 (n : Nat) : Nat := n % 2 ^ 32

structure Pseudorand (α : Type) where
  asIndex : α
  last : Nat
  skip : Nat

def Pseudorand.advance (mask : Nat) (pr : Pseudorand α) : Pseudorand α :=
  { pr with last := u32 (pr.last + pr.skip) &&& mask }

/-- The state of the loop over the servers: `at` is the position in the array. -/
structure Fill (α : Type) where
  newFlowTable : Nat → α
  sortArr : List (Pseudorand α)
  position : Nat
  done : Nat

def takeBucket [DecidableEq α] (free : α) (mask : Nat) :
    Nat → (Nat → α) → Pseudorand α → Option ((Nat → α) × Pseudorand α)
  | 0, _, _ => none
  | n + 1, table, pr =>
    if table pr.last = free then some (update table pr.last pr.asIndex, pr.advance mask)
    else takeBucket free mask n table (pr.advance mask)

def Fill.step [DecidableEq α] (free : α) (mask tries : Nat) (s : Fill α) : Option (Fill α) :=
  s.sortArr[s.position]?.bind fun pr =>
    (takeBucket free mask tries s.newFlowTable pr).map fun (table, pr) =>
      { newFlowTable := table, sortArr := s.sortArr.set s.position pr
        position := if s.position + 1 = s.sortArr.length then 0 else s.position + 1, done := s.done + 1 }

/-- The turns until every bucket is taken. Nothing when they are not enough. -/
def fillTable [DecidableEq α] (free : α) (mask tries : Nat) : Nat → Fill α → Option (Nat → α)
  | 0, _ => none
  | n + 1, s =>
    (s.step free mask tries).bind fun s =>
      if s.done = mask + 1 then some s.newFlowTable else fillTable free mask tries n s

/-- Where a server begins, and its stride. -/
def pseudorand (seed : BitVec 64) (mask : Nat) (asIndex : α) : Pseudorand α where
  asIndex := asIndex
  last := seed.toNat / 2 ^ 32 &&& mask
  skip := (u32 seed.toNat ||| 1) &&& mask

def sortedAss (ass : Nat → LbAs) (v : LbVip) : List Nat :=
  (v.asIndexes.filter fun i => (ass i).used).insertionSort fun i j => (ass i).address ≤ (ass j).address

/-- Nothing when a server does not find a bucket in a walk around the table, or not every bucket is taken in as many
turns. -/
def lbVipUpdateNewFlowTable (xxhash : Address → BitVec 64) (ass : Nat → LbAs) (v : LbVip) : Option (Nat → Nat) :=
  if v.asIndexes.all fun i => !(ass i).used then some fun _ => 0
  else
    fillTable noAs v.newFlowTableMask (v.newFlowTableMask + 1) (v.newFlowTableMask + 1)
      { newFlowTable := fun _ => noAs
        sortArr := (sortedAss ass v).map fun i => pseudorand (xxhash (ass i).address) v.newFlowTableMask i
        position := 0, done := 0 }

theorem and_mask (h : k ≤ 32) (n : Nat) : u32 n &&& (2 ^ k - 1) = n % 2 ^ k := by
  rw [Nat.and_two_pow_sub_one_eq_mod, u32, Nat.mod_mod_of_dvd _ (Nat.pow_dvd_pow 2 h)]

structure Pseudorand.Reaches (m : Nat) (pr : Pseudorand α) : Prop where
  last_lt : pr.last < m
  coprime : Nat.Coprime pr.skip m

theorem Pseudorand.advance_last (hk : k ≤ 32) (pr : Pseudorand α) :
    (pr.advance (2 ^ k - 1)).last = (pr.last + pr.skip) % 2 ^ k := by
  exact and_mask hk _

theorem Pseudorand.Reaches.advance {pr : Pseudorand α} (h : pr.Reaches (2 ^ k)) (hk : k ≤ 32) :
    (pr.advance (2 ^ k - 1)).Reaches (2 ^ k) := by
  apply Pseudorand.Reaches.mk
  · rw [Pseudorand.advance_last hk]
    exact Nat.mod_lt _ (Nat.two_pow_pos k)
  · exact h.coprime

structure Taken (free : α) (m : Nat) (table table' : Nat → α) (pr pr' : Pseudorand α) : Prop where
  bucket : ∃ b < m, table b = free ∧ table' = update table b pr.asIndex
  same : pr'.asIndex = pr.asIndex
  reaches : pr'.Reaches m

theorem takeBucket_of_free [DecidableEq α] {free : α} {pr : Pseudorand α} (hk : k ≤ 32) (h : pr.Reaches (2 ^ k))
    (hfree : table ((pr.last + j * pr.skip) % 2 ^ k) = free) (hj : j < tries) :
    ∃ table' pr', takeBucket free (2 ^ k - 1) tries table pr = some (table', pr') ∧
      Taken free (2 ^ k) table table' pr pr' := by
  induction tries generalizing j pr with
  | zero => exact absurd hj (Nat.not_lt_zero j)
  | succ tries ih =>
    rw [takeBucket]
    by_cases hnow : table pr.last = free
    · rw [if_pos hnow]
      exact ⟨_, _, rfl, ⟨pr.last, h.last_lt, hnow, rfl⟩, rfl, h.advance hk⟩
    · rw [if_neg hnow]
      cases j with
      | zero =>
        rw [Nat.zero_mul, Nat.add_zero, Nat.mod_eq_of_lt h.last_lt] at hfree
        exact absurd hfree hnow
      | succ j =>
        have hnext : (pr.advance (2 ^ k - 1)).last + j * (pr.advance (2 ^ k - 1)).skip ≡
            pr.last + (j + 1) * pr.skip [MOD 2 ^ k] := by
          have hskip : (pr.advance (2 ^ k - 1)).skip = pr.skip := rfl
          rw [Pseudorand.advance_last hk, hskip, Nat.add_mul, Nat.one_mul, Nat.add_comm (j * pr.skip), ← Nat.add_assoc]
          exact (Nat.mod_modEq _ _).add_right _
        rw [← hnext] at hfree
        obtain ⟨table', pr', htake, ⟨b, hb, hbfree, hupdate⟩, hsame, hreach⟩ :=
          ih (h.advance hk) hfree (Nat.lt_of_succ_lt_succ hj)
        exact ⟨table', pr', htake, ⟨b, hb, hbfree, hupdate⟩, hsame, hreach⟩

theorem takeBucket_spec [DecidableEq α] {free : α} {pr : Pseudorand α} (hk : k ≤ 32) (h : pr.Reaches (2 ^ k))
    (hb : b < 2 ^ k) (hfree : table b = free) (htries : 2 ^ k ≤ tries) :
    ∃ table' pr', takeBucket free (2 ^ k - 1) tries table pr = some (table', pr') ∧
      Taken free (2 ^ k) table table' pr pr' := by
  obtain ⟨j, hj, hreach⟩ := stride_reaches (Nat.two_pow_pos k) h.coprime pr.last hb
  apply takeBucket_of_free hk h (j := j)
  · rw [hreach]
    exact hfree
  · exact Nat.lt_of_lt_of_le hj htries

/-- What is in the first `m` buckets. -/
def bucketsOf (m : Nat) (table : Nat → α) : Multiset α := contents fun b : Fin m => table b

/-- The servers of the first `t` turns. -/
def turnsOf (labels : List α) (t : Nat) : List α := (List.range t).filterMap fun i => labels[i % labels.length]?

theorem turnsOf_succ (labels : List α) (hl : labels[t % labels.length]? = some l) :
    turnsOf labels (t + 1) = turnsOf labels t ++ [l] := by
  rw [turnsOf, range_succ, filterMap_append, turnsOf]
  congr 1
  simp only [filterMap_cons, hl, filterMap_nil]

theorem bucketsOf_update [DecidableEq α] (hb : b < m) (table : Nat → α) (l : α) :
    table b ::ₘ bucketsOf m (update table b l) = l ::ₘ bucketsOf m table := by
  have hfun : (fun i : Fin m => update table b l i) =
      update (fun i : Fin m => table i) ⟨b, hb⟩ l := by
    funext i
    by_cases hi : i = ⟨b, hb⟩
    · rw [hi, update_self, update_self]
    · have hne : i.val ≠ b := fun he => hi (Fin.ext he)
      rw [update_of_ne hi, update_of_ne hne]
  have h := contents_update (fun i : Fin m => table i) ⟨b, hb⟩ l
  rw [bucketsOf, hfun]
  exact h

/-- The state before turn `t`. -/
structure Fill.Before (free : α) (k : Nat) (labels : List α) (t : Nat) (s : Fill α) : Prop where
  done : s.done = t
  position : s.position = t % labels.length
  servers : s.sortArr.map Pseudorand.asIndex = labels
  reaches : ∀ pr ∈ s.sortArr, pr.Reaches (2 ^ k)
  buckets : bucketsOf (2 ^ k) s.newFlowTable = Multiset.replicate (2 ^ k - t) free + (turnsOf labels t : Multiset α)

theorem Fill.Before.free_bucket {s : Fill α} (h : s.Before free k labels t) (ht : t < 2 ^ k) :
    ∃ b < 2 ^ k, s.newFlowTable b = free := by
  have hmem : free ∈ bucketsOf (2 ^ k) s.newFlowTable := by
    rw [h.buckets]
    apply Multiset.mem_add.mpr
    exact .inl (Multiset.mem_replicate.mpr ⟨by omega, rfl⟩)
  obtain ⟨b, hb⟩ := mem_contents.mp hmem
  exact ⟨b.val, b.isLt, hb⟩

theorem next_position (hn : 0 < n) (t : Nat) : (if t % n + 1 = n then 0 else t % n + 1) = (t + 1) % n := by
  have hlt := Nat.mod_lt t hn
  rw [← Nat.mod_add_mod t n 1]
  split
  · rename_i heq
    rw [heq, Nat.mod_self]
  · exact (Nat.mod_eq_of_lt (by omega)).symm

theorem Fill.Before.step [DecidableEq α] {s : Fill α} (h : s.Before free k labels t) (hk : k ≤ 32) (ht : t < 2 ^ k)
    (hne : labels ≠ []) (htries : 2 ^ k ≤ tries) :
    ∃ s', s.step free (2 ^ k - 1) tries = some s' ∧ s'.Before free k labels (t + 1) := by
  obtain ⟨b, hb, hfree⟩ := h.free_bucket ht
  have hpos : 0 < labels.length := length_pos_iff.mpr hne
  have hlen : s.sortArr.length = labels.length := by
    rw [← h.servers, length_map]
  have hlt : s.position < s.sortArr.length := by
    rw [h.position, hlen]
    exact Nat.mod_lt t hpos
  let pr := s.sortArr[s.position]
  have hget : s.sortArr[s.position]? = some pr := List.getElem?_eq_getElem hlt
  have hlabel : labels[t % labels.length]? = some pr.asIndex := by
    rw [← h.position, ← h.servers, getElem?_map, hget]
    rfl
  obtain ⟨table', pr', htake, ⟨b', hb', hfree', rfl⟩, hsame, hreach⟩ :=
    takeBucket_spec hk (h.reaches pr (getElem_mem hlt)) hb hfree htries
  have hcons := bucketsOf_update hb' s.newFlowTable pr.asIndex
  have hsplit : 2 ^ k - t = 2 ^ k - (t + 1) + 1 := by omega
  rw [hfree', h.buckets, hsplit, Multiset.replicate_succ, Multiset.cons_add, Multiset.cons_swap] at hcons
  apply Exists.intro _
  apply And.intro
  · rw [Fill.step, hget, bind_some, htake]
    rfl
  · constructor
    · exact congrArg (· + 1) h.done
    · dsimp only
      rw [hlen, h.position]
      exact next_position hpos t
    · dsimp only
      have hmap := h.servers
      rw [map_set, hsame, hmap]
      apply ext_getElem?
      intro i
      rw [getElem?_set]
      split
      · rename_i hi
        rw [← hi, h.position, hlabel]
        split
        · rfl
        · rename_i hout
          exact absurd (Nat.mod_lt t hpos) (by simpa [h.position] using hout)
      · rfl
    · intro pr'' hmem
      obtain hold | rfl := mem_or_eq_of_mem_set hmem
      · exact h.reaches pr'' hold
      · exact hreach
    · dsimp only
      have hbuckets := (Multiset.cons_inj_right free).mp hcons
      rw [hbuckets, turnsOf_succ labels hlabel, ← Multiset.coe_add, ← Multiset.add_cons]
      rw [Multiset.add_comm (turnsOf labels t : Multiset α)]
      rfl

theorem fillTable_spec [DecidableEq α] {s : Fill α} (h : s.Before free k labels t) (hk : k ≤ 32) (ht : t < 2 ^ k)
    (hne : labels ≠ []) (htries : 2 ^ k ≤ tries) (hturns : 2 ^ k - t ≤ rounds) :
    ∃ table, fillTable free (2 ^ k - 1) tries rounds s = some table ∧
      bucketsOf (2 ^ k) table = (turnsOf labels (2 ^ k) : Multiset α) := by
  induction rounds generalizing s t with
  | zero => omega
  | succ rounds ih =>
    obtain ⟨s', hstep, h'⟩ := h.step hk ht hne htries
    have hpos : 2 ^ k - 1 + 1 = 2 ^ k := Nat.sub_add_cancel (Nat.two_pow_pos k)
    rw [fillTable, hstep, bind_some, h'.done, hpos]
    by_cases hlast : t + 1 = 2 ^ k
    · rw [if_pos hlast]
      apply Exists.intro s'.newFlowTable
      apply And.intro rfl
      have hbuckets := h'.buckets
      rw [hlast, Nat.sub_self, Multiset.replicate_zero, zero_add] at hbuckets
      exact hbuckets
    · rw [if_neg hlast]
      exact ih h' (by omega) (by omega)

theorem pseudorand_reaches (hk : k ≤ 32) (seed : BitVec 64) (l : α) :
    (pseudorand seed (2 ^ k - 1) l).Reaches (2 ^ k) := by
  apply Pseudorand.Reaches.mk
  · rw [pseudorand, Nat.and_two_pow_sub_one_eq_mod]
    exact Nat.mod_lt _ (Nat.two_pow_pos k)
  · have hskip : (pseudorand seed (2 ^ k - 1) l).skip = (u32 seed.toNat ||| 1) % 2 ^ k :=
      Nat.and_two_pow_sub_one_eq_mod _ k
    rw [hskip]
    cases k with
    | zero => exact Nat.coprime_one_right _
    | succ k =>
      apply Nat.Coprime.pow_right
      rw [Nat.coprime_comm, Nat.Prime.coprime_iff_not_dvd Nat.prime_two]
      intro hdvd
      have hodd : (u32 seed.toNat ||| 1) % 2 = 1 := Nat.or_mod_two_eq_one.mpr (.inr rfl)
      have heven := (Nat.dvd_mod_iff (Nat.dvd_mul_left 2 (2 ^ k))).mp hdvd
      omega

def shareOf [DecidableEq α] (m : Nat) (table : Nat → α) (l : α) : Nat := (bucketsOf m table).count l

theorem count_turnsOf [DecidableEq α] {labels : List α} (hnd : labels.Nodup) (hl : l ∈ labels) (t : Nat) :
    (turnsOf labels t).count l = t / labels.length ∨
      ((turnsOf labels t).count l = t / labels.length + 1 ∧ ¬ labels.length ∣ t) := by
  obtain ⟨j, hj, hget⟩ := getElem_of_mem hl
  have hcount : (turnsOf labels t).count l = (List.range t).countP fun s => decide (s % labels.length = j) := by
    rw [turnsOf, count_filterMap]
    apply countP_congr
    intro s _
    have hlt : s % labels.length < labels.length := Nat.mod_lt s (Nat.zero_lt_of_lt hj)
    rw [List.getElem?_eq_getElem hlt, beq_iff_eq, Option.some.injEq, decide_eq_true_eq, ← hget]
    exact hnd.getElem_inj_iff
  rw [hcount]
  exact turns_share hj t

def Pseudorand.map (f : α → β) (pr : Pseudorand α) : Pseudorand β := ⟨f pr.asIndex, pr.last, pr.skip⟩

def Fill.map (f : α → β) (s : Fill α) : Fill β :=
  ⟨f ∘ s.newFlowTable, s.sortArr.map (Pseudorand.map f), s.position, s.done⟩

section Names
variable [DecidableEq α] [DecidableEq β] {f : α → β} {free : α} {free' : β} (hf : ∀ l, f l = free' ↔ l = free)
include hf

theorem takeBucket_map (mask tries : Nat) (table : Nat → α) (pr : Pseudorand α) :
    takeBucket free' mask tries (f ∘ table) (pr.map f) =
      (takeBucket free mask tries table pr).map fun r => (f ∘ r.1, r.2.map f) := by
  induction tries generalizing pr with
  | zero => rfl
  | succ tries ih =>
    have hiff : (f ∘ table) (pr.map f).last = free' ↔ table pr.last = free := hf _
    rw [takeBucket, takeBucket]
    by_cases hfree : table pr.last = free
    · rw [if_pos hfree, if_pos (hiff.mpr hfree), map_some, Function.comp_update]
      rfl
    · rw [if_neg hfree, if_neg (fun he => hfree (hiff.mp he))]
      exact ih (pr.advance mask)

theorem Fill.step_map (mask tries : Nat) (s : Fill α) :
    (s.map f).step free' mask tries = (s.step free mask tries).map (Fill.map f) := by
  have hget : (s.map f).sortArr[(s.map f).position]? = s.sortArr[s.position]?.map (Pseudorand.map f) := getElem?_map
  rw [Fill.step, Fill.step, hget]
  cases s.sortArr[s.position]? with
  | none => rfl
  | some pr =>
    have htake := takeBucket_map hf mask tries s.newFlowTable pr
    have htable : (s.map f).newFlowTable = f ∘ s.newFlowTable := rfl
    rw [map_some, bind_some, bind_some, htable, htake, Option.map_map, Option.map_map]
    congr 1
    funext r
    simp only [Function.comp_apply, Fill.map, map_set, length_map]

theorem fillTable_map (mask tries turns : Nat) (s : Fill α) :
    fillTable free' mask tries turns (s.map f) = (fillTable free mask tries turns s).map (f ∘ ·) := by
  induction turns generalizing s with
  | zero => rfl
  | succ turns ih =>
    rw [fillTable, fillTable, Fill.step_map hf]
    cases s.step free mask tries with
    | none => rfl
    | some s' =>
      rw [map_some, bind_some, bind_some]
      by_cases hdone : s'.done = mask + 1
      · have hdone' : (s'.map f).done = mask + 1 := hdone
        rw [if_pos hdone, if_pos hdone']
        rfl
      · have hdone' : ¬ (s'.map f).done = mask + 1 := hdone
        rw [if_neg hdone, if_neg hdone']
        exact ih s'

end Names

def usedAss (ass : Nat → LbAs) (v : LbVip) : List Nat := v.asIndexes.filter fun i => (ass i).used

def usedAddresses (ass : Nat → LbAs) (v : LbVip) : List Address := (usedAss ass v).map fun i => (ass i).address

theorem sortedAss_perm (ass : Nat → LbAs) (v : LbVip) : (sortedAss ass v).Perm (usedAss ass v) := by
  exact perm_insertionSort _ _

theorem sortedAss_addresses (ass : Nat → LbAs) (v : LbVip) :
    (sortedAss ass v).map (fun i => (ass i).address) = (usedAddresses ass v).insertionSort (· ≤ ·) := by
  exact map_insertionSort _ _ _ _ fun _ _ _ _ => Iff.rfl

theorem insertionSort_eq_of_perm {l l' : List Address} (h : l.Perm l') :
    l.insertionSort (· ≤ ·) = l'.insertionSort (· ≤ ·) := by
  have hperm := (perm_insertionSort (· ≤ ·) l).trans (h.trans (perm_insertionSort (· ≤ ·) l').symm)
  exact hperm.eq_of_pairwise' (pairwise_insertionSort _ l) (pairwise_insertionSort _ l')

section Table
variable {ass : Nat → LbAs} {v : LbVip} (xxhash : Address → BitVec 64)

def startFill (ass : Nat → LbAs) (v : LbVip) : Fill Nat where
  newFlowTable := fun _ => noAs
  sortArr := (sortedAss ass v).map fun i => pseudorand (xxhash (ass i).address) v.newFlowTableMask i
  position := 0
  done := 0

theorem lbVipUpdateNewFlowTable_eq (hne : usedAss ass v ≠ []) :
    lbVipUpdateNewFlowTable xxhash ass v =
      fillTable noAs (2 ^ v.logLen - 1) (2 ^ v.logLen) (2 ^ v.logLen) (startFill xxhash ass v) := by
  have hlen : 2 ^ v.logLen - 1 + 1 = 2 ^ v.logLen := Nat.sub_add_cancel (Nat.two_pow_pos _)
  rw [lbVipUpdateNewFlowTable, LbVip.newFlowTableMask, hlen]
  apply if_neg
  intro hall
  apply hne
  apply filter_eq_nil_iff.mpr
  intro i hi
  have hnot := List.all_eq_true.mp hall i hi
  simpa using hnot

theorem startFill_before : (startFill xxhash ass v).Before noAs v.logLen (sortedAss ass v) 0 := by
  have hk : v.logLen ≤ 32 := Nat.le_of_lt v.logLen_lt
  constructor
  · rfl
  · exact (Nat.zero_mod _).symm
  · rw [startFill, List.map_map]
    exact List.map_id' _
  · intro pr hmem
    obtain ⟨i, _, rfl⟩ := List.mem_map.mp hmem
    exact pseudorand_reaches hk _ i
  · have hconst : bucketsOf (2 ^ v.logLen) (fun _ : Nat => noAs) = Multiset.replicate (2 ^ v.logLen) noAs := by
      rw [bucketsOf, contents, Multiset.map_const', Finset.card_val, Finset.card_univ, Fintype.card_fin]
    rw [startFill, hconst, Nat.sub_zero]
    exact (add_zero _).symm

theorem lbVipUpdateNewFlowTable_spec (hne : usedAss ass v ≠ []) :
    ∃ table, lbVipUpdateNewFlowTable xxhash ass v = some table ∧
      bucketsOf (2 ^ v.logLen) table = (turnsOf (sortedAss ass v) (2 ^ v.logLen) : Multiset Nat) := by
  have hk : v.logLen ≤ 32 := Nat.le_of_lt v.logLen_lt
  have hsorted : sortedAss ass v ≠ [] := by
    intro hnil
    have hperm := sortedAss_perm ass v
    rw [hnil] at hperm
    exact hne hperm.nil_eq.symm
  rw [lbVipUpdateNewFlowTable_eq xxhash hne]
  exact fillTable_spec (startFill_before xxhash) hk (Nat.two_pow_pos _) hsorted (Nat.le_refl _) (Nat.le_refl _)

theorem lbVipUpdateNewFlowTable_used (hne : usedAss ass v ≠ [])
    (hrun : lbVipUpdateNewFlowTable xxhash ass v = some table)
    (hb : b < 2 ^ v.logLen) : table b ∈ usedAss ass v := by
  obtain ⟨table', hrun', hbuckets⟩ := lbVipUpdateNewFlowTable_spec xxhash hne
  rw [hrun] at hrun'
  have hsame : table = table' := Option.some.inj hrun'
  have hmem : table' b ∈ bucketsOf (2 ^ v.logLen) table' := mem_contents.mpr ⟨⟨b, hb⟩, rfl⟩
  rw [hbuckets, Multiset.mem_coe] at hmem
  obtain ⟨i, _, hi⟩ := mem_filterMap.mp hmem
  rw [hsame]
  exact (sortedAss_perm ass v).mem_iff.mp (mem_of_getElem? hi)

end Table

def addressIn (ass : Nat → LbAs) (i : Nat) : Option Address := if i = noAs then none else some (ass i).address

theorem addressIn_eq_none (ass : Nat → LbAs) (i : Nat) : addressIn ass i = none ↔ i = noAs := by
  rw [addressIn]
  split
  · exact iff_of_true rfl (by assumption)
  · exact iff_of_false (some_ne_none _) (by assumption)

def addressFill (xxhash : Address → BitVec 64) (k : Nat) (addresses : List Address) : Fill (Option Address) where
  newFlowTable := fun _ => none
  sortArr := (addresses.insertionSort (· ≤ ·)).map fun a => pseudorand (xxhash a) (2 ^ k - 1) (some a)
  position := 0
  done := 0

theorem startFill_map (xxhash : Address → BitVec 64) (ass : Nat → LbAs) (v : LbVip) :
    (startFill xxhash ass v).map (addressIn ass) = addressFill xxhash v.logLen (usedAddresses ass v) := by
  have hsort : ((sortedAss ass v).map fun i => pseudorand (xxhash (ass i).address) v.newFlowTableMask i).map
      (Pseudorand.map (addressIn ass)) =
      ((usedAddresses ass v).insertionSort (· ≤ ·)).map fun a => pseudorand (xxhash a) (2 ^ v.logLen - 1) (some a) := by
    rw [← sortedAss_addresses, List.map_map, List.map_map]
    apply map_congr_left
    intro i hi
    have hused := (sortedAss_perm ass v).mem_iff.mp hi
    have hlt := v.index_lt i (mem_filter.mp hused).1
    have haddr : addressIn ass i = some (ass i).address := if_neg (Nat.ne_of_lt hlt)
    simp only [Function.comp_apply, Pseudorand.map, pseudorand, haddr, LbVip.newFlowTableMask]
  have htable : addressIn ass ∘ (fun _ : Nat => noAs) = fun _ => none := by
    funext b
    exact (addressIn_eq_none ass noAs).mpr rfl
  rw [Fill.map, startFill, addressFill, hsort, htable]

theorem lbVipUpdateNewFlowTable_addresses (xxhash : Address → BitVec 64) {ass : Nat → LbAs} {v : LbVip}
    (hne : usedAss ass v ≠ []) (hrun : lbVipUpdateNewFlowTable xxhash ass v = some table) :
    fillTable none (2 ^ v.logLen - 1) (2 ^ v.logLen) (2 ^ v.logLen)
      (addressFill xxhash v.logLen (usedAddresses ass v)) = some (addressIn ass ∘ table) := by
  rw [lbVipUpdateNewFlowTable_eq xxhash hne] at hrun
  rw [← startFill_map, fillTable_map (addressIn_eq_none ass), hrun]
  rfl

/-- Every bucket has a server in use, each of them its share, and the addresses in the table depend only on the set of
addresses in use. -/
theorem lb_vip_update_new_flow_table (xxhash : Address → BitVec 64) (ass : Nat → LbAs) (v : LbVip)
    (hne : usedAss ass v ≠ []) (hnd : (usedAddresses ass v).Nodup) :
    ∃ table, lbVipUpdateNewFlowTable xxhash ass v = some table ∧ (∀ b < 2 ^ v.logLen, table b ∈ usedAss ass v) ∧
      (∀ i ∈ usedAss ass v, shareOf (2 ^ v.logLen) table i = 2 ^ v.logLen / (usedAss ass v).length ∨
        (shareOf (2 ^ v.logLen) table i = 2 ^ v.logLen / (usedAss ass v).length + 1 ∧
          ¬ (usedAss ass v).length ∣ 2 ^ v.logLen)) ∧
      ∀ (ass' : Nat → LbAs) (v' : LbVip), v'.logLen = v.logLen → (usedAddresses ass' v').Nodup →
        (∀ a, a ∈ usedAddresses ass' v' ↔ a ∈ usedAddresses ass v) →
        ∃ table', lbVipUpdateNewFlowTable xxhash ass' v' = some table' ∧
          ∀ b < 2 ^ v.logLen, (ass' (table' b)).address = (ass (table b)).address := by
  obtain ⟨table, hrun, hbuckets⟩ := lbVipUpdateNewFlowTable_spec xxhash hne
  have hperm := sortedAss_perm ass v
  have hused : ∀ b < 2 ^ v.logLen, table b ∈ usedAss ass v := fun b hb =>
    lbVipUpdateNewFlowTable_used xxhash hne hrun hb
  refine ⟨table, hrun, hused, ?_, ?_⟩
  · intro i hi
    have hndi : (sortedAss ass v).Nodup := hperm.nodup_iff.mpr (List.Nodup.of_map _ hnd)
    have hshare : shareOf (2 ^ v.logLen) table i = (turnsOf (sortedAss ass v) (2 ^ v.logLen)).count i := by
      rw [shareOf, hbuckets, Multiset.coe_count]
    rw [hshare, ← hperm.length_eq]
    exact count_turnsOf hndi (hperm.mem_iff.mpr hi) _
  · intro ass' v' hlen hnd' hset
    have haddr : (usedAddresses ass' v').Perm (usedAddresses ass v) := (perm_ext_iff_of_nodup hnd' hnd).mpr hset
    have hne' : usedAss ass' v' ≠ [] := by
      intro hnil
      apply hne
      have hlength := haddr.length_eq
      rw [usedAddresses, usedAddresses, length_map, length_map, hnil] at hlength
      exact eq_nil_of_length_eq_zero hlength.symm
    obtain ⟨table', hrun', hbuckets'⟩ := lbVipUpdateNewFlowTable_spec xxhash hne'
    have haddrs := lbVipUpdateNewFlowTable_addresses xxhash hne hrun
    have haddrs' := lbVipUpdateNewFlowTable_addresses xxhash hne' hrun'
    rw [hlen, addressFill, insertionSort_eq_of_perm haddr] at haddrs'
    have hsame := Option.some.inj (haddrs'.symm.trans haddrs)
    refine ⟨table', hrun', ?_⟩
    intro b hb
    have hb' := congrFun hsame b
    have hidx := v.index_lt _ (mem_filter.mp (hused b hb)).1
    have hleft : addressIn ass (table b) = some (ass (table b)).address := if_neg (Nat.ne_of_lt hidx)
    have hnot : table' b ≠ noAs := by
      intro he
      have hnone : addressIn ass' (table' b) = none := (addressIn_eq_none ass' _).mpr he
      rw [Function.comp_apply, Function.comp_apply, hleft, hnone] at hb'
      cases hb'
    have hright : addressIn ass' (table' b) = some (ass' (table' b)).address := if_neg hnot
    rw [Function.comp_apply, Function.comp_apply, hleft, hright] at hb'
    exact Option.some.inj hb'

/-- Two servers for four buckets, with the strides that the seed gives. -/
def twoVip : LbVip := ⟨[1, 2], by decide, 2, by decide⟩

def twoAss (i : Nat) : LbAs := ⟨BitVec.ofNat 128 i, decide (i ≠ 0)⟩

theorem lb_vip_update_new_flow_table_two :
    ∃ table, lbVipUpdateNewFlowTable (fun a => a.setWidth 64) twoAss twoVip = some table ∧
      (∀ b < 2 ^ twoVip.logLen, table b ∈ usedAss twoAss twoVip) ∧
      (∀ i ∈ usedAss twoAss twoVip, shareOf (2 ^ twoVip.logLen) table i =
          2 ^ twoVip.logLen / (usedAss twoAss twoVip).length ∨
        (shareOf (2 ^ twoVip.logLen) table i = 2 ^ twoVip.logLen / (usedAss twoAss twoVip).length + 1 ∧
          ¬ (usedAss twoAss twoVip).length ∣ 2 ^ twoVip.logLen)) ∧
      ∀ (ass' : Nat → LbAs) (v' : LbVip), v'.logLen = twoVip.logLen → (usedAddresses ass' v').Nodup →
        (∀ a, a ∈ usedAddresses ass' v' ↔ a ∈ usedAddresses twoAss twoVip) →
        ∃ table', lbVipUpdateNewFlowTable (fun a => a.setWidth 64) ass' v' = some table' ∧
          ∀ b < 2 ^ twoVip.logLen, (ass' (table' b)).address = (twoAss (table b)).address := by
  exact lb_vip_update_new_flow_table (fun a => a.setWidth 64) twoAss twoVip (by decide) (by decide)

end Vpp.Lb
