import Vpp.Lib.BitFields
import Vpp.Lib.LongestMatch

namespace Vpp.Fib
open Vpp.Lib Function BitVec

abbrev Ip6Address := BitVec 128

def fibMaskWord (i j : Nat) : BitVec 32 :=
  if j < i / 32 then BitVec.allOnes 32
  else if j = i / 32 ∧ i % 32 ≠ 0 then BitVec.ofNat 32 ((2 ^ (i % 32) - 1) <<< (32 - i % 32))
  else 0

def fibMasks (i : Nat) : Ip6Address :=
  fibMaskWord i 0 ++ fibMaskWord i 1 ++ (fibMaskWord i 2 ++ fibMaskWord i 3)

abbrev Ip6FibKey := Ip6Address × BitVec 64

def ip6FibKey (fibIndex : BitVec 32) (addr : Ip6Address) (len : Nat) : Ip6FibKey :=
  (addr &&& fibMasks len, fibIndex.setWidth 64 <<< 32 ||| BitVec.ofNat 64 len)

structure Ip6FibTableInstance where
  ip6Hash : Ip6FibKey → Option (BitVec 32)
  nonEmptyDstAddressLengthBitmap : Finset Nat
  prefixLengthsInSearchOrder : List Nat
  dstAddressLengthRefcounts : Nat → BitVec 32

structure Ip6Main where
  nonFwding : Ip6FibTableInstance
  fwding : Ip6FibTableInstance

def fibNodeIndexInvalid : BitVec 32 := BitVec.allOnes 32

def searchLengths (t : Ip6FibTableInstance) (fibIndex : BitVec 32) : Ip6Address → List Nat → Option (BitVec 32)
  | _, [] => none
  | key, len :: lens =>
    let key := key &&& fibMasks len
    match t.ip6Hash (key, fibIndex.setWidth 64 <<< 32 ||| BitVec.ofNat 64 len) with
    | some value => some value
    | none => searchLengths t fibIndex key lens

def ip6FibTableLookup (m : Ip6Main) (fibIndex : BitVec 32) (addr : Ip6Address) (len : Nat) : BitVec 32 :=
  let lens := m.nonFwding.prefixLengthsInSearchOrder.dropWhile (len < ·)
  (searchLengths m.nonFwding fibIndex addr lens).getD fibNodeIndexInvalid

def ip6FibTableLookupExactMatch (m : Ip6Main) (fibIndex : BitVec 32) (addr : Ip6Address) (len : Nat) : BitVec 32 :=
  (m.nonFwding.ip6Hash (ip6FibKey fibIndex addr len)).getD fibNodeIndexInvalid

def ip6FibTableFwdingLookup (m : Ip6Main) (fibIndex : BitVec 32) (dst : Ip6Address) : BitVec 32 :=
  (searchLengths m.fwding fibIndex dst m.fwding.prefixLengthsInSearchOrder).getD 0

def computePrefixLengthsInSearchOrder (t : Ip6FibTableInstance) : Ip6FibTableInstance :=
  { t with prefixLengthsInSearchOrder := searchOrder 128 t.nonEmptyDstAddressLengthBitmap }

def addKey (t : Ip6FibTableInstance) (fibIndex : BitVec 32) (addr : Ip6Address) (len : Nat) (value : BitVec 32) :
    Ip6FibTableInstance :=
  computePrefixLengthsInSearchOrder
    { t with ip6Hash := update t.ip6Hash (ip6FibKey fibIndex addr len) (some value)
             dstAddressLengthRefcounts :=
               update t.dstAddressLengthRefcounts len (t.dstAddressLengthRefcounts len + 1)
             nonEmptyDstAddressLengthBitmap := insert (128 - len) t.nonEmptyDstAddressLengthBitmap }

def delKey (t : Ip6FibTableInstance) (fibIndex : BitVec 32) (addr : Ip6Address) (len : Nat) : Ip6FibTableInstance :=
  let t := { t with ip6Hash := update t.ip6Hash (ip6FibKey fibIndex addr len) none
                    dstAddressLengthRefcounts :=
                      update t.dstAddressLengthRefcounts len (t.dstAddressLengthRefcounts len - 1) }
  if t.dstAddressLengthRefcounts len = 0 then
    computePrefixLengthsInSearchOrder
      { t with nonEmptyDstAddressLengthBitmap := t.nonEmptyDstAddressLengthBitmap.erase (128 - len) }
  else t

def ip6FibTableEntryInsert (m : Ip6Main) (fibIndex : BitVec 32) (addr : Ip6Address) (len : Nat)
    (fibEntryIndex : BitVec 32) : Ip6Main :=
  { m with nonFwding := addKey m.nonFwding fibIndex addr len fibEntryIndex }

def ip6FibTableEntryRemove (m : Ip6Main) (fibIndex : BitVec 32) (addr : Ip6Address) (len : Nat) : Ip6Main :=
  { m with nonFwding := delKey m.nonFwding fibIndex addr len }

def ip6FibTableFwdingDpoUpdate (m : Ip6Main) (fibIndex : BitVec 32) (addr : Ip6Address) (len : Nat)
    (dpoiIndex : BitVec 32) : Ip6Main :=
  { m with fwding := addKey m.fwding fibIndex addr len dpoiIndex }

def ip6FibTableFwdingDpoRemove (m : Ip6Main) (fibIndex : BitVec 32) (addr : Ip6Address) (len : Nat) : Ip6Main :=
  { m with fwding := delKey m.fwding fibIndex addr len }

def emptyTable : Ip6FibTableInstance := ⟨fun _ => none, ∅, [], fun _ => 0⟩

theorem fibMasks_eq : ∀ i ≤ 128, fibMasks i = BitVec.allOnes 128 <<< (128 - i) := by
  decide

theorem getMsbD_fibMasks (hi : i ≤ 128) (_ : k < 128) : (fibMasks i).getMsbD k = decide (k < i) := by
  rw [fibMasks_eq i hi, getMsbD_shiftLeft, getMsbD_allOnes, decide_eq_decide]
  omega

theorem and_fibMasks (hij : i ≤ j) (hj : j ≤ 128) (a : Ip6Address) :
    a &&& fibMasks j &&& fibMasks i = a &&& fibMasks i := by
  apply eq_of_getMsbD_eq
  intro k hk
  rw [getMsbD_and, getMsbD_and, getMsbD_and, getMsbD_fibMasks hj hk,
    getMsbD_fibMasks (hij.trans hj) hk]
  by_cases hki : k < i
  · rw [decide_eq_true hki, decide_eq_true (hki.trans_le hij), Bool.and_true]
  · rw [decide_eq_false hki, Bool.and_false, Bool.and_false]

def lenOf (k : Ip6FibKey) : Nat := k.2.toNat % 2 ^ 32

theorem toNat_fibLen (fib : BitVec 32) (hlen : len ≤ 128) :
    (fib.setWidth 64 <<< 32 ||| BitVec.ofNat 64 len).toNat = fib.toNat * 2 ^ 32 + len := by
  have hf := fib.isLt
  have hw : (fib.setWidth 64).toNat = fib.toNat := by
    rw [toNat_setWidth]
    omega
  have hl : (BitVec.ofNat 64 len).toNat = len := by
    rw [toNat_ofNat]
    omega
  rw [toNat_pack (by rw [hw]; omega) (by rw [hl]; omega), hw, hl]

theorem lenOf_key (fib : BitVec 32) (a : Ip6Address) (hlen : len ≤ 128) : lenOf (ip6FibKey fib a len) = len := by
  rw [lenOf, ip6FibKey, toNat_fibLen fib hlen]
  omega

theorem ip6FibKey_inj (hlen : len ≤ 128) (hlen' : len' ≤ 128) (h : ip6FibKey fib a len = ip6FibKey fib' a' len') :
    fib = fib' ∧ len = len' ∧ a &&& fibMasks len = a' &&& fibMasks len' := by
  obtain ⟨ha, hk⟩ := Prod.mk.inj h
  have hk := congrArg BitVec.toNat hk
  rw [toNat_fibLen fib hlen, toNat_fibLen fib' hlen'] at hk
  refine ⟨eq_of_toNat_eq (by omega), by omega, ha⟩

/-- A call for a table: a value to set, or nothing to remove. -/
structure Edit where
  fibIndex : BitVec 32
  addr : Ip6Address
  len : Nat
  value : Option (BitVec 32)
deriving DecidableEq

def Edit.key (e : Edit) : Ip6FibKey := ip6FibKey e.fibIndex e.addr e.len

def Edit.apply (t : Ip6FibTableInstance) (e : Edit) : Ip6FibTableInstance :=
  match e.value with
  | some v => addKey t e.fibIndex e.addr e.len v
  | none => delKey t e.fibIndex e.addr e.len

/-- The table has the keys, no length is missing from the search order, and no count is above the number of calls. -/
structure TableInv (t : Ip6FibTableInstance) (keys : Finset Ip6FibKey) (n : Nat) : Prop where
  mem : ∀ k, k ∈ keys ↔ t.ip6Hash k ≠ none
  len_le : ∀ k ∈ keys, lenOf k ≤ 128
  count : ∀ len, (keys.filter (lenOf · = len)).card ≤ (t.dstAddressLengthRefcounts len).toNat
  bound : ∀ len, (t.dstAddressLengthRefcounts len).toNat ≤ n
  bitmap : ∀ i, i ∈ t.nonEmptyDstAddressLengthBitmap ↔ i ≤ 128 ∧ t.dstAddressLengthRefcounts (128 - i) ≠ 0
  order : t.prefixLengthsInSearchOrder = searchOrder 128 t.nonEmptyDstAddressLengthBitmap

theorem tableInv_empty : TableInv emptyTable ∅ 0 := by
  refine ⟨?_, ?_, ?_, ?_, ?_, ?_⟩
  · intro k
    simp [emptyTable]
  · intro k hk
    exact absurd hk (Finset.notMem_empty k)
  · intro len
    simp
  · intro len
    simp [emptyTable]
  · intro i
    simp [emptyTable]
  · simp [emptyTable, searchOrder]

theorem TableInv.add (h : TableInv t keys n) (hlen : len ≤ 128) (hn : n + 1 < 2 ^ 32) :
    TableInv (addKey t fib a len v) (insert (ip6FibKey fib a len) keys) (n + 1) := by
  have hb := h.bound len
  have hinc : (t.dstAddressLengthRefcounts len + 1).toNat = (t.dstAddressLengthRefcounts len).toNat + 1 := by
    rw [toNat_add]
    exact Nat.mod_eq_of_lt (Nat.lt_of_le_of_lt (Nat.succ_le_succ hb) hn)
  refine ⟨?_, ?_, ?_, ?_, ?_, rfl⟩
  · intro k
    show _ ↔ update t.ip6Hash _ _ k ≠ none
    by_cases hk : k = ip6FibKey fib a len
    · rw [hk, update_self]
      simp
    · rw [update_of_ne hk, Finset.mem_insert, or_iff_right hk, h.mem]
  · intro k hk
    obtain rfl | hk := Finset.mem_insert.mp hk
    · rw [lenOf_key fib a hlen]
      exact hlen
    · exact h.len_le k hk
  · intro l
    show _ ≤ (update t.dstAddressLengthRefcounts len _ l).toNat
    by_cases hl : l = len
    · rw [hl, update_self, hinc]
      have hsub : (insert (ip6FibKey fib a len) keys).filter (lenOf · = len) ⊆
          insert (ip6FibKey fib a len) (keys.filter (lenOf · = len)) := by
        intro k hk
        rw [Finset.mem_filter, Finset.mem_insert] at hk
        rw [Finset.mem_insert, Finset.mem_filter]
        exact hk.1.imp_right fun hm => ⟨hm, hk.2⟩
      exact (Finset.card_le_card hsub).trans ((Finset.card_insert_le _ _).trans (Nat.succ_le_succ (h.count len)))
    · rw [update_of_ne hl, Finset.filter_insert, if_neg]
      · exact h.count l
      · rw [lenOf_key fib a hlen]
        exact fun he => hl he.symm
  · intro l
    show (update t.dstAddressLengthRefcounts len _ l).toNat ≤ _
    by_cases hl : l = len
    · rw [hl, update_self, hinc]
      omega
    · rw [update_of_ne hl]
      exact (h.bound l).trans (Nat.le_succ n)
  · intro i
    show i ∈ insert (128 - len) t.nonEmptyDstAddressLengthBitmap ↔
      i ≤ 128 ∧ update t.dstAddressLengthRefcounts len _ (128 - i) ≠ 0
    rw [Finset.mem_insert, h.bitmap]
    by_cases hi : 128 - i = len
    · have hne : t.dstAddressLengthRefcounts len + 1 ≠ 0 := by
        intro he
        rw [he] at hinc
        exact absurd hinc.symm (Nat.succ_ne_zero _)
      rw [hi, update_self]
      constructor
      · intro _
        exact ⟨by omega, hne⟩
      · intro ⟨hle, _⟩
        exact .inl (by omega)
    · rw [update_of_ne hi]
      constructor
      · intro hm
        exact hm.resolve_left (by omega)
      · exact .inr

theorem delKey_fields (t : Ip6FibTableInstance) (fib : BitVec 32) (a : Ip6Address) (len : Nat) :
    (delKey t fib a len).ip6Hash = update t.ip6Hash (ip6FibKey fib a len) none ∧
    (delKey t fib a len).dstAddressLengthRefcounts =
      update t.dstAddressLengthRefcounts len (t.dstAddressLengthRefcounts len - 1) := by
  rw [delKey]
  split
  · exact ⟨rfl, rfl⟩
  · exact ⟨rfl, rfl⟩

theorem TableInv.remove (h : TableInv t keys n) (hlen : len ≤ 128) (hk : ip6FibKey fib a len ∈ keys) :
    TableInv (delKey t fib a len) (keys.erase (ip6FibKey fib a len)) n := by
  obtain ⟨hhash, hrefs⟩ := delKey_fields t fib a len
  have hmem : ip6FibKey fib a len ∈ keys.filter (lenOf · = len) := Finset.mem_filter.mpr ⟨hk, lenOf_key fib a hlen⟩
  have hpos : 0 < (t.dstAddressLengthRefcounts len).toNat := (Finset.card_pos.mpr ⟨_, hmem⟩).trans_le (h.count len)
  have hdec : (t.dstAddressLengthRefcounts len - 1).toNat = (t.dstAddressLengthRefcounts len).toNat - 1 := by
    have hone : (1 : BitVec 32).toNat = 1 := rfl
    rw [toNat_sub_of_le]
    · rw [hone]
    · rw [le_def, hone]
      exact hpos
  refine ⟨?_, ?_, ?_, ?_, ?_, ?_⟩
  · intro k
    rw [hhash, Finset.mem_erase]
    by_cases hkk : k = ip6FibKey fib a len
    · rw [hkk, update_self]
      exact iff_of_false (fun h => h.1 rfl) fun h => h rfl
    · rw [update_of_ne hkk, and_iff_right hkk, h.mem]
  · intro k hk
    exact h.len_le k (Finset.mem_of_mem_erase hk)
  · intro l
    rw [hrefs, Finset.filter_erase]
    by_cases hl : l = len
    · rw [hl, update_self, hdec, Finset.card_erase_of_mem hmem]
      exact Nat.sub_le_sub_right (h.count len) 1
    · rw [update_of_ne hl]
      exact (Finset.card_le_card (Finset.erase_subset _ _)).trans (h.count l)
  · intro l
    rw [hrefs]
    by_cases hl : l = len
    · rw [hl, update_self, hdec]
      exact (Nat.sub_le _ _).trans (h.bound len)
    · rw [update_of_ne hl]
      exact h.bound l
  · intro i
    rw [hrefs, delKey]
    have hold := h.bitmap i
    by_cases hi : 128 - i = len
    · rw [hi] at hold ⊢
      rw [update_self]
      split
      · rename_i hz
        have hz : t.dstAddressLengthRefcounts len - 1 = 0 := by simpa only [update_self] using hz
        refine iff_of_false ?_ fun hr => hr.2 hz
        show i ∉ t.nonEmptyDstAddressLengthBitmap.erase (128 - len)
        intro hm
        have hle := (hold.mp (Finset.mem_of_mem_erase hm)).1
        exact Finset.ne_of_mem_erase hm (by omega)
      · rename_i hz
        have hz : t.dstAddressLengthRefcounts len - 1 ≠ 0 := by simpa only [update_self] using hz
        have hne : t.dstAddressLengthRefcounts len ≠ 0 := by
          intro he
          rw [he] at hpos
          exact absurd hpos (by decide)
        show i ∈ t.nonEmptyDstAddressLengthBitmap ↔ _
        rw [hold, and_iff_left hne, and_iff_left hz]
    · rw [update_of_ne hi]
      split
      · show i ∈ t.nonEmptyDstAddressLengthBitmap.erase (128 - len) ↔ _
        rw [Finset.mem_erase, hold]
        constructor
        · exact fun hm => hm.2
        · intro hr
          exact ⟨by omega, hr⟩
      · exact hold
  · rw [delKey]
    split
    · rfl
    · exact h.order

section Lookups
variable (h : TableInv t keys n)
include h

theorem TableInv.bitmap_le (hi : i ∈ t.nonEmptyDstAddressLengthBitmap) : i ≤ 128 := ((h.bitmap i).mp hi).1

theorem TableInv.pairwise_order : t.prefixLengthsInSearchOrder.Pairwise (· > ·) := by
  rw [h.order]
  exact pairwise_searchOrder fun i hi => h.bitmap_le hi

theorem TableInv.order_le (hl : len ∈ t.prefixLengthsInSearchOrder) : len ≤ 128 := by
  rw [h.order] at hl
  exact ((mem_searchOrder fun i hi => h.bitmap_le hi).mp hl).1

theorem TableInv.none_of_not_mem (hlen : len ≤ 128) (hl : len ∉ t.prefixLengthsInSearchOrder) :
    t.ip6Hash (ip6FibKey fib a len) = none := by
  rw [h.order, mem_searchOrder fun i hi => h.bitmap_le hi, h.bitmap, Nat.sub_sub_self hlen] at hl
  have hzero : t.dstAddressLengthRefcounts len = 0 := by
    by_contra hne
    exact hl ⟨hlen, Nat.sub_le _ _, hne⟩
  have hcount := h.count len
  rw [hzero] at hcount
  have hempty := Finset.card_eq_zero.mp (Nat.le_zero.mp hcount)
  by_contra hne
  have hmem : ip6FibKey fib a len ∈ keys.filter (lenOf · = len) :=
    Finset.mem_filter.mpr ⟨(h.mem _).mpr hne, lenOf_key fib a hlen⟩
  rw [hempty] at hmem
  exact absurd hmem (Finset.notMem_empty _)

end Lookups

theorem searchLengths_eq (t : Ip6FibTableInstance) (fib : BitVec 32) (a : Ip6Address) (lens : List Nat)
    (hsorted : lens.Pairwise (· > ·)) (hle : ∀ len ∈ lens, len ≤ 128)
    (hkey : ∀ len ∈ lens, key &&& fibMasks len = a &&& fibMasks len) {find : Nat → Option (BitVec 32)}
    (hfind : ∀ len ∈ lens, find len = t.ip6Hash (ip6FibKey fib a len)) :
    searchLengths t fib key lens = lens.findSome? find := by
  induction lens generalizing key with
  | nil => rfl
  | cons len lens ih =>
    obtain ⟨hlt, hrest⟩ := List.pairwise_cons.mp hsorted
    have hmask := hkey len List.mem_cons_self
    rw [searchLengths, List.findSome?_cons, hmask, hfind len List.mem_cons_self]
    show (match t.ip6Hash (ip6FibKey fib a len) with
      | some value => some value
      | none => searchLengths t fib (a &&& fibMasks len) lens) = _
    cases t.ip6Hash (ip6FibKey fib a len) with
    | some v => rfl
    | none =>
      apply ih hrest (fun l hl => hle l (List.mem_cons_of_mem len hl))
      · intro l hl
        exact and_fibMasks (Nat.le_of_lt (hlt l hl)) (hle len List.mem_cons_self) a
      · exact fun l hl => hfind l (List.mem_cons_of_mem len hl)

theorem TableInv.isLongest (h : TableInv t keys n) (fib : BitVec 32) (a : Ip6Address) (len : Nat)
    {find : Nat → Option (BitVec 32)} (hfind : ∀ l ≤ 128, find l = t.ip6Hash (ip6FibKey fib a l))
    (hover : ∀ l, 128 < l → find l = none) :
    IsLongest find len (searchLengths t fib a (t.prefixLengthsInSearchOrder.dropWhile (len < ·))) := by
  have hsorted := h.pairwise_order
  have hdrop := hsorted.sublist (List.dropWhile_sublist (len < ·))
  have hmem := fun l => (mem_dropWhile_iff (n := l) (l := len) hsorted)
  have hle : ∀ l ∈ t.prefixLengthsInSearchOrder.dropWhile (len < ·), l ≤ 128 :=
    fun l hl => h.order_le ((hmem l).mp hl).1
  have heq : searchLengths t fib a (t.prefixLengthsInSearchOrder.dropWhile (len < ·)) =
      (t.prefixLengthsInSearchOrder.dropWhile (len < ·)).findSome? find :=
    searchLengths_eq t fib a _ hdrop hle (fun _ _ => rfl) fun l hl => hfind l (hle l hl)
  rw [heq]
  apply isLongest_findSome? hdrop
  · intro l hl
    exact ((hmem l).mp hl).2
  · intro l hl hnot
    by_cases hl' : l ≤ 128
    · rw [hfind l hl']
      exact h.none_of_not_mem hl' fun hm => hnot ((hmem l).mpr ⟨hm, hl⟩)
    · exact hover l (Nat.not_le.mp hl')

def routesAfter (fib : BitVec 32) (es : List Edit) : Nat → Ip6Address → Option (BitVec 32) :=
  (es.filter (·.fibIndex = fib)).foldl
    (fun r e => update r e.len (update (r e.len) (e.addr &&& fibMasks e.len) e.value)) fun _ _ => none

theorem routesAfter_concat (fib : BitVec 32) (es : List Edit) (e : Edit) :
    routesAfter fib (es ++ [e]) = if e.fibIndex = fib then
      update (routesAfter fib es) e.len
        (update (routesAfter fib es e.len) (e.addr &&& fibMasks e.len) e.value)
      else routesAfter fib es := by
  rw [routesAfter, List.filter_append, List.foldl_append, ← routesAfter]
  by_cases h : e.fibIndex = fib
  · simp [h]
  · simp [h]

/-- A length is that of an address, and only what is there is removed. -/
def Edit.Ok (before : List Edit) (e : Edit) : Prop :=
  e.len ≤ 128 ∧ (e.value = none → routesAfter e.fibIndex before e.len (e.addr &&& fibMasks e.len) ≠ none)

instance (before : List Edit) (e : Edit) : Decidable (e.Ok before) := inferInstanceAs (Decidable (_ ∧ _))

def EditsOk (es : List Edit) : Prop := ∀ i (h : i < es.length), es[i].Ok (es.take i)

instance (es : List Edit) : Decidable (EditsOk es) :=
    inferInstanceAs (Decidable (∀ i (h : i < es.length), es[i].Ok (es.take i)))

theorem EditsOk.concat (h : EditsOk (es ++ [e])) : EditsOk es ∧ e.Ok es := by
  constructor
  · intro i hi
    have hlt : i < (es ++ [e]).length := by
      rw [List.length_append]
      exact Nat.lt_add_right 1 hi
    have hok := h i hlt
    rwa [List.getElem_append_left hi, List.take_append_of_le_length (Nat.le_of_lt hi)] at hok
  · have hlt : es.length < (es ++ [e]).length := by
      rw [List.length_append]
      exact Nat.lt_succ_self _
    have hok := h es.length hlt
    rwa [List.getElem_concat_length rfl, List.take_left] at hok

/-- The table holds the routes of every FIB. -/
theorem table_run (hok : EditsOk es) (hn : es.length < 2 ^ 32) :
    (∃ keys, TableInv (es.foldl Edit.apply emptyTable) keys es.length) ∧
      (∀ fib, ∀ len ≤ 128, ∀ a, (es.foldl Edit.apply emptyTable).ip6Hash (ip6FibKey fib a len) =
        routesAfter fib es len (a &&& fibMasks len)) ∧
      ∀ fib len, 128 < len → ∀ net, routesAfter fib es len net = none := by
  induction es using List.reverseRecOn with
  | nil => exact ⟨⟨∅, tableInv_empty⟩, fun _ _ _ _ => rfl, fun _ _ _ _ => rfl⟩
  | append_singleton es e ih =>
    obtain ⟨hes, hlen, hdel⟩ := hok.concat
    rw [List.length_append] at hn
    obtain ⟨⟨keys, hinv⟩, hhash, hover⟩ := ih hes (Nat.lt_of_succ_lt hn)
    have hkey : ip6FibKey e.fibIndex e.addr e.len = Edit.key e := rfl
    have hupdate : (Edit.apply (es.foldl Edit.apply emptyTable) e).ip6Hash =
        update (es.foldl Edit.apply emptyTable).ip6Hash e.key e.value := by
      rw [Edit.apply]
      cases hv : e.value with
      | some v => rfl
      | none => exact (delKey_fields _ _ _ _).1
    rw [List.foldl_append, List.foldl_cons, List.foldl_nil]
    refine ⟨?_, ?_, ?_⟩
    · rw [List.length_append, Edit.apply]
      cases hv : e.value with
      | some v => exact ⟨_, hinv.add hlen hn⟩
      | none =>
        have hmem : ip6FibKey e.fibIndex e.addr e.len ∈ keys := by
          rw [hinv.mem, hhash _ _ hlen]
          exact hdel hv
        have hrem := hinv.remove hlen hmem
        exact ⟨_, { hrem with bound := fun l => (hrem.bound l).trans (Nat.le_succ _) }⟩
    · intro fib len hl a
      rw [hupdate, routesAfter_concat]
      by_cases hk : ip6FibKey fib a len = e.key
      · obtain ⟨rfl, rfl, ha⟩ := ip6FibKey_inj hl hlen hk
        rw [hk, update_self, if_pos rfl, update_self, ha, update_self]
      · rw [update_of_ne hk, hhash fib len hl]
        by_cases hfib : e.fibIndex = fib
        · rw [if_pos hfib]
          by_cases hlen' : len = e.len
          · subst hlen'
            have hne : a &&& fibMasks e.len ≠ e.addr &&& fibMasks e.len := by
              intro ha
              apply hk
              rw [Edit.key, ip6FibKey, ip6FibKey, ha, hfib]
            rw [update_self, update_of_ne hne]
          · rw [update_of_ne hlen']
        · rw [if_neg hfib]
    · intro fib len hl net
      rw [routesAfter_concat]
      split
      · rw [update_of_ne (by omega)]
        exact hover fib len hl net
      · exact hover fib len hl net

end Vpp.Fib
