import Vpp.Fib.Ip6Lookup

namespace Vpp.Fib
open Vpp.Lib Function List

inductive Op where
  | entryInsert (fibIndex : BitVec 32) (addr : Ip6Address) (len : Nat) (fibEntryIndex : BitVec 32)
  | entryRemove (fibIndex : BitVec 32) (addr : Ip6Address) (len : Nat)
  | dpoUpdate (fibIndex : BitVec 32) (addr : Ip6Address) (len : Nat) (dpoiIndex : BitVec 32)
  | dpoRemove (fibIndex : BitVec 32) (addr : Ip6Address) (len : Nat)

def Op.call (m : Ip6Main) : Op → Ip6Main
  | .entryInsert fib a len v => ip6FibTableEntryInsert m fib a len v
  | .entryRemove fib a len => ip6FibTableEntryRemove m fib a len
  | .dpoUpdate fib a len v => ip6FibTableFwdingDpoUpdate m fib a len v
  | .dpoRemove fib a len => ip6FibTableFwdingDpoRemove m fib a len

def Op.entry? : Op → Option Edit
  | .entryInsert fib a len v => some ⟨fib, a, len, some v⟩
  | .entryRemove fib a len => some ⟨fib, a, len, none⟩
  | _ => none

def Op.dpo? : Op → Option Edit
  | .dpoUpdate fib a len v => some ⟨fib, a, len, some v⟩
  | .dpoRemove fib a len => some ⟨fib, a, len, none⟩
  | _ => none

def run (ops : List Op) : Ip6Main := ops.foldl Op.call ⟨emptyTable, emptyTable⟩

theorem foldl_call (m : Ip6Main) (ops : List Op) : ops.foldl Op.call m =
    ⟨(ops.filterMap Op.entry?).foldl Edit.apply m.nonFwding, (ops.filterMap Op.dpo?).foldl Edit.apply m.fwding⟩ := by
  induction ops generalizing m with
  | nil => rfl
  | cons op ops ih =>
    rw [foldl_cons, ih]
    cases op with
    | entryInsert fib a len v => rfl
    | entryRemove fib a len => rfl
    | dpoUpdate fib a len v => rfl
    | dpoRemove fib a len => rfl

/-- What each FIB holds decides its lookups, by the longest prefix. Removals are of prefixes that are there. -/
theorem ip6_fib_longest_match (ops : List Op) (hentry : EditsOk (ops.filterMap Op.entry?))
    (hdpo : EditsOk (ops.filterMap Op.dpo?)) (hn : ops.length < 2 ^ 32) :
    (run ops).nonFwding.prefixLengthsInSearchOrder.Pairwise (· > ·) ∧
    (run ops).fwding.prefixLengthsInSearchOrder.Pairwise (· > ·) ∧
    ∀ fib a,
      (∀ len, ∃ r, IsLongest (fun l => routesAfter fib (ops.filterMap Op.entry?) l (a &&& fibMasks l)) len r ∧
        ip6FibTableLookup (run ops) fib a len = r.getD fibNodeIndexInvalid) ∧
      (∀ len ≤ 128, ip6FibTableLookupExactMatch (run ops) fib a len =
        (routesAfter fib (ops.filterMap Op.entry?) len (a &&& fibMasks len)).getD fibNodeIndexInvalid) ∧
      ∀ v, IsLongest (fun l => routesAfter fib (ops.filterMap Op.dpo?) l (a &&& fibMasks l)) 128 (some v) →
        ip6FibTableFwdingLookup (run ops) fib a = v := by
  rw [run, foldl_call]
  obtain ⟨⟨keys, hinv⟩, hhash, hover⟩ := table_run hentry ((length_filterMap_le _ _).trans_lt hn)
  obtain ⟨⟨keys', hinv'⟩, hhash', hover'⟩ := table_run hdpo ((length_filterMap_le _ _).trans_lt hn)
  refine ⟨hinv.pairwise_order, hinv'.pairwise_order, fun fib a => ⟨?_, ?_, ?_⟩⟩
  · intro len
    exact ⟨_, hinv.isLongest fib a len (fun l hl => (hhash fib l hl a).symm) (fun l hl => hover fib l hl _), rfl⟩
  · intro len hlen
    rw [ip6FibTableLookupExactMatch, hhash fib len hlen]
  · intro v hv
    have hall := hinv'.isLongest fib a 128 (fun l hl => (hhash' fib l hl a).symm) (fun l hl => hover' fib l hl _)
    have hdrop : ((ops.filterMap Op.dpo?).foldl Edit.apply emptyTable).prefixLengthsInSearchOrder.dropWhile (128 < ·) =
        ((ops.filterMap Op.dpo?).foldl Edit.apply emptyTable).prefixLengthsInSearchOrder := by
      cases hord : ((ops.filterMap Op.dpo?).foldl Edit.apply emptyTable).prefixLengthsInSearchOrder with
      | nil => rfl
      | cons l ls =>
        have hle := hinv'.order_le (hord ▸ mem_cons_self)
        rw [dropWhile_cons, if_neg (by simpa using hle)]
    rw [hdrop] at hall
    rw [ip6FibTableFwdingLookup, hall.unique hv]
    rfl

/-- A prefix in two FIBs that is overwritten in one and removed from the other. -/
theorem ip6_fib_longest_match_default :
    ip6FibTableFwdingLookup (run [.dpoUpdate 0 0 0 9, .dpoUpdate 0 (0x2001 <<< 112) 16 1,
      .dpoUpdate 1 (0x2001 <<< 112) 16 2, .dpoUpdate 0 (0x2001 <<< 112) 16 3, .dpoRemove 1 (0x2001 <<< 112) 16]) 0
      (0x2001 <<< 112 + 1) = 3 := by
  apply ((ip6_fib_longest_match _ (by decide) (by decide) (by decide)).2.2 0 _).2.2
  have hfind : ∀ k ≤ 128, 16 < k → routesAfter 0 (List.filterMap Op.dpo? [.dpoUpdate 0 0 0 9,
      .dpoUpdate 0 (0x2001 <<< 112) 16 1, .dpoUpdate 1 (0x2001 <<< 112) 16 2, .dpoUpdate 0 (0x2001 <<< 112) 16 3,
      .dpoRemove 1 (0x2001 <<< 112) 16]) k ((0x2001 <<< 112 + 1) &&& fibMasks k) = none := by decide
  exact ⟨16, by decide, by decide, fun k hk hle => hfind k hle hk⟩

theorem foldl_replicate_of_idem {f : β → α → β} (hf : ∀ b, f (f b a) a = f b a) (n : Nat) (b : β) :
    (List.replicate (n + 1) a).foldl f b = f b a := by
  induction n with
  | zero => rfl
  | succ n ih => rw [List.replicate_succ', foldl_append, ih, foldl_cons, foldl_nil, hf]

theorem foldl_replicate_update (t : Ip6FibTableInstance) (fib : BitVec 32) (a : Ip6Address) (len : Nat) (v : BitVec 32)
    (n : Nat) :
    ((List.replicate (n + 1) (⟨fib, a, len, some v⟩ : Edit)).foldl Edit.apply t).ip6Hash =
        update t.ip6Hash (ip6FibKey fib a len) (some v) ∧
    ((List.replicate (n + 1) (⟨fib, a, len, some v⟩ : Edit)).foldl Edit.apply t).dstAddressLengthRefcounts =
        update t.dstAddressLengthRefcounts len (t.dstAddressLengthRefcounts len + BitVec.ofNat 32 (n + 1)) ∧
    ((List.replicate (n + 1) (⟨fib, a, len, some v⟩ : Edit)).foldl Edit.apply t).nonEmptyDstAddressLengthBitmap =
        insert (128 - len) t.nonEmptyDstAddressLengthBitmap := by
  induction n with
  | zero => exact ⟨rfl, rfl, rfl⟩
  | succ n ih =>
    obtain ⟨hhash, hrefs, hbits⟩ := ih
    rw [List.replicate_succ', foldl_append, foldl_cons, foldl_nil]
    refine ⟨?_, ?_, ?_⟩
    · simp only [Edit.apply, addKey, computePrefixLengthsInSearchOrder, hhash, update_idem]
    · simp only [Edit.apply, addKey, computePrefixLengthsInSearchOrder, hrefs, update_idem,
        update_self]
      rw [BitVec.ofNat_add (n + 1) 1, ← BitVec.add_assoc]
      rfl
    · simp only [Edit.apply, addKey, computePrefixLengthsInSearchOrder, hbits, Finset.insert_idem]

/-- A default route, a prefix of 16 bits, and a removal of another such prefix that is not there. -/
def removeAbsent : List Op :=
  [.dpoUpdate 0 0 0 9, .dpoUpdate 0 (0x2001 <<< 112) 16 1, .dpoRemove 0 (0x3001 <<< 112) 16]

/-- The prefix is updated `n + 1` times, and then another one comes and goes. -/
def updateOften (n : Nat) : List Op :=
  .dpoUpdate 0 0 0 9 :: (List.replicate (n + 1) (.dpoUpdate 0 (0x2001 <<< 112) 16 1) ++
    [.dpoUpdate 0 (0x3001 <<< 112) 16 2, .dpoRemove 0 (0x3001 <<< 112) 16])

theorem dpo_updateOften (n : Nat) : (updateOften n).filterMap Op.dpo? = ⟨0, 0, 0, some 9⟩ ::
    (List.replicate (n + 1) ⟨0, 0x2001 <<< 112, 16, some 1⟩ ++
      [⟨0, 0x3001 <<< 112, 16, some 2⟩, ⟨0, 0x3001 <<< 112, 16, none⟩]) := by
  rw [updateOften, filterMap_cons, filterMap_append, filterMap_replicate]
  rfl

theorem routesAfter_updateOften (n : Nat) : routesAfter 0 ((updateOften n).filterMap Op.dpo?) =
    routesAfter 0 ((updateOften 0).filterMap Op.dpo?) := by
  have hall : ∀ n, ∀ e ∈ (updateOften n).filterMap Op.dpo?, decide (e.fibIndex = 0) = true := by
    intro n e he
    rw [dpo_updateOften, mem_cons, mem_append, mem_replicate] at he
    obtain rfl | ⟨-, rfl⟩ | he := he
    · rfl
    · rfl
    · revert e
      decide
  rw [routesAfter, routesAfter, filter_eq_self.mpr (hall n), filter_eq_self.mpr (hall 0), dpo_updateOften,
    dpo_updateOften, foldl_cons, foldl_cons, foldl_append, foldl_append, foldl_replicate_of_idem,
    foldl_replicate_of_idem]
  all_goals
    intro r
    rw [update_self, update_idem, update_idem]

/-- With the count at zero, the length is not searched any more. -/
theorem lookup_updateOften (hn : BitVec.ofNat 32 (n + 1) = 0) :
    ip6FibTableFwdingLookup (run (updateOften n)) 0 (0x2001 <<< 112 + 1) = 9 := by
  obtain ⟨hhash, hrefs, hbits⟩ := foldl_replicate_update (Edit.apply emptyTable ⟨0, 0, 0, some 9⟩) 0
      (0x2001 <<< 112) 16 1 n
  rw [run, foldl_call, dpo_updateOften, foldl_cons, foldl_append]
  generalize (List.replicate (n + 1) (⟨0, 0x2001 <<< 112, 16, some 1⟩ : Edit)).foldl Edit.apply
    (Edit.apply emptyTable ⟨0, 0, 0, some 9⟩) = t at hhash hrefs hbits ⊢
  have hzero : t.dstAddressLengthRefcounts 16 = 0 := by
    rw [hrefs, update_self, hn]
    rfl
  have hrun : ([⟨0, 0x3001 <<< 112, 16, some 2⟩, ⟨0, 0x3001 <<< 112, 16, none⟩] : List Edit).foldl Edit.apply t =
      delKey (addKey t 0 (0x3001 <<< 112) 16 2) 0 (0x3001 <<< 112) 16 := rfl
  have horder : (delKey (addKey t 0 (0x3001 <<< 112) 16 2) 0 (0x3001 <<< 112) 16).prefixLengthsInSearchOrder = [0] := by
    have hback : (0 : BitVec 32) + 1 - 1 = 0 := rfl
    simp only [delKey, addKey, computePrefixLengthsInSearchOrder, hbits, update_self, hzero, hback, if_true]
    decide +kernel
  have hne : ip6FibKey 0 (0x2001 <<< 112 + 1) 0 ≠ ip6FibKey 0 (0x3001 <<< 112) 16 := by decide
  have hne' : ip6FibKey 0 (0x2001 <<< 112 + 1) 0 ≠ ip6FibKey 0 (0x2001 <<< 112) 16 := by decide
  have hkey : (delKey (addKey t 0 (0x3001 <<< 112) 16 2) 0 (0x3001 <<< 112) 16).ip6Hash
      (ip6FibKey 0 (0x2001 <<< 112 + 1) 0) = some 9 := by
    rw [(delKey_fields _ _ _ _).1, update_of_ne hne]
    simp only [addKey, computePrefixLengthsInSearchOrder, update_of_ne hne, hhash, update_of_ne hne']
    decide
  rw [ip6FibTableFwdingLookup]
  simp only [hrun, horder]
  rw [searchLengths, ← ip6FibKey, hkey]
  rfl

/-- The route of 16 bits is there, but its length is not searched. -/
theorem ip6_fib_longest_match_fails :
    (IsLongest (fun l => routesAfter 0 (removeAbsent.filterMap Op.dpo?) l ((0x2001 <<< 112 + 1) &&& fibMasks l)) 128
        (some 1) ∧ ip6FibTableFwdingLookup (run removeAbsent) 0 (0x2001 <<< 112 + 1) = 9) ∧
    IsLongest (fun l => routesAfter 0 ((updateOften 4294967295).filterMap Op.dpo?) l
        ((0x2001 <<< 112 + 1) &&& fibMasks l)) 128 (some 1) ∧
      ip6FibTableFwdingLookup (run (updateOften 4294967295)) 0 (0x2001 <<< 112 + 1) = 9 := by
  refine ⟨⟨?_, by decide +kernel⟩, ?_, lookup_updateOften rfl⟩
  · have hnone : ∀ k ≤ 128, 16 < k → routesAfter 0 (removeAbsent.filterMap Op.dpo?) k
        ((0x2001 <<< 112 + 1) &&& fibMasks k) = none := by decide
    exact ⟨16, by decide, by decide, fun k hk hle => hnone k hle hk⟩
  · rw [routesAfter_updateOften]
    have hnone : ∀ k ≤ 128, 16 < k → routesAfter 0 ((updateOften 0).filterMap Op.dpo?) k
        ((0x2001 <<< 112 + 1) &&& fibMasks k) = none := by decide
    exact ⟨16, by decide, by decide, fun k hk hle => hnone k hle hk⟩

end Vpp.Fib
