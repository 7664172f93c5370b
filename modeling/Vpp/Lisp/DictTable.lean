import Vpp.Lisp.Dictionary

namespace Vpp.Lisp
open Vpp.Lib Function List BitVec

abbrev Entries (w : Nat) (β : Type) := BitVec 32 → Nat → BitVec w → Option β

def Entries.set (m : Entries w β) (vni : BitVec 32) (len : Nat) (net : BitVec w) (v : Option β) : Entries w β :=
  fun vni' len' net' => if vni' = vni ∧ len' = len ∧ net' = net then v else m vni' len' net'

variable {m : Entries w β} {f : Family w cw} {t : GidIpTable cw β} {net net' : BitVec w}

theorem Entries.set_self (m : Entries w β) (vni : BitVec 32) (len : Nat) (net : BitVec w) (v : Option β) :
    m.set vni len net v vni len net = v := if_pos ⟨rfl, rfl, rfl⟩

theorem Entries.set_ne (h : ¬ (vni' = vni ∧ len' = len ∧ net' = net)) :
    m.set vni len net v vni' len' net' = m vni' len' net' :=
  if_neg h

/-- The table holds the entries `m`, whose positions are `keys`. No network is its own under the mask of a shorter
length in use, whatever its identifier; a length may be in use without entries. -/
structure TableInv (f : Family w cw) (t : GidIpTable cw β) (m : Entries w β)
    (keys : Finset (BitVec 32 × Nat × BitVec w)) : Prop where
  agrees : ∀ vni net v, t.lookupTable (f.key vni net) = some v ↔ ∃ len, m vni len net = some v
  normal : ∀ vni len net, m vni len net ≠ none → len ≤ w ∧ net &&& f.mask len = net
  apart : ∀ vni len net, m vni len net ≠ none → ∀ len' < len, t.prefixLenRefcount len' ≠ 0 → net &&& f.mask len' ≠ net
  mem : ∀ k, k ∈ keys ↔ m k.1 k.2.1 k.2.2 ≠ none
  count : ∀ len, (keys.filter (·.2.1 = len)).card ≤ (t.prefixLenRefcount len).toNat
  bitmap : ∀ i, i ∈ t.nonEmptyDstAddressLengthBitmap ↔ i ≤ w ∧ t.prefixLenRefcount (w - i) ≠ 0
  order : t.prefixLengthsInSearchOrder = searchOrder w t.nonEmptyDstAddressLengthBitmap

theorem tableInv_init (f : Family w cw) :
    TableInv f (lookupInit (default : GidIpTable cw β)) (fun _ _ _ => none) ∅ := by
  constructor
  case agrees =>
    intro vni net v
    exact ⟨nofun, fun ⟨_, h⟩ => nomatch h⟩
  case normal => exact fun _ _ _ h => absurd rfl h
  case apart => exact fun _ _ _ h => absurd rfl h
  case mem => exact fun k => ⟨fun h => absurd h (Finset.notMem_empty k), fun h => absurd rfl h⟩
  case count => exact fun len => Nat.zero_le _
  case bitmap => exact fun i => ⟨fun h => absurd h (Finset.notMem_empty i), fun h => absurd rfl h.2⟩
  case order => simp [lookupInit, default, searchOrder]

section Lookups
variable {keys : Finset (BitVec 32 × Nat × BitVec w)} (h : TableInv f t m keys)
include h

theorem TableInv.bitmap_le (hi : i ∈ t.nonEmptyDstAddressLengthBitmap) : i ≤ w := ((h.bitmap i).mp hi).1

theorem TableInv.mem_order_iff : len ∈ t.prefixLengthsInSearchOrder ↔ len ≤ w ∧ t.prefixLenRefcount len ≠ 0 := by
  rw [h.order, mem_searchOrder fun i hi => h.bitmap_le hi, h.bitmap]
  constructor
  · intro ⟨hlen, _, hne⟩
    exact ⟨hlen, Nat.sub_sub_self hlen ▸ hne⟩
  · intro ⟨hlen, hne⟩
    exact ⟨hlen, Nat.sub_le _ _, (Nat.sub_sub_self hlen).symm ▸ hne⟩

theorem TableInv.pos_of_entry (hm : m vni len net ≠ none) : 0 < (t.prefixLenRefcount len).toNat := by
  have hmem : (vni, len, net) ∈ keys.filter (·.2.1 = len) := Finset.mem_filter.mpr ⟨(h.mem _).mpr hm, rfl⟩
  exact (Finset.card_pos.mpr ⟨_, hmem⟩).trans_le (h.count len)

theorem TableInv.inUse (hm : m vni len net ≠ none) : t.prefixLenRefcount len ≠ 0 := by
  intro hz
  have hpos := h.pos_of_entry hm
  rw [hz] at hpos
  exact absurd hpos (Nat.lt_irrefl 0)

theorem TableInv.entry_mem_order (hm : m vni len net ≠ none) : len ∈ t.prefixLengthsInSearchOrder :=
  h.mem_order_iff.mpr ⟨(h.normal vni len net hm).1, h.inUse hm⟩

theorem TableInv.pairwise_order : t.prefixLengthsInSearchOrder.Pairwise (· > ·) := by
  rw [h.order]
  exact pairwise_searchOrder fun i hi => h.bitmap_le hi

theorem TableInv.le_of_mem_order (hl : len ∈ t.prefixLengthsInSearchOrder) : len ≤ w := (h.mem_order_iff.mp hl).1

omit h in
theorem Family.mask_of_le (f : Family w cw) (hle : i ≤ j) (hj : j ≤ w) (hn : net &&& f.mask i = net) :
    net &&& f.mask j = net := by
  have hcomm : net &&& f.mask j &&& f.mask i = net &&& f.mask i &&& f.mask j := by
    rw [BitVec.and_assoc, BitVec.and_assoc, BitVec.and_comm (f.mask j)]
  rw [f.mask_mask hle hj, hn] at hcomm
  exact hcomm.symm

theorem TableInv.len_unique (hm : m vni len net ≠ none) (hm' : m vni len' net ≠ none) : len = len' := by
  obtain hlt | rfl | hgt := Nat.lt_trichotomy len len'
  · exact absurd (h.normal vni len net hm).2 (h.apart vni len' net hm' len hlt (h.inUse hm))
  · rfl
  · exact absurd (h.normal vni len' net hm').2 (h.apart vni len net hm len' hgt (h.inUse hm'))

theorem TableInv.probe (hl : len ∈ t.prefixLengthsInSearchOrder)
    (hp : t.lookupTable (f.key vni (a &&& f.mask len)) = some v) :
    ∃ k ≤ len, m vni k (a &&& f.mask k) = some v ∧ a &&& f.mask k = a &&& f.mask len := by
  obtain ⟨k, hk⟩ := (h.agrees _ _ _).mp hp
  have hkne : m vni k (a &&& f.mask len) ≠ none := by simp [hk]
  obtain ⟨hkw, hnorm⟩ := h.normal vni k _ hkne
  have hlw := h.le_of_mem_order hl
  have hle : k ≤ len := by
    by_contra hlt
    apply h.apart vni k _ hkne len (Nat.not_le.mp hlt) (h.mem_order_iff.mp hl).2
    rw [BitVec.and_assoc, BitVec.and_self]
  rw [f.mask_mask hle hlw] at hnorm
  refine ⟨k, hle, ?_, hnorm⟩
  rw [hnorm]
  exact hk

theorem TableInv.lookup_isLongest (vni : BitVec 32) (a : BitVec w) :
    IsLongest (fun len => m vni len (a &&& f.mask len)) w (lookup f t vni a) := by
  have hfind (len : Nat) (v : β) (hv : m vni len (a &&& f.mask len) = some v) :
      len ∈ t.prefixLengthsInSearchOrder ∧ t.lookupTable (f.key vni (a &&& f.mask len)) = some v :=
    ⟨h.entry_mem_order (ne_of_eq_of_ne hv (Option.some_ne_none v)), (h.agrees _ _ _).mpr ⟨len, hv⟩⟩
  rw [lookup]
  cases hres : t.prefixLengthsInSearchOrder.findSome? fun len => t.lookupTable (f.key vni (a &&& f.mask len)) with
  | none =>
    intro len _
    by_contra hne
    obtain ⟨v, hv⟩ := Option.ne_none_iff_exists'.mp hne
    obtain ⟨hmem, hprobe⟩ := hfind len v hv
    have hnone := findSome?_eq_none_iff.mp hres len hmem
    rw [hprobe] at hnone
    cases hnone
  | some v =>
    obtain ⟨xs, len, ys, hord, hv, hxs⟩ := findSome?_eq_some_iff.mp hres
    have hmem : len ∈ t.prefixLengthsInSearchOrder := by
      rw [hord]
      exact mem_append_right xs mem_cons_self
    obtain ⟨k, hle, hk, hnet⟩ := h.probe hmem hv
    have hlw := h.le_of_mem_order hmem
    refine ⟨k, hle.trans hlw, hk, ?_⟩
    intro j hkj hj
    by_contra hne
    obtain ⟨u, hu⟩ := Option.ne_none_iff_exists'.mp hne
    obtain ⟨hjmem, hprobe⟩ := hfind j u hu
    -- a longer one is probed before, and one in between has the same network
    by_cases hjl : j ≤ len
    · have hnetj : a &&& f.mask j = a &&& f.mask k := by
        have hself : a &&& f.mask k &&& f.mask k = a &&& f.mask k := by rw [BitVec.and_assoc, BitVec.and_self]
        have hstay := f.mask_of_le (Nat.le_of_lt hkj) hj hself
        rw [hnet, f.mask_mask hjl hlw] at hstay
        rw [hstay, hnet]
      have hkne : m vni k (a &&& f.mask k) ≠ none := by simp [hk]
      exact absurd (h.len_unique (hnetj ▸ hne) hkne) (Nat.ne_of_gt hkj)
    · have hj' : j ∈ xs := by
        have hsorted := h.pairwise_order
        rw [hord] at hjmem hsorted
        obtain hm | hm := mem_append.mp hjmem
        · exact hm
        · obtain ⟨-, hrest, -⟩ := pairwise_append.mp hsorted
          obtain rfl | hm := mem_cons.mp hm
          · exact absurd (Nat.le_refl _) hjl
          · exact absurd (Nat.le_of_lt ((pairwise_cons.mp hrest).1 j hm)) hjl
      have hnone := hxs j hj'
      rw [hprobe] at hnone
      cases hnone

end Lookups

/-- An entry for a network keeps the entries that `has` gives apart. -/
def Fits (f : Family w cw) (t : GidIpTable cw β) (has : BitVec 32 → Nat → BitVec w → Prop) (len : Nat)
    (net : BitVec w) :
    Prop :=
  (∀ len' < len, t.prefixLenRefcount len' ≠ 0 → net &&& f.mask len' ≠ net) ∧
    ∀ vni' len' net', has vni' len' net' → len < len' → net' &&& f.mask len ≠ net'

theorem Entries.set_ne_none (hm : m.set vni len net v vni' len' net' ≠ none) :
    vni' = vni ∧ len' = len ∧ net' = net ∨ m vni' len' net' ≠ none := by
  by_cases he : vni' = vni ∧ len' = len ∧ net' = net
  · exact .inl he
  · rw [Entries.set_ne he] at hm
    exact .inr hm

/-- The table of the network changes with the entry of its one length. -/
theorem agrees_set {v : Option β}
    (hag : ∀ vni net v, t.lookupTable (f.key vni net) = some v ↔ ∃ len, m vni len net = some v)
    (hother : ∀ len', len' ≠ len → m vni len' net = none) (vni' : BitVec 32) (net' : BitVec w) (v' : β) :
    update t.lookupTable (f.key vni net) v (f.key vni' net') = some v' ↔
      ∃ len', m.set vni len net v vni' len' net' = some v' := by
  by_cases hk : f.key vni' net' = f.key vni net
  · obtain ⟨rfl, rfl⟩ := f.key_inj hk
    rw [update_self]
    constructor
    · intro hv
      exact ⟨len, (Entries.set_self m vni' len net' v).trans hv⟩
    · intro ⟨len', hv⟩
      by_cases hl : len' = len
      · rwa [hl, Entries.set_self] at hv
      · rw [Entries.set_ne fun he => hl he.2.1, hother len' hl] at hv
        cases hv
  · rw [update_of_ne hk, hag]
    have hne (len' : Nat) : ¬ (vni' = vni ∧ len' = len ∧ net' = net) := by
      rintro ⟨rfl, -, rfl⟩
      exact hk rfl
    constructor
    · intro ⟨len', hv⟩
      exact ⟨len', (Entries.set_ne (hne len')).trans hv⟩
    · intro ⟨len', hv⟩
      exact ⟨len', (Entries.set_ne (hne len')).symm.trans hv⟩

theorem toNat_one_of_lt (h : 1 < 2 ^ cw) : (1 : BitVec cw).toNat = 1 :=
  (toNat_ofNat 1 cw).trans (Nat.mod_eq_of_lt h)

section Changes
variable {keys : Finset (BitVec 32 × Nat × BitVec w)} (h : TableInv f t m keys)
include h

theorem TableInv.len_of_fits (hself : net &&& f.mask len = net) (hfit : Fits f t (m · · · ≠ none) len net)
    (hm : m vni len' net ≠ none) : len' = len := by
  obtain hlt | rfl | hgt := Nat.lt_trichotomy len' len
  · exact absurd (h.normal vni len' net hm).2 (hfit.1 len' hlt (h.inUse hm))
  · rfl
  · exact absurd hself (hfit.2 vni len' net hm hgt)

theorem TableInv.add (hlen : len ≤ w) (hnet : net = a &&& f.mask len) (hfit : Fits f t (m · · · ≠ none) len net)
    (hroom : (t.prefixLenRefcount len).toNat + 1 < 2 ^ cw) :
    TableInv f (addDelKey f t vni a len (some v)).1 (m.set vni len net (some v)) (insert (vni, len, net) keys) := by
  have hinc : (t.prefixLenRefcount len + 1).toNat = (t.prefixLenRefcount len).toNat + 1 := by
    rw [toNat_add, toNat_one_of_lt (by omega)]
    exact Nat.mod_eq_of_lt hroom
  have hne : t.prefixLenRefcount len + 1 ≠ 0 := by
    intro he
    rw [he] at hinc
    exact absurd hinc.symm (Nat.succ_ne_zero _)
  have hself : net &&& f.mask len = net := by rw [hnet, BitVec.and_assoc, BitVec.and_self]
  constructor
  case agrees =>
    intro vni' net' v'
    show update t.lookupTable (f.key vni (a &&& f.mask len)) (some v) (f.key vni' net') = some v' ↔ _
    rw [← hnet]
    apply agrees_set h.agrees
    intro len' hl
    by_contra hm
    exact hl (h.len_of_fits hself hfit hm)
  case normal =>
    intro vni' len' net' hm
    obtain ⟨-, rfl, rfl⟩ | hm := Entries.set_ne_none hm
    · exact ⟨hlen, hself⟩
    · exact h.normal vni' len' net' hm
  case apart =>
    intro vni₁ len₁ net₁ h₁ len₂ hlt h₂
    change update t.prefixLenRefcount len (t.prefixLenRefcount len + 1) len₂ ≠ 0 at h₂
    obtain ⟨-, rfl, rfl⟩ | hm₁ := Entries.set_ne_none h₁
    · rw [update_of_ne (Nat.ne_of_lt hlt)] at h₂
      exact hfit.1 len₂ hlt h₂
    · by_cases hl : len₂ = len
      · subst hl
        exact hfit.2 vni₁ len₁ net₁ hm₁ hlt
      · rw [update_of_ne hl] at h₂
        exact h.apart vni₁ len₁ net₁ hm₁ len₂ hlt h₂
  case mem =>
    intro ⟨vni', len', net'⟩
    rw [Finset.mem_insert, h.mem, Prod.mk.injEq, Prod.mk.injEq]
    by_cases he : vni' = vni ∧ len' = len ∧ net' = net
    · obtain ⟨rfl, rfl, rfl⟩ := he
      rw [Entries.set_self]
      exact iff_of_true (.inl ⟨rfl, rfl, rfl⟩) nofun
    · rw [or_iff_right he, Entries.set_ne he]
  case count =>
    intro len'
    show _ ≤ (update t.prefixLenRefcount len (t.prefixLenRefcount len + 1) len').toNat
    rw [Finset.filter_insert]
    by_cases hl : len' = len
    · subst hl
      rw [update_self, hinc, if_pos rfl]
      exact (Finset.card_insert_le _ _).trans (Nat.add_le_add_right (h.count len') 1)
    · rw [update_of_ne hl, if_neg fun he => hl he.symm]
      exact h.count len'
  case bitmap =>
    intro i
    show i ∈ insert (w - len) t.nonEmptyDstAddressLengthBitmap ↔
      i ≤ w ∧ update t.prefixLenRefcount len (t.prefixLenRefcount len + 1) (w - i) ≠ 0
    rw [Finset.mem_insert, h.bitmap]
    by_cases hi : w - i = len
    · rw [hi, update_self]
      constructor
      · intro _
        exact ⟨by omega, hne⟩
      · intro ⟨hle, _⟩
        exact .inl (by omega)
    · rw [update_of_ne hi]
      constructor
      · intro hm
        exact hm.resolve_left (by omega)
      · exact .inr
  case order => rfl

omit h in
theorem addDelKey_none_fields (f : Family w cw) (t : GidIpTable cw β) (vni : BitVec 32) (a : BitVec w) (len : Nat) :
    (addDelKey f t vni a len none).1.lookupTable = update t.lookupTable (f.key vni (a &&& f.mask len)) none ∧
    (addDelKey f t vni a len none).1.prefixLenRefcount =
      update t.prefixLenRefcount len (t.prefixLenRefcount len - 1) ∧
    (addDelKey f t vni a len none).1.nonEmptyDstAddressLengthBitmap =
      (if t.prefixLenRefcount len - 1 = 0 then t.nonEmptyDstAddressLengthBitmap.erase (w - len)
        else t.nonEmptyDstAddressLengthBitmap) ∧
    (addDelKey f t vni a len none).1.count = t.count - 1 ∧
    (t.prefixLengthsInSearchOrder = searchOrder w t.nonEmptyDstAddressLengthBitmap →
      (addDelKey f t vni a len none).1.prefixLengthsInSearchOrder =
        searchOrder w (addDelKey f t vni a len none).1.nonEmptyDstAddressLengthBitmap) := by
  simp only [addDelKey, update_self]
  split
  · exact ⟨rfl, rfl, rfl, rfl, fun _ => rfl⟩
  · exact ⟨rfl, rfl, rfl, rfl, id⟩

theorem TableInv.remove (hnet : net = a &&& f.mask len) (hm : m vni len net ≠ none) :
    TableInv f (addDelKey f t vni a len none).1 (m.set vni len net none) (keys.erase (vni, len, net)) := by
  obtain ⟨hhash, hrefs, hbits, -, hord⟩ := addDelKey_none_fields f t vni a len
  have hmem : (vni, len, net) ∈ keys.filter (·.2.1 = len) := Finset.mem_filter.mpr ⟨(h.mem _).mpr hm, rfl⟩
  have hpos := h.pos_of_entry hm
  have hlt := (t.prefixLenRefcount len).isLt
  have hdec : (t.prefixLenRefcount len - 1).toNat = (t.prefixLenRefcount len).toNat - 1 := by
    have hone : (1 : BitVec cw).toNat = 1 := toNat_one_of_lt (by omega)
    rw [toNat_sub_of_le, hone]
    rw [le_def, hone]
    exact hpos
  constructor
  case agrees =>
    intro vni' net' v'
    rw [hhash, ← hnet]
    apply agrees_set h.agrees
    intro len' hl
    by_contra hne
    exact hl (h.len_unique hne hm)
  case normal =>
    intro vni' len' net' hm'
    obtain ⟨rfl, rfl, rfl⟩ | hm' := Entries.set_ne_none hm'
    · exact h.normal vni' len' net' hm
    · exact h.normal vni' len' net' hm'
  case apart =>
    intro vni₁ len₁ net₁ h₁ len₂ hlt h₂
    have hm₁ : m vni₁ len₁ net₁ ≠ none := by
      obtain ⟨rfl, rfl, rfl⟩ | hm₁ := Entries.set_ne_none h₁
      · exact hm
      · exact hm₁
    apply h.apart vni₁ len₁ net₁ hm₁ len₂ hlt
    rw [hrefs] at h₂
    by_cases hl : len₂ = len
    · exact hl ▸ h.inUse hm
    · rwa [update_of_ne hl] at h₂
  case mem =>
    intro ⟨vni', len', net'⟩
    rw [Finset.mem_erase, h.mem, ne_eq, Prod.mk.injEq, Prod.mk.injEq]
    by_cases he : vni' = vni ∧ len' = len ∧ net' = net
    · obtain ⟨rfl, rfl, rfl⟩ := he
      rw [Entries.set_self]
      exact iff_of_false (fun hc => hc.1 ⟨rfl, rfl, rfl⟩) fun hc => hc rfl
    · rw [and_iff_right he, Entries.set_ne he]
  case count =>
    intro len'
    rw [hrefs, Finset.filter_erase]
    by_cases hl : len' = len
    · subst hl
      rw [update_self, hdec, Finset.card_erase_of_mem hmem]
      exact Nat.sub_le_sub_right (h.count len') 1
    · rw [update_of_ne hl, Finset.erase_eq_of_notMem]
      · exact h.count len'
      · intro hk
        exact hl (Finset.mem_filter.mp hk).2.symm
  case bitmap =>
    intro i
    rw [hbits, hrefs]
    have hold := h.bitmap i
    have hlen := (h.normal vni len net hm).1
    by_cases hi : w - i = len
    · rw [hi] at hold ⊢
      rw [update_self]
      split
      · next hz =>
        refine iff_of_false ?_ fun hr => hr.2 hz
        intro hmi
        have hle := (hold.mp (Finset.mem_of_mem_erase hmi)).1
        exact Finset.ne_of_mem_erase hmi (by omega)
      · next hz => rw [hold, and_iff_left (h.inUse hm), and_iff_left hz]
    · rw [update_of_ne hi]
      split
      · rw [Finset.mem_erase, hold]
        constructor
        · exact fun hmi => hmi.2
        · intro hr
          exact ⟨by omega, hr⟩
      · exact hold
  case order => exact hord h.order

end Changes

end Vpp.Lisp
