import Vpp.Lisp.DictTable

namespace Vpp.Lisp
open Vpp.Lib Option

/-- The values of one destination by source. Without a source it is that of length 0. -/
abbrev Sources (w : Nat) := Nat → BitVec w → Option (BitVec 32)

def Sources.set (ms : Sources w) (slen : Nat) (snet : BitVec w) (v : Option (BitVec 32)) : Sources w :=
  fun slen' snet' => if slen' = slen ∧ snet' = snet then v else ms slen' snet'

/-- The identifier in a table of sources is 0. -/
def Sources.entries (ms : Sources w) : Entries w (BitVec 32) := fun vni slen snet => if vni = 0 then ms slen snet
    else none

/-- The values by identifier, destination and source. -/
abbrev IpEids (w : Nat) := BitVec 32 → Nat → BitVec w → Sources w

def IpEids.set (m : IpEids w) (vni : BitVec 32) (len : Nat) (net : BitVec w) (slen : Nat) (snet : BitVec w)
    (v : Option (BitVec 32)) : IpEids w :=
  fun vni' len' net' slen' snet' =>
    if vni' = vni ∧ len' = len ∧ net' = net ∧ slen' = slen ∧ snet' = snet then v else m vni' len' net' slen' snet'

/-- The prefix is installed as a destination, with some source or without one. -/
def IpEids.Dst (m : IpEids w) (vni : BitVec 32) (len : Nat) (net : BitVec w) :
    Prop := ∃ k snet, m vni len net k snet ≠ none

variable {f : Family w cw} {ms : Sources w} {m : IpEids w} {sfib : GidIpTable cw (BitVec 32)}

theorem Sources.set_self (ms : Sources w) (slen : Nat) (snet : BitVec w) (v : Option (BitVec 32)) :
    ms.set slen snet v slen snet = v := if_pos ⟨rfl, rfl⟩

theorem Sources.set_ne (h : ¬ (slen' = slen ∧ snet' = snet)) :
    ms.set slen snet v slen' snet' = ms slen' snet' := if_neg h

theorem IpEids.set_self (m : IpEids w) (vni : BitVec 32) (len : Nat) (net : BitVec w) (slen : Nat) (snet : BitVec w)
    (v : Option (BitVec 32)) : m.set vni len net slen snet v vni len net = (m vni len net).set slen snet v := by
  funext slen' snet'
  simp only [IpEids.set, Sources.set, true_and]

theorem IpEids.set_ne (h : ¬ (vni' = vni ∧ len' = len ∧ net' = net)) :
    m.set vni len net slen snet v vni' len' net' = m vni' len' net' := by
  funext slen' snet'
  exact if_neg fun he => h ⟨he.1, he.2.1, he.2.2.1⟩

theorem IpEids.not_dst : ¬ m.Dst vni len net ↔ m vni len net = fun _ _ => none := by
  simp only [Dst, not_exists, not_not, funext_iff]

theorem Sources.entries_set (ms : Sources w) (slen : Nat) (snet : BitVec w) (v : Option (BitVec 32)) :
    (ms.set slen snet v).entries = ms.entries.set 0 slen snet v := by
  funext vni k net
  simp only [entries, set, Entries.set]
  split_ifs with hv hs <;> simp_all

theorem Sources.entries_zero (ms : Sources w) : ms.entries 0 = ms := by
  funext k net
  exact if_pos rfl

/-- A table of sources holds at least one, and has counted all of them. -/
def SrcInv (f : Family w cw) (t : GidIpTable cw (BitVec 32)) (ms : Sources w) : Prop :=
  ∃ keys, TableInv f t ms.entries keys ∧ keys.card ≤ t.count.toNat ∧ keys.Nonempty

theorem SrcInv.exists_source (h : SrcInv f sfib ms) : ∃ k snet, ms k snet ≠ none := by
  obtain ⟨keys, ht, -, ⟨vni, k, snet⟩, hk⟩ := h
  have hm : (if vni = 0 then ms k snet else none) ≠ none := (ht.mem (vni, k, snet)).mp hk
  split at hm
  · exact ⟨k, snet, hm⟩
  · exact absurd rfl hm

theorem SrcInv.normal (h : SrcInv f sfib ms) (hm : ms slen snet ≠ none) : slen ≤ w ∧ snet &&& f.mask slen = snet := by
  obtain ⟨keys, ht, -⟩ := h
  exact ht.normal 0 slen snet (by rwa [Sources.entries_zero])

theorem SrcInv.lookup (h : SrcInv f sfib ms) (s : BitVec w) :
    IsLongest (fun k => ms k (s &&& f.mask k)) w (lookup f sfib 0 s) := by
  obtain ⟨keys, ht, -⟩ := h
  have hl := ht.lookup_isLongest 0 s
  rwa [Sources.entries_zero] at hl

theorem SrcInv.over (h : SrcInv f sfib ms) (hlen : w < slen) : ms slen snet = none := by
  by_contra hne
  exact absurd (h.normal hne).1 (Nat.not_le.mpr hlen)

theorem SrcInv.exact_zero (h : SrcInv f sfib ms) :
    lookupExactMatch f sfib 0 0 0 = some v ↔ ∃ k, ms k 0 = some v := by
  obtain ⟨keys, ht, -⟩ := h
  rw [lookupExactMatch, f.mask_zero, ht.agrees, Sources.entries_zero]

theorem addDelKey_some_count (f : Family w cw) (t : GidIpTable cw β) (vni : BitVec 32) (a : BitVec w) (len : Nat)
    (v : β) :
    (addDelKey f t vni a len (some v)).1.count = t.count + 1 := rfl

/-- There is room for one more source, and it keeps the others apart. -/
structure SrcOk (f : Family w cw) (sfib : GidIpTable cw (BitVec 32)) (ms : Sources w) (slen : Nat) (snet : BitVec w) :
    Prop where
  fits : Fits f sfib (fun _ k net => ms k net ≠ none) slen snet
  refcount : (sfib.prefixLenRefcount slen).toNat + 1 < 2 ^ cw
  count : sfib.count.toNat + 1 < 2 ^ cw

theorem SrcOk.entries_fits (h : SrcOk f sfib ms slen snet) : Fits f sfib (ms.entries · · · ≠ none) slen snet := by
  refine ⟨h.fits.1, ?_⟩
  intro vni k net hm
  apply h.fits.2 vni k net
  unfold Sources.entries at hm
  split at hm
  · exact hm
  · exact absurd rfl hm

theorem TableInv.addSource {keys : Finset (BitVec 32 × Nat × BitVec w)} (ht : TableInv f sfib ms.entries keys)
    (hcard : keys.card ≤ sfib.count.toNat) (hlen : slen ≤ w) (hok : SrcOk f sfib ms slen (s &&& f.mask slen))
    (v : BitVec 32) : SrcInv f (addDelKey f sfib 0 s slen (some v)).1 (ms.set slen (s &&& f.mask slen) (some v)) := by
  have hadd : TableInv f (addDelKey f sfib 0 s slen (some v)).1 _ _ :=
    ht.add hlen rfl hok.entries_fits hok.refcount
  have hroom := hok.count
  rw [← Sources.entries_set] at hadd
  refine ⟨_, hadd, (Finset.card_insert_le _ _).trans ?_, Finset.insert_nonempty _ _⟩
  rw [addDelKey_some_count, BitVec.toNat_add, toNat_one_of_lt (by omega), Nat.mod_eq_of_lt hroom]
  omega

theorem SrcInv.add (h : SrcInv f sfib ms) (hlen : slen ≤ w) (hok : SrcOk f sfib ms slen (s &&& f.mask slen))
    (v : BitVec 32) : SrcInv f (addDelKey f sfib 0 s slen (some v)).1 (ms.set slen (s &&& f.mask slen) (some v)) := by
  obtain ⟨keys, ht, hcard, -⟩ := h
  exact ht.addSource hcard hlen hok v

theorem srcInv_first (f : Family w cw) (hcw : 1 < 2 ^ cw) (hlen : slen ≤ w) (s : BitVec w) (v : BitVec 32) :
    SrcInv f (addDelKey f (lookupInit default) 0 s slen (some v)).1
      (Sources.set (fun _ _ => none) slen (s &&& f.mask slen) (some v)) := by
  have hinit : TableInv f (lookupInit default) (Sources.entries fun _ _ => none) ∅ := by
    have he : Sources.entries (w := w) (fun _ _ => none) = fun _ _ _ => none := by
      funext vni k net
      exact ite_self none
    rw [he]
    exact tableInv_init f
  have hzero : (0 : BitVec cw).toNat + 1 < 2 ^ cw := hcw
  refine hinit.addSource (Nat.zero_le _) hlen ⟨⟨?_, ?_⟩, hzero, hzero⟩ v
  · exact fun _ _ hne => absurd rfl hne
  · exact fun _ _ _ hne => absurd rfl hne

theorem SrcInv.remove (h : SrcInv f sfib ms) (hm : ms slen (s &&& f.mask slen) ≠ none)
    (hstays : ∃ k net, ¬ (k = slen ∧ net = s &&& f.mask slen) ∧ ms k net ≠ none) :
    SrcInv f (addDelKey f sfib 0 s slen none).1 (ms.set slen (s &&& f.mask slen) none) ∧
      (addDelKey f sfib 0 s slen none).1.count ≠ 0 := by
  obtain ⟨keys, ht, hcard, -⟩ := h
  have hin (k : Nat) (net : BitVec w) (hk : ms k net ≠ none) : ((0 : BitVec 32), k, net) ∈ keys :=
    (ht.mem _).mpr (by rwa [Sources.entries_zero])
  obtain ⟨k, net, hne, hk⟩ := hstays
  have hother : ((0 : BitVec 32), k, net) ∈ keys.erase (0, slen, s &&& f.mask slen) := by
    refine Finset.mem_erase.mpr ⟨?_, hin k net hk⟩
    intro he
    obtain ⟨-, he⟩ := Prod.mk.inj he
    exact hne (Prod.mk.inj he)
  have hleft : 0 < (keys.erase (0, slen, s &&& f.mask slen)).card := Finset.card_pos.mpr ⟨_, hother⟩
  rw [Finset.card_erase_of_mem (hin _ _ hm)] at hleft
  have hlt := sfib.count.isLt
  have hone : (1 : BitVec cw).toNat = 1 := toNat_one_of_lt (by omega)
  have hcount : (addDelKey f sfib 0 s slen none).1.count.toNat = sfib.count.toNat - 1 := by
    rw [(addDelKey_none_fields f sfib 0 s slen).2.2.2.1, BitVec.toNat_sub_of_le, hone]
    rw [BitVec.le_def, hone]
    omega
  have hrem : TableInv f (addDelKey f sfib 0 s slen none).1 _ _ := ht.remove rfl (by rwa [Sources.entries_zero])
  rw [← Sources.entries_set] at hrem
  refine ⟨⟨_, hrem, ?_, ⟨_, hother⟩⟩, ?_⟩
  · rw [hcount, Finset.card_erase_of_mem (hin _ _ hm)]
    exact Nat.sub_le_sub_right hcard 1
  · intro hz
    rw [hz] at hcount
    have hcount : 0 = sfib.count.toNat - 1 := hcount
    omega

/-- Every destination has a table of sources of its own. -/
structure SdInv (f : Family w cw) (t : SdTables cw) (m : IpEids w) (index : Entries w Nat)
    (keys : Finset (BitVec 32 × Nat × BitVec w)) : Prop where
  dst : TableInv f t.dst index keys
  free : t.srcPool.freeIndices = []
  live : ∀ vni len net i, index vni len net = some i → t.srcPool.Live i
  inj : ∀ vni len net vni' len' net' i, index vni len net = some i → index vni' len' net' = some i →
    vni' = vni ∧ len' = len ∧ net' = net
  absent : ∀ vni len net, index vni len net = none → ¬ m.Dst vni len net
  table : ∀ vni len net i, index vni len net = some i → SrcInv f (t.srcPool.eltAt i) (m vni len net)

theorem sdInv_init (f : Family w cw) :
    SdInv f ⟨lookupInit default, .empty⟩ (fun _ _ _ _ _ => none) (fun _ _ _ => none) ∅ :=
  ⟨tableInv_init f, rfl, nofun, nofun, fun _ _ _ _ ⟨_, _, h⟩ => h rfl, nofun⟩

/-- An EID is added where its prefixes keep the entries of their tables apart and the counts have room. It is deleted
where its destination's network is not there, or where it is installed and either its destination has another source or
the table of this one counts a single add. -/
def SdOk (f : Family w cw) (t : SdTables cw) (m : IpEids w) (vni : BitVec 32) (dst src : BitVec w × Nat) :
    Option (BitVec 32) → Prop
  | some _ => dst.2 ≤ w ∧ src.2 ≤ w ∧ Fits f t.dst m.Dst dst.2 (dst.1 &&& f.mask dst.2) ∧
    match lookupExactMatch f t.dst vni dst.1 dst.2 with
    | none => (t.dst.prefixLenRefcount dst.2).toNat + 1 < 2 ^ cw
    | some i => SrcOk f (t.srcPool.eltAt i) (m vni dst.2 (dst.1 &&& f.mask dst.2)) src.2 (src.1 &&& f.mask src.2)
  | none => (∀ len', ¬ m.Dst vni len' (dst.1 &&& f.mask dst.2)) ∨
    m vni dst.2 (dst.1 &&& f.mask dst.2) src.2 (src.1 &&& f.mask src.2) ≠ none ∧
      ((∃ k net, ¬ (k = src.2 ∧ net = src.1 &&& f.mask src.2) ∧ m vni dst.2 (dst.1 &&& f.mask dst.2) k net ≠ none) ∨
        ∃ i, lookupExactMatch f t.dst vni dst.1 dst.2 = some i ∧ (t.srcPool.eltAt i).count = 1)

section Steps
variable {t : SdTables cw} {index : Entries w Nat} {keys : Finset (BitVec 32 × Nat × BitVec w)}
  (h : SdInv f t m index keys)
include h

theorem SdInv.dst_iff : m.Dst vni len net ↔ index vni len net ≠ none := by
  cases hi : index vni len net with
  | none => exact iff_of_false (h.absent vni len net hi) fun hne => hne rfl
  | some i => exact iff_of_true (h.table vni len net i hi).exists_source nofun

theorem SdInv.fits (hfit : Fits f t.dst m.Dst len net) : Fits f t.dst (index · · · ≠ none) len net :=
  ⟨hfit.1, fun vni' len' net' hm => hfit.2 vni' len' net' (h.dst_iff.mpr hm)⟩

theorem SdInv.exact_some (hfit : Fits f t.dst m.Dst len (a &&& f.mask len))
    (hi : lookupExactMatch f t.dst vni a len = some i) : index vni len (a &&& f.mask len) = some i := by
  obtain ⟨len', hm⟩ := (h.dst.agrees _ _ _).mp hi
  have hself : a &&& f.mask len &&& f.mask len = a &&& f.mask len := by rw [BitVec.and_assoc, BitVec.and_self]
  have hlen := h.dst.len_of_fits hself (h.fits hfit) (ne_of_eq_of_ne hm (Option.some_ne_none i))
  exact hlen ▸ hm

theorem SdInv.exact_none (hi : lookupExactMatch f t.dst vni a len = none) :
    index vni len (a &&& f.mask len) = none := by
  by_contra hne
  obtain ⟨i, hv⟩ := ne_none_iff_exists'.mp hne
  rw [lookupExactMatch, (h.dst.agrees _ _ _).mpr ⟨len, hv⟩] at hi
  cases hi

theorem SdInv.add_new (hlen : len ≤ w) (hslen : slen ≤ w) (hfit : Fits f t.dst m.Dst len (a &&& f.mask len))
    (hroom : (t.dst.prefixLenRefcount len).toNat + 1 < 2 ^ cw) (hmiss : index vni len (a &&& f.mask len) = none)
    (hpool : pool = (t.srcPool.get.1.modify t.srcPool.get.2 lookupInit).modify t.srcPool.get.2
      fun sfib => (addDelKey f sfib 0 s slen (some v)).1) :
    SdInv f ⟨(addDelKey f t.dst vni a len (some t.srcPool.get.2)).1, pool⟩
      (m.set vni len (a &&& f.mask len) slen (s &&& f.mask slen) (some v))
      (index.set vni len (a &&& f.mask len) (some t.srcPool.get.2)) (insert (vni, len, a &&& f.mask len) keys) := by
  have hlive (j : Nat) : pool.Live j ↔ t.srcPool.Live j ∨ j = t.srcPool.get.2 := by
    rw [hpool, Pool.live_modify, Pool.live_modify, Pool.live_get]
  have hnew := t.srcPool.not_live_get
  have hget : t.srcPool.get.1.Live t.srcPool.get.2 := Pool.live_get.mpr (.inr rfl)
  have helt : pool.eltAt t.srcPool.get.2 = (addDelKey f (lookupInit default) 0 s slen (some v)).1 := by
    rw [hpool, Pool.eltAt_modify_self (Pool.live_modify.mpr hget), Pool.eltAt_modify_self hget,
      Pool.eltAt_get_self_of_free h.free]
  have hold (j : Nat) (hj : t.srcPool.Live j) : pool.eltAt j = t.srcPool.eltAt j := by
    have hne : j ≠ t.srcPool.get.2 := fun he => hnew (he ▸ hj)
    rw [hpool, Pool.eltAt_modify_ne hne, Pool.eltAt_modify_ne hne, Pool.eltAt_get]
  have hother {vni' len' net' i} (hne : ¬ (vni' = vni ∧ len' = len ∧ net' = a &&& f.mask len))
      (hi : index.set vni len (a &&& f.mask len) (some t.srcPool.get.2) vni' len' net' = some i) :
      index vni' len' net' = some i ∧ t.srcPool.Live i := by
    rw [Entries.set_ne hne] at hi
    exact ⟨hi, h.live _ _ _ _ hi⟩
  have hself {vni' len' net'} (he : vni' = vni ∧ len' = len ∧ net' = a &&& f.mask len) :
      index.set vni len (a &&& f.mask len) (some t.srcPool.get.2) vni' len' net' = some t.srcPool.get.2 := if_pos he
  constructor
  case dst => exact h.dst.add hlen rfl (h.fits hfit) hroom
  case free =>
    rw [hpool]
    exact Pool.freeIndices_get_of_free h.free
  case live =>
    intro vni' len' net' i hi
    by_cases he : vni' = vni ∧ len' = len ∧ net' = a &&& f.mask len
    · rw [hself he] at hi
      exact (hlive i).mpr (.inr (Option.some.inj hi).symm)
    · exact (hlive i).mpr (.inl (hother he hi).2)
  case inj =>
    intro vni₁ len₁ net₁ vni₂ len₂ net₂ i h₁ h₂
    by_cases he₁ : vni₁ = vni ∧ len₁ = len ∧ net₁ = a &&& f.mask len
    · rw [hself he₁] at h₁
      by_cases he₂ : vni₂ = vni ∧ len₂ = len ∧ net₂ = a &&& f.mask len
      · exact ⟨he₂.1.trans he₁.1.symm, he₂.2.1.trans he₁.2.1.symm, he₂.2.2.trans he₁.2.2.symm⟩
      · exact absurd (hother he₂ h₂).2 (Option.some.inj h₁ ▸ hnew)
    · by_cases he₂ : vni₂ = vni ∧ len₂ = len ∧ net₂ = a &&& f.mask len
      · rw [hself he₂] at h₂
        exact absurd (hother he₁ h₁).2 (Option.some.inj h₂ ▸ hnew)
      · exact h.inj vni₁ len₁ net₁ vni₂ len₂ net₂ i (hother he₁ h₁).1 (hother he₂ h₂).1
  case absent =>
    intro vni' len' net' hi
    by_cases he : vni' = vni ∧ len' = len ∧ net' = a &&& f.mask len
    · rw [hself he] at hi
      cases hi
    · rw [Entries.set_ne he] at hi
      rw [IpEids.Dst, IpEids.set_ne he]
      exact h.absent vni' len' net' hi
  case table =>
    intro vni' len' net' i hi
    by_cases he : vni' = vni ∧ len' = len ∧ net' = a &&& f.mask len
    · rw [hself he] at hi
      obtain ⟨rfl, rfl, rfl⟩ := he
      obtain rfl := Option.some.inj hi
      rw [helt, IpEids.set_self, IpEids.not_dst.mp (h.absent _ _ _ hmiss)]
      exact srcInv_first f (by omega) hslen s v
    · obtain ⟨hi, hl⟩ := hother he hi
      rw [hold i hl, IpEids.set_ne he]
      exact h.table vni' len' net' i hi

/-- The table of a destination that stays changes with its sources. -/
theorem SdInv.update (hi : index vni len net = some i)
    (hs : SrcInv f sfib ((m vni len net).set slen snet v)) :
    SdInv f ⟨t.dst, t.srcPool.set i sfib⟩ (m.set vni len net slen snet v) index keys := by
  constructor
  case dst => exact h.dst
  case free => exact h.free
  case live => exact fun _ _ _ j hj => Pool.live_set.mpr (h.live _ _ _ j hj)
  case inj => exact h.inj
  case absent =>
    intro vni' len' net' hn
    have hne : ¬ (vni' = vni ∧ len' = len ∧ net' = net) := by
      rintro ⟨rfl, rfl, rfl⟩
      rw [hi] at hn
      cases hn
    rw [IpEids.Dst, IpEids.set_ne hne]
    exact h.absent vni' len' net' hn
  case table =>
    intro vni' len' net' j hj
    by_cases he : vni' = vni ∧ len' = len ∧ net' = net
    · obtain ⟨rfl, rfl, rfl⟩ := he
      rw [hi] at hj
      obtain rfl := Option.some.inj hj
      rw [Pool.eltAt_set_self (h.live _ _ _ i hi), IpEids.set_self]
      exact hs
    · have hne : j ≠ i := fun hji => he (h.inj _ _ _ _ _ _ i hi (hji ▸ hj))
      rw [Pool.eltAt_set_ne hne, IpEids.set_ne he]
      exact h.table vni' len' net' j hj

/-- A destination goes with its last source, and what its table has become is not seen any more. -/
theorem SdInv.delete (hi : index vni len (a &&& f.mask len) = some i)
    (hlast : (m vni len (a &&& f.mask len)).set slen snet none = fun _ _ => none) (sfib : GidIpTable cw (BitVec 32)) :
    SdInv f ⟨(addDelKey f t.dst vni a len none).1, t.srcPool.set i sfib⟩
      (m.set vni len (a &&& f.mask len) slen snet none)
      (index.set vni len (a &&& f.mask len) none) (keys.erase (vni, len, a &&& f.mask len)) := by
  have hother {vni' len' net' j} (hj : index.set vni len (a &&& f.mask len) none vni' len' net' = some j) :
      ¬ (vni' = vni ∧ len' = len ∧ net' = a &&& f.mask len) ∧ index vni' len' net' = some j := by
    by_cases he : vni' = vni ∧ len' = len ∧ net' = a &&& f.mask len
    · rw [show index.set vni len (a &&& f.mask len) none vni' len' net' = none from if_pos he] at hj
      cases hj
    · exact ⟨he, (Entries.set_ne he).symm.trans hj⟩
  constructor
  case dst => exact h.dst.remove rfl (by simp [hi])
  case free => exact h.free
  case live => exact fun _ _ _ j hj => Pool.live_set.mpr (h.live _ _ _ j (hother hj).2)
  case inj =>
    intro vni₁ len₁ net₁ vni₂ len₂ net₂ j h₁ h₂
    exact h.inj vni₁ len₁ net₁ vni₂ len₂ net₂ j (hother h₁).2 (hother h₂).2
  case absent =>
    intro vni' len' net' hn
    by_cases he : vni' = vni ∧ len' = len ∧ net' = a &&& f.mask len
    · obtain ⟨rfl, rfl, rfl⟩ := he
      rw [IpEids.not_dst, IpEids.set_self]
      exact hlast
    · rw [Entries.set_ne he] at hn
      rw [IpEids.Dst, IpEids.set_ne he]
      exact h.absent vni' len' net' hn
  case table =>
    intro vni' len' net' j hj
    obtain ⟨he, hj⟩ := hother hj
    have hne : j ≠ i := fun hji => he (h.inj _ _ _ _ _ _ i hi (hji ▸ hj))
    rw [Pool.eltAt_set_ne hne, IpEids.set_ne he]
    exact h.table vni' len' net' j hj

/-- A delete changes nothing where nothing has the destination's network. -/
theorem SdInv.delete_absent (slen : Nat) (snet : BitVec w) (hmiss : ∀ len', ¬ m.Dst vni len' (a &&& f.mask len)) :
    lookupExactMatch f t.dst vni a len = none ∧ m.set vni len (a &&& f.mask len) slen snet none = m := by
  constructor
  · cases hi : lookupExactMatch f t.dst vni a len with
    | none => rfl
    | some i =>
      obtain ⟨len', hv⟩ := (h.dst.agrees _ _ _).mp hi
      exact absurd (h.dst_iff.mpr (by simp [hv])) (hmiss len')
  · funext vni' len' net' slen' snet'
    by_cases he : vni' = vni ∧ len' = len ∧ net' = a &&& f.mask len ∧ slen' = slen ∧ snet' = snet
    · obtain ⟨rfl, rfl, rfl, rfl, rfl⟩ := he
      rw [IpEids.set_self, Sources.set_self, IpEids.not_dst.mp (hmiss len')]
    · exact if_neg he

/-- An installed EID is the one that the exact match of its destination finds. -/
theorem SdInv.exact_of_installed (hm : m vni len (a &&& f.mask len) slen snet ≠ none) :
    ∃ i, lookupExactMatch f t.dst vni a len = some i ∧ index vni len (a &&& f.mask len) = some i := by
  obtain ⟨i, hi⟩ := ne_none_iff_exists'.mp (h.dst_iff.mp ⟨slen, snet, hm⟩)
  exact ⟨i, (h.dst.agrees _ _ _).mpr ⟨len, hi⟩, hi⟩

theorem SdInv.call (src : Option (BitVec w × Nat)) (hok : SdOk f t m vni (a, len) (src.getD (0, 0)) val) :
    ∃ index' keys', SdInv f (addDelSdKey f t vni (a, len) src val).1
      (m.set vni len (a &&& f.mask len) (src.getD (0, 0)).2 ((src.getD (0, 0)).1 &&& f.mask (src.getD (0, 0)).2) val)
      index' keys' := by
  simp only [addDelSdKey]
  generalize src.getD (0, 0) = source at hok
  obtain ⟨s, slen⟩ := source
  cases val with
  | some v =>
    obtain ⟨hlen, hslen, hfit, hrest⟩ := hok
    cases hi : lookupExactMatch f t.dst vni a len with
    | none =>
      rw [hi] at hrest
      exact ⟨_, _, h.add_new hlen hslen hfit hrest (h.exact_none hi) rfl⟩
    | some i =>
      rw [hi] at hrest
      have hidx := h.exact_some hfit hi
      exact ⟨_, _, h.update hidx ((h.table _ _ _ i hidx).add hslen hrest v)⟩
  | none =>
    obtain hmiss | ⟨hm, hcount⟩ := hok
    · obtain ⟨hi, hset⟩ := h.delete_absent slen (s &&& f.mask slen) hmiss
      rw [hset]
      simp only [hi]
      exact ⟨_, _, h⟩
    · obtain ⟨i, hi, hidx⟩ := h.exact_of_installed hm
      simp only [hi]
      by_cases hstays : ∃ k net, ¬ (k = slen ∧ net = s &&& f.mask slen) ∧ m vni len (a &&& f.mask len) k net ≠ none
      · obtain ⟨hrem, hne⟩ := (h.table _ _ _ i hidx).remove hm hstays
        rw [if_neg hne]
        exact ⟨_, _, h.update hidx hrem⟩
      · obtain ⟨_, hi', hone⟩ := hcount.resolve_left hstays
        obtain rfl := Option.some.inj (hi.symm.trans hi')
        have hzero : (addDelKey f (t.srcPool.eltAt i) 0 s slen none).1.count = 0 := by
          rw [(addDelKey_none_fields f _ 0 s slen).2.2.2.1, hone, sub_self]
        have hlast : (m vni len (a &&& f.mask len)).set slen (s &&& f.mask slen) none = fun _ _ => none := by
          funext k net
          by_cases he : k = slen ∧ net = s &&& f.mask slen
          · obtain ⟨rfl, rfl⟩ := he
            exact Sources.set_self ..
          · rw [Sources.set_ne he]
            by_contra hk
            exact hstays ⟨k, net, he, hk⟩
        rw [if_pos hzero]
        exact ⟨_, _, h.delete hidx hlast _⟩

end Steps

/-- The longest destination up to a length that covers `d`. -/
def IpEids.LongestDst (f : Family w cw) (m : IpEids w) (vni : BitVec 32) (d : BitVec w) (dlen l : Nat) : Prop :=
  l ≤ dlen ∧ m.Dst vni l (d &&& f.mask l) ∧ ∀ l', l < l' → l' ≤ dlen → ¬ m.Dst vni l' (d &&& f.mask l')

/-- The longest destination that covers `d`, and among its sources the longest that covers `s`. -/
def SdLongest (f : Family w cw) (m : IpEids w) (vni : BitVec 32) (d : BitVec w) (dlen : Nat) (s : BitVec w)
    (slen : Nat) (r : Option (BitVec 32)) : Prop :=
  (r = none ∧ ∀ l ≤ dlen, ¬ m.Dst vni l (d &&& f.mask l)) ∨
  ∃ l, m.LongestDst f vni d dlen l ∧ IsLongest (fun k => m vni l (d &&& f.mask l) k (s &&& f.mask k)) slen r

theorem IpEids.LongestDst.unique (h : m.LongestDst f vni d dlen l) (h' : m.LongestDst f vni d dlen l') : l = l' := by
  obtain hlt | rfl | hgt := Nat.lt_trichotomy l l'
  · exact absurd h'.2.1 (h.2.2 l' hlt h'.1)
  · rfl
  · exact absurd h.2.1 (h'.2.2 l hgt h.1)

theorem SdLongest.unique (h : SdLongest f m vni d dlen s slen r) (h' : SdLongest f m vni d dlen s slen r') :
    r = r' := by
  obtain ⟨rfl, hnone⟩ | ⟨l, hl, hr⟩ := h
  · obtain ⟨rfl, -⟩ | ⟨l', hl', -⟩ := h'
    · rfl
    · exact absurd hl'.2.1 (hnone l' hl'.1)
  · obtain ⟨-, hnone⟩ | ⟨l', hl', hr'⟩ := h'
    · exact absurd hl.2.1 (hnone l hl.1)
    · obtain rfl := hl.unique hl'
      exact hr.unique hr'

def DstOk (f : Family w cw) (m : IpEids w) (vni : BitVec 32) (d : BitVec w) (dlen : Nat) : Prop :=
  ∀ l, dlen < l → ¬ m.Dst vni l (d &&& f.mask l)

/-- The longest destination has the EID without a source, or there is none to find: neither a shorter one, nor a source
that begins where all sources do. -/
def PlainOk (f : Family w cw) (m : IpEids w) (vni : BitVec 32) (d : BitVec w) (dlen : Nat) : Prop :=
  ∀ l, m.LongestDst f vni d dlen l → m vni l (d &&& f.mask l) 0 0 ≠ none ∨
    (∀ l' < l, m vni l' (d &&& f.mask l') 0 0 = none) ∧ ∀ k, m vni l (d &&& f.mask l) k 0 = none

/-- No source with the address, of the longest destination, is longer than the prefix. -/
def SourceOk (f : Family w cw) (m : IpEids w) (vni : BitVec 32) (d : BitVec w) (dlen : Nat) (s : BitVec w)
    (slen : Nat) :
    Prop :=
  ∀ l, m.LongestDst f vni d dlen l → ∀ k, slen < k → m vni l (d &&& f.mask l) k (s &&& f.mask k) = none

section Lookups
variable {t : SdTables cw} {index : Entries w Nat} {keys : Finset (BitVec 32 × Nat × BitVec w)}
  (h : SdInv f t m index keys)
include h

theorem SdInv.lookup_dst (hdst : DstOk f m vni d dlen) :
    match lookup f t.dst vni d with
    | none => ∀ l ≤ dlen, ¬ m.Dst vni l (d &&& f.mask l)
    | some sfi => ∃ l, m.LongestDst f vni d dlen l ∧ SrcInv f (t.srcPool.eltAt sfi) (m vni l (d &&& f.mask l)) := by
  have hover (l : Nat) (hl : w < l) : index vni l (d &&& f.mask l) = none := by
    by_contra hne
    exact absurd (h.dst.normal _ _ _ hne).1 (Nat.not_le.mpr hl)
  have hout (l : Nat) (hl : dlen < l) : index vni l (d &&& f.mask l) = none := by
    by_contra hne
    exact hdst l hl (h.dst_iff.mpr hne)
  have hl := (h.dst.lookup_isLongest vni d).retop hover hout
  cases hres : lookup f t.dst vni d with
  | none =>
    rw [hres] at hl
    exact fun l hle => h.absent _ _ _ (hl l hle)
  | some sfi =>
    rw [hres] at hl
    obtain ⟨l, hle, hi, hmax⟩ := hl
    have htab := h.table _ _ _ sfi hi
    exact ⟨l, ⟨hle, htab.exists_source, fun l' hlt hle' => h.absent _ _ _ (hmax l' hlt hle')⟩, htab⟩

theorem SdInv.plain_lookup (hdst : DstOk f m vni a len) (hkey : PlainOk f m vni a len) :
    IsLongest (fun l => m vni l (a &&& f.mask l) 0 0) len (sdLookup f t vni a none) := by
  have hnone {l : Nat} (hl : ¬ m.Dst vni l (a &&& f.mask l)) : m vni l (a &&& f.mask l) 0 0 = none := by
    rw [IpEids.not_dst.mp hl]
  have hl := h.lookup_dst hdst
  rw [sdLookup]
  cases hres : lookup f t.dst vni a with
  | none =>
    rw [hres] at hl
    exact fun l hle => hnone (hl l hle)
  | some sfi =>
    rw [hres] at hl
    obtain ⟨l, hlong, htab⟩ := hl
    dsimp only
    obtain hplain | ⟨hshort, hzero⟩ := hkey l hlong
    · obtain ⟨v, hv⟩ := ne_none_iff_exists'.mp hplain
      rw [htab.exact_zero.mpr ⟨0, hv⟩]
      exact ⟨l, hlong.1, hv, fun l' hlt hle => hnone (hlong.2.2 l' hlt hle)⟩
    · have hmiss : lookupExactMatch f (t.srcPool.eltAt sfi) 0 0 0 = none := by
        by_contra hne
        obtain ⟨v, hv⟩ := ne_none_iff_exists'.mp hne
        obtain ⟨k, hk⟩ := htab.exact_zero.mp hv
        rw [hzero k] at hk
        cases hk
      rw [hmiss]
      intro l' hle
      obtain hlt | rfl | hgt := Nat.lt_trichotomy l' l
      · exact hshort l' hlt
      · exact hzero 0
      · exact hnone (hlong.2.2 l' hgt hle)

theorem SdInv.sd_lookup (hdst : DstOk f m vni d dlen) (hsrc : SourceOk f m vni d dlen s slen) :
    SdLongest f m vni d dlen s slen (sdLookup f t vni d (some s)) := by
  have hl := h.lookup_dst hdst
  rw [sdLookup]
  cases hres : lookup f t.dst vni d with
  | none =>
    rw [hres] at hl
    exact .inl ⟨rfl, hl⟩
  | some sfi =>
    rw [hres] at hl
    obtain ⟨l, hlong, htab⟩ := hl
    exact .inr ⟨l, hlong, (htab.lookup s).retop (fun k hk => htab.over hk) (hsrc l hlong)⟩

end Lookups

end Vpp.Lisp
