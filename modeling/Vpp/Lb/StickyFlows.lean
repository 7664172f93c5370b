import Vpp.Lb.StickyHash

namespace Vpp.Lb
open Vpp.Lib List

variable {hash vip now next : BitVec 32}

theorem firstLane_some (h : firstLane p = some i) : p i = true := find?_some h

theorem firstLane_none (h : firstLane p = none) (i : Fin 4) : p i = false := by
  have hmem : i ∈ ([0, 1, 2, 3] : List (Fin 4)) := by
    revert i
    decide
  exact Bool.eq_false_iff.mpr (find?_eq_none.mp h i hmem)

theorem Entry.matches_iff {e : Entry} :
    e.matches hash vip now = true ↔ e.live now = true ∧ e.hash = hash ∧ e.vip = vip := by
  rw [Entry.matches, Bool.and_eq_true, Bool.and_eq_true, beq_iff_eq, beq_iff_eq, and_assoc]

theorem toInt_of_lt {t : BitVec 32} (h : t.toNat < 2 ^ 31) : t.toInt = t.toNat := by
  apply BitVec.toInt_eq_toNat_of_lt
  omega

theorem Entry.live_of_later {e : Entry} {now next : BitVec 32} (hle : now.toNat ≤ next.toNat)
    (hlt : next.toNat < 2 ^ 31) (h : e.live next = true) : e.live now = true := by
  rw [live, BitVec.slt_iff_toInt_lt] at h ⊢
  rw [toInt_of_lt hlt] at h
  rw [toInt_of_lt (Nat.lt_of_le_of_lt hle hlt)]
  omega

theorem Entry.matches_of_later {e : Entry} {now next : BitVec 32} (hle : now.toNat ≤ next.toNat)
    (hlt : next.toNat < 2 ^ 31) (h : e.matches hash vip next = true) : e.matches hash vip now = true := by
  obtain ⟨hlive, hflow⟩ := matches_iff.mp h
  exact matches_iff.mpr ⟨live_of_later hle hlt hlive, hflow⟩

theorem Entry.live_of_lt {e : Entry} {now : BitVec 32} (h : now.toNat < e.timeout.toNat)
    (hlt : e.timeout.toNat < 2 ^ 31) : e.live now = true := by
  rw [live, BitVec.slt_iff_toInt_lt, toInt_of_lt hlt, toInt_of_lt (Nat.lt_trans h hlt)]
  exact Int.ofNat_lt.mpr h

structure LbHash.Good (h : LbHash) (now : BitVec 32) : Prop where
  value_ne : ∀ p, (h.entries p).value ≠ notFound
  unique : ∀ {hash vip b i j}, (h.entries (b, i)).matches hash vip now = true →
    (h.entries (b, j)).matches hash vip now = true → i = j

theorem LbHash.Good.later {h : LbHash} (hg : h.Good now) (hle : now.toNat ≤ next.toNat) (hlt : next.toNat < 2 ^ 31) :
    h.Good next where
  value_ne := hg.value_ne
  unique hi hj := hg.unique (Entry.matches_of_later hle hlt hi) (Entry.matches_of_later hle hlt hj)

theorem LbHash.setEntry_self (h : LbHash) (p) (e : Entry) : (h.setEntry p e).entries p = e := by
  simp only [setEntry, Function.update_self]

theorem LbHash.setEntry_ne (h : LbHash) {p q} (e : Entry) (hne : q ≠ p) : (h.setEntry p e).entries q = h.entries q := by
  simp only [setEntry, Function.update_of_ne hne]

theorem LbHash.Good.setEntry {h : LbHash} {b : Fin (h.bucketsMask.toNat + 1)} {e : Entry} (hg : h.Good now)
    (hv : e.value ≠ notFound)
    (hone : ∀ hash vip j, e.matches hash vip now = true → j ≠ i →
      (h.entries (b, j)).matches hash vip now ≠ true) : (h.setEntry (b, i) e).Good now := by
  apply LbHash.Good.mk
  · intro q
    by_cases hq : q = (b, i)
    · rw [hq, setEntry_self]
      exact hv
    · rw [setEntry_ne h e hq]
      exact hg.value_ne q
  · intro hash vip b' j k hj hk
    by_cases hjq : (b', j) = (b, i) <;> by_cases hkq : (b', k) = (b, i)
    · exact (Prod.mk.inj (hjq.trans hkq.symm)).2
    · rw [hjq, setEntry_self] at hj
      rw [setEntry_ne h e hkq] at hk
      have hb : b' = b := (Prod.mk.inj hjq).1
      have hki : k ≠ i := fun he => hkq (Prod.ext hb he)
      rw [hb] at hk
      exact absurd hk (hone hash vip k hj hki)
    · rw [hkq, setEntry_self] at hk
      rw [setEntry_ne h e hjq] at hj
      have hb : b' = b := (Prod.mk.inj hkq).1
      have hji : j ≠ i := fun he => hjq (Prod.ext hb he)
      rw [hb] at hj
      exact absurd hj (hone hash vip j hk hji)
    · rw [setEntry_ne h e hjq] at hj
      rw [setEntry_ne h e hkq] at hk
      exact hg.unique hj hk

theorem LbHash.values_eq (h : LbHash) : (h.values : Multiset (BitVec 32)) = contents fun p => (h.entries p).value := by
  rw [LbHash.values, ← Multiset.map_coe, ← Multiset.coe_product]
  rfl

theorem LbHash.count_setEntry (h : LbHash) (p) (e : Entry) (a : BitVec 32) :
    BitVec.ofNat 32 ((h.setEntry p e).values.count a) + indicator a (h.entries p).value =
      BitVec.ofNat 32 (h.values.count a) + indicator a e.value := by
  have hvalues : (fun q => ((h.setEntry p e).entries q).value) =
      Function.update (fun q => (h.entries q).value) p e.value := Function.comp_update Entry.value h.entries p e
  have hcontents := contents_update (fun q => (h.entries q).value) p e.value
  rw [← hvalues, ← LbHash.values_eq h] at hcontents
  have hlist : ((h.entries p).value :: (h.setEntry p e).values).Perm (e.value :: h.values) := by
    rw [← Multiset.coe_eq_coe, ← Multiset.cons_coe, ← Multiset.cons_coe, LbHash.values_eq]
    exact hcontents
  rw [← ofNat_count_cons, ← ofNat_count_cons, hlist.count_eq]

theorem LbHash.values_length (h : LbHash) : h.values.length = (h.bucketsMask.toNat + 1) * 4 := by
  rw [values, length_map, length_product, length_finRange, length_finRange]

theorem LbHash.count_lt (h : LbHash) (a : BitVec 32) : h.values.count a < 2 ^ 32 := by
  have hle := count_le_length (a := a) (l := h.values)
  rw [values_length] at hle
  have hfits := h.fits
  omega

theorem LbHash.value_mem (h : LbHash) (p) : (h.entries p).value ∈ h.values := by
  rw [← Multiset.mem_coe, values_eq]
  exact mem_contents.mpr ⟨p, rfl⟩

/-- What a packet of a flow meets in its bucket, and what comes of it. -/
inductive PacketCase (s : LbMain) (h : LbHash) (hash vip : BitVec 32) : Option (LbMain × BitVec 32 × Counter) → Prop
  | found (i) (hm : (h.entries (h.bucketOf hash, i)).matches hash vip s.lbTime = true) :
    PacketCase s h hash vip (some ({ s with stickyHt := some (h.setEntry (h.bucketOf hash, i)
      { h.entries (h.bucketOf hash, i) with timeout := s.lbTime + h.timeout }) },
      (h.entries (h.bucketOf hash, i)).value, .nextPacket))
  | stored (i) (hnone : ∀ j, (h.entries (h.bucketOf hash, j)).matches hash vip s.lbTime ≠ true)
    (hexpired : (h.entries (h.bucketOf hash, i)).live s.lbTime = false)
    (hget : h.foundValue hash vip s.lbTime = notFound) (havailable : h.availableIndex hash s.lbTime = some i) :
    PacketCase s h hash vip ((moveReference s.asRefcount (h.entries (h.bucketOf hash, i)).value
      (s.newFlowAs hash vip)).map fun r => ({ s with
        asRefcount := r
        stickyHt := some (h.setEntry (h.bucketOf hash, i) ⟨hash, s.lbTime + h.timeout, vip, s.newFlowAs hash vip⟩) },
      s.newFlowAs hash vip, if s.newFlowAs hash vip = 0 then .noServer else .firstPacket))
  | untracked (hnone : ∀ j, (h.entries (h.bucketOf hash, j)).matches hash vip s.lbTime ≠ true) :
    PacketCase s h hash vip (some (s, s.newFlowAs hash vip, .untrackedPacket))

variable {s : LbMain}

theorem lbNodePacket_cases {h : LbHash} (hs : s.stickyHt = some h) (hg : h.Good s.lbTime)
    (hash vip : BitVec 32) : PacketCase s h hash vip (lbNodePacket s hash vip) := by
  rw [lbNodePacket, hs, Option.bind_some, lbHashGet]
  cases hfound : h.foundIndex hash vip s.lbTime with
  | some i =>
    have hvalue : h.foundValue hash vip s.lbTime = (h.entries (h.bucketOf hash, i)).value := by
      rw [LbHash.foundValue, hfound]
      rfl
    have hne : h.foundValue hash vip s.lbTime ≠ notFound := by
      rw [hvalue]
      exact hg.value_ne _
    simp only [if_pos hne, Option.elim_some]
    rw [hvalue]
    exact .found i (firstLane_some hfound)
  | none =>
    have hvalue : h.foundValue hash vip s.lbTime = notFound := by
      rw [LbHash.foundValue, hfound]
      rfl
    have hnone : ∀ j, (h.entries (h.bucketOf hash, j)).matches hash vip s.lbTime ≠ true := fun j =>
      Bool.eq_false_iff.mp (firstLane_none hfound j)
    have hnot : ¬ h.foundValue hash vip s.lbTime ≠ notFound := not_not.mpr hvalue
    simp only [if_neg hnot, Option.elim_none]
    cases havailable : h.availableIndex hash s.lbTime with
    | some i =>
      have hexpired := firstLane_some havailable
      rw [Bool.not_eq_true'] at hexpired
      exact .stored i hnone hexpired hvalue havailable
    | none =>
      have hsame : { s with stickyHt := some h } = s := by rw [← hs]
      simp only [hsame]
      exact .untracked hnone

/-- What the thread keeps: its times do not go back and stay below `2 ^ 31`, and it has its table before a packet. -/
def Promised (s : LbMain) : Event → Prop
  | .frame now => s.lbTime.toNat ≤ now.toNat ∧ now.toNat < 2 ^ 31
  | .packet _ _ => s.stickyHt.isSome = true
  | .conf _ _ => True
  | .newFlowTable _ _ => True

def FitsMemory (buckets : BitVec 32) : Prop := buckets ≠ 0 ∧ 64 * (buckets.toNat + 2) < 2 ^ 32

instance (buckets : BitVec 32) : Decidable (FitsMemory buckets) := inferInstanceAs (Decidable (_ ∧ _))

/-- A size has a memory that holds it, the timeout of a flow stays below `2 ^ 31`, and no growth of the counters loses
a count. -/
def Meets (s : LbMain) : Event → Prop
  | .conf buckets _ => isPow2 buckets = true → FitsMemory buckets
  | .packet hash vip => ∀ h ∈ s.stickyHt, s.lbTime.toNat + h.timeout.toNat < 2 ^ 31 ∧
      (h.foundValue hash vip s.lbTime = notFound → ∀ i ∈ h.availableIndex hash s.lbTime,
        ∀ r ∈ vlibRefcountAdd s.asRefcount (lbHashAvailableValue h hash i) (-1), r.Keeps (s.newFlowAs hash vip))
  | .newFlowTable _ _ => True
  | .frame _ => True

def Along (P : LbMain → Event → Prop) : LbMain → List Event → Prop
  | _, [] => True
  | s, e :: es => P s e ∧ ∀ s' ∈ step s e, Along P s' es

def LbMain.slotCount (s : LbMain) (a : BitVec 32) : Nat := s.stickyHt.elim 0 fun h => h.values.count a

structure LbMain.Inv (s : LbMain) : Prop where
  counts : ∀ a : BitVec 32, a ≠ 0 → s.asRefcount.counters a.toNat = BitVec.ofNat 32 (s.slotCount a)
  table : ∀ h ∈ s.stickyHt, h.Good s.lbTime
  pow : isPow2 s.perCpuStickyBuckets = true
  memory : FitsMemory s.perCpuStickyBuckets

theorem LbMain.Inv.count_eq (hi : s.Inv) (a : BitVec 32) (ha : a ≠ 0) :
    (s.asRefcount.counters a.toNat).toNat = s.slotCount a := by
  have hlt : s.slotCount a < 2 ^ 32 := by
    rw [slotCount]
    cases s.stickyHt with
    | none => exact Nat.two_pow_pos 32
    | some h => exact h.count_lt a
  rw [hi.counts a ha, BitVec.toNat_ofNat, Nat.mod_eq_of_lt hlt]

theorem LbMain.Inv.held (hi : s.Inv) (hs : s.stickyHt = some h) (hmem : a ∈ h.values) (ha : a ≠ 0) :
    a.toNat < s.asRefcount.length := by
  by_contra hle
  have hzero := s.asRefcount.beyond a.toNat (Nat.not_lt.mp hle)
  have hcount := hi.count_eq a ha
  have hslot : s.slotCount a = h.values.count a := by rw [slotCount, hs, Option.elim_some]
  rw [hzero, hslot] at hcount
  have hpos := count_pos_iff.mpr hmem
  rw [← hcount] at hpos
  exact Nat.lt_irrefl 0 hpos

theorem lbHashAlloc_some (hp : isPow2 buckets = true) (hm : FitsMemory buckets) (timeout : BitVec 32) :
    ∃ h, lbHashAlloc buckets timeout = some h ∧ ∀ p, h.entries p = ⟨0, 0, 0, 0⟩ := by
  obtain ⟨hne, hfits⟩ := hm
  have hnat : (buckets - 1).toNat = buckets.toNat - 1 := by
    have hpos : 0 < buckets.toNat := by
      apply Nat.pos_of_ne_zero
      intro hz
      exact hne (BitVec.eq_of_toNat_eq hz)
    have hle : (1 : BitVec 32) ≤ buckets := BitVec.le_def.mpr hpos
    exact BitVec.toNat_sub_of_le hle
  have hcond : isPow2 buckets ∧ 64 * ((buckets - 1).toNat + 3) < 2 ^ 32 := by
    apply And.intro hp
    rw [hnat]
    have hpos : buckets.toNat ≠ 0 := fun hz => hne (BitVec.eq_of_toNat_eq hz)
    omega
  rw [lbHashAlloc, dif_pos hcond]
  exact ⟨_, rfl, fun _ => rfl⟩

theorem regenerate_inv (hp : isPow2 s.perCpuStickyBuckets = true) (hm : FitsMemory s.perCpuStickyBuckets)
    (htime : s.lbTime.toNat < 2 ^ 31) (hcounts : ∀ a : BitVec 32, a ≠ 0 → s.asRefcount.counters a.toNat = 0) :
    ∃ s', s.regenerate = some s' ∧ s'.Inv := by
  obtain ⟨h, halloc, hempty⟩ := lbHashAlloc_some hp hm s.flowTimeout
  refine ⟨{ s with stickyHt := some h }, by rw [LbMain.regenerate, halloc, Option.map_some], ?_, ?_, hp, hm⟩
  · intro a ha
    have hnot : a ∉ h.values := by
      intro hmem
      obtain ⟨p, _, hv⟩ := List.mem_map.mp hmem
      rw [hempty] at hv
      exact ha hv.symm
    have hslot : LbMain.slotCount { s with stickyHt := some h } a = 0 := count_eq_zero.mpr hnot
    rw [hslot]
    exact hcounts a ha
  · intro h' hs'
    have hsame : h = h' := Option.some.inj hs'
    rw [← hsame]
    have hdead : ∀ p, (h.entries p).live s.lbTime ≠ true := by
      intro p hlive
      rw [Entry.live, BitVec.slt_iff_toInt_lt, toInt_of_lt htime, hempty] at hlive
      exact absurd hlive (Int.not_lt.mpr (Int.natCast_nonneg _))
    apply LbHash.Good.mk
    · intro p
      rw [hempty]
      decide
    · intro hash vip b i j hi _
      exact absurd (Entry.matches_iff.mp hi).1 (hdead (b, i))

theorem LbMain.Inv.later (hi : s.Inv) (hle : s.lbTime.toNat ≤ now.toNat) (hlt : now.toNat < 2 ^ 31) :
    { s with lbTime := now }.Inv where
  counts := hi.counts
  table h hs := (hi.table h hs).later hle hlt
  pow := hi.pow
  memory := hi.memory

theorem lbGetStickyTable_none (hs : s.stickyHt = none) : lbGetStickyTable s = s.regenerate := by
  rw [lbGetStickyTable, hs]

theorem lbGetStickyTable_same (hs : s.stickyHt = some h) (hsame : s.perCpuStickyBuckets = h.nbuckets) :
    lbGetStickyTable s = some { s with stickyHt := some { h with timeout := s.flowTimeout } } := by
  rw [lbGetStickyTable, hs]
  exact if_pos hsame

theorem lbGetStickyTable_resized (hs : s.stickyHt = some h) (hne : s.perCpuStickyBuckets ≠ h.nbuckets) :
    lbGetStickyTable s = (dereference s.asRefcount h.values).bind fun r => { s with asRefcount := r }.regenerate := by
  rw [lbGetStickyTable, hs]
  exact if_neg hne

theorem lbGetStickyTable_inv (hi : s.Inv) (hlt : s.lbTime.toNat < 2 ^ 31) :
    ∃ s', lbGetStickyTable s = some s' ∧ s'.Inv := by
  cases hs : s.stickyHt with
  | none =>
    rw [lbGetStickyTable_none hs]
    apply regenerate_inv hi.pow hi.memory hlt
    intro a ha
    have hslot : s.slotCount a = 0 := by rw [LbMain.slotCount, hs, Option.elim_none]
    have hcount := hi.counts a ha
    rw [hslot] at hcount
    exact hcount
  | some h =>
    by_cases hsame : s.perCpuStickyBuckets = h.nbuckets
    · rw [lbGetStickyTable_same hs hsame]
      refine ⟨_, rfl, ?_, ?_, hi.pow, hi.memory⟩
      · intro a ha
        have hcount := hi.counts a ha
        rw [LbMain.slotCount, hs] at hcount
        exact hcount
      · intro h' hs'
        have hgood := hi.table h hs
        rw [← Option.some.inj hs']
        exact ⟨hgood.value_ne, hgood.unique⟩
    · rw [lbGetStickyTable_resized hs hsame]
      obtain ⟨r, hrun, hcounts⟩ := dereference_spec fun v hv hne => hi.held hs hv hne
      rw [hrun, Option.bind_some]
      apply regenerate_inv (s := { s with asRefcount := r }) hi.pow hi.memory hlt
      intro a ha
      have hslot : s.slotCount a = h.values.count a := by rw [LbMain.slotCount, hs, Option.elim_some]
      have hcount := hcounts a ha
      rw [hi.counts a ha, hslot] at hcount
      exact add_eq_right.mp hcount

theorem packet_inv (hi : s.Inv) (hs : s.stickyHt = some h) (hm : Meets s (.packet hash vip)) :
    ∃ out, lbNodePacket s hash vip = some out ∧ out.1.Inv := by
  have hg := hi.table h hs
  have hcase := lbNodePacket_cases hs hg hash vip
  generalize lbNodePacket s hash vip = out at hcase ⊢
  cases hcase with
  | found i hmatch =>
    refine ⟨_, rfl, ?_, ?_, hi.pow, hi.memory⟩
    · intro a ha
      have hcount := hi.counts a ha
      have hset := h.count_setEntry (h.bucketOf hash, i)
        { h.entries (h.bucketOf hash, i) with timeout := s.lbTime + h.timeout } a
      rw [LbMain.slotCount, hs, Option.elim_some, ← add_right_cancel hset] at hcount
      exact hcount
    · intro h' hs'
      rw [← Option.some.inj hs']
      obtain ⟨_, hflow⟩ := Entry.matches_iff.mp hmatch
      apply hg.setEntry (e := { h.entries (h.bucketOf hash, i) with timeout := s.lbTime + h.timeout })
        (hg.value_ne (h.bucketOf hash, i))
      intro hash' vip' j hj hne hother
      obtain ⟨_, hhash, hvip⟩ := Entry.matches_iff.mp hj
      rw [← hhash, ← hvip, hflow.1, hflow.2] at hother
      exact hne (hg.unique hother hmatch)
  | stored i hnone hexpired hget havailable =>
    obtain ⟨_, hkeeps⟩ := hm h hs
    have hheld : (h.entries (h.bucketOf hash, i)).value ≠ 0 →
        (h.entries (h.bucketOf hash, i)).value.toNat < s.asRefcount.length := hi.held hs (h.value_mem _)
    obtain ⟨r, hrun, _, hcounts⟩ := moveReference_spec hheld (hkeeps hget i havailable)
    rw [hrun]
    refine ⟨_, rfl, ?_, ?_, hi.pow, hi.memory⟩
    · intro a ha
      have hcount := hi.counts a ha
      have hset := h.count_setEntry (h.bucketOf hash, i) ⟨hash, s.lbTime + h.timeout, vip, s.newFlowAs hash vip⟩ a
      rw [LbMain.slotCount, hs, Option.elim_some] at hcount
      rw [← hcount, ← hcounts a] at hset
      exact (add_right_cancel hset).symm
    · intro h' hs'
      rw [← Option.some.inj hs']
      apply hg.setEntry ((s.vips vip).ne_notFound _)
      intro hash' vip' j hj _ hother
      obtain ⟨_, hhash, hvip⟩ := Entry.matches_iff.mp hj
      apply hnone j
      rw [← hhash, ← hvip] at hother
      exact hother
  | untracked hnone => exact ⟨_, rfl, hi⟩

theorem conf_inv (hi : s.Inv) (hm : isPow2 buckets = true → FitsMemory buckets) :
    (lbConf s buckets timeout).Inv := by
  rw [lbConf]
  by_cases hp : isPow2 buckets = true
  · rw [if_pos hp]
    exact ⟨hi.counts, hi.table, hp, hm hp⟩
  · rw [if_neg hp]
    exact hi

theorem step_inv (hi : s.Inv) (hp : Promised s e) (hm : Meets s e) :
    ∃ s', step s e = some s' ∧ s'.Inv := by
  cases e with
  | conf buckets timeout => exact ⟨_, rfl, conf_inv hi hm⟩
  | newFlowTable vip table => exact ⟨_, rfl, hi.counts, hi.table, hi.pow, hi.memory⟩
  | frame now => exact lbGetStickyTable_inv (hi.later hp.1 hp.2) hp.2
  | packet hash vip =>
    obtain ⟨h, hs⟩ := Option.isSome_iff_exists.mp hp
    obtain ⟨out, hrun, hinv⟩ := packet_inv hi hs hm
    exact ⟨out.1, by rw [step, hrun, Option.map_some], hinv⟩

theorem run_inv (hi : s.Inv) (hp : Along Promised s es) (hm : Along Meets s es) :
    ∃ s', run s es = some s' ∧ s'.Inv := by
  induction es generalizing s with
  | nil => exact ⟨s, rfl, hi⟩
  | cons e es ih =>
    obtain ⟨s₁, hstep, hinv⟩ := step_inv hi hp.1 hm.1
    rw [run, hstep, Option.bind_some]
    exact ih hinv (hp.2 s₁ hstep) (hm.2 s₁ hstep)

theorem init_inv (vips : BitVec 32 → NewFlowTable) : (LbMain.init vips).Inv := by
  have hpow : isPow2 (1 <<< 10) = true := by decide
  have hmemory : FitsMemory (1 <<< 10) := by decide
  refine ⟨fun _ _ => rfl, ?_, hpow, hmemory⟩
  intro h hs
  cases hs

theorem regenerate_lbTime (h : s.regenerate = some s') : s'.lbTime = s.lbTime := by
  obtain ⟨h', _, hs⟩ := Option.map_eq_some_iff.mp h
  rw [← hs]

theorem lbGetStickyTable_lbTime (hrun : lbGetStickyTable s = some s') : s'.lbTime = s.lbTime := by
  cases hs : s.stickyHt with
  | none =>
    rw [lbGetStickyTable_none hs] at hrun
    exact regenerate_lbTime hrun
  | some h =>
    by_cases hsame : s.perCpuStickyBuckets = h.nbuckets
    · rw [lbGetStickyTable_same hs hsame] at hrun
      rw [← Option.some.inj hrun]
    · rw [lbGetStickyTable_resized hs hsame] at hrun
      obtain ⟨r, _, hr⟩ := Option.bind_eq_some_iff.mp hrun
      exact regenerate_lbTime (s := { s with asRefcount := r }) hr

theorem lbNodePacket_lbTime (hi : s.Inv) (hrun : lbNodePacket s hash vip = some out) :
    out.1.lbTime = s.lbTime := by
  obtain ⟨h, hs, _⟩ := Option.bind_eq_some_iff.mp hrun
  have hcase := lbNodePacket_cases hs (hi.table h hs) hash vip
  generalize lbNodePacket s hash vip = o at hcase hrun
  cases hcase with
  | found i hmatch => rw [← Option.some.inj hrun]
  | stored i =>
    obtain ⟨r, _, hr⟩ := Option.map_eq_some_iff.mp hrun
    rw [← hr]
  | untracked => rw [← Option.some.inj hrun]

theorem step_lbTime (hi : s.Inv) (hp : Promised s e) (hstep : step s e = some s') :
    s.lbTime.toNat ≤ s'.lbTime.toNat := by
  cases e with
  | conf buckets timeout =>
    rw [← Option.some.inj hstep, lbConf]
    split <;> exact le_rfl
  | newFlowTable vip table =>
    rw [← Option.some.inj hstep]
  | frame now =>
    rw [lbGetStickyTable_lbTime hstep]
    exact hp.1
  | packet hash vip =>
    obtain ⟨out, hrun, hout⟩ := Option.map_eq_some_iff.mp hstep
    rw [← hout, lbNodePacket_lbTime hi hrun]

theorem run_lbTime (hi : s.Inv) (hp : Along Promised s es) (hm : Along Meets s es)
    (hrun : run s es = some s') : s.lbTime.toNat ≤ s'.lbTime.toNat := by
  induction es generalizing s with
  | nil => rw [Option.some.inj hrun]
  | cons e es ih =>
    obtain ⟨s₁, hstep, hinv⟩ := step_inv hi hp.1 hm.1
    rw [run, hstep, Option.bind_some] at hrun
    exact (step_lbTime hi hp.1 hstep).trans (ih hinv (hp.2 s₁ hstep) (hm.2 s₁ hstep) hrun)

def LbMain.Holds (s : LbMain) (hash vip a d : BitVec 32) : Prop :=
  ∃ h ∈ s.stickyHt, ∃ i, h.entries (h.bucketOf hash, i) = ⟨hash, d, vip, a⟩

/-- No packet of the flow, and no new size for the table. -/
def Quiet (hash vip : BitVec 32) (s : LbMain) : Event → Prop
  | .packet hash' vip' => ¬ (hash' = hash ∧ vip' = vip)
  | .frame _ => ∀ h ∈ s.stickyHt, s.perCpuStickyBuckets = h.nbuckets
  | .conf _ _ => True
  | .newFlowTable _ _ => True

theorem matches_of_entry {e : Entry} {now : BitVec 32} (he : e = ⟨hash, d, vip, a⟩) (hnow : now.toNat < d.toNat)
    (hd : d.toNat < 2 ^ 31) : e.matches hash vip now = true := by
  apply Entry.matches_iff.mpr
  rw [he]
  exact ⟨Entry.live_of_lt hnow hd, rfl, rfl⟩

theorem holds_of_tracked (hi : s.Inv) (hs : s.stickyHt = some h)
    (hrun : lbNodePacket s hash vip = some (s', a, c)) (hc : c ≠ .untrackedPacket) :
    s'.Holds hash vip a (s.lbTime + h.timeout) := by
  have hcase := lbNodePacket_cases hs (hi.table h hs) hash vip
  generalize lbNodePacket s hash vip = out at hcase hrun
  cases hcase with
  | found i hmatch =>
    obtain ⟨hs', ha⟩ := Prod.mk.inj (Option.some.inj hrun)
    obtain ⟨_, hhash, hvip⟩ := Entry.matches_iff.mp hmatch
    rw [← hs', ← (Prod.mk.inj ha).1]
    refine ⟨_, rfl, i, (LbHash.setEntry_self _ _ _).trans ?_⟩
    simp only [hhash, hvip]
  | stored i =>
    obtain ⟨r, _, hr⟩ := Option.map_eq_some_iff.mp hrun
    obtain ⟨hs', ha⟩ := Prod.mk.inj hr
    rw [← hs', ← (Prod.mk.inj ha).1]
    exact ⟨_, rfl, i, LbHash.setEntry_self _ _ _⟩
  | untracked =>
    obtain ⟨_, ha⟩ := Prod.mk.inj (Option.some.inj hrun)
    exact absurd (Prod.mk.inj ha).2.symm hc

theorem holds_packet (hi : s.Inv) (hh : s.Holds hash vip a d) (hnow : s.lbTime.toNat < d.toNat)
    (hd : d.toNat < 2 ^ 31) (hother : ¬ (hash' = hash ∧ vip' = vip)) (hrun : lbNodePacket s hash' vip' = some out) :
    out.1.Holds hash vip a d := by
  obtain ⟨h, hs, i, hentry⟩ := hh
  have hmine := matches_of_entry hentry hnow hd
  have hcase := lbNodePacket_cases hs (hi.table h hs) hash' vip'
  generalize lbNodePacket s hash' vip' = o at hcase hrun
  cases hcase with
  | found j hmatch =>
    rw [← Option.some.inj hrun]
    have hne : (h.bucketOf hash, i) ≠ (h.bucketOf hash', j) := by
      intro he
      rw [← he] at hmatch
      obtain ⟨_, hhash, hvip⟩ := Entry.matches_iff.mp hmatch
      rw [hentry] at hhash hvip
      exact hother ⟨hhash.symm, hvip.symm⟩
    exact ⟨_, rfl, i, (LbHash.setEntry_ne h _ hne).trans hentry⟩
  | stored j _ hexpired =>
    obtain ⟨r, _, hr⟩ := Option.map_eq_some_iff.mp hrun
    rw [← hr]
    have hne : (h.bucketOf hash, i) ≠ (h.bucketOf hash', j) := by
      intro he
      rw [← he, (Entry.matches_iff.mp hmine).1] at hexpired
      cases hexpired
    exact ⟨_, rfl, i, (LbHash.setEntry_ne h _ hne).trans hentry⟩
  | untracked =>
    rw [← Option.some.inj hrun]
    exact ⟨h, hs, i, hentry⟩

theorem holds_step (hi : s.Inv) (hh : s.Holds hash vip a d) (hnow : s.lbTime.toNat < d.toNat)
    (hd : d.toNat < 2 ^ 31) (hq : Quiet hash vip s e) (hstep : step s e = some s') : s'.Holds hash vip a d := by
  cases e with
  | conf buckets timeout =>
    rw [← Option.some.inj hstep, lbConf]
    split <;> exact hh
  | newFlowTable vip' table =>
    rw [← Option.some.inj hstep]
    exact hh
  | frame now =>
    obtain ⟨h, hs, i, hentry⟩ := hh
    have hsame : lbGetStickyTable { s with lbTime := now } = _ :=
      lbGetStickyTable_same (s := { s with lbTime := now }) hs (hq h hs)
    rw [step, hsame] at hstep
    rw [← Option.some.inj hstep]
    exact ⟨_, rfl, i, hentry⟩
  | packet hash' vip' =>
    obtain ⟨out, hrun, hout⟩ := Option.map_eq_some_iff.mp hstep
    rw [← hout]
    exact holds_packet hi hh hnow hd hq hrun

theorem holds_run (hi : s.Inv) (hp : Along Promised s es) (hm : Along Meets s es)
    (hq : Along (Quiet hash vip) s es) (hrun : run s es = some s') (hh : s.Holds hash vip a d)
    (hnow : s'.lbTime.toNat < d.toNat) (hd : d.toNat < 2 ^ 31) : s'.Holds hash vip a d := by
  induction es generalizing s with
  | nil =>
    rw [← Option.some.inj hrun]
    exact hh
  | cons e es ih =>
    have hbefore := Nat.lt_of_le_of_lt (run_lbTime hi hp hm hrun) hnow
    obtain ⟨s₁, hstep, hinv⟩ := step_inv hi hp.1 hm.1
    rw [run, hstep, Option.bind_some] at hrun
    exact ih hinv (hp.2 s₁ hstep) (hm.2 s₁ hstep) (hq.2 s₁ hstep) hrun (holds_step hi hh hbefore hd hq.1 hstep)

theorem lbNodePacket_of_holds (hi : s.Inv) (hh : s.Holds hash vip a d) (hnow : s.lbTime.toNat < d.toNat)
    (hd : d.toNat < 2 ^ 31) : ∃ s', lbNodePacket s hash vip = some (s', a, .nextPacket) := by
  obtain ⟨h, hs, i, hentry⟩ := hh
  have hg := hi.table h hs
  have hmine := matches_of_entry hentry hnow hd
  have hcase := lbNodePacket_cases hs hg hash vip
  generalize lbNodePacket s hash vip = o at hcase ⊢
  cases hcase with
  | found j hmatch =>
    have hij := hg.unique hmine hmatch
    rw [← hij, hentry]
    exact ⟨_, rfl⟩
  | stored j hnone => exact absurd hmine (hnone i)
  | untracked hnone => exact absurd hmine (hnone i)

/-- Every count is the number of the entries of its server. A server without a count is in no entry. -/
structure LbMain.Counted (s : LbMain) : Prop where
  count : ∀ a : BitVec 32, a ≠ 0 → (s.asRefcount.counters a.toNat).toNat = s.slotCount a
  unreachable : ∀ a : BitVec 32, a ≠ 0 → s.asRefcount.counters a.toNat = 0 →
    ∀ h ∈ s.stickyHt, ∀ p, (h.entries p).value ≠ a

/-- A flow that now finds or makes an entry goes to the same server again, before the timeout and with the same size
of the table. Every step in between is as `P` says. -/
def LbMain.Sticky (P : LbMain → Event → Prop) (s : LbMain) : Prop :=
  ∀ hash vip h s₁ a c es s₂, s.stickyHt = some h → P s (.packet hash vip) →
    lbNodePacket s hash vip = some (s₁, a, c) → c ≠ .untrackedPacket →
    Along P s₁ es → Along (Quiet hash vip) s₁ es → run s₁ es = some s₂ →
    s₂.lbTime.toNat < s.lbTime.toNat + h.timeout.toNat →
    ∃ s₃, lbNodePacket s₂ hash vip = some (s₃, a, .nextPacket)

theorem Along.mono {P Q : LbMain → Event → Prop} (h : Along P s es) (hpq : ∀ s e, P s e → Q s e) : Along Q s es := by
  induction es generalizing s with
  | nil => trivial
  | cons e es ih => exact ⟨hpq s e h.1, fun s' hs' => ih (h.2 s' hs')⟩

theorem LbMain.Inv.counted (hi : s.Inv) : s.Counted where
  count := hi.count_eq
  unreachable a ha hzero h hs p hv := by
    have hcount := hi.count_eq a ha
    have hslot : s.slotCount a = h.values.count a := by rw [slotCount, hs, Option.elim_some]
    have hmem : a ∈ h.values := by
      rw [← hv]
      exact h.value_mem p
    have hpos := count_pos_iff.mpr hmem
    rw [hzero, hslot] at hcount
    rw [← hcount] at hpos
    exact Nat.lt_irrefl 0 hpos

def Allowed (s : LbMain) (e : Event) : Prop := Promised s e ∧ Meets s e

theorem LbMain.Inv.sticky (hi : s.Inv) : s.Sticky Allowed := by
  intro hash vip h s₁ a c es s₂ hs hok hrun hc halong hquiet hrun₂ hbefore
  obtain ⟨out, hout, hinv₁⟩ := packet_inv hi hs hok.2
  rw [hrun] at hout
  rw [← Option.some.inj hout] at hinv₁
  have hp := halong.mono fun _ _ h => h.1
  have hm := halong.mono fun _ _ h => h.2
  obtain ⟨s₂', hrun', hinv₂⟩ := run_inv hinv₁ hp hm
  rw [hrun₂] at hrun'
  rw [← Option.some.inj hrun'] at hinv₂
  have hsum := (hok.2 h hs).1
  have hnat : (s.lbTime + h.timeout).toNat = s.lbTime.toNat + h.timeout.toNat := by
    rw [BitVec.toNat_add]
    apply Nat.mod_eq_of_lt
    omega
  rw [← hnat] at hsum hbefore
  have hholds := holds_of_tracked hi hs hrun hc
  exact lbNodePacket_of_holds hinv₂ (holds_run hinv₁ hp hm hquiet hrun₂ hholds hbefore hsum) hbefore hsum

/-- A run of the node on any packets, services and sizes. -/
theorem lb_node_fn (vips : BitVec 32 → NewFlowTable) (es : List Event) (hok : Along Allowed (.init vips) es) :
    ∃ s, run (.init vips) es = some s ∧ s.Counted ∧ s.Sticky Allowed := by
  obtain ⟨s, hrun, hi⟩ := run_inv (init_inv vips) (hok.mono fun _ _ h => h.1) (hok.mono fun _ _ h => h.2)
  exact ⟨s, hrun, hi.counted, hi.sticky⟩

instance Promised.decidable (s : LbMain) : (e : Event) → Decidable (Promised s e)
  | .frame now => inferInstanceAs (Decidable (s.lbTime.toNat ≤ now.toNat ∧ now.toNat < 2 ^ 31))
  | .packet _ _ => inferInstanceAs (Decidable (s.stickyHt.isSome = true))
  | .conf _ _ => inferInstanceAs (Decidable True)
  | .newFlowTable _ _ => inferInstanceAs (Decidable True)

instance RefcountPerCpu.Keeps.decidable (r : RefcountPerCpu) (i : BitVec 32) : Decidable (r.Keeps i) :=
  inferInstanceAs (Decidable (_ → _ ∧ ∀ j < r.length, _))

instance Meets.decidable (s : LbMain) : (e : Event) → Decidable (Meets s e)
  | .conf buckets _ => inferInstanceAs (Decidable (isPow2 buckets = true → FitsMemory buckets))
  | .packet hash vip => inferInstanceAs (Decidable (∀ h ∈ s.stickyHt, _ ∧ (_ → ∀ i ∈ h.availableIndex hash s.lbTime,
      ∀ r ∈ vlibRefcountAdd s.asRefcount (lbHashAvailableValue h hash i) (-1), r.Keeps (s.newFlowAs hash vip))))
  | .newFlowTable _ _ => inferInstanceAs (Decidable True)
  | .frame _ => inferInstanceAs (Decidable True)

instance Allowed.decidable (s : LbMain) (e : Event) : Decidable (Allowed s e) :=
  inferInstanceAs (Decidable (Promised s e ∧ Meets s e))

instance Along.decidable (P : LbMain → Event → Prop) [∀ s e, Decidable (P s e)] :
    (s : LbMain) → (es : List Event) → Decidable (Along P s es)
  | _, [] => inferInstanceAs (Decidable True)
  | s, e :: es =>
    have : ∀ s', Decidable (Along P s' es) := fun s' => Along.decidable P s' es
    inferInstanceAs (Decidable (P s e ∧ ∀ s' ∈ step s e, Along P s' es))

def oneServer (a : BitVec 32) (h : a ≠ notFound) : NewFlowTable := ⟨0, fun _ => a, fun _ => h⟩

/-- Two services with a server each, and the counter of the second server is past the first counters. -/
def twoServices (vip : BitVec 32) : NewFlowTable :=
  if vip = 0 then oneServer 10 (by decide) else oneServer 40 (by decide)

theorem lb_node_fn_one : ∃ s, run (.init twoServices) [.conf 1 40, .frame 1, .packet 0 0, .frame 30, .packet 0 0] =
    some s ∧ s.Counted ∧ s.Sticky Allowed := by
  exact lb_node_fn twoServices [.conf 1 40, .frame 1, .packet 0 0, .frame 30, .packet 0 0] (by decide)

theorem oneBucket_fits : 64 * (BitVec.toNat (0 : BitVec 32) + 3) < 2 ^ 32 := by decide

theorem noCounters_beyond (i : Nat) (_ : 0 ≤ i) : (fun _ : Nat => (0 : BitVec 32)) i = 0 := rfl

/-- A table of one bucket just before `2 ^ 31`. -/
def lateState : LbMain where
  vips := twoServices
  perCpuStickyBuckets := 1
  flowTimeout := 40
  stickyHt := some { bucketsMask := 0, timeout := 40, fits := oneBucket_fits, entries := fun _ => ⟨0, 0, 0, 0⟩ }
  asRefcount := { counters := fun _ => 0, length := 0, beyond := noCounters_beyond }
  lbTime := 2147483640

theorem lb_node_fn_fails :
    (Along Promised (.init twoServices) [.conf 1 40, .frame 2147483640] ∧
      run (.init twoServices) [.conf 1 40, .frame 2147483640] = some lateState ∧ ¬ lateState.Sticky Promised) ∧
    Along Promised (.init twoServices) [.conf 1 40, .frame 1, .packet 0 0, .packet 1 1] ∧
      ∃ s, run (.init twoServices) [.conf 1 40, .frame 1, .packet 0 0, .packet 1 1] = some s ∧ ¬ s.Counted := by
  refine ⟨⟨by decide, rfl, ?_⟩, by decide, _, rfl, ?_⟩
  · intro hsticky
    obtain ⟨s₃, hs₃⟩ := hsticky 0 0 _ _ 10 .firstPacket [.newFlowTable 0 (twoServices 1)] _ rfl rfl rfl
      (by decide) ⟨trivial, fun _ _ => trivial⟩ ⟨trivial, fun _ _ => trivial⟩ rfl (by decide)
    have hserver : Option.map (fun out => out.2.1) (lbNodePacket _ 0 0) = some 10 :=
      congrArg (Option.map fun out => out.2.1) hs₃
    exact absurd hserver (by decide)
  · intro hcounted
    have hcount := hcounted.count 10 (by decide)
    exact absurd hcount (by decide)

end Vpp.Lb
