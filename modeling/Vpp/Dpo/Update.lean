import Vpp.Dpo.Normalize
import Mathlib.Algebra.Order.BigOperators.Group.List

namespace Vpp.Dpo
open Vpp.Lib List Option

variable {lb lb' : LoadBalance} {edge : DpoId → Nat} {nhs : List Path} {a : Arr} {bs : List Bucket}

structure LoadBalance.Ok (lb : LoadBalance) : Prop where
  count : lb.nBuckets < 2 ^ 16
  minus1 : lb.nBucketsMinus1 = (lb.nBuckets + 2 ^ 16 - 1) % 2 ^ 16
  inline : lb.bucketsInline.length = lbNumInlineBuckets
  outline : lbNumInlineBuckets < lb.nBuckets → lb.nBuckets ≤ lb.buckets.length
  noOutline : lb.nBuckets ≤ lbNumInlineBuckets → lb.buckets = []
  scratch : lb.scratch = []

/-- The load-balance has the buckets `bs`. -/
structure LoadBalance.Has (lb : LoadBalance) (bs : List Bucket) : Prop where
  ok : lb.Ok
  count : lb.nBuckets = bs.length
  minus1 : lb.nBucketsMinus1 = bs.length - 1
  buckets : (lb.arr lb.getBuckets).take bs.length = bs

theorem LoadBalance.has_inline (hcount : lb.nBuckets = bs.length) (hminus1 : lb.nBucketsMinus1 = bs.length - 1)
    (hpos : 0 < bs.length) (hle : bs.length ≤ lbNumInlineBuckets) (hout : lb.buckets = []) (hscratch : lb.scratch = [])
    (hlen : lb.bucketsInline.length = lbNumInlineBuckets) (htake : lb.bucketsInline.take bs.length = bs) :
    lb.Has bs := by
  have hsel : lb.getBuckets = .inline := if_pos (by omega)
  simp only [lbNumInlineBuckets] at hle
  refine ⟨⟨by omega, by omega, hlen, ?_, fun _ => hout, hscratch⟩, hcount, hminus1, ?_⟩
  · intro hlt
    simp only [lbNumInlineBuckets] at hlt
    omega
  · rw [hsel]
    exact htake

theorem LoadBalance.has_outline (hcount : lb.nBuckets = bs.length) (hminus1 : lb.nBucketsMinus1 = bs.length - 1)
    (hgt : lbNumInlineBuckets < bs.length) (hlt : bs.length < 2 ^ 16) (hscratch : lb.scratch = [])
    (hlen : lb.bucketsInline.length = lbNumInlineBuckets) (hle : bs.length ≤ lb.buckets.length)
    (htake : lb.buckets.take bs.length = bs) : lb.Has bs := by
  have hsel : lb.getBuckets = .outline := if_neg (by omega)
  refine ⟨⟨by omega, by omega, hlen, fun _ => by omega, ?_, hscratch⟩, hcount, hminus1, ?_⟩
  · intro hle'
    omega
  · rw [hsel]
    exact htake

theorem storeAll_setNBuckets (lb : LoadBalance) (hpos : 0 < n) (hlt : n < 2 ^ 16) :
    lb.storeAll (setNBuckets n) = { lb with nBuckets := n, nBucketsMinus1 := n - 1 } := by
  have hn : n % 2 ^ 16 = n := Nat.mod_eq_of_lt hlt
  have hm : (n + 2 ^ 32 - 1) % 2 ^ 16 = n - 1 := by omega
  simp only [setNBuckets, LoadBalance.storeAll_cons, LoadBalance.storeAll_nil, LoadBalance.store, hn, hm]

/-- Stores that write the buckets `bs` at the start of an array that has room for them. -/
def Fills (a : Arr) (bs : List Bucket) (filled : List Store) : Prop :=
  ∀ lb : LoadBalance, bs.length ≤ (lb.arr a).length → lb.storeAll filled = lb.setArr (splice (lb.arr a) 0 bs) a

theorem fills_fillBuckets (hlt : (bucketsOf edge nhs).length < 2 ^ 16) (a : Arr) :
    ∃ filled, fillBuckets edge a nhs 0 = some filled ∧ Fills a (bucketsOf edge nhs) filled := by
  have hweights : ∀ nh ∈ nhs, nh.pathWeight < 2 ^ 16 := by
    intro nh hmem
    have hle := single_le_sum (fun _ _ => Nat.zero_le _) _ (List.mem_map_of_mem (f := Path.pathWeight) hmem)
    rw [length_bucketsOf] at hlt
    omega
  obtain ⟨filled, hfill⟩ := fillBuckets_isSome hweights a 0
  exact ⟨filled, hfill, fun lb hle => storeAll_fillBuckets hfill (by omega) (by omega)⟩

theorem take_splice_zero (v bs : List Bucket) : (splice v 0 bs).take bs.length = bs := by
  have htake := take_splice (Nat.zero_le v.length) bs
  rwa [Nat.zero_add, take_zero, nil_append] at htake

theorem length_splice_zero {v bs : List Bucket} (h : bs.length ≤ v.length) : (splice v 0 bs).length = v.length :=
  length_splice (by omega)

theorem le_length_splice_zero {v bs : List Bucket} (h : bs.length ≤ v.length) : bs.length ≤ (splice v 0 bs).length := by
  rw [length_splice_zero h]
  exact h

section Paths
variable {filled : List Store}

theorem Fills.inline (h : Fills .inline bs filled) (lb : LoadBalance) (hle : bs.length ≤ lb.bucketsInline.length) :
    lb.storeAll filled = { lb with bucketsInline := splice lb.bucketsInline 0 bs } := h lb hle

theorem Fills.outline (h : Fills .outline bs filled) (lb : LoadBalance) (hle : bs.length ≤ lb.buckets.length) :
    lb.storeAll filled = { lb with buckets := splice lb.buckets 0 bs } := h lb hle

theorem Fills.scratch (h : Fills .scratch bs filled) (lb : LoadBalance) (hle : bs.length ≤ lb.scratch.length) :
    lb.storeAll filled = { lb with scratch := splice lb.scratch 0 bs } := h lb hle

variable (lbmi : Nat)

theorem LoadBalance.Ok.first_inline (h : lb.Ok) (hz : lb.nBuckets = 0) (hf : Fills .inline bs filled)
    (hpos : 0 < bs.length) (hle : bs.length ≤ lbNumInlineBuckets) :
    (lb.storeAll (setNBuckets bs.length ++ [] ++ filled ++ [.map lbmi])).Has bs := by
  have hlen := h.inline
  have hout := h.noOutline (by omega)
  have h16 : bs.length < 2 ^ 16 := by
    simp only [lbNumInlineBuckets] at hle
    omega
  have hroom : bs.length ≤ lb.bucketsInline.length := by omega
  rw [append_nil, storeAll_append, storeAll_append, storeAll_setNBuckets lb hpos h16, hf.inline]
  · exact has_inline rfl rfl hpos hle hout h.scratch ((length_splice_zero hroom).trans hlen) (take_splice_zero _ _)
  · exact hroom

theorem LoadBalance.Ok.first_outline (h : lb.Ok) (hz : lb.nBuckets = 0) (hf : Fills .outline bs filled)
    (hgt : lbNumInlineBuckets < bs.length) (hlt : bs.length < 2 ^ 16) :
    (lb.storeAll (setNBuckets bs.length ++ [.validate .outline bs.length] ++ filled ++ [.map lbmi])).Has bs := by
  have hout := h.noOutline (by omega)
  have hroom : bs.length ≤ (lb.buckets ++ List.replicate (bs.length - lb.buckets.length) (none : Bucket)).length := by
    simp [hout]
  rw [storeAll_append, storeAll_append, storeAll_append, storeAll_setNBuckets lb (by omega) hlt, hf.outline]
  · exact has_outline rfl rfl hgt hlt h.scratch h.inline (le_length_splice_zero hroom)
      (take_splice_zero _ _)
  · exact hroom

theorem LoadBalance.Ok.same_inline (h : lb.Ok) (heq : lb.nBuckets = bs.length) (hf : Fills .inline bs filled)
    (hpos : 0 < bs.length) (hle : bs.length ≤ lbNumInlineBuckets) :
    (lb.storeAll (filled ++ [.map lbmi])).Has bs := by
  have hlen := h.inline
  have hminus1 := h.minus1
  have hcount := h.count
  have hroom : bs.length ≤ lb.bucketsInline.length := by omega
  rw [storeAll_append, hf.inline]
  · exact has_inline heq (show lb.nBucketsMinus1 = _ by omega) hpos hle (h.noOutline (by omega)) h.scratch
      ((length_splice_zero hroom).trans hlen) (take_splice_zero _ _)
  · exact hroom

theorem LoadBalance.Ok.same_outline (h : lb.Ok) (heq : lb.nBuckets = bs.length) (hf : Fills .outline bs filled)
    (hgt : lbNumInlineBuckets < bs.length) :
    (lb.storeAll (filled ++ [.map lbmi])).Has bs := by
  have hminus1 := h.minus1
  have hcount := h.count
  have hroom : bs.length ≤ lb.buckets.length := heq ▸ h.outline (by omega)
  rw [storeAll_append, hf.outline]
  · exact has_outline heq (show lb.nBucketsMinus1 = _ by omega) hgt (by omega) h.scratch h.inline
      (le_length_splice_zero hroom) (take_splice_zero _ _)
  · exact hroom

theorem LoadBalance.Ok.grow_across (h : lb.Ok) (hold : lb.nBuckets ≤ lbNumInlineBuckets)
    (hf : Fills .outline bs filled) (hgt : lbNumInlineBuckets < bs.length) (hlt : bs.length < 2 ^ 16) :
    (lb.storeAll ([.validate .outline bs.length] ++ filled ++ setNBuckets bs.length ++
      writeBuckets .inline 0 lbNumInlineBuckets none ++ [.map lbmi])).Has bs := by
  have hout := h.noOutline hold
  have hlen := h.inline
  have hroom : bs.length ≤ (lb.buckets ++ List.replicate (bs.length - lb.buckets.length) (none : Bucket)).length := by
    simp [hout]
  rw [storeAll_append, storeAll_append, storeAll_append, storeAll_append, hf.outline,
    storeAll_setNBuckets _ (by omega) hlt, storeAll_run]
  · refine has_outline rfl rfl hgt hlt h.scratch ?_ (le_length_splice_zero hroom) (take_splice_zero _ _)
    exact (length_splice (by rw [length_replicate, Nat.zero_add]; exact Nat.le_of_eq hlen.symm)).trans hlen
  · rw [Nat.zero_add]
    exact Nat.le_of_eq hlen.symm
  · exact hroom

theorem LoadBalance.Ok.grow_inline (h : lb.Ok) (hold : lb.nBuckets ≤ lbNumInlineBuckets)
    (hf : Fills .inline bs filled) (hpos : 0 < bs.length) (hle : bs.length ≤ lbNumInlineBuckets) :
    (lb.storeAll (filled ++ setNBuckets bs.length ++ [.map lbmi])).Has bs := by
  have hlen := h.inline
  have h16 : bs.length < 2 ^ 16 := by
    simp only [lbNumInlineBuckets] at hle
    omega
  have hroom : bs.length ≤ lb.bucketsInline.length := by omega
  rw [storeAll_append, storeAll_append, hf.inline, storeAll_setNBuckets _ hpos h16]
  · exact has_inline rfl rfl hpos hle (h.noOutline hold) h.scratch ((length_splice_zero hroom).trans hlen)
      (take_splice_zero _ _)
  · exact hroom

theorem LoadBalance.Ok.grow_outline (h : lb.Ok) (hf : Fills .scratch bs filled)
    (hgt : lbNumInlineBuckets < bs.length) (hlt : bs.length < 2 ^ 16) :
    (lb.storeAll ([.validate .scratch bs.length] ++ filled ++ [.install] ++ setNBuckets bs.length ++
      writeBuckets .scratch 0 lb.buckets.length none ++ [.free .scratch] ++ [.map lbmi])).Has bs := by
  have hscratch := h.scratch
  have hroom : bs.length ≤ (lb.scratch ++ List.replicate (bs.length - lb.scratch.length) (none : Bucket)).length := by
    simp [hscratch]
  rw [storeAll_append, storeAll_append, storeAll_append, storeAll_append, storeAll_append, storeAll_append,
    hf.scratch, storeAll_setNBuckets _ (by omega) hlt, storeAll_run]
  · exact has_outline rfl rfl hgt hlt rfl h.inline (le_length_splice_zero hroom) (take_splice_zero _ _)
  · rw [Nat.zero_add]
    exact Nat.le_refl _
  · exact hroom

theorem LoadBalance.Ok.shrink_across (h : lb.Ok) (hf : Fills .inline bs filled)
    (hpos : 0 < bs.length) (hle : bs.length ≤ lbNumInlineBuckets) :
    (lb.storeAll ([.map lbmi] ++ filled ++ setNBuckets bs.length ++
      writeBuckets .outline 0 lb.buckets.length none ++ [.free .outline])).Has bs := by
  have hlen := h.inline
  have h16 : bs.length < 2 ^ 16 := by
    simp only [lbNumInlineBuckets] at hle
    omega
  have hroom : bs.length ≤ lb.bucketsInline.length := by omega
  rw [storeAll_append, storeAll_append, storeAll_append, storeAll_append, hf.inline,
    storeAll_setNBuckets _ hpos h16, storeAll_run]
  · exact has_inline rfl rfl hpos hle rfl h.scratch ((length_splice_zero hroom).trans hlen) (take_splice_zero _ _)
  · rw [Nat.zero_add]
    exact Nat.le_refl _
  · exact hroom

theorem take_splice_splice {v bs cs : List Bucket} (h : bs.length ≤ v.length) :
    (splice (splice v 0 bs) bs.length cs).take bs.length = bs := by
  rw [take_splice_of_le (Nat.le_refl _) (le_length_splice_zero h), take_splice_zero]

theorem length_splice_splice {v bs cs : List Bucket} (h : bs.length + cs.length ≤ v.length) :
    (splice (splice v 0 bs) bs.length cs).length = v.length := by
  have hzero := length_splice_zero (show bs.length ≤ v.length by omega)
  rw [length_splice (by omega), hzero]

theorem LoadBalance.Ok.shrink_inline (h : lb.Ok) (hold : lb.nBuckets ≤ lbNumInlineBuckets)
    (hlt : bs.length < lb.nBuckets) (hf : Fills .inline bs filled) (hpos : 0 < bs.length) :
    (lb.storeAll ([.map lbmi] ++ setNBuckets bs.length ++ filled ++
      writeBuckets .inline bs.length (lb.nBuckets - bs.length) none)).Has bs := by
  have hlen := h.inline
  have hcount := h.count
  have hroom : bs.length ≤ lb.bucketsInline.length := by omega
  have hrest : bs.length + (List.replicate (lb.nBuckets - bs.length) (none : Bucket)).length ≤
      lb.bucketsInline.length := by
    rw [length_replicate]
    omega
  rw [storeAll_append, storeAll_append, storeAll_append, storeAll_setNBuckets _ hpos (by omega), hf.inline,
    storeAll_run]
  · exact has_inline rfl rfl hpos (by omega) (h.noOutline hold) h.scratch ((length_splice_splice hrest).trans hlen)
      (take_splice_splice hroom)
  · show _ ≤ (splice lb.bucketsInline 0 bs).length
    rw [length_splice_zero hroom]
    omega
  · exact hroom

theorem LoadBalance.Ok.shrink_outline (h : lb.Ok) (hlt : bs.length < lb.nBuckets)
    (hf : Fills .outline bs filled) (hgt : lbNumInlineBuckets < bs.length) :
    (lb.storeAll ([.map lbmi] ++ setNBuckets bs.length ++ filled ++
      writeBuckets .outline bs.length (lb.nBuckets - bs.length) none)).Has bs := by
  have hout := h.outline (by omega)
  have hcount := h.count
  have hroom : bs.length ≤ lb.buckets.length := by omega
  have hrest : bs.length + (List.replicate (lb.nBuckets - bs.length) (none : Bucket)).length ≤
      lb.buckets.length := by
    rw [length_replicate]
    omega
  rw [storeAll_append, storeAll_append, storeAll_append, storeAll_setNBuckets _ (by omega) (by omega), hf.outline,
    storeAll_run]
  · refine has_outline rfl rfl hgt (by omega) h.scratch h.inline ?_ (take_splice_splice hroom)
    exact Nat.le_trans hroom (Nat.le_of_eq (length_splice_splice hrest).symm)
  · show _ ≤ (splice lb.buckets 0 bs).length
    rw [length_splice_zero hroom]
    omega
  · exact hroom

end Paths

/-- Whatever the number of buckets before, an update leaves the buckets that the next hops ask for. -/
theorem LoadBalance.Ok.update (h : lb.Ok) (hpos : 0 < (bucketsOf edge nhs).length)
    (hlt : (bucketsOf edge nhs).length < 2 ^ 16) (lbmi : Nat) :
    ∃ stores, updateStores edge lb nhs (bucketsOf edge nhs).length lbmi = some stores ∧
      (lb.storeAll stores).Has (bucketsOf edge nhs) := by
  obtain ⟨inl, hinl, hfinl⟩ := fills_fillBuckets hlt .inline
  obtain ⟨out, hout, hfout⟩ := fills_fillBuckets hlt .outline
  obtain ⟨scr, hscr, hfscr⟩ := fills_fillBuckets hlt .scratch
  have hmod := Nat.mod_eq_of_lt hlt
  generalize bucketsOf edge nhs = bs at *
  have hsel_in (hle : lb.nBuckets ≤ lbNumInlineBuckets) : lb.getBuckets = .inline := if_pos hle
  have hsel_out (hgt : ¬ lb.nBuckets ≤ lbNumInlineBuckets) : lb.getBuckets = .outline := if_neg hgt
  simp only [updateStores, hmod]
  by_cases hz : 0 = lb.nBuckets
  · rw [if_pos hz]
    by_cases hle : bs.length ≤ lbNumInlineBuckets
    · simp only [if_pos hle, if_neg (not_not.mpr hle), hinl]
      exact ⟨_, rfl, h.first_inline lbmi hz.symm hfinl hpos hle⟩
    · simp only [if_neg hle, if_pos hle, hout]
      exact ⟨_, rfl, h.first_outline lbmi hz.symm hfout (by omega) hlt⟩
  · rw [if_neg hz]
    by_cases hold : lb.nBuckets ≤ lbNumInlineBuckets
    · rw [hsel_in hold]
      by_cases heq : bs.length = lb.nBuckets
      · rw [if_pos heq, hinl]
        exact ⟨_, rfl, h.same_inline lbmi heq.symm hfinl hpos (by omega)⟩
      · rw [if_neg heq]
        by_cases hgt : bs.length > lb.nBuckets
        · rw [if_pos hgt]
          by_cases hn : bs.length ≤ lbNumInlineBuckets
          · rw [if_neg (by omega), if_pos hn, hinl]
            exact ⟨_, rfl, h.grow_inline lbmi hold hfinl hpos hn⟩
          · rw [if_pos (by omega), hout]
            exact ⟨_, rfl, h.grow_across lbmi hold hfout (by omega) hlt⟩
        · rw [if_neg hgt, if_neg (by omega), hinl]
          exact ⟨_, rfl, h.shrink_inline lbmi hold (by omega) hfinl hpos⟩
    · rw [hsel_out hold]
      by_cases heq : bs.length = lb.nBuckets
      · rw [if_pos heq, hout]
        exact ⟨_, rfl, h.same_outline lbmi heq.symm hfout (by omega)⟩
      · rw [if_neg heq]
        by_cases hgt : bs.length > lb.nBuckets
        · rw [if_pos hgt, if_neg (by omega), if_neg (by omega), hscr]
          exact ⟨_, rfl, h.grow_outline lbmi hfscr (by omega) hlt⟩
        · rw [if_neg hgt]
          by_cases hn : bs.length ≤ lbNumInlineBuckets
          · rw [if_pos (by omega), hinl]
            exact ⟨_, rfl, h.shrink_across lbmi hfinl hpos hn⟩
          · rw [if_neg (by omega), hout]
            exact ⟨_, rfl, h.shrink_outline lbmi (by omega) hfout (by omega)⟩

section Weights
variable {qsort : List Path → List Path} {tolerance : ℚ} {drop : DpoId} {raw : List Path} {lbmi : Nat}

/-- The normalizer returns normalized weights, and the update gives each path its share of the buckets. -/
def Balances (qsort : List Path → List Path) (tolerance : ℚ) (edge : DpoId → Nat) (drop : DpoId)
    (lb : LoadBalance) (raw : List Path) (lbmi : Nat) : Prop :=
  ∃ nhs nAdj lb', ipMultipathNormalizeNextHops qsort tolerance raw = some (nhs, nAdj) ∧ Normalized raw nhs nAdj ∧
    loadBalanceMultipathUpdate qsort tolerance edge drop lb raw lbmi = some lb' ∧
    lb'.nBuckets = nAdj ∧ lb'.nBucketsMinus1 = nAdj - 1 ∧
    (lb'.arr lb'.getBuckets).take nAdj = bucketsOf edge nhs

theorem nextHopFixup_of_ne_nil (h : raw ≠ []) : nextHopFixup drop raw = raw :=
  if_neg fun hz => h (length_eq_zero_iff.mp hz)

theorem nBuckets_update_lt (h : lb.Ok)
    (hu : loadBalanceMultipathUpdate qsort tolerance edge drop lb raw lbmi = some lb') : lb'.nBuckets < 2 ^ 16 := by
  rw [loadBalanceMultipathUpdate] at hu
  obtain ⟨⟨nhs, n⟩, -, hrest⟩ := bind_eq_some_iff.mp hu
  obtain ⟨stores, -, he⟩ := bind_eq_some_iff.mp hrest
  cases he
  exact LoadBalance.nBuckets_storeAll_lt h.count stores

/-- The update does what it is for exactly when a block that passes the test fits the 16-bit counters. -/
theorem load_balance_update_balances (hq : ∀ l, (qsort l).Perm l) (ht0 : 0 < tolerance) (ht1 : tolerance < 1)
    (hraw : PathsOk raw) (h : lb.Ok) :
    Balances qsort tolerance edge drop lb raw lbmi ↔ FitsBuckets qsort tolerance raw := by
  obtain ⟨nhs, nAdj, hnorm, hfits, hno⟩ := ipMultipathNormalizeNextHops_spec hq ht0 ht1 hraw
  constructor
  · rintro ⟨nhs', nAdj', lb', hnorm', hn, hu, hcount, -, -⟩
    by_contra hnot
    cases hnorm.symm.trans hnorm'
    obtain ⟨j, hj⟩ := hn.pow2
    have hpos := Nat.two_pow_pos j
    have hlt := nBuckets_update_lt h hu
    rcases hno hnot with hz | hge
    · omega
    · omega
  · intro hf
    obtain ⟨hlt, hn⟩ := hfits hf
    have hlen : (bucketsOf edge nhs).length = nAdj := (length_bucketsOf edge nhs).trans hn.sum_eq
    have hpos : 0 < nAdj := Nat.lt_of_lt_of_le (length_pos_iff.mpr hraw.nonempty) hn.length_le
    obtain ⟨stores, hstores, hhas⟩ := h.update (hlen ▸ hpos) (hlen ▸ hlt) lbmi
    rw [hlen] at hstores
    refine ⟨nhs, nAdj, lb.storeAll stores, hnorm, hn, ?_, ?_, ?_, ?_⟩
    · rw [loadBalanceMultipathUpdate, nextHopFixup_of_ne_nil hraw.nonempty, hnorm]
      simp only [bind_eq_bind, bind_some, hstores]
    · rw [hhas.count, hlen]
    · rw [hhas.minus1, hlen]
    · rw [← hlen, hhas.buckets]

/-- A load-balance as it is created, with no buckets. -/
def created : LoadBalance := ⟨0, 2 ^ 16 - 1, 0, [none, none, none, none], [], []⟩

theorem ok_created : created.Ok :=
  ⟨by decide, by decide, rfl, fun h => absurd h (by decide), fun _ => rfl, rfl⟩

def dpo (index : Nat) : DpoId := ⟨1, 0, 0, index⟩

/-- Three paths of weights one, one and two take four buckets. -/
theorem load_balance_update_balances_three :
    Balances id (1 / 10) (fun _ => 7) (dpo 0) created [⟨dpo 1, 1⟩, ⟨dpo 2, 1⟩, ⟨dpo 3, 2⟩] 0 :=
  (load_balance_update_balances (fun _ => .refl _) (by norm_num) (by norm_num)
    ⟨by decide, by decide, by decide⟩ ok_created).mpr ⟨2, by decide, by decide, by decide +kernel⟩

/-- Two paths of weights 1 and 65535 take 65536 buckets, which the counters do not hold. -/
theorem load_balance_update_overflows :
    ¬ Balances id (1 / 10) (fun _ => 7) (dpo 0) created [⟨dpo 1, 1⟩, ⟨dpo 2, 65535⟩] 0 := by
  rintro ⟨nhs, nAdj, lb', hnorm, -, hu, hcount, -, -⟩
  have hn : (ipMultipathNormalizeNextHops id (1 / 10) [⟨dpo 1, 1⟩, ⟨dpo 2, 65535⟩]).map Prod.snd = some 65536 := by
    decide +kernel
  have hlt := nBuckets_update_lt ok_created hu
  rw [hnorm] at hn
  have hn' : nAdj = 65536 := Option.some.inj hn
  omega

end Weights

end Vpp.Dpo
