import Vpp.Infra.HashTable

namespace Vpp.Infra
open Vpp.Lib List Option

theorem hashCreate_spec (hd : HashHeader) (hn : n ≤ 2 ^ 30) :
    ∃ h : Hash V, hashCreate n hd = some h ∧ h.toHashHeader = hd ∧ h.elts = 0 ∧ h.pairs = [] ∧ h.Good ∧
      n ≤ h.buckets.length := by
  have hpos : 0 < max n 64 := Nat.lt_of_lt_of_le (by decide) (Nat.le_max_right n 64)
  have hsix : 6 ≤ maxLog2 (max n 64) := by
    by_contra hlt
    have hle : maxLog2 (max n 64) ≤ 5 := by omega
    have h64 := (Nat.le_max_right n 64).trans ((maxLog2_le_iff hpos).mp hle)
    exact absurd h64 (by decide)
  have hthirty : maxLog2 (max n 64) ≤ 30 := (maxLog2_le_iff hpos).mpr (Nat.max_le.mpr ⟨hn, by decide⟩)
  have hsize : max n 64 ≤ 2 ^ maxLog2 (max n 64) := (maxLog2_le_iff hpos).mp le_rfl
  have hfits : 2 ^ maxLog2 (max n 64) < 2 ^ 32 := Nat.pow_lt_pow_right Nat.one_lt_two (by omega)
  have hempty : (List.replicate (2 ^ maxLog2 (max n 64)) (.empty : HashBucket V)).flatMap HashBucket.pairs = [] := by
    rw [flatMap_eq_nil_iff]
    intro b hb
    rw [eq_of_mem_replicate hb]
    rfl
  refine ⟨_, if_pos hfits, rfl, rfl, hempty, ?_, ?_⟩
  · apply Hash.Good.mk
    · exact ⟨_, hsix, hthirty, length_replicate⟩
    · intro i b hb p hp
      rw [eq_of_mem_replicate (mem_of_getElem? hb)] at hp
      cases hp
    · intro b hb
      rw [eq_of_mem_replicate hb]
      trivial
    · rw [Hash.pairs, hempty]
      exact .nil
    · rw [Hash.pairs, hempty]
      rfl
  · rw [length_replicate]
    exact (Nat.le_max_left n 64).trans hsize

/-- A set that adds pairs one by one, and what it keeps of the table besides. -/
structure Adds (set3 : HashPtr V → HashPair V → Option (HashPtr V)) (hd : HashHeader) (bound : Nat)
    (I : Hash V → Prop) : Prop where
  step : ∀ h p, h.Good → h.toHashHeader = hd → I h → h.elts < bound → (∀ q ∈ h.pairs, ¬ hd.equal q.1 p.1 = true) →
    ∃ h', set3 (some h) p = some (some h') ∧ h'.toHashHeader = hd ∧ h'.pairs.Perm (p :: h.pairs) ∧ h'.Good ∧ I h'

theorem Adds.foldlM {set3 : HashPtr V → HashPair V → Option (HashPtr V)} (ha : Adds set3 hd bound I) {h : Hash V}
    (hg : h.Good) (hh : h.toHashHeader = hd) (hI : I h) (hdist : KeyDistinct hd.equal (h.pairs ++ ps))
    (hbound : h.elts + ps.length ≤ bound) (he : IsEqv hd.equal) :
    ∃ h', ps.foldlM set3 (some h) = some (some h') ∧ h'.toHashHeader = hd ∧ h'.pairs.Perm (h.pairs ++ ps) ∧ h'.Good ∧
      I h' := by
  induction ps generalizing h with
  | nil => exact ⟨h, rfl, hh, by rw [append_nil], hg, hI⟩
  | cons p ps ih =>
    have hnew : ∀ q ∈ h.pairs, ¬ hd.equal q.1 p.1 = true := fun q hq =>
      (pairwise_append.mp hdist).2.2 q hq p mem_cons_self
    rw [length_cons] at hbound
    obtain ⟨h₁, hset, hh₁, hperm₁, hg₁, hI₁⟩ := ha.step h p hg hh hI (by omega) hnew
    have hmid : (h₁.pairs ++ ps).Perm (h.pairs ++ p :: ps) :=
      (hperm₁.append_right ps).trans perm_middle.symm
    have hlen : h₁.elts = h.elts + 1 := by
      rw [hg₁.elts_eq, hperm₁.length_eq, length_cons, hg.elts_eq]
    obtain ⟨h₂, hrun, hh₂, hperm₂, hg₂, hI₂⟩ := ih hg₁ hh₁ hI₁ (hdist.perm he hmid.symm) (by omega)
    refine ⟨h₂, ?_, hh₂, hperm₂.trans hmid, hg₂, hI₂⟩
    rw [foldlM_cons, hset]
    exact hrun

theorem hashResizeInternal_spec {set3 : HashPtr V → HashPair V → Option (HashPtr V)} {h : Hash V} (hg : h.Good)
    (ha : Adds set3 h.toHashHeader h.elts I) (he : IsEqv h.equal) (hpos : 0 < n) (hn : n ≤ 2 ^ 30)
    (hI : ∀ new : Hash V, new.toHashHeader = h.toHashHeader → new.elts = 0 → 64 ≤ new.buckets.length →
      n ≤ new.buckets.length → I new) :
    ∃ h', hashResizeInternal set3 (some h) n = some (some h') ∧ h'.toHashHeader = h.toHashHeader ∧
      h'.pairs.Perm h.pairs ∧ h'.Good ∧ I h' := by
  obtain ⟨new, hcreate, hheader, helts, hpairs, hgood, hlen⟩ := hashCreate_spec (V := V) h.toHashHeader hn
  have h64 : 64 ≤ new.buckets.length := by
    obtain ⟨k, hk, _, hk'⟩ := hgood.pow
    rw [hk']
    exact Nat.pow_le_pow_right Nat.two_pos hk
  have hdist : KeyDistinct h.equal (new.pairs ++ h.pairs) := by
    rw [hpairs]
    exact hg.distinct
  have hbound : new.elts + h.pairs.length ≤ h.elts := by
    rw [helts, Nat.zero_add, hg.elts_eq]
  obtain ⟨h', hrun, hh', hperm, hg', hI'⟩ := ha.foldlM hgood hheader (hI new hheader helts h64 hlen) hdist hbound he
  rw [hpairs] at hperm
  refine ⟨h', ?_, hh', hperm, hg', hI'⟩
  rw [hashResizeInternal, if_pos hpos, map_some, getD_some, hcreate]
  exact hrun

def Hash.Calm (h : Hash V) : Prop := h.flags.noAutoGrow = true ∨ 4 * (h.elts + 1) ≤ 3 * h.buckets.length

/-- The number of pairs for which a table stays below `2 ^ 31` buckets, and an array of them below `2 ^ 31` bytes. -/
structure HashHeader.Holds (hd : HashHeader) (n : Nat) : Prop where
  small : n < 3 * 2 ^ 28
  room : hd.Room n

theorem HashHeader.Holds.mono {hd : HashHeader} (h : hd.Holds n) (hle : m ≤ n) : hd.Holds m :=
  ⟨Nat.lt_of_le_of_lt hle h.small, h.room.mono hle⟩

variable {h : Hash V}

theorem Hash.Good.length_le (hg : h.Good) : h.buckets.length ≤ 2 ^ 30 := by
  obtain ⟨k, _, hk, hlen⟩ := hg.pow
  rw [hlen]
  exact Nat.pow_le_pow_right Nat.two_pos hk

theorem Hash.Good.length_ge (hg : h.Good) : 64 ≤ h.buckets.length := by
  obtain ⟨k, hk, _, hlen⟩ := hg.pow
  rw [hlen]
  exact Nat.pow_le_pow_right Nat.two_pos hk

theorem grows_iff (hg : h.Good) :
    (!h.flags.noAutoGrow ∧ 4 * (h.elts + 1) > vecLen32 (3 * h.buckets.length)) ↔ ¬ h.Calm := by
  have hlen := hg.length_le
  have hvec : vecLen32 (3 * h.buckets.length) = 3 * h.buckets.length := by
    apply Nat.mod_eq_of_lt
    omega
  rw [hvec, Hash.Calm, not_or, Nat.not_le, Bool.not_eq_true, Bool.not_eq_true']

theorem double_le (hg : h.Good) (hc : ¬ h.Calm) (hholds : h.Holds h.elts) :
    vecLen32 (2 * h.buckets.length) = 2 * h.buckets.length ∧ 2 * h.buckets.length ≤ 2 ^ 30 := by
  have hmore := (not_or.mp hc).2
  have hsmall := hholds.small
  obtain ⟨k, _, _, hlen⟩ := hg.pow
  have hlt : 2 ^ k < 2 ^ 30 := by
    rw [← hlen]
    omega
  have hk : k + 1 ≤ 30 := (Nat.pow_lt_pow_iff_right Nat.one_lt_two).mp hlt
  have hdouble : 2 * h.buckets.length ≤ 2 ^ 30 := by
    rw [hlen, ← Nat.pow_succ']
    exact Nat.pow_le_pow_right Nat.two_pos hk
  apply And.intro (Nat.mod_eq_of_lt _) hdouble
  omega

structure SetTo (h : Hash V) (key : Uword) (value : V) (h' : Hash V) : Prop where
  header : h'.toHashHeader = h.toHashHeader
  perm : h'.pairs.Perm (putKey h.equal h.pairs key value)
  good : h'.Good

theorem SetTo.elts_le (hs : SetTo h key value h') (hg : h.Good) : h'.elts ≤ h.elts + 1 := by
  rw [hs.good.elts_eq, hs.perm.length_eq, length_putKey, hg.elts_eq]
  split <;> omega

theorem SetTo.add (hs : SetTo h key value h') (hnew : ∀ q ∈ h.pairs, ¬ h.equal q.1 key = true) :
    h'.pairs.Perm ((key, value) :: h.pairs) := by
  have hperm := hs.perm
  rw [putKey_of_none hnew] at hperm
  exact hperm

def setPair (fuel : Nat) (v : HashPtr V) (p : HashPair V) : Option (HashPtr V) := (hashSet3 fuel v p.1 p.2).map Prod.fst

theorem hashSet3_cases (hg : h.Good) (hr : h.Respects) (hholds : h.Holds (h.elts + 1)) (fuel : Nat)
    (key : Uword) (value : V) :
    ∃ h₁, SetTo h key value h₁ ∧ h₁.buckets.length = h.buckets.length ∧
      (h₁.Calm → hashSet3 (fuel + 1) (some h) key value = some (some h₁, (lookKey h.equal h.pairs key).map Prod.snd)) ∧
      (¬ h₁.Calm → hashSet3 (fuel + 1) (some h) key value = (hashResizeInternal (setPair fuel) (some h₁)
        (vecLen32 (2 * h₁.buckets.length))).map fun v => (v, (lookKey h.equal h.pairs key).map Prod.snd)) := by
  obtain ⟨h₁, hset, hsame, hperm, hg₁⟩ := lookupSet_spec hg hr hholds.room key value
  refine ⟨h₁, ⟨hsame.header, hperm, hg₁⟩, hsame.length, ?_, ?_⟩
  · intro hc
    have hnot : ¬ _ := fun hgrow => (grows_iff hg₁).mp hgrow hc
    rw [hashSet3, elim_some, bind_some, hset, bind_some]
    exact if_neg hnot
  · intro hc
    rw [hashSet3, elim_some, bind_some, hset, bind_some]
    exact if_pos ((grows_iff hg₁).mpr hc)

theorem adds_roomy {hd : HashHeader} (hr : hd.Respects) (hholds : hd.Holds bound) (fuel : Nat) :
    Adds (V := V) (setPair (fuel + 1)) hd bound fun h => 4 * (bound + 1) ≤ 3 * h.buckets.length := by
  apply Adds.mk
  intro h p hg hh hI hlt hnew
  rw [← hh] at hr hholds hnew
  obtain ⟨h₁, hset, hlen, hcalm, _⟩ := hashSet3_cases hg hr (hholds.mono hlt) fuel p.1 p.2
  have hle := hset.elts_le hg
  have hI₁ : 4 * (bound + 1) ≤ 3 * h₁.buckets.length := by
    rw [hlen]
    exact hI
  have hc : h₁.Calm := by
    apply Or.inr
    omega
  refine ⟨h₁, ?_, hset.header.trans hh, hset.add hnew, hset.good, hI₁⟩
  rw [setPair, hcalm hc]
  rfl

/-- A resize in a set of a calm table has no resize in it. -/
theorem hashSet3_calm (hg : h.Good) (hr : h.Respects) (hholds : h.Holds (h.elts + 1)) (hc : h.Calm)
    (fuel : Nat) (key : Uword) (value : V) :
    ∃ h', hashSet3 (fuel + 2) (some h) key value = some (some h', (lookKey h.equal h.pairs key).map Prod.snd) ∧
      SetTo h key value h' ∧ h'.Calm := by
  obtain ⟨h₁, hset, hlen, hcalm, hgrow⟩ := hashSet3_cases hg hr hholds (fuel + 1) key value
  by_cases hc₁ : h₁.Calm
  · exact ⟨h₁, hcalm hc₁, hset, hc₁⟩
  · have hle := hset.elts_le hg
    have h64 := hg.length_ge
    have hr₁ : h₁.Respects := by
      rw [hset.header]
      exact hr
    have hholds₁ : h₁.Holds h₁.elts := by
      rw [hset.header]
      exact hholds.mono hle
    obtain ⟨hvec, hdouble⟩ := double_le hset.good hc₁ hholds₁
    have hold : 4 * (h.elts + 1) ≤ 3 * h.buckets.length := by
      apply hc.resolve_left
      intro hno
      apply hc₁
      apply Or.inl
      rw [hset.header]
      exact hno
    obtain ⟨h', hrun, hheader, hperm, hgood, hroomy⟩ := hashResizeInternal_spec hset.good
      (adds_roomy hr₁ hholds₁ fuel) hr₁.eqv (by omega) hdouble (fun new _ _ _ hnew => by omega)
    refine ⟨h', ?_, ⟨hheader.trans hset.header, hperm.trans hset.perm, hgood⟩, ?_⟩
    · rw [hgrow hc₁, hvec, hrun]
      rfl
    · apply Or.inr
      rw [hgood.elts_eq, hperm.length_eq, ← hset.good.elts_eq]
      exact hroomy

theorem adds_calm {hd : HashHeader} (hr : hd.Respects) (hholds : hd.Holds bound) (fuel : Nat) :
    Adds (V := V) (setPair (fuel + 2)) hd bound Hash.Calm := by
  apply Adds.mk
  intro h p hg hh hc hlt hnew
  rw [← hh] at hr hholds hnew
  obtain ⟨h', hrun, hset, hc'⟩ := hashSet3_calm hg hr (hholds.mono hlt) hc fuel p.1 p.2
  refine ⟨h', ?_, hset.header.trans hh, hset.add hnew, hset.good, hc'⟩
  rw [setPair, hrun]
  rfl

theorem calm_of_empty {new : Hash V} (helts : new.elts = 0) (h64 : 64 ≤ new.buckets.length) : new.Calm := by
  apply Or.inr
  omega

theorem hashResize_spec (hg : h.Good) (hr : h.Respects) (hholds : h.Holds h.elts) (hpos : 0 < n)
    (hn : n ≤ 2 ^ 30) :
    ∃ h', hashResize (some h) n = some (some h') ∧ h'.toHashHeader = h.toHashHeader ∧ h'.pairs.Perm h.pairs ∧
        h'.Good := by
  obtain ⟨h', hrun, hheader, hperm, hgood, _⟩ := hashResizeInternal_spec hg (adds_calm hr hholds 0) hr.eqv hpos hn
    fun new _ helts h64 _ => calm_of_empty helts h64
  exact ⟨h', hrun, hheader, hperm, hgood⟩

theorem hashSet_spec (hg : h.Good) (hr : h.Respects) (hholds : h.Holds (h.elts + 1)) (key : Uword)
    (value : V) :
    ∃ h', hashSet (some h) key value = some (some h', (lookKey h.equal h.pairs key).map Prod.snd) ∧
      SetTo h key value h' := by
  obtain ⟨h₁, hset, _, hcalm, hgrow⟩ := hashSet3_cases hg hr hholds 2 key value
  by_cases hc₁ : h₁.Calm
  · exact ⟨h₁, hcalm hc₁, hset⟩
  · have hr₁ : h₁.Respects := by
      rw [hset.header]
      exact hr
    have hholds₁ : h₁.Holds h₁.elts := by
      rw [hset.header]
      exact hholds.mono (hset.elts_le hg)
    have h64 := hset.good.length_ge
    obtain ⟨hvec, hdouble⟩ := double_le hset.good hc₁ hholds₁
    obtain ⟨h', hrun, hheader, hperm, hgood⟩ := hashResize_spec hset.good hr₁ hholds₁ (by omega) hdouble
    refine ⟨h', ?_, ⟨hheader.trans hset.header, hperm.trans hset.perm, hgood⟩⟩
    have hresize : hashResizeInternal (setPair 2) (some h₁) (2 * h₁.buckets.length) = some (some h') := hrun
    rw [hashSet, hgrow hc₁, hvec, hresize]
    rfl

theorem hashUnset_spec (hg : h.Good) (hr : h.Respects) (hholds : h.Holds h.elts) (key : Uword) :
    ∃ h', hashUnset (some h) key = some (some h', (lookKey h.equal h.pairs key).map Prod.snd) ∧
      h'.toHashHeader = h.toHashHeader ∧ h'.pairs.Perm (dropKey h.equal h.pairs key) ∧ h'.Good := by
  obtain ⟨h₁, hunset, hsame, hperm, hg₁⟩ := lookupUnset_spec hg hr key
  rw [hashUnset, hunset]
  dsimp only
  split
  · have hr₁ : h₁.Respects := by
      rw [hsame.header]
      exact hr
    have hle : h₁.elts ≤ h.elts := by
      rw [hg₁.elts_eq, hperm.length_eq, hg.elts_eq]
      exact length_filter_le _ _
    have hholds₁ : h₁.Holds h₁.elts := by
      rw [hsame.header]
      exact hholds.mono hle
    have h64 := hg₁.length_ge
    have hlen := hg₁.length_le
    obtain ⟨h', hrun, hheader, hperm', hgood⟩ := hashResize_spec (n := h₁.buckets.length / 2) hg₁ hr₁ hholds₁
      (by omega) (by omega)
    refine ⟨h', ?_, hheader.trans hsame.header, hperm'.trans hperm, hgood⟩
    rw [hrun]
    rfl
  · exact ⟨h₁, rfl, hsame.header, hperm, hg₁⟩

theorem hashGet_spec (hg : h.Good) (hr : h.Respects) (key : Uword) :
    hashGet (some h) key = lookKey h.equal h.pairs key := by
  rw [hashGet, bind_some]
  by_cases hz : h.elts = 0
  · have hnil : h.pairs = [] := by
      rw [hg.elts_eq] at hz
      exact eq_nil_of_length_eq_zero hz
    rw [if_pos hz, hnil]
    rfl
  · rw [if_neg hz, lookupGet_eq hg hr]

end Vpp.Infra
