import Mathlib.Data.List.Sort
import Vpp.Feature.Config

namespace Vpp.Feature
open Vpp.Lib List BitVec

structure FeatureArc (A : Allocator) where
  vm : VlibMain
  configMain : ConfigMain A
  configIndexBySwIfIndex : List (Option Nat)
  featureCountBySwIfIndex : List (BitVec 16)
  swIfIndexHasFeatures : Nat → Bool

def vecValidate (l : List α) (i : Nat) (a : α) : List α := l ++ List.replicate (i + 1 - l.length) a

inductive FeatureRet where
  | ok
  | invalidValue2
  deriving DecidableEq

structure FeatureCall where
  featureIndex : Nat
  swIfIndex : Nat
  enableDisable : Int
  featureConfig : FeatureData

section Arc
variable {A : Allocator} (qsort : List ConfigFeature → List ConfigFeature)

/-- What is written when the configuration has changed. -/
def updateCount (s : FeatureArc A) (c : FeatureCall) (r : VlibMain × ConfigMain A × Option Nat) : FeatureArc A :=
  let users := vecValidate s.configIndexBySwIfIndex c.swIfIndex none
  let counts := vecValidate s.featureCountBySwIfIndex c.swIfIndex 0
  let featureCount := counts.getD c.swIfIndex 0 + if 0 < c.enableDisable then 1 else -1
  { vm := r.1, configMain := r.2.1
    configIndexBySwIfIndex := users.set c.swIfIndex r.2.2
    featureCountBySwIfIndex := counts.set c.swIfIndex featureCount
    swIfIndexHasFeatures := Function.update s.swIfIndexHasFeatures c.swIfIndex (decide (0 < featureCount.toInt)) }

/-- Nothing when the deletion reads a configuration that is not there. -/
def vnetFeatureEnableDisableWithIndex (s : FeatureArc A) (c : FeatureCall) : Option (FeatureArc A × FeatureRet) :=
  if c.featureIndex = noIndex then some (s, .invalidValue2)
  else
    let users := vecValidate s.configIndexBySwIfIndex c.swIfIndex none
    let counts := vecValidate s.featureCountBySwIfIndex c.swIfIndex 0
    let ci := users.getD c.swIfIndex none
    let featureCount := counts.getD c.swIfIndex 0
    if c.enableDisable = 0 ∧ featureCount.toInt < 1 then
      some ({ s with configIndexBySwIfIndex := users, featureCountBySwIfIndex := counts }, .ok)
    else
      (if c.enableDisable ≠ 0 then some (vnetConfigAddFeature qsort s.vm s.configMain ci c.featureIndex c.featureConfig)
        else vnetConfigDelFeature s.vm s.configMain ci c.featureIndex c.featureConfig).map fun r =>
        (updateCount s c r, .ok)

def FeatureArc.features (s : FeatureArc A) (sw : Nat) : List ConfigFeature :=
  s.configMain.featuresOf (s.configIndexBySwIfIndex.getD sw none)

def FeatureArc.count (s : FeatureArc A) (sw : Nat) : Int := (s.featureCountBySwIfIndex.getD sw 0).toInt

/-- The count is the number of features, and packets skip the arc when there is none. -/
structure CountsRight (s : FeatureArc A) : Prop where
  count : ∀ sw, s.count sw = (s.features sw).length
  has : ∀ sw, s.swIfIndexHasFeatures sw = true ↔ 0 < (s.features sw).length

/-- No configuration that stays has the string of the features and another number of them. -/
def NoClash (s : FeatureArc A) (sw : Nat) (features : List ConfigFeature) : Prop :=
  Shares (fun fs => fs.length = features.length) s.configMain (s.configIndexBySwIfIndex.getD sw none) s.vm features

/-- A feature that is enabled has a node and its number fits the count; one that is disabled is in the configuration.
The string is not that of another number of features. -/
def Meets (s : FeatureArc A) (c : FeatureCall) : Prop :=
  c.featureIndex = noIndex ∨
    (0 < c.enableDisable ∧ s.count c.swIfIndex < 2 ^ 15 - 1 ∧ ∃ node, s.configMain.nodeOf c.featureIndex = some node ∧
      NoClash s c.swIfIndex (qsort (s.features c.swIfIndex ++ [⟨c.featureIndex, node, c.featureConfig.words⟩]))) ∨
    (c.enableDisable = 0 ∧ (s.count c.swIfIndex < 1 ∨
      ∃ k, (s.features c.swIfIndex).findIdx? (sameFeature c.featureIndex c.featureConfig) = some k ∧
        NoClash s c.swIfIndex ((s.features c.swIfIndex).eraseIdx k)))

theorem getD_vecValidate (l : List α) (i j : Nat) (a : α) : (vecValidate l i a).getD j a = l.getD j a := by
  rw [vecValidate]
  by_cases hj : j < l.length
  · rw [getD_append _ _ _ _ hj]
  · have hle : l.length ≤ j := Nat.not_lt.mp hj
    rw [getD_append_right _ _ _ _ hle, getD_eq_default _ _ hle]
    simp [getD_eq_getElem?_getD, getElem?_replicate]
    split <;> rfl

theorem lt_length_vecValidate (l : List α) (i : Nat) (a : α) : i < (vecValidate l i a).length := by
  rw [vecValidate, length_append, length_replicate]
  omega

theorem getElem?_vecValidate (l : List α) (i : Nat) (a : α) : (vecValidate l i a)[i]? = some (l.getD i a) := by
  have hlt := lt_length_vecValidate l i a
  rw [← getD_vecValidate l i i a, getD_eq_getElem _ _ hlt, List.getElem?_eq_getElem hlt]

theorem getD_set_self {l : List α} (h : i < l.length) (a d : α) : (l.set i a).getD i d = a := by
  rw [getD_eq_getElem?_getD, getElem?_set_self h, Option.getD_some]

theorem getD_set_ne {l : List α} (h : j ≠ i) (a d : α) : (l.set i a).getD j d = l.getD j d := by
  rw [getD_eq_getElem?_getD, getElem?_set_ne h.symm, getD_eq_getElem?_getD]

theorem count_vecValidate (l : List (Option Nat)) (i a : Nat) :
    (vecValidate l i none).count (some a) = l.count (some a) := by
  have hzero : (List.replicate (i + 1 - l.length) (none : Option Nat)).count (some a) = 0 := by
    apply count_eq_zero.mpr
    intro hmem
    cases (mem_replicate.mp hmem).2
  rw [vecValidate, count_append, hzero, Nat.add_zero]

theorem UsersInv.validate {cm : ConfigMain A} {users : List (Option Nat)} (h : UsersInv cm users) (i : Nat) :
    UsersInv cm (vecValidate users i none) where
  interned := h.interned
  inUse := h.inUse
  counted :=
    { uses := fun ci hmem => by
        apply h.counted.uses ci
        rw [vecValidate, mem_append] at hmem
        cases hmem with
        | inl hm => exact hm
        | inr hm => cases (mem_replicate.mp hm).2
      count := fun i hi => by
        rw [h.counted.count i hi, count_vecValidate] }

variable (s : FeatureArc A)

theorem updateCount_features_self (c : FeatureCall) (r : VlibMain × ConfigMain A × Option Nat) :
    (updateCount s c r).features c.swIfIndex = r.2.1.featuresOf r.2.2 := by
  rw [FeatureArc.features]
  simp only [updateCount, getD_set_self (lt_length_vecValidate _ _ _)]

theorem updateCount_features_ne (c : FeatureCall) (r : VlibMain × ConfigMain A × Option Nat)
    (h : sw ≠ c.swIfIndex) :
    (updateCount s c r).features sw = r.2.1.featuresOf (s.configIndexBySwIfIndex.getD sw none) := by
  rw [FeatureArc.features]
  simp only [updateCount, getD_set_ne h, getD_vecValidate]

def nextCount (s : FeatureArc A) (c : FeatureCall) : Int :=
  (s.featureCountBySwIfIndex.getD c.swIfIndex 0 + if 0 < c.enableDisable then 1 else -1).toInt

theorem updateCount_count_self (c : FeatureCall) (r : VlibMain × ConfigMain A × Option Nat) :
    (updateCount s c r).count c.swIfIndex = nextCount s c := by
  rw [FeatureArc.count]
  simp only [updateCount, getD_set_self (lt_length_vecValidate _ _ _), getD_vecValidate]
  rfl

theorem updateCount_count_ne (c : FeatureCall) (r : VlibMain × ConfigMain A × Option Nat)
    (h : sw ≠ c.swIfIndex) : (updateCount s c r).count sw = s.count sw := by
  rw [FeatureArc.count]
  simp only [updateCount, getD_set_ne h, getD_vecValidate]
  rfl

variable {s : FeatureArc A}

theorem updateCount_right_iff {c : FeatureCall} {r : VlibMain × ConfigMain A × Option Nat}
    (h : CountsRight s)
    (hothers : ∀ sw ≠ c.swIfIndex, r.2.1.featuresOf (s.configIndexBySwIfIndex.getD sw none) = s.features sw) :
    CountsRight (updateCount s c r) ↔ nextCount s c = (r.2.1.featuresOf r.2.2).length := by
  apply Iff.intro
  · intro hright
    rw [← updateCount_count_self s c r, hright.count, updateCount_features_self]
  · intro heq
    apply CountsRight.mk
    · intro sw
      by_cases hsw : sw = c.swIfIndex
      · rw [hsw, updateCount_count_self, updateCount_features_self, heq]
      · rw [updateCount_count_ne s c r hsw, updateCount_features_ne s c r hsw, hothers sw hsw, h.count]
    · intro sw
      by_cases hsw : sw = c.swIfIndex
      · have hhas : (updateCount s c r).swIfIndexHasFeatures c.swIfIndex = decide (0 < nextCount s c) := by
          simp only [updateCount, Function.update_self, getD_vecValidate]
          rfl
        rw [hsw, hhas, decide_eq_true_iff, heq, updateCount_features_self]
        exact Int.natCast_pos
      · have hhas : (updateCount s c r).swIfIndexHasFeatures sw = s.swIfIndexHasFeatures sw := by
          simp only [updateCount, Function.update_of_ne hsw]
        rw [hhas, h.has, updateCount_features_ne s c r hsw, hothers sw hsw]

def FeatureArc.configIndex (s : FeatureArc A) (sw : Nat) : Option Nat := s.configIndexBySwIfIndex.getD sw none

def FeatureArc.Inv (s : FeatureArc A) : Prop := UsersInv s.configMain s.configIndexBySwIfIndex

theorem change_spec (hi : s.Inv) (h : CountsRight s) (c : FeatureCall) (fs : List ConfigFeature) :
    (updateCount s c (useConfig s.vm (leaveConfig s.configMain (s.configIndex c.swIfIndex)) fs)).Inv ∧
      (nextCount s c = fs.length →
        (CountsRight (updateCount s c (useConfig s.vm (leaveConfig s.configMain (s.configIndex c.swIfIndex)) fs)) ↔
          NoClash s c.swIfIndex fs)) := by
  have hget := getElem?_vecValidate s.configIndexBySwIfIndex c.swIfIndex none
  obtain ⟨ci', cm', hrun, hinv, hshares, hothers, _⟩ :=
    moveConfig_spec (UsersInv.validate hi c.swIfIndex) hget s.vm fs
  rw [FeatureArc.configIndex, hrun]
  refine ⟨hinv, ?_⟩
  intro hlen
  have hsame : ∀ sw ≠ c.swIfIndex, cm'.featuresOf (s.configIndexBySwIfIndex.getD sw none) = s.features sw := by
    intro sw hsw
    rw [FeatureArc.features, ← getD_vecValidate _ c.swIfIndex]
    cases hv : (vecValidate s.configIndexBySwIfIndex c.swIfIndex none)[sw]? with
    | none =>
      rw [getD_eq_getElem?_getD, hv]
      rfl
    | some ci =>
      rw [getD_eq_getElem?_getD, hv]
      exact hothers sw hsw ci hv
  rw [updateCount_right_iff h hsame, hlen, NoClash, ← hshares (fun fs' => fs'.length = fs.length) rfl]
  exact Int.ofNat_inj.trans eq_comm

theorem toInt_add_one {x : BitVec 16} (h : x.toInt < 2 ^ 15 - 1) : (x + 1).toInt = x.toInt + 1 := by
  have hle := le_toInt x
  have hone : (1 : BitVec 16).toInt = 1 := by decide
  rw [toInt_add, hone]
  apply Int.bmod_eq_of_le
  · omega
  · omega

theorem toInt_sub_one {x : BitVec 16} (h : 1 ≤ x.toInt) : (x + -1).toInt = x.toInt - 1 := by
  have hlt := toInt_lt (x := x)
  have hone : (-1 : BitVec 16).toInt = -1 := by decide
  rw [toInt_add, hone]
  apply Int.bmod_eq_of_le
  · omega
  · omega

theorem unchanged_wrong (h : CountsRight s) (c : FeatureCall) :
    ¬ CountsRight (updateCount s c (s.vm, s.configMain, s.configIndex c.swIfIndex)) := by
  have hsame : ∀ sw ≠ c.swIfIndex, s.configMain.featuresOf (s.configIndexBySwIfIndex.getD sw none) = s.features sw :=
    fun _ _ => rfl
  rw [updateCount_right_iff h hsame]
  intro heq
  have hcount : nextCount s c = s.count c.swIfIndex := heq.trans (h.count c.swIfIndex).symm
  rw [nextCount, FeatureArc.count, toInt_inj] at hcount
  have hzero := (BitVec.add_right_inj _).mp (hcount.trans (BitVec.add_zero _).symm)
  split at hzero
  · cases hzero
  · cases hzero

theorem unchanged_inv (hi : s.Inv) (c : FeatureCall) :
    (updateCount s c (s.vm, s.configMain, s.configIndex c.swIfIndex)).Inv := by
  have hvalid := UsersInv.validate hi c.swIfIndex
  have hset : (vecValidate s.configIndexBySwIfIndex c.swIfIndex none).set c.swIfIndex (s.configIndex c.swIfIndex) =
      vecValidate s.configIndexBySwIfIndex c.swIfIndex none := by
    have hlt := lt_length_vecValidate s.configIndexBySwIfIndex c.swIfIndex none
    have hget : (vecValidate s.configIndexBySwIfIndex c.swIfIndex none)[c.swIfIndex] = s.configIndex c.swIfIndex := by
      rw [← getD_eq_getElem _ none hlt, getD_vecValidate, FeatureArc.configIndex]
    rw [← hget]
    exact set_getElem_self hlt
  rw [FeatureArc.Inv]
  simp only [updateCount, hset]
  exact hvalid

theorem nextCount_enable {c : FeatureCall} (he : 0 < c.enableDisable)
    (hlt : s.count c.swIfIndex < 2 ^ 15 - 1) : nextCount s c = s.count c.swIfIndex + 1 := by
  rw [nextCount, if_pos he]
  exact toInt_add_one hlt

theorem nextCount_overflow {c : FeatureCall} (he : 0 < c.enableDisable)
    (hle : 2 ^ 15 - 1 ≤ s.count c.swIfIndex) : nextCount s c < 0 := by
  have hlt := toInt_lt (x := s.featureCountBySwIfIndex.getD c.swIfIndex 0)
  have hmax : s.featureCountBySwIfIndex.getD c.swIfIndex 0 = 32767 := by
    apply eq_of_toInt_eq
    rw [FeatureArc.count] at hle
    have hval : (32767 : BitVec 16).toInt = 32767 := by decide
    rw [hval]
    omega
  rw [nextCount, if_pos he, hmax]
  decide

theorem nextCount_disable {c : FeatureCall} (he : c.enableDisable = 0)
    (hle : 1 ≤ s.count c.swIfIndex) : nextCount s c = s.count c.swIfIndex - 1 := by
  have hnot : ¬ 0 < c.enableDisable := he ▸ Int.lt_irrefl 0
  rw [nextCount, if_neg hnot]
  exact toInt_sub_one hle

theorem vnetConfigAddFeature_some {cm : ConfigMain A} (hn : cm.nodeOf i = some node) (vm : VlibMain) (ci : Option Nat)
    (data : FeatureData) : vnetConfigAddFeature qsort vm cm ci i data =
      useConfig vm (leaveConfig cm ci) (qsort (cm.featuresOf ci ++ [⟨i, node, data.words⟩])) := by
  rw [vnetConfigAddFeature, hn]
  cases ci with
  | none => rfl
  | some ci => rfl

theorem vnetConfigAddFeature_none {cm : ConfigMain A} (hn : cm.nodeOf i = none) (vm : VlibMain) (ci : Option Nat)
    (data : FeatureData) : vnetConfigAddFeature qsort vm cm ci i data = (vm, cm, ci) := by
  rw [vnetConfigAddFeature, hn]

theorem vnetConfigDelFeature_eq (cm : ConfigMain A) (vm : VlibMain) (ci : Nat) (i : Nat) (data : FeatureData) :
    vnetConfigDelFeature vm cm (some ci) i data =
      some (match (cm.featuresOf (some ci)).findIdx? (sameFeature i data) with
        | none => (vm, cm, some ci)
        | some k => useConfig vm (leaveConfig cm (some ci)) ((cm.featuresOf (some ci)).eraseIdx k)) := by
  rfl

/-- What a call comes to: the invariant stays, and everything is right after it if the call meets the condition. -/
structure CallOk (s : FeatureArc A) (c : FeatureCall) (r : FeatureArc A × FeatureRet) : Prop where
  inv : r.1.Inv
  right : Meets qsort s c → CountsRight r.1
  meets : 0 ≤ c.enableDisable → CountsRight r.1 → Meets qsort s c

def Sorts (qsort : List ConfigFeature → List ConfigFeature) : Prop :=
  ∀ l, (qsort l).Perm l ∧ (qsort l).Pairwise fun f g => f.featureIndex ≤ g.featureIndex

variable {qsort}

theorem enable_ok {c : FeatureCall} (hq : Sorts qsort) (hi : s.Inv) (h : CountsRight s)
    (hf : c.featureIndex ≠ noIndex) (he : c.enableDisable ≠ 0) :
    CallOk qsort s c (updateCount s c (vnetConfigAddFeature qsort s.vm s.configMain (s.configIndex c.swIfIndex)
      c.featureIndex c.featureConfig), .ok) := by
  have hcount := h.count c.swIfIndex
  cases hn : s.configMain.nodeOf c.featureIndex with
  | none =>
    have hnot : ¬ Meets qsort s c := by
      intro hm
      rcases hm with hm | ⟨_, _, node, hm, _⟩ | ⟨hm, _⟩
      · exact hf hm
      · rw [hn] at hm
        cases hm
      · exact he hm
    rw [vnetConfigAddFeature_none qsort hn]
    exact ⟨unchanged_inv hi c, fun hm => absurd hm hnot, fun _ hr => absurd hr (unchanged_wrong h c)⟩
  | some node =>
    rw [vnetConfigAddFeature_some qsort hn]
    obtain ⟨hinv, hright⟩ := change_spec hi h c
      (qsort (s.features c.swIfIndex ++ [⟨c.featureIndex, node, c.featureConfig.words⟩]))
    have hlen : (qsort (s.features c.swIfIndex ++ [⟨c.featureIndex, node, c.featureConfig.words⟩])).length =
        (s.features c.swIfIndex).length + 1 := by
      rw [(hq _).1.length_eq, length_append, length_singleton]
    apply CallOk.mk
    · exact hinv
    · intro hm
      rcases hm with hm | ⟨hpos, hlt, node', hn', hclash⟩ | ⟨hm, _⟩
      · exact absurd hm hf
      · rw [hn] at hn'
        have hnode : node = node' := Option.some.inj hn'
        rw [← hnode] at hclash
        apply (hright _).mpr hclash
        rw [nextCount_enable hpos hlt, hcount, hlen]
        rfl
      · exact absurd hm he
    · intro hnn hr
      have hpos : 0 < c.enableDisable := by omega
      by_cases hlt : s.count c.swIfIndex < 2 ^ 15 - 1
      · right
        left
        refine ⟨hpos, hlt, node, hn, (hright ?_).mp hr⟩
        rw [nextCount_enable hpos hlt, hcount, hlen]
        rfl
      · have hneg := nextCount_overflow hpos (Int.not_lt.mp hlt)
        have heq := hr.count c.swIfIndex
        rw [updateCount_count_self] at heq
        rw [heq] at hneg
        exact absurd hneg (Int.not_lt.mpr (Int.natCast_nonneg _))

theorem disable_ok (qsort : List ConfigFeature → List ConfigFeature) {s : FeatureArc A} {c : FeatureCall}
    (hi : s.Inv) (h : CountsRight s)
    (hf : c.featureIndex ≠ noIndex) (he : c.enableDisable = 0) (hpos : 1 ≤ s.count c.swIfIndex) :
    ∃ r, vnetConfigDelFeature s.vm s.configMain (s.configIndex c.swIfIndex) c.featureIndex c.featureConfig = some r ∧
      CallOk qsort s c (updateCount s c r, .ok) := by
  have hcount := h.count c.swIfIndex
  cases hci : s.configIndex c.swIfIndex with
  | none =>
    have hempty : s.features c.swIfIndex = [] := by
      rw [FeatureArc.features]
      rw [FeatureArc.configIndex] at hci
      rw [hci]
      rfl
    rw [hcount, hempty] at hpos
    exact absurd hpos (by decide)
  | some ci =>
    have hfeatures : s.features c.swIfIndex = s.configMain.featuresOf (some ci) := by
      rw [← hci]
      rfl
    rw [vnetConfigDelFeature_eq]
    refine ⟨_, rfl, ?_⟩
    rw [← hfeatures, ← hci]
    have hmeets : Meets qsort s c ↔ ∃ k, (s.features c.swIfIndex).findIdx?
        (sameFeature c.featureIndex c.featureConfig) =
        some k ∧ NoClash s c.swIfIndex ((s.features c.swIfIndex).eraseIdx k) := by
      apply Iff.intro
      · intro hm
        rcases hm with hm | ⟨hm, _⟩ | ⟨_, hm | hm⟩
        · exact absurd hm hf
        · rw [he] at hm
          exact absurd hm (Int.lt_irrefl 0)
        · exact absurd hm (Int.not_lt.mpr hpos)
        · exact hm
      · intro hm
        exact .inr (.inr ⟨he, .inr hm⟩)
    cases hfind : (s.features c.swIfIndex).findIdx? (sameFeature c.featureIndex c.featureConfig) with
    | none =>
      have hnot : ¬ Meets qsort s c := by
        rw [hmeets, hfind]
        intro ⟨k, hk, _⟩
        cases hk
      exact ⟨unchanged_inv hi c, fun hm => absurd hm hnot, fun _ hr => absurd hr (unchanged_wrong h c)⟩
    | some k =>
      obtain ⟨hinv, hright⟩ := change_spec hi h c ((s.features c.swIfIndex).eraseIdx k)
      have hlt : k < (s.features c.swIfIndex).length := (findIdx?_eq_some_iff_findIdx_eq.mp hfind).1
      have hnext : nextCount s c = ((s.features c.swIfIndex).eraseIdx k).length := by
        rw [nextCount_disable he hpos, hcount, length_eraseIdx_of_lt hlt]
        omega
      have hiff := hright hnext
      have hmeets' : Meets qsort s c ↔ NoClash s c.swIfIndex ((s.features c.swIfIndex).eraseIdx k) := by
        rw [hmeets, hfind]
        simp only [Option.some.injEq, exists_eq_left']
      exact ⟨hinv, fun hm => hiff.mpr (hmeets'.mp hm), fun _ hr => hmeets'.mpr (hiff.mp hr)⟩

theorem call_ok (hq : Sorts qsort) (hi : s.Inv) (h : CountsRight s) (c : FeatureCall) :
    ∃ r, vnetFeatureEnableDisableWithIndex qsort s c = some r ∧ CallOk qsort s c r := by
  rw [vnetFeatureEnableDisableWithIndex]
  by_cases hf : c.featureIndex = noIndex
  · rw [if_pos hf]
    exact ⟨_, rfl, hi, fun _ => h, fun _ _ => .inl hf⟩
  · rw [if_neg hf]
    simp only [getD_vecValidate]
    by_cases hquiet : c.enableDisable = 0 ∧ (s.featureCountBySwIfIndex.getD c.swIfIndex 0).toInt < 1
    · rw [if_pos hquiet]
      refine ⟨_, rfl, UsersInv.validate hi c.swIfIndex, fun _ => ?_, fun _ _ => .inr (.inr ⟨hquiet.1, .inl hquiet.2⟩)⟩
      apply CountsRight.mk
      · intro sw
        have hcount := h.count sw
        rw [FeatureArc.count, FeatureArc.features] at *
        simp only [getD_vecValidate]
        exact hcount
      · intro sw
        have hhas := h.has sw
        rw [FeatureArc.features] at *
        simp only [getD_vecValidate]
        exact hhas
    · rw [if_neg hquiet]
      by_cases he : c.enableDisable = 0
      · have hpos : 1 ≤ s.count c.swIfIndex := Int.not_lt.mp fun hlt => hquiet ⟨he, hlt⟩
        obtain ⟨r, hr, hok⟩ := disable_ok qsort hi h hf he hpos
        rw [if_neg (not_not.mpr he)]
        rw [FeatureArc.configIndex] at hr
        rw [hr]
        exact ⟨_, rfl, hok⟩
      · rw [if_pos he]
        exact ⟨_, rfl, enable_ok hq hi h hf he⟩

def AlwaysRight (qsort : List ConfigFeature → List ConfigFeature) : FeatureArc A → List FeatureCall → Prop
  | _, [] => True
  | s, c :: cs => ∃ r, vnetFeatureEnableDisableWithIndex qsort s c = some r ∧ CountsRight r.1 ∧ AlwaysRight qsort r.1 cs

def AllMeet (qsort : List ConfigFeature → List ConfigFeature) : FeatureArc A → List FeatureCall → Prop
  | _, [] => True
  | s, c :: cs => Meets qsort s c ∧ ∀ r ∈ vnetFeatureEnableDisableWithIndex qsort s c, AllMeet qsort r.1 cs

theorem alwaysRight_of_allMeet (hq : Sorts qsort) (hi : s.Inv) (h : CountsRight s)
    (hm : AllMeet qsort s cs) : AlwaysRight qsort s cs := by
  induction cs generalizing s with
  | nil => trivial
  | cons c cs ih =>
    obtain ⟨r, hr, hok⟩ := call_ok hq hi h c
    have hright := hok.right hm.1
    exact ⟨r, hr, hright, ih hok.inv hright (hm.2 r hr)⟩

theorem allMeet_of_alwaysRight (hq : Sorts qsort) (hi : s.Inv) (h : CountsRight s)
    (hflags : ∀ c ∈ cs, 0 ≤ c.enableDisable) (hr : AlwaysRight qsort s cs) : AllMeet qsort s cs := by
  induction cs generalizing s with
  | nil => trivial
  | cons c cs ih =>
    obtain ⟨r, hrun, hok⟩ := call_ok hq hi h c
    obtain ⟨r', hrun', hright, hrest⟩ := hr
    rw [hrun] at hrun'
    have he : r = r' := Option.some.inj hrun'
    subst he
    refine ⟨hok.meets (hflags c mem_cons_self) hright, ?_⟩
    intro r' hr'
    rw [hrun] at hr'
    have he : r = r' := Option.some.inj hr'
    subst he
    exact ih hok.inv hright (fun c hc => hflags c (mem_cons_of_mem _ hc)) hrest

/-- An arc whose interfaces have no features yet. -/
def freshArc (vm : VlibMain) (h : A.State) (starts : List Nat) (stop : Nat) (nodes : List (Option Nat)) :
    FeatureArc A where
  vm := vm
  configMain :=
    { configPool := .empty, configStringHash := fun _ => none, configStringHeap := fun _ => 0, heapBlocks := h
      startNodeIndices := starts, endNodeIndex := stop, nodeIndexByFeatureIndex := nodes }
  configIndexBySwIfIndex := []
  featureCountBySwIfIndex := []
  swIfIndexHasFeatures := fun _ => false

theorem freshArc_inv (vm : VlibMain) (h : A.State) (starts : List Nat) (stop : Nat) (nodes : List (Option Nat)) :
    (freshArc vm h starts stop nodes).Inv := by
  have hempty : ∀ i, ¬ (freshArc vm h starts stop nodes).configMain.configPool.Live i := fun i => Pool.not_live_empty i
  apply UsersInv.mk
  · apply Interned.mk
    · intro s i
      exact iff_of_false (fun hs => by cases hs) (fun hs => hempty i hs.1)
    · intro i hi
      exact absurd hi (hempty i)
    · intro i j hi _ _
      exact absurd hi (hempty i)
  · apply Counted.mk
    · intro ci hmem
      cases hmem
    · intro i hi
      exact absurd hi (hempty i)
  · intro i hi
    exact absurd hi (hempty i)

theorem freshArc_right (vm : VlibMain) (h : A.State) (starts : List Nat) (stop : Nat) (nodes : List (Option Nat)) :
    CountsRight (freshArc vm h starts stop nodes) := by
  apply CountsRight.mk
  · intro sw
    rfl
  · intro sw
    exact iff_of_false (fun hs => by cases hs) (Nat.lt_irrefl 0)

/-- In a run whose calls meet the condition, the count of every interface is the number of its features and the bit
says if there are any, after every call. With flags that are not negative no other run has this. -/
theorem vnet_feature_counts (hq : Sorts qsort) (vm : VlibMain) (h : A.State) (starts : List Nat) (stop : Nat)
    (nodes : List (Option Nat)) (cs : List FeatureCall) :
    (AllMeet qsort (freshArc vm h starts stop nodes) cs → AlwaysRight qsort (freshArc vm h starts stop nodes) cs) ∧
      ((∀ c ∈ cs, 0 ≤ c.enableDisable) → AlwaysRight qsort (freshArc vm h starts stop nodes) cs →
        AllMeet qsort (freshArc vm h starts stop nodes) cs) := by
  have hi := freshArc_inv vm h starts stop nodes
  have hr := freshArc_right vm h starts stop nodes
  exact ⟨alwaysRight_of_allMeet hq hi hr, allMeet_of_alwaysRight hq hi hr⟩

end Arc

def byIndex (l : List ConfigFeature) : List ConfigFeature := l.insertionSort fun f g => f.featureIndex ≤ g.featureIndex

theorem byIndex_sorts : Sorts byIndex := by
  intro l
  have htotal : Std.Total fun f g : ConfigFeature => f.featureIndex ≤ g.featureIndex := ⟨fun f g => Nat.le_total _ _⟩
  have htrans : IsTrans ConfigFeature fun f g => f.featureIndex ≤ g.featureIndex := ⟨fun _ _ _ => Nat.le_trans⟩
  exact ⟨perm_insertionSort _ l, pairwise_insertionSort _ l⟩

def noData : FeatureData := ⟨[], 0, rfl⟩

/-- Three features between the start node 0 and the end node 3. -/
def threeNodes : FeatureArc Allocator.stacked := freshArc ⟨id, fun _ => []⟩ [] [0] 3 [some 1, some 2, some 3]

/-- Feature 0 is enabled on interface 1, and feature 1, which is not enabled there, disabled. -/
def disableOther : List FeatureCall := [⟨0, 1, 1, noData⟩, ⟨1, 1, 0, noData⟩]

theorem vnet_feature_counts_three :
    (AllMeet byIndex threeNodes disableOther → AlwaysRight byIndex threeNodes disableOther) ∧
      ((∀ c ∈ disableOther, 0 ≤ c.enableDisable) → AlwaysRight byIndex threeNodes disableOther →
        AllMeet byIndex threeNodes disableOther) := by
  exact vnet_feature_counts (A := Allocator.stacked) byIndex_sorts ⟨id, fun _ => []⟩ [] [0] 3 [some 1, some 2, some 3]
    disableOther

theorem vnet_feature_counts_fails :
    ¬ ∀ (A : Allocator) (qsort : List ConfigFeature → List ConfigFeature) (vm : VlibMain) (h : A.State)
        (starts : List Nat)
      (stop : Nat) (nodes : List (Option Nat)) (cs : List FeatureCall), Sorts qsort →
      AlwaysRight qsort (freshArc vm h starts stop nodes) cs := by
  intro hall
  obtain ⟨r, hr, _, r', hr', hright, _⟩ :=
    hall Allocator.stacked byIndex ⟨id, fun _ => []⟩ [] [0] 3 [some 1, some 2, some 3] disableOther byIndex_sorts
  have hcount : (vnetFeatureEnableDisableWithIndex byIndex threeNodes ⟨0, 1, 1, noData⟩).bind (fun r =>
      (vnetFeatureEnableDisableWithIndex byIndex r.1 ⟨1, 1, 0, noData⟩).map fun r' =>
        (r'.1.count 1, (r'.1.features 1).length)) = some (0, 1) := by decide
  have hfirst : vnetFeatureEnableDisableWithIndex byIndex threeNodes ⟨0, 1, 1, noData⟩ = some r := hr
  have hsecond : vnetFeatureEnableDisableWithIndex byIndex r.1 ⟨1, 1, 0, noData⟩ = some r' := hr'
  rw [hfirst, Option.bind_some, hsecond, Option.map_some] at hcount
  have hzero := Prod.mk.inj (Option.some.inj hcount)
  have heq := hright.count 1
  rw [hzero.1, hzero.2] at heq
  exact absurd heq (by decide)

end Vpp.Feature
