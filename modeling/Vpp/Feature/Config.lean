import Vpp.Lib.Allocator
import Vpp.Lib.Pool

namespace Vpp.Feature
open Vpp.Lib Function List

/-- `~0`. -/
def noIndex : Nat := 2 ^ 32 - 1

/-- The next nodes of each node. Siblings have the same, so they are stored once for the group of a node. -/
structure VlibMain where
  group : Nat → Nat
  nextNodes : Nat → List Nat

def VlibMain.nexts (vm : VlibMain) (node : Nat) : List Nat := vm.nextNodes (vm.group node)

/-- The slot of a next node, which is a new one when the node has not been a next node before. -/
def vlibNodeAddNext (vm : VlibMain) (node next : Nat) : VlibMain × Nat :=
  if (vm.nexts node).contains next then (vm, (vm.nexts node).idxOf next)
  else
    ({ vm with nextNodes := update vm.nextNodes (vm.group node) (vm.nexts node ++ [next]) },
      (vm.nexts node).length)

structure ConfigFeature where
  featureIndex : Nat
  nodeIndex : Nat
  featureConfig : List Nat
  deriving DecidableEq

/-- The words at the pointer that a caller gives, with the number of bytes that count. -/
structure FeatureData where
  words : List Nat
  nBytes : Nat
  length_eq : words.length = (nBytes + 3) / 4

/-- A configuration. Its string is in the heap behind the index of the configuration. -/
structure Config where
  features : List ConfigFeature
  configString : List Nat
  configStringHeapIndex : Nat
  referenceCount : Nat

def Config.decrement (c : Config) : Config := { c with referenceCount := c.referenceCount - 1 }

def Config.increment (c : Config) : Config := { c with referenceCount := c.referenceCount + 1 }

instance : Inhabited Config := ⟨⟨[], [], 0, 0⟩⟩

structure ConfigMain (A : Allocator) where
  configPool : Pool Config
  configStringHash : List Nat → Option Nat
  configStringHeap : Nat → Nat
  heapBlocks : A.State
  startNodeIndices : List Nat
  endNodeIndex : Nat
  nodeIndexByFeatureIndex : List (Option Nat)

/-- A feature that is not there has no node. -/
def ConfigMain.nodeOf {A : Allocator} (cm : ConfigMain A) (featureIndex : Nat) : Option Nat :=
  (cm.nodeIndexByFeatureIndex[featureIndex]?).join

/-- A slot from the last node, or from every start node: then the slot of the first of them. -/
def addNext (starts : List Nat) (vm : VlibMain) (last : Option Nat) (this : Nat) : VlibMain × Nat :=
  match last with
  | some node => vlibNodeAddNext vm node this
  | none =>
    let r := starts.foldl (fun (r : VlibMain × Option Nat) start =>
      ((vlibNodeAddNext r.1 start this).1, r.2.or (some (vlibNodeAddNext r.1 start this).2))) (vm, none)
    (r.1, r.2.getD noIndex)

/-- The string of the features that are left, with the next of the end node when the last feature has another one. -/
def configStringOf (starts : List Nat) (stop : Nat) :
    VlibMain → (last : Option Nat) → List ConfigFeature → VlibMain × List Nat
  | vm, last, [] => if last = some stop then (vm, [])
      else ((addNext starts vm last stop).1, [(addNext starts vm last stop).2])
  | vm, last, f :: fs =>
    let r := configStringOf starts stop (addNext starts vm last f.nodeIndex).1 (some f.nodeIndex) fs
    (r.1, (addNext starts vm last f.nodeIndex).2 :: f.featureConfig ++ r.2)

section Main
variable {A : Allocator}

def ConfigMain.stringOf (cm : ConfigMain A) (vm : VlibMain) (features : List ConfigFeature) : VlibMain × List Nat :=
  configStringOf cm.startNodeIndices cm.endNodeIndex vm none features

def newConfig (cm : ConfigMain A) (features : List ConfigFeature) (configString : List Nat) : ConfigMain A × Nat :=
  let i := cm.configPool.get.2
  let block := A.alloc cm.heapBlocks (configString.length + 1)
  ({ cm with
    configPool := cm.configPool.get.1.set i ⟨features, configString, block.1, 0⟩
    configStringHash := update cm.configStringHash configString (some i)
    configStringHeap := writeAt cm.configStringHeap block.1 (i :: configString)
    heapBlocks := block.2 }, i)

/-- A configuration with the same string is shared, whatever its features are. -/
def findConfigWithFeatures (vm : VlibMain) (cm : ConfigMain A) (features : List ConfigFeature) :
    VlibMain × ConfigMain A × Nat :=
  let r := cm.stringOf vm features
  match cm.configStringHash r.2 with
  | some i => (r.1, cm, i)
  | none => (r.1, newConfig cm features r.2)

def removeReference (cm : ConfigMain A) (i : Nat) : ConfigMain A :=
  let c := cm.configPool.eltAt i
  if c.referenceCount - 1 = 0 then
    { cm with
      configPool := cm.configPool.put i
      configStringHash := update cm.configStringHash c.configString none
      heapBlocks := A.dealloc cm.heapBlocks c.configStringHeapIndex }
  else { cm with configPool := cm.configPool.modify i Config.decrement }

def addReference (cm : ConfigMain A) (i : Nat) : ConfigMain A :=
  { cm with configPool := cm.configPool.modify i Config.increment }

/-- What a user gets is the address of the string, one behind the index of the configuration. -/
def useConfig (vm : VlibMain) (cm : ConfigMain A) (features : List ConfigFeature) :
    VlibMain × ConfigMain A × Option Nat :=
  let r := findConfigWithFeatures vm cm features
  (r.1, addReference r.2.1 r.2.2, some ((r.2.1.configPool.eltAt r.2.2).configStringHeapIndex + 1))

def ConfigMain.configAt (cm : ConfigMain A) (ci : Nat) : Nat := cm.configStringHeap (ci - 1)

def ConfigMain.featuresOf (cm : ConfigMain A) : Option Nat → List ConfigFeature
  | none => []
  | some ci => (cm.configPool.eltAt (cm.configAt ci)).features

def vnetConfigAddFeature (qsort : List ConfigFeature → List ConfigFeature) (vm : VlibMain) (cm : ConfigMain A)
    (ci : Option Nat) (featureIndex : Nat) (data : FeatureData) : VlibMain × ConfigMain A × Option Nat :=
  match cm.nodeOf featureIndex with
  | none => (vm, cm, ci)
  | some node =>
    let features := qsort (cm.featuresOf ci ++ [⟨featureIndex, node, data.words⟩])
    match ci with
    | none => useConfig vm cm features
    | some ci => useConfig vm (removeReference cm (cm.configAt ci)) features

def wordBytes (words : List Nat) : List Nat := words.flatMap fun w =>
    [w % 256, w / 256 % 256, w / 65536 % 256, w / 16777216 % 256]

def sameFeature (featureIndex : Nat) (data : FeatureData) (f : ConfigFeature) : Bool :=
  f.featureIndex == featureIndex && f.featureConfig.length == data.words.length &&
    (wordBytes f.featureConfig).take data.nBytes == (wordBytes data.words).take data.nBytes

/-- Nothing for a user without a configuration: the word before the address `~0` is not in the heap. -/
def vnetConfigDelFeature (vm : VlibMain) (cm : ConfigMain A) (ci : Option Nat) (featureIndex : Nat)
    (data : FeatureData) :
    Option (VlibMain × ConfigMain A × Option Nat) :=
  ci.map fun ci =>
    let i := cm.configAt ci
    let features := (cm.configPool.eltAt i).features
    match features.findIdx? (sameFeature featureIndex data) with
    | none => (vm, cm, some ci)
    | some k => useConfig vm (removeReference cm i) (features.eraseIdx k)

structure SameConfig (c c' : Config) : Prop where
  features : c'.features = c.features
  configString : c'.configString = c.configString
  configStringHeapIndex : c'.configStringHeapIndex = c.configStringHeapIndex

theorem SameConfig.refl (c : Config) : SameConfig c c := ⟨rfl, rfl, rfl⟩

theorem SameConfig.trans {c d e : Config} (h : SameConfig c d) (h' : SameConfig d e) : SameConfig c e where
  features := h'.features.trans h.features
  configString := h'.configString.trans h.configString
  configStringHeapIndex := h'.configStringHeapIndex.trans h.configStringHeapIndex

theorem same_decrement (p : Pool Config) (i j : Nat) :
    SameConfig (p.eltAt j) ((p.modify i Config.decrement).eltAt j) where
  features := Pool.proj_modify (f := Config.features) (g := Config.decrement) (fun _ => rfl) p i j
  configString := Pool.proj_modify (f := Config.configString) (g := Config.decrement) (fun _ => rfl) p i j
  configStringHeapIndex :=
    Pool.proj_modify (f := Config.configStringHeapIndex) (g := Config.decrement) (fun _ => rfl) p i j

theorem same_increment (p : Pool Config) (i j : Nat) :
    SameConfig (p.eltAt j) ((p.modify i Config.increment).eltAt j) where
  features := Pool.proj_modify (f := Config.features) (g := Config.increment) (fun _ => rfl) p i j
  configString := Pool.proj_modify (f := Config.configString) (g := Config.increment) (fun _ => rfl) p i j
  configStringHeapIndex :=
    Pool.proj_modify (f := Config.configStringHeapIndex) (g := Config.increment) (fun _ => rfl) p i j

def Config.block (c : Config) : Block := (c.configStringHeapIndex, c.configString.length + 1)

structure Stored (cm : ConfigMain A) (i : Nat) (c : Config) : Prop where
  block : c.block ∈ A.blocks cm.heapBlocks
  holds : HoldsAt cm.configStringHeap c.configStringHeapIndex (i :: c.configString)

/-- The strings of the configurations are stored apart from each other and are the keys of the hash table. -/
structure Interned (cm : ConfigMain A) : Prop where
  hash : ∀ s i, cm.configStringHash s = some i ↔ cm.configPool.Live i ∧ (cm.configPool.eltAt i).configString = s
  stored : ∀ i, cm.configPool.Live i → Stored cm i (cm.configPool.eltAt i)
  apart : ∀ i j, cm.configPool.Live i → cm.configPool.Live j → i ≠ j →
    (cm.configPool.eltAt i).block.Apart (cm.configPool.eltAt j).block

structure Uses (cm : ConfigMain A) (i ci : Nat) : Prop where
  live : cm.configPool.Live i
  eq : ci = (cm.configPool.eltAt i).configStringHeapIndex + 1

structure Counted (cm : ConfigMain A) (users : List (Option Nat)) : Prop where
  uses : ∀ ci, some ci ∈ users → ∃ i, Uses cm i ci
  count : ∀ i, cm.configPool.Live i → (cm.configPool.eltAt i).referenceCount =
    users.count (some ((cm.configPool.eltAt i).configStringHeapIndex + 1))

/-- The configurations of `live` have a user. -/
def InUse (cm : ConfigMain A) (live : Nat → Prop) : Prop := ∀ i, live i → 0 < (cm.configPool.eltAt i).referenceCount

variable {cm : ConfigMain A}

theorem Interned.configAt (h : Interned cm) (hu : Uses cm i ci) : cm.configAt ci = i := by
  have hholds := (h.stored i hu.live).holds 0 (Nat.zero_lt_succ _)
  rw [ConfigMain.configAt, hu.eq, Nat.add_sub_cancel]
  exact hholds

theorem Interned.index_inj (h : Interned cm) (hi : cm.configPool.Live i) (hj : cm.configPool.Live j)
    (he : (cm.configPool.eltAt i).configStringHeapIndex = (cm.configPool.eltAt j).configStringHeapIndex) : i = j := by
  have hi' := (h.stored i hi).holds 0 (Nat.zero_lt_succ _)
  have hj' := (h.stored j hj).holds 0 (Nat.zero_lt_succ _)
  rw [he] at hi'
  exact hi'.symm.trans hj'

theorem Interned.uses_unique (h : Interned cm) (hi : Uses cm i ci) (hj : Uses cm j ci) : i = j := by
  rw [← h.configAt hi, h.configAt hj]

variable {cm' : ConfigMain A}

theorem Interned.congr (h : Interned cm) (hlive : ∀ j, cm'.configPool.Live j ↔ cm.configPool.Live j)
    (hsame : ∀ j, cm.configPool.Live j → SameConfig (cm.configPool.eltAt j) (cm'.configPool.eltAt j))
    (hhash : cm'.configStringHash = cm.configStringHash) (hheap : cm'.configStringHeap = cm.configStringHeap)
    (hblocks : cm'.heapBlocks = cm.heapBlocks) : Interned cm' := by
  have hblock : ∀ j, cm.configPool.Live j → (cm'.configPool.eltAt j).block = (cm.configPool.eltAt j).block := by
    intro j hj
    rw [Config.block, Config.block, (hsame j hj).configString, (hsame j hj).configStringHeapIndex]
  apply Interned.mk
  · intro s i
    rw [hhash, h.hash, hlive]
    exact and_congr_right fun hi => by rw [(hsame i hi).configString]
  · intro i hi
    have hi' := (hlive i).mp hi
    apply Stored.mk
    · rw [hblock i hi', hblocks]
      exact (h.stored i hi').block
    · rw [(hsame i hi').configString, (hsame i hi').configStringHeapIndex, hheap]
      exact (h.stored i hi').holds
  · intro i j hi hj hne
    have hi' := (hlive i).mp hi
    have hj' := (hlive j).mp hj
    rw [hblock i hi', hblock j hj']
    exact h.apart i j hi' hj' hne

inductive Removed (cm : ConfigMain A) (i : Nat) : ConfigMain A → Prop
  | kept (hlt : 1 < (cm.configPool.eltAt i).referenceCount) :
    Removed cm i { cm with configPool := cm.configPool.modify i Config.decrement }
  | freed (hle : (cm.configPool.eltAt i).referenceCount ≤ 1) :
    Removed cm i { cm with
      configPool := cm.configPool.put i
      configStringHash := update cm.configStringHash (cm.configPool.eltAt i).configString none
      heapBlocks := A.dealloc cm.heapBlocks (cm.configPool.eltAt i).configStringHeapIndex }

theorem removeReference_cases (cm : ConfigMain A) (i : Nat) : Removed cm i (removeReference cm i) := by
  rw [removeReference]
  split
  · next hzero => exact .freed (by omega)
  · next hne => exact .kept (by omega)

theorem Interned.removed (h : Interned cm) (hi : cm.configPool.Live i) (hr : Removed cm i cm') :
    Interned cm' := by
  cases hr with
  | kept hlt =>
    apply h.congr
    · intro j
      exact Pool.live_modify
    · intro j _
      exact same_decrement _ _ _
    · rfl
    · rfl
    · rfl
  | freed hle =>
    apply Interned.mk
    · intro s j
      simp only [update_apply, Pool.live_put, Pool.eltAt_put]
      split
      · next hs =>
        apply iff_of_false (fun h => by cases h)
        intro ⟨⟨hj, hne⟩, hsj⟩
        have hsi := (h.hash s i).mpr ⟨hi, hs.symm⟩
        rw [(h.hash s j).mpr ⟨hj, hsj⟩] at hsi
        exact hne (Option.some.inj hsi)
      · next hs =>
        rw [h.hash]
        apply Iff.intro
        · intro ⟨hj, hsj⟩
          have hne : j ≠ i := by
            intro he
            rw [he] at hsj
            exact hs hsj.symm
          exact ⟨⟨hj, hne⟩, hsj⟩
        · intro ⟨⟨hj, _⟩, hsj⟩
          exact ⟨hj, hsj⟩
    · intro j hj
      obtain ⟨hj, hne⟩ := Pool.live_put.mp hj
      have hstored := h.stored j hj
      apply Stored.mk
      · simp only [Pool.eltAt_put]
        apply (A.mem_dealloc _ _ _).mpr
        refine ⟨hstored.block, ?_⟩
        intro he
        exact hne (h.index_inj hj hi he)
      · simp only [Pool.eltAt_put]
        exact hstored.holds
    · intro j k hj hk hne
      simp only [Pool.eltAt_put]
      exact h.apart j k (Pool.live_put.mp hj).1 (Pool.live_put.mp hk).1 hne

theorem Removed.same (hr : Removed cm i cm') (hj : cm'.configPool.Live j) :
    cm.configPool.Live j ∧ SameConfig (cm.configPool.eltAt j) (cm'.configPool.eltAt j) := by
  cases hr with
  | kept hlt =>
    exact ⟨Pool.live_modify.mp hj, same_decrement _ _ _⟩
  | freed hle =>
    refine ⟨(Pool.live_put.mp hj).1, ?_⟩
    simp only [Pool.eltAt_put]
    exact .refl _

variable {users : List (Option Nat)}

theorem count_set_none (hu : users[u]? = some (some ci)) :
    (users.set u none).count (some a) = users.count (some a) - if ci = a then 1 else 0 := by
  obtain ⟨hlt, hget⟩ := List.getElem?_eq_some_iff.mp hu
  rw [count_set hlt, hget]
  simp

theorem Counted.removed {users : List (Option Nat)} (h : Counted cm users) (hin : Interned cm)
    (hu : users[u]? = some (some ci)) (hi : Uses cm i ci) (hr : Removed cm i cm') :
    Counted cm' (users.set u none) := by
  have hleft : ∀ a, (users.set u none).count (some a) = users.count (some a) - if ci = a then 1 else 0 :=
    fun a => count_set_none hu
  have hcount := h.count i hi.live
  rw [← hi.eq] at hcount
  cases hr with
  | kept hlt =>
    apply Counted.mk
    · intro ci' hmem
      have hmem' : some ci' ∈ users := by
        cases mem_or_eq_of_mem_set hmem with
        | inl hm => exact hm
        | inr he => cases he
      obtain ⟨j, hj⟩ := h.uses ci' hmem'
      refine ⟨j, Pool.live_modify.mpr hj.live, ?_⟩
      rw [(same_decrement _ _ _).configStringHeapIndex]
      exact hj.eq
    · intro j hj
      have hj := Pool.live_modify.mp hj
      rw [(same_decrement _ _ _).configStringHeapIndex, hleft]
      by_cases hji : j = i
      · subst hji
        simp only [Pool.eltAt_modify_self hi.live]
        rw [← hi.eq, if_pos rfl, ← hcount]
        rfl
      · simp only [Pool.eltAt_modify_ne hji]
        rw [h.count j hj, if_neg, Nat.sub_zero]
        intro he
        exact hji (hin.uses_unique ⟨hj, he⟩ hi)
  | freed hle =>
    apply Counted.mk
    · intro ci' hmem
      have hmem' : some ci' ∈ users := by
        cases mem_or_eq_of_mem_set hmem with
        | inl hm => exact hm
        | inr he => cases he
      obtain ⟨j, hj⟩ := h.uses ci' hmem'
      have hji : j ≠ i := by
        intro he
        rw [he] at hj
        have hpos := count_pos_iff.mpr hmem
        rw [hleft, if_pos (hi.eq.trans hj.eq.symm), hj.eq, ← hi.eq, ← hcount] at hpos
        omega
      refine ⟨j, Pool.live_put.mpr ⟨hj.live, hji⟩, ?_⟩
      simp only [Pool.eltAt_put]
      exact hj.eq
    · intro j hj
      obtain ⟨hj, hji⟩ := Pool.live_put.mp hj
      simp only [Pool.eltAt_put]
      rw [hleft, h.count j hj, if_neg, Nat.sub_zero]
      intro he
      exact hji (hin.uses_unique ⟨hj, he⟩ hi)

theorem InUse.removed (h : InUse cm cm.configPool.Live) (hi : cm.configPool.Live i)
    (hr : Removed cm i cm') : InUse cm' cm'.configPool.Live := by
  intro j hj
  cases hr with
  | kept hlt =>
    have hj := Pool.live_modify.mp hj
    by_cases hji : j = i
    · subst hji
      simp only [Pool.eltAt_modify_self hi]
      exact Nat.sub_pos_of_lt hlt
    · simp only [Pool.eltAt_modify_ne hji]
      exact h j hj
  | freed hle =>
    simp only [Pool.eltAt_put]
    exact h j (Pool.live_put.mp hj).1

section New
variable {features : List ConfigFeature} {configString : List Nat}

theorem newConfig_live : (newConfig cm features configString).1.configPool.Live j ↔
    cm.configPool.Live j ∨ j = (newConfig cm features configString).2 := by
  exact Pool.live_set.trans Pool.live_get

theorem newConfig_self :
    (newConfig cm features configString).1.configPool.eltAt (newConfig cm features configString).2 =
    ⟨features, configString, (A.alloc cm.heapBlocks (configString.length + 1)).1, 0⟩ := by
  exact Pool.eltAt_set_self (Pool.live_get.mpr (.inr rfl))

theorem newConfig_other (hj : cm.configPool.Live j) :
    (newConfig cm features configString).1.configPool.eltAt j = cm.configPool.eltAt j := by
  have hne : j ≠ cm.configPool.get.2 := fun he => Pool.not_live_get cm.configPool (he ▸ hj)
  exact (Pool.eltAt_set_ne hne).trans (Pool.eltAt_get _ _)

theorem newConfig_apart (h : Interned cm) (hj : cm.configPool.Live j) :
    Block.Apart ((A.alloc cm.heapBlocks (configString.length + 1)).1, configString.length + 1)
      (cm.configPool.eltAt j).block := by
  exact A.apart _ _ _ (h.stored j hj).block

theorem Interned.newConfig (h : Interned cm) (hnone : cm.configStringHash configString = none) :
    Interned (newConfig cm features configString).1 := by
  have hnew : ((Feature.newConfig cm features configString).1.configPool.eltAt
      (Feature.newConfig cm features configString).2).block =
      ((A.alloc cm.heapBlocks (configString.length + 1)).1, configString.length + 1) := by
    rw [newConfig_self]
    rfl
  apply Interned.mk
  · intro s j
    have hhash : (Feature.newConfig cm features configString).1.configStringHash s =
        if s = configString then some (Feature.newConfig cm features configString).2 else cm.configStringHash s :=
      update_apply _ _ _ _
    rw [hhash, newConfig_live]
    split
    · next hs =>
      apply Iff.intro
      · intro he
        rw [← Option.some.inj he, newConfig_self]
        exact ⟨.inr rfl, hs.symm⟩
      · intro ⟨hj, hsj⟩
        cases hj with
        | inl hj =>
          rw [newConfig_other hj] at hsj
          rw [← hs, (h.hash s j).mpr ⟨hj, hsj⟩] at hnone
          cases hnone
        | inr he => rw [he]
    · next hs =>
      rw [h.hash]
      apply Iff.intro
      · intro ⟨hj, hsj⟩
        rw [newConfig_other hj]
        exact ⟨.inl hj, hsj⟩
      · intro ⟨hj, hsj⟩
        cases hj with
        | inl hj =>
          rw [newConfig_other hj] at hsj
          exact ⟨hj, hsj⟩
        | inr he =>
          rw [he, newConfig_self] at hsj
          exact absurd hsj.symm hs
  · intro j hj
    have hblocks : A.blocks (Feature.newConfig cm features configString).1.heapBlocks =
        ((A.alloc cm.heapBlocks (configString.length + 1)).1, configString.length + 1) :: A.blocks cm.heapBlocks :=
      A.blocks_alloc _ _
    cases newConfig_live.mp hj with
    | inl hj =>
      have hstored := h.stored j hj
      rw [newConfig_other hj]
      apply Stored.mk
      · rw [hblocks]
        exact mem_cons_of_mem _ hstored.block
      · exact hstored.holds.writeAt (newConfig_apart h hj)
    | inr he =>
      subst he
      apply Stored.mk
      · rw [hblocks, hnew]
        exact mem_cons_self
      · rw [newConfig_self]
        exact holdsAt_writeAt _ _ _
  · intro i j hi hj hne
    cases newConfig_live.mp hi with
    | inl hi =>
      rw [newConfig_other hi]
      cases newConfig_live.mp hj with
      | inl hj =>
        rw [newConfig_other hj]
        exact h.apart i j hi hj hne
      | inr he =>
        subst he
        rw [hnew]
        exact (newConfig_apart h hi).symm
    | inr he =>
      subst he
      rw [hnew]
      cases newConfig_live.mp hj with
      | inl hj =>
        rw [newConfig_other hj]
        exact newConfig_apart h hj
      | inr he => exact absurd he.symm hne

theorem Counted.newConfig (h : Counted cm users) (hin : Interned cm) :
    Counted (newConfig cm features configString).1 users := by
  apply Counted.mk
  · intro ci hmem
    obtain ⟨i, hi⟩ := h.uses ci hmem
    refine ⟨i, newConfig_live.mpr (.inl hi.live), ?_⟩
    rw [newConfig_other hi.live]
    exact hi.eq
  · intro j hj
    cases newConfig_live.mp hj with
    | inl hj =>
      rw [newConfig_other hj]
      exact h.count j hj
    | inr he =>
      subst he
      rw [newConfig_self]
      apply Eq.symm
      apply count_eq_zero.mpr
      intro hmem
      obtain ⟨i, hi⟩ := h.uses _ hmem
      have hapart : Block.Apart ((A.alloc cm.heapBlocks (configString.length + 1)).1, configString.length + 1)
          (cm.configPool.eltAt i).block := newConfig_apart hin hi.live
      have heq := Nat.succ.inj hi.eq
      simp only at heq
      simp only [Block.Apart, Config.block] at hapart
      omega

end New

theorem Interned.addReference (h : Interned cm) (i : Nat) : Interned (addReference cm i) := by
  apply h.congr
  · intro j
    exact Pool.live_modify
  · intro j _
    exact same_increment _ _ _
  · rfl
  · rfl
  · rfl

theorem Counted.addReference (h : Counted cm users) (hin : Interned cm)
    (hi : cm.configPool.Live i) (hu : users[u]? = some none) :
    Counted (addReference cm i) (users.set u (some ((cm.configPool.eltAt i).configStringHeapIndex + 1))) := by
  obtain ⟨hlt, hget⟩ := List.getElem?_eq_some_iff.mp hu
  apply Counted.mk
  · intro ci hmem
    have huses : ∃ j, Uses cm j ci := by
      cases mem_or_eq_of_mem_set hmem with
      | inl hm => exact h.uses ci hm
      | inr he => exact ⟨i, hi, Option.some.inj he⟩
    obtain ⟨j, hj⟩ := huses
    refine ⟨j, Pool.live_modify.mpr hj.live, ?_⟩
    rw [Feature.addReference, (same_increment _ _ _).configStringHeapIndex]
    exact hj.eq
  · intro j hj
    have hk : cm.configPool.Live j := Pool.live_modify.mp hj
    rw [Feature.addReference, (same_increment _ _ _).configStringHeapIndex, count_set hlt, hget]
    by_cases hji : j = i
    · subst hji
      have hself : ((cm.configPool.modify j Config.increment).eltAt j).referenceCount =
          (cm.configPool.eltAt j).referenceCount + 1 := by
        rw [Pool.eltAt_modify_self hk]
        rfl
      rw [hself, h.count j hk]
      simp
    · simp only [Pool.eltAt_modify_ne hji]
      have hne : (cm.configPool.eltAt i).configStringHeapIndex ≠ (cm.configPool.eltAt j).configStringHeapIndex :=
        fun he => hji (hin.index_inj hi hk he).symm
      rw [h.count j hk]
      simp [hne]

/-- A user has come to a configuration with this string: a new one, or one that was there. -/
structure Entered (cm cm' : ConfigMain A) (features : List ConfigFeature) (configString : List Nat) (i ci : Nat) :
    Prop where
  interned : Interned cm'
  uses : Uses cm' i ci
  string : (cm'.configPool.eltAt i).configString = configString
  found : (cm'.configPool.eltAt i).features = features ∨
    (cm.configPool.Live i ∧ (cm.configPool.eltAt i).configString = configString ∧
      (cm'.configPool.eltAt i).features = (cm.configPool.eltAt i).features)
  same : ∀ j, cm.configPool.Live j → cm'.configPool.Live j ∧ SameConfig (cm.configPool.eltAt j) (cm'.configPool.eltAt j)
  only : ∀ j, cm'.configPool.Live j → cm.configPool.Live j ∨
    (j = i ∧ (cm'.configPool.eltAt i).features = features)

/-- What a user's configuration becomes, and that the users are counted again. -/
theorem useConfig_spec (hin : Interned cm) (hc : Counted cm users)
    (hused : InUse cm cm.configPool.Live) (hu : users[u]? = some none) (vm : VlibMain) (features : List ConfigFeature) :
    ∃ i ci cm', useConfig vm cm features = ((cm.stringOf vm features).1, cm', some ci) ∧
      Entered cm cm' features (cm.stringOf vm features).2 i ci ∧ Counted cm' (users.set u (some ci)) ∧
      InUse cm' cm'.configPool.Live := by
  cases hfind : cm.configStringHash (cm.stringOf vm features).2 with
  | some i =>
    obtain ⟨hlive, hstring⟩ := (hin.hash _ i).mp hfind
    have hr : findConfigWithFeatures vm cm features = ((cm.stringOf vm features).1, cm, i) := by
      simp only [findConfigWithFeatures, hfind]
    refine ⟨i, _, addReference cm i, by rw [useConfig, hr], ?_, hc.addReference hin hlive hu, ?_⟩
    · have hsame : ∀ j, SameConfig (cm.configPool.eltAt j) ((addReference cm i).configPool.eltAt j) :=
        fun j => same_increment _ _ _
      apply Entered.mk
      · exact hin.addReference i
      · refine ⟨Pool.live_modify.mpr hlive, ?_⟩
        rw [(hsame i).configStringHeapIndex]
      · rw [(hsame i).configString, hstring]
      · exact .inr ⟨hlive, hstring, (hsame i).features⟩
      · intro j hj
        exact ⟨Pool.live_modify.mpr hj, hsame j⟩
      · intro j hj
        exact .inl (Pool.live_modify.mp hj)
    · intro j hj
      have hk : cm.configPool.Live j := Pool.live_modify.mp hj
      by_cases hji : j = i
      · subst hji
        rw [addReference, Pool.eltAt_modify_self hk]
        exact Nat.succ_pos _
      · rw [addReference, Pool.eltAt_modify_ne hji]
        exact hused j hk
  | none =>
    have hr : findConfigWithFeatures vm cm features =
        ((cm.stringOf vm features).1, newConfig cm features (cm.stringOf vm features).2) := by
      simp only [findConfigWithFeatures, hfind]
    generalize hs : (cm.stringOf vm features).2 = s at hfind hr
    generalize hn : newConfig cm features s = n at hr
    have hnlive : n.1.configPool.Live n.2 := by
      rw [← hn]
      exact newConfig_live.mpr (.inr rfl)
    have hnself : n.1.configPool.eltAt n.2 = ⟨features, s, (A.alloc cm.heapBlocks (s.length + 1)).1, 0⟩ := by
      rw [← hn]
      exact newConfig_self
    have hnin : Interned n.1 := by
      rw [← hn]
      exact hin.newConfig hfind
    have hnc : Counted n.1 users := by
      rw [← hn]
      exact hc.newConfig hin
    have hsame : ∀ j, SameConfig (n.1.configPool.eltAt j) ((addReference n.1 n.2).configPool.eltAt j) :=
      fun j => same_increment _ _ _
    refine ⟨n.2, _, addReference n.1 n.2, by rw [useConfig, hr], ?_, hnc.addReference hnin hnlive hu, ?_⟩
    · apply Entered.mk
      · exact hnin.addReference n.2
      · refine ⟨Pool.live_modify.mpr hnlive, ?_⟩
        rw [(hsame n.2).configStringHeapIndex]
      · rw [(hsame n.2).configString, hnself]
      · left
        rw [(hsame n.2).features, hnself]
      · intro j hj
        have hj' : n.1.configPool.Live j := by
          rw [← hn]
          exact newConfig_live.mpr (.inl hj)
        refine ⟨Pool.live_modify.mpr hj', ?_⟩
        have hother : n.1.configPool.eltAt j = cm.configPool.eltAt j := by
          rw [← hn]
          exact newConfig_other hj
        rw [← hother]
        exact hsame j
      · intro j hj
        have hj' : n.1.configPool.Live j := Pool.live_modify.mp hj
        have hcases : cm.configPool.Live j ∨ j = n.2 := by
          rw [← hn] at hj' ⊢
          exact newConfig_live.mp hj'
        cases hcases with
        | inl hold => exact .inl hold
        | inr he =>
          refine .inr ⟨he, ?_⟩
          rw [(hsame n.2).features, hnself]
    · intro j hj
      have hj : n.1.configPool.Live j := Pool.live_modify.mp hj
      by_cases hji : j = n.2
      · rw [hji, addReference, Pool.eltAt_modify_self hnlive]
        exact Nat.succ_pos _
      · rw [addReference, Pool.eltAt_modify_ne hji]
        rw [← hn] at hj hji ⊢
        cases newConfig_live.mp hj with
        | inl hj =>
          rw [newConfig_other hj]
          exact hused j hj
        | inr he => exact absurd he hji

structure UsersInv (cm : ConfigMain A) (users : List (Option Nat)) : Prop where
  interned : Interned cm
  counted : Counted cm users
  inUse : InUse cm cm.configPool.Live

/-- A user without a configuration has nothing to leave. -/
def leaveConfig (cm : ConfigMain A) : Option Nat → ConfigMain A
  | none => cm
  | some ci => removeReference cm (cm.configAt ci)

/-- The configuration is there after its user with index `ci` has left. -/
def Stays (cm : ConfigMain A) (ci : Option Nat) (i : Nat) : Prop :=
  cm.configPool.Live i ∧ ∀ c ∈ ci, i = cm.configAt c → 1 < (cm.configPool.eltAt i).referenceCount

/-- A configuration that stays and has the string of the features has features with the property. -/
def Shares (P : List ConfigFeature → Prop) (cm : ConfigMain A) (ci : Option Nat) (vm : VlibMain)
    (features : List ConfigFeature) : Prop :=
  ∀ i, Stays cm ci i → (cm.configPool.eltAt i).configString = (cm.stringOf vm features).2 →
    P (cm.configPool.eltAt i).features

theorem stringOf_leaveConfig (cm : ConfigMain A) (ci : Option Nat) (vm : VlibMain) (features : List ConfigFeature) :
    (leaveConfig cm ci).stringOf vm features = cm.stringOf vm features := by
  cases ci with
  | none => rfl
  | some ci =>
    have hcases := removeReference_cases cm (cm.configAt ci)
    rw [leaveConfig]
    generalize removeReference cm (cm.configAt ci) = cm' at hcases ⊢
    cases hcases with
    | kept _ => rfl
    | freed _ => rfl

theorem Removed.live_iff (hr : Removed cm i cm') :
    cm'.configPool.Live j ↔ cm.configPool.Live j ∧ (j = i → 1 < (cm.configPool.eltAt j).referenceCount) := by
  cases hr with
  | kept hlt =>
    apply Iff.intro
    · intro hj
      exact ⟨Pool.live_modify.mp hj, fun he => he ▸ hlt⟩
    · intro ⟨hj, _⟩
      exact Pool.live_modify.mpr hj
  | freed hle =>
    apply Iff.intro
    · intro hj
      obtain ⟨hj, hji⟩ := Pool.live_put.mp hj
      exact ⟨hj, fun he => absurd he hji⟩
    · intro ⟨hj, hlt⟩
      refine Pool.live_put.mpr ⟨hj, ?_⟩
      intro he
      have hlt' := hlt he
      rw [he] at hlt'
      exact absurd hlt' (Nat.not_lt.mpr hle)

theorem leaveConfig_spec (h : UsersInv cm users) (hu : users[u]? = some ci) :
    UsersInv (leaveConfig cm ci) (users.set u none) ∧
      (∀ j, (leaveConfig cm ci).configPool.Live j ↔ Stays cm ci j) ∧
      ∀ j, (leaveConfig cm ci).configPool.Live j →
        SameConfig (cm.configPool.eltAt j) ((leaveConfig cm ci).configPool.eltAt j) := by
  cases ci with
  | none =>
    obtain ⟨hlt, hget⟩ := List.getElem?_eq_some_iff.mp hu
    have hset : users.set u none = users := by
      rw [← hget]
      exact set_getElem_self hlt
    rw [hset]
    refine ⟨h, ?_, fun j _ => .refl _⟩
    intro j
    exact ⟨fun hj => ⟨hj, fun c hc => by cases hc⟩, fun hj => hj.1⟩
  | some c =>
    obtain ⟨i, hi⟩ := h.counted.uses c (mem_of_getElem? hu)
    have hat := h.interned.configAt hi
    have hr := removeReference_cases cm i
    rw [leaveConfig, hat]
    refine ⟨⟨h.interned.removed hi.live hr, h.counted.removed h.interned hu hi hr, h.inUse.removed hi.live hr⟩, ?_, ?_⟩
    · intro j
      rw [hr.live_iff, Stays]
      simp only [Option.mem_def, Option.some.injEq, forall_eq', hat]
    · intro j hj
      exact (hr.same hj).2

theorem Interned.featuresOf (h : Interned cm) (hu : Uses cm i ci) :
    cm.featuresOf (some ci) = (cm.configPool.eltAt i).features := by
  rw [ConfigMain.featuresOf, h.configAt hu]

theorem moveConfig_spec (h : UsersInv cm users) (hu : users[u]? = some ci)
    (vm : VlibMain) (features : List ConfigFeature) :
    ∃ ci' cm', useConfig vm (leaveConfig cm ci) features = ((cm.stringOf vm features).1, cm', some ci') ∧
      UsersInv cm' (users.set u (some ci')) ∧
      (∀ P : List ConfigFeature → Prop, P features → (P (cm'.featuresOf (some ci')) ↔ Shares P cm ci vm features)) ∧
      (∀ v ≠ u, ∀ c, users[v]? = some c → cm'.featuresOf c = cm.featuresOf c) ∧
      ∀ Q : List ConfigFeature → List Nat → Prop,
        (∀ j, cm.configPool.Live j → Q (cm.configPool.eltAt j).features (cm.configPool.eltAt j).configString) →
        Q features (cm.stringOf vm features).2 →
        ∀ j, cm'.configPool.Live j → Q (cm'.configPool.eltAt j).features (cm'.configPool.eltAt j).configString := by
  obtain ⟨hleft, hlive, hsame⟩ := leaveConfig_spec h hu
  obtain ⟨hlt, hget⟩ := List.getElem?_eq_some_iff.mp hu
  have hnone : (users.set u none)[u]? = some none := getElem?_set_self hlt
  obtain ⟨i, ci', cm', hrun, hentered, hcounted, hused⟩ :=
    useConfig_spec hleft.interned hleft.counted hleft.inUse hnone vm features
  rw [stringOf_leaveConfig] at hrun hentered
  rw [set_set] at hcounted
  refine ⟨ci', cm', hrun, ⟨hentered.interned, hcounted, hused⟩, ?_, ?_, ?_⟩
  · intro P hP
    rw [hentered.interned.featuresOf hentered.uses]
    -- A configuration that stays with the string is the one that the user has come to.
    have hunique : ∀ j, Stays cm ci j → (cm.configPool.eltAt j).configString = (cm.stringOf vm features).2 →
        j = i ∧ (cm'.configPool.eltAt j).features = (cm.configPool.eltAt j).features := by
      intro j hj hstring
      have hj' := (hlive j).mpr hj
      obtain ⟨hlivej, hsamej⟩ := hentered.same j hj'
      have hall := (hsame j hj').trans hsamej
      refine ⟨?_, hall.features⟩
      have hhashj := (hentered.interned.hash (cm.stringOf vm features).2 j).mpr
        ⟨hlivej, hall.configString.trans hstring⟩
      have hhashi := (hentered.interned.hash (cm.stringOf vm features).2 i).mpr
        ⟨hentered.uses.live, hentered.string⟩
      rw [hhashj] at hhashi
      exact Option.some.inj hhashi
    apply Iff.intro
    · intro hPi j hj hstring
      obtain ⟨he, hfeatures⟩ := hunique j hj hstring
      rw [← hfeatures, he]
      exact hPi
    · intro hshares
      cases hentered.found with
      | inl hnew =>
        rw [hnew]
        exact hP
      | inr hold =>
        obtain ⟨hlivei, hstring, hfeatures⟩ := hold
        have hs := hsame i hlivei
        rw [hfeatures, hs.features]
        apply hshares i ((hlive i).mp hlivei)
        rw [← hs.configString]
        exact hstring
  · intro v hv c hc
    cases c with
    | none => rfl
    | some c =>
      have hmem : some c ∈ users.set u none := by
        apply mem_of_getElem? (i := v)
        rw [getElem?_set_ne hv.symm]
        exact hc
      obtain ⟨j, hj⟩ := hleft.counted.uses c hmem
      obtain ⟨hlivej, hsamej⟩ := hentered.same j hj.live
      have hs := hsame j hj.live
      have huses : Uses cm j c := by
        refine ⟨((hlive j).mp hj.live).1, ?_⟩
        rw [hj.eq, hs.configStringHeapIndex]
      have huses' : Uses cm' j c := by
        refine ⟨hlivej, ?_⟩
        rw [hj.eq, hsamej.configStringHeapIndex]
      rw [h.interned.featuresOf huses, hentered.interned.featuresOf huses', (hs.trans hsamej).features]
  · intro Q hall hnew j hj
    cases hentered.only j hj with
    | inl hold =>
      have hs := (hsame j hold).trans (hentered.same j hold).2
      rw [hs.features, hs.configString]
      exact hall j ((hlive j).mp hold).1
    | inr he =>
      rw [he.1, he.2, hentered.string]
      exact hnew

end Main

end Vpp.Feature
