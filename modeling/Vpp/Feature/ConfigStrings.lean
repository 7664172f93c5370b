import Vpp.Feature.Count

namespace Vpp.Feature
open Vpp.Lib Function List

section Graph
variable {vm vm' vm'' : VlibMain}

def VlibMain.Extends (vm vm' : VlibMain) : Prop :=
  ∀ node k next : Nat, (vm.nexts node)[k]? = some next → (vm'.nexts node)[k]? = some next

theorem VlibMain.Extends.refl (vm : VlibMain) : vm.Extends vm := fun _ _ _ hk => hk

theorem VlibMain.Extends.trans (h : vm.Extends vm') (h' : vm'.Extends vm'') : vm.Extends vm'' := 
  fun _ _ _ hk => h' _ _ _ (h _ _ _ hk)

theorem vlibNodeAddNext_extends (vm : VlibMain) (node next : Nat) : vm.Extends (vlibNodeAddNext vm node next).1 := by
  intro n k x hk
  rw [vlibNodeAddNext]
  split
  · exact hk
  · rw [VlibMain.nexts]
    by_cases hg : vm.group n = vm.group node
    · have hsame : vm.nexts n = vm.nexts node := by rw [VlibMain.nexts, VlibMain.nexts, hg]
      rw [hsame] at hk
      obtain ⟨hlt, hget⟩ := List.getElem?_eq_some_iff.mp hk
      simp only [hg, update_self]
      rw [getElem?_append_left hlt, hk]
    · simp only [update_of_ne hg]
      exact hk

theorem vlibNodeAddNext_slot (vm : VlibMain) (node next : Nat) :
    ((vlibNodeAddNext vm node next).1.nexts node)[(vlibNodeAddNext vm node next).2]? = some next := by
  rw [vlibNodeAddNext]
  split
  · next hmem =>
    have hlt := idxOf_lt_length_of_mem (contains_iff_mem.mp hmem)
    rw [List.getElem?_eq_getElem hlt, getElem_idxOf hlt]
  · rw [VlibMain.nexts]
    simp only [update_self]
    exact getElem?_concat_length

theorem addNext_extends (starts : List Nat) (vm : VlibMain) (last : Option Nat) (this : Nat) :
    vm.Extends (addNext starts vm last this).1 := by
  cases last with
  | some node => exact vlibNodeAddNext_extends vm node this
  | none =>
    have hfold : ∀ r : VlibMain × Option Nat, r.1.Extends (starts.foldl (fun (r : VlibMain × Option Nat) start =>
        ((vlibNodeAddNext r.1 start this).1, r.2.or (some (vlibNodeAddNext r.1 start this).2))) r).1 := by
      induction starts with
      | nil => exact fun r => .refl _
      | cons start starts ih =>
        intro r
        exact VlibMain.Extends.trans (vlibNodeAddNext_extends r.1 start this)
          (ih ((vlibNodeAddNext r.1 start this).1, r.2.or (some (vlibNodeAddNext r.1 start this).2)))
    exact hfold (vm, none)

theorem configStringOf_extends (starts : List Nat) (stop : Nat) (vm : VlibMain) (last : Option Nat)
    (fs : List ConfigFeature) : vm.Extends (configStringOf starts stop vm last fs).1 := by
  induction fs generalizing vm last with
  | nil =>
    rw [configStringOf]
    split
    · exact .refl _
    · exact addNext_extends starts vm last stop
  | cons f fs ih => exact VlibMain.Extends.trans (addNext_extends starts vm last f.nodeIndex) (ih _ _)

def Spells (vm : VlibMain) (stop : Nat) : Nat → List ConfigFeature → List Nat → Prop
  | node, [], s => if node = stop then s = [] else ∃ k, s = [k] ∧ (vm.nexts node)[k]? = some stop
  | node, f :: fs, s => ∃ k s', s = k :: f.featureConfig ++ s' ∧ (vm.nexts node)[k]? = some f.nodeIndex ∧
      Spells vm stop f.nodeIndex fs s'

def SpellsAll (vm : VlibMain) (starts : List Nat) (stop : Nat) : List ConfigFeature → List Nat → Prop
  | [], s => ∃ k, s = [k] ∧ ∀ start ∈ starts, (vm.nexts start)[k]? = some stop
  | f :: fs, s => ∃ k s', s = k :: f.featureConfig ++ s' ∧ (∀ start ∈ starts, (vm.nexts start)[k]? = some f.nodeIndex) ∧
      Spells vm stop f.nodeIndex fs s'

theorem Spells.extends (he : vm.Extends vm') (h : Spells vm stop node fs s) : Spells vm' stop node fs s := by
  induction fs generalizing node s with
  | nil =>
    rw [Spells] at h ⊢
    split
    · next hs => rwa [if_pos hs] at h
    · next hs =>
      rw [if_neg hs] at h
      obtain ⟨k, hk, hnext⟩ := h
      exact ⟨k, hk, he _ _ _ hnext⟩
  | cons f fs ih =>
    obtain ⟨k, s', hs, hnext, hrest⟩ := h
    exact ⟨k, s', hs, he _ _ _ hnext, ih hrest⟩

theorem SpellsAll.extends (he : vm.Extends vm') (h : SpellsAll vm starts stop fs s) :
    SpellsAll vm' starts stop fs s := by
  cases fs with
  | nil =>
    obtain ⟨k, hk, hnext⟩ := h
    exact ⟨k, hk, fun start hstart => he _ _ _ (hnext start hstart)⟩
  | cons f fs =>
    obtain ⟨k, s', hs, hnext, hrest⟩ := h
    exact ⟨k, s', hs, fun start hstart => he _ _ _ (hnext start hstart), hrest.extends he⟩

theorem configStringOf_spells (starts : List Nat) (stop : Nat) (vm : VlibMain) (node : Nat) (fs : List ConfigFeature) :
    Spells (configStringOf starts stop vm (some node) fs).1 stop node fs
        (configStringOf starts stop vm (some node) fs).2 := by
  induction fs generalizing vm node with
  | nil =>
    rw [Spells]
    split
    · next hs =>
      rw [configStringOf, if_pos (congrArg some hs)]
    · next hs =>
      have hne : some node ≠ some stop := fun he => hs (Option.some.inj he)
      rw [configStringOf, if_neg hne]
      exact ⟨_, rfl, vlibNodeAddNext_slot vm node stop⟩
  | cons f fs ih =>
    refine ⟨_, _, rfl, ?_, ih _ _⟩
    exact configStringOf_extends starts stop (addNext starts vm (some node) f.nodeIndex).1 (some f.nodeIndex) fs _ _ _
      (vlibNodeAddNext_slot vm node f.nodeIndex)

/-- The start nodes agree on the slot, as is asserted where they are asked for it. -/
def StartsAgree (starts : List Nat) (vm : VlibMain) (this : Nat) : Prop :=
  ∀ start ∈ starts, ((addNext starts vm none this).1.nexts start)[(addNext starts vm none this).2]? = some this

instance (starts : List Nat) (vm : VlibMain) (this : Nat) : Decidable (StartsAgree starts vm this) :=
  inferInstanceAs (Decidable (∀ start ∈ starts, _))

def firstNode (stop : Nat) : List ConfigFeature → Nat
  | [] => stop
  | f :: _ => f.nodeIndex

theorem configStringOf_spellsAll (ha : StartsAgree starts vm (firstNode stop fs)) :
    SpellsAll (configStringOf starts stop vm none fs).1 starts stop fs (configStringOf starts stop vm none fs).2 := by
  cases fs with
  | nil =>
    have hne : (none : Option Nat) ≠ some stop := fun he => by cases he
    rw [configStringOf, if_neg hne]
    exact ⟨_, rfl, ha⟩
  | cons f fs =>
    refine ⟨_, _, rfl, ?_, configStringOf_spells starts stop _ f.nodeIndex fs⟩
    intro start hstart
    exact configStringOf_extends starts stop (addNext starts vm none f.nodeIndex).1 (some f.nodeIndex) fs _ _ _
      (ha start hstart)

end Graph

section Reads
variable {A : Allocator}

/-- The data of a feature, the next index behind it and the config index behind that. -/
def vnetGetConfigData (cm : ConfigMain A) (ci nWords : Nat) : List Nat × Nat × Nat :=
  ((List.range nWords).map fun k => cm.configStringHeap (ci + k), cm.configStringHeap (ci + nWords), ci + nWords + 1)

/-- The node reads its data, and what it reads next leads through the features to the end node. -/
def Follows (vm : VlibMain) (cm : ConfigMain A) : Nat → List Nat → Nat → List ConfigFeature → Prop
  | node, data, ci, [] => (vnetGetConfigData cm ci data.length).1 = data ∧
      (node ≠ cm.endNodeIndex → (vm.nexts node)[(vnetGetConfigData cm ci data.length).2.1]? = some cm.endNodeIndex)
  | node, data, ci, f :: fs => (vnetGetConfigData cm ci data.length).1 = data ∧
      (vm.nexts node)[(vnetGetConfigData cm ci data.length).2.1]? = some f.nodeIndex ∧
      Follows vm cm f.nodeIndex f.featureConfig (vnetGetConfigData cm ci data.length).2.2 fs

def Leads (vm : VlibMain) (cm : ConfigMain A) (start ci : Nat) : List ConfigFeature → Prop
  | [] => (vm.nexts start)[(vnetGetConfigData cm ci 0).2.1]? = some cm.endNodeIndex
  | f :: fs => (vm.nexts start)[(vnetGetConfigData cm ci 0).2.1]? = some f.nodeIndex ∧
      Follows vm cm f.nodeIndex f.featureConfig (vnetGetConfigData cm ci 0).2.2 fs

variable {cm : ConfigMain A} {vm : VlibMain}

theorem vnetGetConfigData_holds (h : HoldsAt cm.configStringHeap ci data) :
    (vnetGetConfigData cm ci data.length).1 = data := by
  apply ext_getElem
  · rw [vnetGetConfigData, length_map, length_range]
  · intro k _ hk
    simp only [vnetGetConfigData, getElem_map, getElem_range]
    exact h k hk

theorem Follows.of_spells (h : Spells vm cm.endNodeIndex node fs s)
    (hheap : HoldsAt cm.configStringHeap ci (data ++ s)) : Follows vm cm node data ci fs := by
  induction fs generalizing node data ci s with
  | nil =>
    obtain ⟨hdata, hrest⟩ := hheap.append
    refine ⟨vnetGetConfigData_holds hdata, ?_⟩
    intro hne
    rw [Spells, if_neg hne] at h
    obtain ⟨k, hk, hnext⟩ := h
    rw [hk] at hrest
    have hread : (vnetGetConfigData cm ci data.length).2.1 = k := hrest.cons.1
    rw [hread]
    exact hnext
  | cons f fs ih =>
    obtain ⟨hdata, hrest⟩ := hheap.append
    obtain ⟨k, s', hs, hnext, hspells⟩ := h
    rw [hs, List.cons_append] at hrest
    obtain ⟨hread, htail⟩ := hrest.cons
    have hread : (vnetGetConfigData cm ci data.length).2.1 = k := hread
    refine ⟨vnetGetConfigData_holds hdata, ?_, ih hspells htail⟩
    rw [hread]
    exact hnext

theorem Leads.of_spellsAll {starts : List Nat} (h : SpellsAll vm starts cm.endNodeIndex fs s)
    (hheap : HoldsAt cm.configStringHeap ci s) (hstart : start ∈ starts) : Leads vm cm start ci fs := by
  cases fs with
  | nil =>
    obtain ⟨k, hk, hnext⟩ := h
    rw [hk] at hheap
    have hread : (vnetGetConfigData cm ci 0).2.1 = k := hheap.cons.1
    rw [Leads, hread]
    exact hnext start hstart
  | cons f fs =>
    obtain ⟨k, s', hs, hnext, hspells⟩ := h
    rw [hs, List.cons_append] at hheap
    obtain ⟨hread, htail⟩ := hheap.cons
    have hread : (vnetGetConfigData cm ci 0).2.1 = k := hread
    refine ⟨?_, .of_spells hspells htail⟩
    rw [hread]
    exact hnext start hstart

end Reads

section Users
variable {A : Allocator} {qsort : List ConfigFeature → List ConfigFeature}

structure ConfigUsers (A : Allocator) where
  vm : VlibMain
  configMain : ConfigMain A
  users : List (Option Nat)

inductive ConfigCall where
  | add (user featureIndex : Nat) (data : FeatureData)
  | del (user featureIndex : Nat) (data : FeatureData)

def ConfigUsers.indexOf (s : ConfigUsers A) (user : Nat) : Option Nat := s.users.getD user none

def ConfigUsers.store (s : ConfigUsers A) (user : Nat) (r : VlibMain × ConfigMain A × Option Nat) : ConfigUsers A :=
  ⟨r.1, r.2.1, (vecValidate s.users user none).set user r.2.2⟩

def ConfigCall.exec (qsort : List ConfigFeature → List ConfigFeature) (s : ConfigUsers A) :
    ConfigCall → Option (ConfigUsers A)
  | add user i data => some (s.store user (vnetConfigAddFeature qsort s.vm s.configMain (s.indexOf user) i data))
  | del user i data => (vnetConfigDelFeature s.vm s.configMain (s.indexOf user) i data).map (s.store user)

/-- The features of every user, when nothing is shared. -/
def ownStep (qsort : List ConfigFeature → List ConfigFeature) (nodeOf : Nat → Option Nat)
    (own : Nat → List ConfigFeature) : ConfigCall → Nat → List ConfigFeature
  | .add user i data => match nodeOf i with
    | none => own
    | some node => update own user (qsort (own user ++ [⟨i, node, data.words⟩]))
  | .del user i data => match (own user).findIdx? (sameFeature i data) with
    | none => own
    | some k => update own user ((own user).eraseIdx k)

/-- A deletion of a feature that the user does not have. -/
def Absent (own : Nat → List ConfigFeature) : ConfigCall → Prop
  | .add .. => False
  | .del user i data => (own user).findIdx? (sameFeature i data) = none

structure SameUsers (s s' : ConfigUsers A) : Prop where
  vm : s'.vm = s.vm
  configMain : s'.configMain = s.configMain
  indexOf : ∀ user, s'.indexOf user = s.indexOf user

def ConfigUsers.stringAt (s : ConfigUsers A) (ci : Nat) : List Nat :=
  (s.configMain.configPool.eltAt (s.configMain.configAt ci)).configString

/-- Every user is led through its own features, in order. A configuration is shared by those who have the same string,
and they are counted. -/
structure ConfigsRight (s : ConfigUsers A) (own : Nat → List ConfigFeature) : Prop where
  leads : ∀ user ci, s.indexOf user = some ci → ∀ start ∈ s.configMain.startNodeIndices,
    Leads s.vm s.configMain start ci (own user)
  none : ∀ user, s.indexOf user = none → own user = []
  sorted : ∀ user, (own user).Pairwise fun f g => f.featureIndex ≤ g.featureIndex
  shared : ∀ user user' ci ci', s.indexOf user = some ci → s.indexOf user' = some ci' →
    (ci = ci' ↔ s.stringAt ci = s.stringAt ci')
  counted : ∀ i, s.configMain.configPool.Live i → (s.configMain.configPool.eltAt i).referenceCount =
    s.users.count (some ((s.configMain.configPool.eltAt i).configStringHeapIndex + 1))

/-- No configuration that stays has the string of these features and other ones, and the start nodes agree. -/
def Sharable (s : ConfigUsers A) (user : Nat) (fs : List ConfigFeature) : Prop :=
  Shares (fun fs' => fs' = fs) s.configMain (s.indexOf user) s.vm fs ∧
    StartsAgree s.configMain.startNodeIndices s.vm (firstNode s.configMain.endNodeIndex fs)

/-- A deletion is for a user that has had a feature, and a new string is that of no other features. -/
def Allowed (qsort : List ConfigFeature → List ConfigFeature) (s : ConfigUsers A) (own : Nat → List ConfigFeature) :
    ConfigCall → Prop
  | .add user i data => ∀ node, s.configMain.nodeOf i = some node →
    Sharable s user (qsort (own user ++ [⟨i, node, data.words⟩]))
  | .del user i data => s.indexOf user ≠ none ∧
    ∀ k, (own user).findIdx? (sameFeature i data) = some k → Sharable s user ((own user).eraseIdx k)

structure StringsInv (s : ConfigUsers A) (own : Nat → List ConfigFeature) : Prop where
  inv : UsersInv s.configMain s.users
  spells : ∀ i, s.configMain.configPool.Live i → SpellsAll s.vm s.configMain.startNodeIndices s.configMain.endNodeIndex
    (s.configMain.configPool.eltAt i).features (s.configMain.configPool.eltAt i).configString
  features : ∀ user, s.configMain.featuresOf (s.indexOf user) = own user
  sorted : ∀ user, (own user).Pairwise fun f g => f.featureIndex ≤ g.featureIndex

variable {s : ConfigUsers A}

theorem mem_of_indexOf (h : s.indexOf user = some ci) : some ci ∈ s.users := by
  rw [ConfigUsers.indexOf, getD_eq_getElem?_getD] at h
  cases hu : s.users[user]? with
  | none =>
    rw [hu] at h
    cases h
  | some c =>
    rw [hu] at h
    have hc : c = some ci := h
    rw [← hc]
    exact mem_of_getElem? hu

theorem StringsInv.right (h : StringsInv s own) : ConfigsRight s own := by
  have huses : ∀ {user ci}, s.indexOf user = some ci → Uses s.configMain (s.configMain.configAt ci) ci := by
    intro user ci hu
    obtain ⟨i, hi⟩ := h.inv.counted.uses ci (mem_of_indexOf hu)
    rw [h.inv.interned.configAt hi]
    exact hi
  apply ConfigsRight.mk
  · intro user ci hu start hstart
    have hi := huses hu
    have hheap := (h.inv.interned.stored _ hi.live).holds.cons.2
    rw [← hi.eq] at hheap
    have hfeatures := h.features user
    rw [hu, h.inv.interned.featuresOf hi] at hfeatures
    rw [← hfeatures]
    exact Leads.of_spellsAll (h.spells _ hi.live) hheap hstart
  · intro user hu
    rw [← h.features user, hu]
    rfl
  · exact h.sorted
  · intro user user' ci ci' hu hu'
    have hi := huses hu
    have hi' := huses hu'
    apply Iff.intro
    · intro he
      rw [he]
    · intro hs
      have hhash := (h.inv.interned.hash _ _).mpr ⟨hi.live, rfl⟩
      have hhash' := (h.inv.interned.hash _ _).mpr ⟨hi'.live, hs.symm⟩
      have hat := Option.some.inj (hhash.symm.trans hhash')
      rw [hi.eq, hi'.eq, hat]
  · exact h.inv.counted.count

structure SameNodes (cm cm' : ConfigMain A) : Prop where
  starts : cm'.startNodeIndices = cm.startNodeIndices
  stop : cm'.endNodeIndex = cm.endNodeIndex
  nodes : cm'.nodeIndexByFeatureIndex = cm.nodeIndexByFeatureIndex

theorem leaveConfig_nodes (cm : ConfigMain A) (ci : Option Nat) : SameNodes cm (leaveConfig cm ci) := by
  cases ci with
  | none => exact ⟨rfl, rfl, rfl⟩
  | some ci =>
    have hcases := removeReference_cases cm (cm.configAt ci)
    rw [leaveConfig]
    generalize removeReference cm (cm.configAt ci) = cm' at hcases ⊢
    cases hcases with
    | kept _ => exact ⟨rfl, rfl, rfl⟩
    | freed _ => exact ⟨rfl, rfl, rfl⟩

theorem useConfig_nodes (vm : VlibMain) (cm : ConfigMain A) (fs : List ConfigFeature) :
    SameNodes cm (useConfig vm cm fs).2.1 := by
  rw [useConfig, findConfigWithFeatures]
  split
  · exact ⟨rfl, rfl, rfl⟩
  · exact ⟨rfl, rfl, rfl⟩

theorem moveConfig_nodes (vm : VlibMain) (cm : ConfigMain A) (ci : Option Nat) (fs : List ConfigFeature) :
    SameNodes cm (useConfig vm (leaveConfig cm ci) fs).2.1 := by
  have hl := leaveConfig_nodes cm ci
  have hu := useConfig_nodes vm (leaveConfig cm ci) fs
  exact ⟨hu.starts.trans hl.starts, hu.stop.trans hl.stop, hu.nodes.trans hl.nodes⟩

theorem store_indexOf_self (s : ConfigUsers A) (user : Nat) (r : VlibMain × ConfigMain A × Option Nat) :
    (s.store user r).indexOf user = r.2.2 := by
  exact getD_set_self (lt_length_vecValidate _ _ _) _ _

theorem store_indexOf_ne (s : ConfigUsers A) (r : VlibMain × ConfigMain A × Option Nat) (h : other ≠ user) :
    (s.store user r).indexOf other = s.indexOf other := by
  rw [ConfigUsers.indexOf, ConfigUsers.store]
  simp only [getD_set_ne h, getD_vecValidate]
  rfl

theorem StringsInv.move (h : StringsInv s own) (hs : Sharable s user fs)
    (hsorted : fs.Pairwise fun f g => f.featureIndex ≤ g.featureIndex) :
    StringsInv (s.store user (useConfig s.vm (leaveConfig s.configMain (s.indexOf user)) fs))
      (update own user fs) := by
  have hget := getElem?_vecValidate s.users user none
  obtain ⟨ci', cm', hrun, hinv, hshares, hothers, hall⟩ := moveConfig_spec (h.inv.validate user) hget s.vm fs
  have hnodes := moveConfig_nodes s.vm s.configMain (s.indexOf user) fs
  rw [ConfigUsers.indexOf] at hnodes
  rw [ConfigUsers.indexOf]
  rw [hrun] at hnodes ⊢
  obtain ⟨hstarts, hstop, _⟩ := hnodes
  have hextends : s.vm.Extends (s.configMain.stringOf s.vm fs).1 := configStringOf_extends _ _ _ _ _
  apply StringsInv.mk
  · exact hinv
  · have hspells :=
      hall (SpellsAll (s.configMain.stringOf s.vm fs).1 s.configMain.startNodeIndices s.configMain.endNodeIndex)
      (fun j hj => (h.spells j hj).extends hextends) (configStringOf_spellsAll hs.2)
    intro i hi
    have hi' := hspells i hi
    rw [← hstarts, ← hstop] at hi'
    exact hi'
  · intro other
    by_cases ho : other = user
    · subst ho
      rw [store_indexOf_self, update_self]
      exact (hshares (fun fs' => fs' = fs) rfl).mpr hs.1
    · rw [store_indexOf_ne _ _ ho, update_of_ne ho, ← h.features other]
      rw [ConfigUsers.indexOf, ← getD_vecValidate _ user]
      cases hv : (vecValidate s.users user none)[other]? with
      | none =>
        rw [getD_eq_getElem?_getD, hv]
        rfl
      | some c =>
        rw [getD_eq_getElem?_getD, hv]
        exact hothers other ho c hv
  · intro other
    by_cases ho : other = user
    · rw [ho, update_self]
      exact hsorted
    · rw [update_of_ne ho]
      exact h.sorted other

theorem store_same (s : ConfigUsers A) (user : Nat) :
    SameUsers s (s.store user (s.vm, s.configMain, s.indexOf user)) where
  vm := rfl
  configMain := rfl
  indexOf other := by
    by_cases ho : other = user
    · rw [ho, store_indexOf_self]
    · exact store_indexOf_ne _ _ ho

theorem StringsInv.stay (h : StringsInv s own) (user : Nat) :
    StringsInv (s.store user (s.vm, s.configMain, s.indexOf user)) own := by
  have hsame := store_same s user
  apply StringsInv.mk
  · have hvalid := h.inv.validate user
    have hset : (vecValidate s.users user none).set user (s.indexOf user) = vecValidate s.users user none := by
      have hlt := lt_length_vecValidate s.users user none
      have hget : (vecValidate s.users user none)[user] = s.indexOf user := by
        rw [← getD_eq_getElem _ none hlt, getD_vecValidate, ConfigUsers.indexOf]
      rw [← hget]
      exact set_getElem_self hlt
    rw [ConfigUsers.store]
    simp only [hset]
    exact hvalid
  · exact h.spells
  · intro other
    rw [hsame.configMain, hsame.indexOf]
    exact h.features other
  · exact h.sorted

structure ExecOk (s : ConfigUsers A) (own own' : Nat → List ConfigFeature) (absent : Prop) (s' : ConfigUsers A) :
    Prop where
  inv : StringsInv s' own'
  nodes : s'.configMain.nodeIndexByFeatureIndex = s.configMain.nodeIndexByFeatureIndex
  same : absent → SameUsers s s'

theorem exec_ok (hq : Sorts qsort) (h : StringsInv s own) {c : ConfigCall} (hc : Allowed qsort s own c) :
    ∃ s', c.exec qsort s = some s' ∧ ExecOk s own (ownStep qsort s.configMain.nodeOf own c) (Absent own c) s' := by
  cases c with
  | add user i data =>
    refine ⟨_, rfl, ?_⟩
    have hown := h.features user
    cases hn : s.configMain.nodeOf i with
    | none =>
      rw [vnetConfigAddFeature_none qsort hn, ownStep]
      simp only [hn]
      exact ⟨h.stay user, rfl, fun ha => absurd ha id⟩
    | some node =>
      rw [vnetConfigAddFeature_some qsort hn, ownStep, hown]
      simp only [hn]
      exact ⟨h.move (hc node hn) (hq _).2, (moveConfig_nodes _ _ _ _).nodes, fun ha => absurd ha id⟩
  | del user i data =>
    have hown := h.features user
    obtain ⟨hne, hshare⟩ := hc
    cases hu : s.indexOf user with
    | none => exact absurd hu hne
    | some ci =>
      rw [ConfigCall.exec, hu, vnetConfigDelFeature_eq, ← hu, hown]
      refine ⟨_, rfl, ?_⟩
      cases hfind : (own user).findIdx? (sameFeature i data) with
      | none =>
        rw [ownStep, hfind]
        exact ⟨h.stay user, rfl, fun _ => store_same s user⟩
      | some k =>
        rw [ownStep, hfind]
        have hsorted : ((own user).eraseIdx k).Pairwise fun f g => f.featureIndex ≤ g.featureIndex :=
          (h.sorted user).sublist (eraseIdx_sublist _ _)
        refine ⟨h.move (hshare k hfind) hsorted, (moveConfig_nodes _ _ _ _).nodes, ?_⟩
        intro ha
        rw [Absent, hfind] at ha
        cases ha

/-- Every call returns and leaves everything right, and a deletion of an absent feature changes nothing. -/
def AlwaysLeads (qsort : List ConfigFeature → List ConfigFeature) (nodeOf : Nat → Option Nat) :
    ConfigUsers A → (Nat → List ConfigFeature) → List ConfigCall → Prop
  | _, _, [] => True
  | s, own, c :: cs => ∃ s', c.exec qsort s = some s' ∧ ConfigsRight s' (ownStep qsort nodeOf own c) ∧
      (Absent own c → SameUsers s s') ∧ AlwaysLeads qsort nodeOf s' (ownStep qsort nodeOf own c) cs

def AllAllowed (qsort : List ConfigFeature → List ConfigFeature) (nodeOf : Nat → Option Nat) :
    ConfigUsers A → (Nat → List ConfigFeature) → List ConfigCall → Prop
  | _, _, [] => True
  | s, own, c :: cs => Allowed qsort s own c ∧ ∀ s' ∈ c.exec qsort s,
      AllAllowed qsort nodeOf s' (ownStep qsort nodeOf own c) cs

theorem alwaysLeads_of_allAllowed (hq : Sorts qsort) (h : StringsInv s own)
    (ha : AllAllowed qsort s.configMain.nodeOf s own cs) : AlwaysLeads qsort s.configMain.nodeOf s own cs := by
  induction cs generalizing s own with
  | nil => trivial
  | cons c cs ih =>
    obtain ⟨s', hrun, hok⟩ := exec_ok hq h ha.1
    have hnodes : s'.configMain.nodeOf = s.configMain.nodeOf := by
      funext i
      rw [ConfigMain.nodeOf, ConfigMain.nodeOf, hok.nodes]
    have hrest := ha.2 s' hrun
    rw [← hnodes] at hrest
    have hinv : StringsInv s' (ownStep qsort s'.configMain.nodeOf own c) := by
      rw [hnodes]
      exact hok.inv
    have hleads := ih hinv hrest
    rw [hnodes] at hleads
    exact ⟨s', hrun, hok.inv.right, hok.same, hleads⟩

def freshUsers (vm : VlibMain) (h : A.State) (starts : List Nat) (stop : Nat) (nodes : List (Option Nat)) :
    ConfigUsers A :=
  ⟨vm, (freshArc vm h starts stop nodes).configMain, []⟩

theorem freshUsers_inv (vm : VlibMain) (h : A.State) (starts : List Nat) (stop : Nat) (nodes : List (Option Nat)) :
    StringsInv (freshUsers vm h starts stop nodes) fun _ => [] where
  inv := freshArc_inv vm h starts stop nodes
  spells i hi := absurd hi (Pool.not_live_empty i)
  features _ := rfl
  sorted _ := .nil

/-- In a run whose calls are allowed, every user is led through exactly its features and then to the end node, deleting
an absent feature changes nothing, and configurations are shared by the users of a string, who are counted. -/
theorem vnet_config_users (hq : Sorts qsort) (vm : VlibMain) (h : A.State) (starts : List Nat) (stop : Nat)
    (nodes : List (Option Nat)) (cs : List ConfigCall)
    (ha : AllAllowed qsort (freshUsers vm h starts stop nodes).configMain.nodeOf (freshUsers vm h starts stop nodes)
      (fun _ => []) cs) :
    AlwaysLeads qsort (freshUsers vm h starts stop nodes).configMain.nodeOf (freshUsers vm h starts stop nodes)
      (fun _ => []) cs := by
  exact alwaysLeads_of_allAllowed hq (freshUsers_inv vm h starts stop nodes) ha

end Users

/-- The users of three features between the start node 0 and the end node 3. -/
def threeUsers : ConfigUsers Allocator.stacked := freshUsers ⟨id, fun _ => []⟩ [] [0] 3 [some 1, some 2, some 3]

def sameFeatures : List ConfigCall := [.add 0 0 noData, .add 1 0 noData]

theorem sameFeatures_allowed :
    AllAllowed byIndex threeUsers.configMain.nodeOf threeUsers (fun _ => []) sameFeatures := by
  refine ⟨?_, ?_⟩
  · intro node hn
    refine ⟨fun i hi _ => absurd hi.1 (Pool.not_live_empty i), ?_⟩
    cases hn
    decide
  · intro s' hs'
    cases hs'
    refine ⟨?_, fun _ _ => trivial⟩
    intro node hn
    cases hn
    refine ⟨?_, by decide⟩
    intro i hi _
    have hlt : i < 1 := hi.1.1
    have hzero : i = 0 := Nat.lt_one_iff.mp hlt
    rw [hzero]
    decide

theorem vnet_config_users_two :
    AlwaysLeads byIndex threeUsers.configMain.nodeOf threeUsers (fun _ => []) sameFeatures := by
  exact vnet_config_users (A := Allocator.stacked) byIndex_sorts ⟨id, fun _ => []⟩ [] [0] 3 [some 1, some 2, some 3]
    sameFeatures sameFeatures_allowed

theorem vnet_config_users_fails :
    ¬ ∀ (A : Allocator) (qsort : List ConfigFeature → List ConfigFeature) (vm : VlibMain) (h : A.State)
        (starts : List Nat)
      (stop : Nat) (nodes : List (Option Nat)) (cs : List ConfigCall), Sorts qsort →
      AlwaysLeads qsort (freshUsers vm h starts stop nodes).configMain.nodeOf (freshUsers vm h starts stop nodes)
        (fun _ => []) cs := by
  intro hall
  obtain ⟨s', hs', _⟩ := hall Allocator.stacked byIndex ⟨id, fun _ => []⟩ [] [0] 3 [some 1, some 2, some 3]
    [.del 0 0 noData] byIndex_sorts
  have hnone : ConfigCall.exec byIndex threeUsers (.del 0 0 noData) = none := by rfl
  exact Option.some_ne_none s' (hs'.symm.trans hnone)

end Vpp.Feature
