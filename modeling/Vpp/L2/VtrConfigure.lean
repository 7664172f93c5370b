import Mathlib.Logic.Function.Basic

namespace Vpp.L2
open Function

inductive L2VtrOp
  | disabled
  | push1
  | push2
  | pop1
  | pop2
  | translate11
  | translate12
  | translate21
  | translate22
deriving DecidableEq

def L2VtrOp.code : L2VtrOp → Nat
  | disabled => 0
  | push1 => 1
  | push2 => 2
  | pop1 => 3
  | pop2 => 4
  | translate11 => 5
  | translate12 => 6
  | translate21 => 7
  | translate22 => 8

def L2VtrOp.ofCode : Nat → Option L2VtrOp
  | 0 => some disabled
  | 1 => some push1
  | 2 => some push2
  | 3 => some pop1
  | 4 => some pop2
  | 5 => some translate11
  | 6 => some translate12
  | 7 => some translate21
  | 8 => some translate22
  | _ => none

@[simp] theorem L2VtrOp.ofCode_code (op : L2VtrOp) : ofCode op.code = some op := by cases op <;> rfl

inductive VnetApiError
  | invalidInterface
  | invalidVlanTagCount
deriving DecidableEq

def ethernetTypeVlan : BitVec 16 := 0x8100
def ethernetTypeDot1ad : BitVec 16 := 0x88a8

structure EthernetVlanHeaderTv where
  type : BitVec 16
  priorityCfiAndId : BitVec 16
deriving DecidableEq

def noTag : EthernetVlanHeaderTv := ⟨0, 0⟩

/-- A rewrite: up to two tags to push, the last one in the second place. -/
structure VtrConfig where
  tag0 : EthernetVlanHeaderTv
  tag1 : EthernetVlanHeaderTv
  pushBytes : Nat
  popBytes : Nat
deriving DecidableEq

def VtrConfig.clearRawTags (c : VtrConfig) : VtrConfig := { c with tag0 := noTag, tag1 := noTag }

structure L2OutputConfig where
  inputVtr : VtrConfig
  outputVtr : VtrConfig
  outVtrFlag : Bool
deriving DecidableEq

structure VnetSwInterface where
  isHardware : Bool
  outerVlanId : BitVec 16
  innerVlanId : BitVec 16
  noTags : Bool
  oneTag : Bool
  twoTags : Bool
  dot1ad : Bool
  outerVlanIdAny : Bool
  innerVlanIdAny : Bool

/-- The rewrites of the interfaces, and whether each has the input feature. -/
structure L2Main where
  configs : Nat → L2OutputConfig
  inputFeatVtr : Nat → Bool

/-- A request, with the interface that it finds when that is an Ethernet one. -/
structure VtrRequest where
  si : Option VnetSwInterface
  swIfIndex : Nat
  vtrOp : Nat
  pushDot1q : Bool
  vtrTag1 : BitVec 32
  vtrTag2 : BitVec 32

def cfgTags (si : VnetSwInterface) : Nat :=
  if si.isHardware || si.noTags then 0
  else if si.oneTag then (if si.outerVlanIdAny then 0 else 1)
  else if si.twoTags then (if si.outerVlanIdAny then 0 else if si.innerVlanIdAny then 1 else 2)
  else 0

/-- The input rewrite of an operation, unless the interface has too few tags for it. -/
def inputVtrOf (inConfig : VtrConfig) (cfgTags : Nat) (op : Option L2VtrOp) (tag1 tag2 : EthernetVlanHeaderTv) :
    Option VtrConfig :=
  let one := { inConfig with tag1 := tag1 }
  let two := { inConfig with tag0 := tag1, tag1 := tag2 }
  match op with
  | some .disabled => some { inConfig with pushBytes := 0, popBytes := 0 }
  | some .pop1 => if cfgTags < 1 then none else some { inConfig with popBytes := 4, pushBytes := 0 }
  | some .pop2 => if cfgTags < 2 then none else some { inConfig with popBytes := 8, pushBytes := 0 }
  | some .push1 => some { one with popBytes := 0, pushBytes := 4 }
  | some .push2 => some { two with popBytes := 0, pushBytes := 8 }
  | some .translate11 => if cfgTags < 1 then none else some { one with popBytes := 4, pushBytes := 4 }
  | some .translate12 => if cfgTags < 1 then none else some { two with popBytes := 4, pushBytes := 8 }
  | some .translate21 => if cfgTags < 2 then none else some { one with popBytes := 8, pushBytes := 4 }
  | some .translate22 => if cfgTags < 2 then none else some { two with popBytes := 8, pushBytes := 8 }
  | none => some inConfig

def outerTag (si : VnetSwInterface) : EthernetVlanHeaderTv :=
  ⟨if si.dot1ad then ethernetTypeDot1ad else ethernetTypeVlan, si.outerVlanId⟩

def innerTag (si : VnetSwInterface) : EthernetVlanHeaderTv := ⟨ethernetTypeVlan, si.innerVlanId⟩

/-- The output rewrite pops what the input one pushes, and pushes the tags of the sub-interface. -/
def outputVtrOf (outConfig inConfig : VtrConfig) (si : VnetSwInterface) : VtrConfig :=
  let outConfig := { outConfig with pushBytes := inConfig.popBytes, popBytes := inConfig.pushBytes }
  if outConfig.pushBytes = 4 then { outConfig with tag1 := outerTag si }
  else if outConfig.pushBytes = 8 then { outConfig with tag0 := outerTag si, tag1 := innerTag si }
  else outConfig

/-- The tags of the interface are checked after its rewrites are cleared. -/
def l2vtrConfigure (m : L2Main) (r : VtrRequest) : Option VnetApiError × L2Main :=
  match r.si with
  | none => (some .invalidInterface, m)
  | some si =>
    let config := m.configs r.swIfIndex
    let inConfig := config.inputVtr.clearRawTags
    let outConfig := config.outputVtr.clearRawTags
    let cleared := { config with inputVtr := inConfig, outputVtr := outConfig }
    let tag1 := ⟨if r.pushDot1q then ethernetTypeVlan else ethernetTypeDot1ad, r.vtrTag1.setWidth 16⟩
    let tag2 := ⟨ethernetTypeVlan, r.vtrTag2.setWidth 16⟩
    match inputVtrOf inConfig (cfgTags si) (L2VtrOp.ofCode r.vtrOp) tag1 tag2 with
    | none => (some .invalidVlanTagCount, { m with configs := update m.configs r.swIfIndex cleared })
    | some inConfig =>
      let enable : Bool := r.vtrOp ≠ L2VtrOp.disabled.code
      let config :=
        { inputVtr := inConfig
          outputVtr := outputVtrOf outConfig inConfig si
          outVtrFlag := enable }
      (none,
        { configs := update m.configs r.swIfIndex config
          inputFeatVtr := update m.inputFeatVtr r.swIfIndex enable })

def l2vtrConfigureAll (m : L2Main) (rs : List VtrRequest) : L2Main := rs.foldl (fun m r => (l2vtrConfigure m r).2) m

def neededTags : Option L2VtrOp → Nat
  | some .pop1 | some .translate11 | some .translate12 => 1
  | some .pop2 | some .translate21 | some .translate22 => 2
  | _ => 0

theorem inputVtrOf_eq_none {c : VtrConfig} {n : Nat} {op : Option L2VtrOp} {t1 t2 : EthernetVlanHeaderTv} :
    inputVtrOf c n op t1 t2 = none ↔ n < neededTags op := by
  rcases op with _ | op
  · simp [inputVtrOf, neededTags]
  · cases op <;> simp [inputVtrOf, neededTags]

def TooFewTags (r : VtrRequest) : Prop := ∃ si, r.si = some si ∧ cfgTags si < neededTags (L2VtrOp.ofCode r.vtrOp)

def VtrConfig.NoRawTags (c : VtrConfig) : Prop := c.tag0 = noTag ∧ c.tag1 = noTag

theorem clearRawTags_eq_iff {c : VtrConfig} : c.clearRawTags = c ↔ c.NoRawTags := by
  cases c
  simp only [VtrConfig.clearRawTags, VtrConfig.NoRawTags, VtrConfig.mk.injEq, and_true]
  exact ⟨fun h => ⟨h.1.symm, h.2.symm⟩, fun h => ⟨h.1.symm, h.2.symm⟩⟩

theorem l2vtrConfigure_tooFew {m : L2Main} {r : VtrRequest} (h : TooFewTags r) :
    (l2vtrConfigure m r).1 = some .invalidVlanTagCount
      ∧ (l2vtrConfigure m r).2.configs r.swIfIndex
        = { m.configs r.swIfIndex with
            inputVtr := (m.configs r.swIfIndex).inputVtr.clearRawTags
            outputVtr := (m.configs r.swIfIndex).outputVtr.clearRawTags } := by
  obtain ⟨si, hsi, hfew⟩ := h
  rw [l2vtrConfigure, hsi]
  simp only [inputVtrOf_eq_none.2 hfew, update_self]
  exact ⟨trivial, trivial⟩

theorem l2vtrConfigure_enough {m : L2Main} {r : VtrRequest} (h : ¬ TooFewTags r)
    (herr : (l2vtrConfigure m r).1 ≠ none) :
    (l2vtrConfigure m r).2 = m := by
  rw [l2vtrConfigure] at herr ⊢
  cases hsi : r.si with
  | none => rfl
  | some si =>
    have hsome : inputVtrOf (m.configs r.swIfIndex).inputVtr.clearRawTags (cfgTags si) (L2VtrOp.ofCode r.vtrOp)
        ⟨if r.pushDot1q then ethernetTypeVlan else ethernetTypeDot1ad, r.vtrTag1.setWidth 16⟩
        ⟨ethernetTypeVlan, r.vtrTag2.setWidth 16⟩ ≠ none := by
      intro hnone
      exact h ⟨si, hsi, inputVtrOf_eq_none.1 hnone⟩
    obtain ⟨inConfig, hin⟩ := Option.ne_none_iff_exists'.1 hsome
    rw [hsi] at herr
    simp only [hin] at herr
    exact absurd rfl herr

def RejectedKeeps (m : L2Main) (r : VtrRequest) : Prop :=
  (l2vtrConfigure m r).1 ≠ none → (l2vtrConfigure m r).2.configs r.swIfIndex = m.configs r.swIfIndex

/-- The interface has the tags that the request needs, or has no rewrite with tags to lose. -/
def Harmless (m : L2Main) (r : VtrRequest) : Prop :=
  ¬ TooFewTags r ∨ (m.configs r.swIfIndex).inputVtr.NoRawTags ∧ (m.configs r.swIfIndex).outputVtr.NoRawTags

theorem rejectedKeeps_iff {m : L2Main} {r : VtrRequest} : RejectedKeeps m r ↔ Harmless m r := by
  by_cases hfew : TooFewTags r
  · obtain ⟨herr, hcleared⟩ := l2vtrConfigure_tooFew (m := m) hfew
    have hharmless : Harmless m r
        ↔ (m.configs r.swIfIndex).inputVtr.NoRawTags ∧ (m.configs r.swIfIndex).outputVtr.NoRawTags :=
      or_iff_right fun h => h hfew
    rw [hharmless, ← clearRawTags_eq_iff, ← clearRawTags_eq_iff, RejectedKeeps, herr, hcleared]
    constructor
    · intro h
      have hsame := h (Option.some_ne_none _)
      exact ⟨congrArg L2OutputConfig.inputVtr hsame, congrArg L2OutputConfig.outputVtr hsame⟩
    · intro h _
      rw [h.1, h.2]
  · refine iff_of_true (fun herr => ?_) (.inl hfew)
    rw [l2vtrConfigure_enough hfew herr]

/-- **Rejected requests**: in a run, each of them leaves the rewrites of its interface as they were exactly when each
one that comes for too few tags finds no tags in them. -/
theorem rejected_unchanged_iff (m : L2Main) (rs : List VtrRequest) :
    (∀ before r after, rs = before ++ r :: after → RejectedKeeps (l2vtrConfigureAll m before) r)
      ↔ ∀ before r after, rs = before ++ r :: after → Harmless (l2vtrConfigureAll m before) r := by
  simp only [rejectedKeeps_iff]

def portMain : L2Main :=
  { configs := fun _ => ⟨⟨noTag, noTag, 0, 0⟩, ⟨noTag, noTag, 0, 0⟩, false⟩
    inputFeatVtr := fun _ => false }

def port : VnetSwInterface :=
  { isHardware := true
    outerVlanId := 0
    innerVlanId := 0
    noTags := false
    oneTag := false
    twoTags := false
    dot1ad := false
    outerVlanIdAny := false
    innerVlanIdAny := false }

def portRequest (op : L2VtrOp) : VtrRequest :=
  { si := some port
    swIfIndex := 1
    vtrOp := op.code
    pushDot1q := true
    vtrTag1 := 100
    vtrTag2 := 0 }

/-- A push, and then a pop that is rejected: the tag to push is gone. -/
theorem rejected_changes : ¬ ∀ (rs : List VtrRequest) (r : VtrRequest),
    RejectedKeeps (l2vtrConfigureAll portMain rs) r := by
  intro h
  have hkept := h [portRequest .push1] (portRequest .pop1)
  have hlost : ¬ ((l2vtrConfigure (l2vtrConfigureAll portMain [portRequest .push1]) (portRequest .pop1)).1 ≠ none →
      ((l2vtrConfigure (l2vtrConfigureAll portMain [portRequest .push1]) (portRequest .pop1)).2.configs 1)
        = (l2vtrConfigureAll portMain [portRequest .push1]).configs 1) := by
    decide
  exact hlost hkept

end Vpp.L2
