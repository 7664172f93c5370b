import Mathlib.Data.List.GetD
import Mathlib.Order.WellFoundedSet
import Vpp.Lib.Closure

namespace Vpp.Feature
open Vpp.Lib Function List

abbrev NodeName := List Char

/-- A registration, with the lists of names up to their null pointer. -/
structure VnetFeatureRegistration where
  nodeName : NodeName
  runsBefore : List NodeName
  runsAfter : List NodeName

inductive ArcError where
  | commaSplitFailed
  | featureNodeNotFound (name : NodeName)
  | noPartialOrder

/-- `none` where there is no comma. -/
def commaSplit (s : List Char) : Option (NodeName × NodeName) :=
  let a := s.takeWhile (· ≠ ',')
  match s.drop a.length with
  | [] => none
  | _ :: b => some (a, b)

structure Pass1 where
  nodeNames : List NodeName
  indexByName : NodeName → Option Nat
  constraints : List (List Char)

def collect (p : Pass1) (reg : VnetFeatureRegistration) : Pass1 where
  nodeNames := p.nodeNames ++ [reg.nodeName]
  indexByName := update p.indexByName reg.nodeName (some p.nodeNames.length)
  constraints := p.constraints ++ reg.runsBefore.map (fun c => reg.nodeName ++ ',' :: c) ++
    reg.runsAfter.map (fun c => c ++ ',' :: reg.nodeName)

/-- Rows and columns of bytes that are 0 or 1. -/
abbrev Matrix := Nat → Nat → Bool

def addConstraint (indexByName : NodeName → Option Nat) (orig : Matrix) (c : List Char) : Except ArcError Matrix :=
  match commaSplit c with
  | none => .error .commaSplitFailed
  | some (aName, bName) =>
    match indexByName aName with
    | none => .error (.featureNodeNotFound aName)
    | some a =>
      match indexByName bName with
      | none => .error (.featureNodeNotFound bName)
      | some b => .ok fun i j => if i = a ∧ j = b then true else orig i j

def clibPtclosure (n : Nat) (orig : Matrix) : Matrix := warshall (List.range n) orig

def unconstrained (n : Nat) (closure : Matrix) : Option Nat :=
  (List.range n).find? fun i => (List.range n).all fun j => !closure i j

/-- The column is cleared, and the item is made to run before itself. -/
def outputItem (closure : Matrix) (i : Nat) : Matrix := fun k l => if l = i then decide (k = i) else closure k l

/-- An item is output once, so `n` passes are enough. -/
def again (n : Nat) : (passes : Nat) → Matrix → List Nat → List Nat
  | 0, _, result => result
  | passes + 1, closure, result =>
    match unconstrained n closure with
    | none => result
    | some i => again n passes (outputItem closure i) (result ++ [i])

structure ArcOrder where
  featureNodes : List NodeName
  featureIndex : Nat → Nat

def bindFeatures (regs : List VnetFeatureRegistration) (result : List Nat) : Nat → ArcOrder → ArcOrder
  | 0, o => o
  | i + 1, o =>
    match result[i]? with
    | none => o
    | some r =>
      match regs[r]? with
      | none => o
      | some reg =>
        bindFeatures regs result i
          { featureNodes := o.featureNodes ++ [reg.nodeName]
            featureIndex := update o.featureIndex r (regs.length - (i + 1)) }

/-- The set-up of the config strings from the names is left out. -/
def vnetFeatureArcInit (regs : List VnetFeatureRegistration) : Except ArcError ArcOrder := do
  let p := regs.foldl collect ⟨[], fun _ => none, []⟩
  let n := p.nodeNames.length
  let orig ← p.constraints.foldlM (addConstraint p.indexByName) (fun _ _ => false)
  let result := again n n (clibPtclosure n orig) []
  if result.length ≠ n then .error .noPartialOrder
  else .ok (bindFeatures regs result n ⟨[], fun _ => 0⟩)

def nodeNames (regs : List VnetFeatureRegistration) : List NodeName := regs.map (·.nodeName)

def Before (regs : List VnetFeatureRegistration) (a b : NodeName) : Prop :=
  ∃ reg ∈ regs, reg.nodeName = a ∧ b ∈ reg.runsBefore ∨ reg.nodeName = b ∧ a ∈ reg.runsAfter

def pass1 (regs : List VnetFeatureRegistration) : Pass1 := regs.foldl collect ⟨[], fun _ => none, []⟩

theorem pass1_concat (regs : List VnetFeatureRegistration) (reg : VnetFeatureRegistration) :
    pass1 (regs ++ [reg]) = collect (pass1 regs) reg := foldl_append

theorem nodeNames_pass1 (regs : List VnetFeatureRegistration) : (pass1 regs).nodeNames = nodeNames regs := by
  induction regs using List.reverseRecOn with
  | nil => rfl
  | append_singleton regs reg ih =>
    rw [pass1_concat, collect, ih, nodeNames, nodeNames, map_append, map_singleton]

theorem indexByName_collect (p : Pass1) (reg : VnetFeatureRegistration) :
    (collect p reg).indexByName = update p.indexByName reg.nodeName (some p.nodeNames.length) := rfl

theorem indexByName_pass1 (hnodup : (nodeNames regs).Nodup) :
    (pass1 regs).indexByName a = some i ↔ (nodeNames regs)[i]? = some a := by
  induction regs using List.reverseRecOn generalizing i with
  | nil => simp [pass1, nodeNames]
  | append_singleton regs reg ih =>
    have hnames : nodeNames (regs ++ [reg]) = nodeNames regs ++ [reg.nodeName] := by simp [nodeNames]
    rw [hnames] at hnodup ⊢
    have hnew : reg.nodeName ∉ nodeNames regs := by
      intro hmem
      exact (nodup_append.mp hnodup).2.2 _ hmem _ mem_cons_self rfl
    rw [pass1_concat, indexByName_collect, nodeNames_pass1, getElem?_append]
    by_cases ha : a = reg.nodeName
    · subst ha
      rw [update_self, Option.some_inj]
      split
      · next hlt =>
        have hne : (nodeNames regs)[i]? ≠ some reg.nodeName := fun hget => hnew (mem_of_getElem? hget)
        exact ⟨fun heq => absurd heq hlt.ne', fun hget => absurd hget hne⟩
      · next hge =>
        rw [getElem?_singleton]
        split
        · exact ⟨fun _ => rfl, fun _ => by omega⟩
        · exact ⟨fun _ => by omega, fun h => (by cases h)⟩
    · rw [update_of_ne ha, ih (nodup_append.mp hnodup).1]
      split
      · rfl
      · next hge =>
        rw [List.getElem?_eq_none (Nat.le_of_not_lt hge), getElem?_singleton]
        split
        · exact ⟨fun h => (by cases h), fun h => absurd (Option.some.inj h).symm ha⟩
        · rfl

theorem mem_constraints_pass1 : c ∈ (pass1 regs).constraints ↔ ∃ a b, Before regs a b ∧ c = a ++ ',' :: b := by
  induction regs using List.reverseRecOn with
  | nil => simp [pass1, Before]
  | append_singleton regs reg ih =>
    rw [pass1_concat, collect]
    simp only [mem_append, ih, List.mem_map]
    constructor
    · rintro ((⟨a, b, ⟨r, hr, h⟩, rfl⟩ | ⟨b, hb, rfl⟩) | ⟨a, ha, rfl⟩)
      · exact ⟨a, b, ⟨r, mem_append_left _ hr, h⟩, rfl⟩
      · exact ⟨reg.nodeName, b, ⟨reg, by simp, .inl ⟨rfl, hb⟩⟩, rfl⟩
      · exact ⟨a, reg.nodeName, ⟨reg, by simp, .inr ⟨rfl, ha⟩⟩, rfl⟩
    · rintro ⟨a, b, ⟨r, hr, h⟩, rfl⟩
      obtain hr | rfl : r ∈ regs ∨ r = reg := by simpa using hr
      · exact .inl (.inl ⟨a, b, ⟨r, hr, h⟩, rfl⟩)
      · obtain ⟨rfl, hb⟩ | ⟨rfl, ha⟩ := h
        · exact .inl (.inr ⟨b, hb, rfl⟩)
        · exact .inr ⟨a, ha, rfl⟩

theorem commaSplit_append (ha : ',' ∉ a) (b : NodeName) : commaSplit (a ++ ',' :: b) = some (a, b) := by
  have htake : (a ++ ',' :: b).takeWhile (· ≠ ',') = a := by
    rw [takeWhile_append_of_pos]
    · simp
    · intro x hx
      simp only [decide_eq_true_eq]
      rintro rfl
      exact ha hx
  rw [commaSplit, htake, drop_left]

theorem foldlM_addConstraint (index : NodeName → Option Nat) (cs : List (List Char)) (orig : Matrix)
    (hcs : ∀ c ∈ cs, ∃ a b i j, commaSplit c = some (a, b) ∧ index a = some i ∧ index b = some j) :
    ∃ m, cs.foldlM (addConstraint index) orig = .ok m ∧ ∀ i j, m i j = true ↔
      orig i j = true ∨ ∃ c ∈ cs, ∃ a b, commaSplit c = some (a, b) ∧ index a = some i ∧ index b = some j := by
  induction cs generalizing orig with
  | nil => exact ⟨orig, rfl, fun i j => by simp⟩
  | cons c cs ih =>
    obtain ⟨a, b, i, j, hc, hi, hj⟩ := hcs c mem_cons_self
    have hadd : addConstraint index orig c = .ok fun k l => if k = i ∧ l = j then true else orig k l := by
      simp only [addConstraint, hc, hi, hj]
    obtain ⟨m, hm, hrel⟩ := ih (fun k l => if k = i ∧ l = j then true else orig k l)
      (fun c hmem => hcs c (mem_cons_of_mem _ hmem))
    refine ⟨m, ?_, fun k l => ?_⟩
    · rw [foldlM_cons, hadd]
      exact hm
    · rw [hrel]
      constructor
      · rintro (h | ⟨c', hc', h⟩)
        · split at h
          · next heq =>
            obtain ⟨rfl, rfl⟩ := heq
            exact .inr ⟨c, mem_cons_self, a, b, hc, hi, hj⟩
          · exact .inl h
        · exact .inr ⟨c', mem_cons_of_mem _ hc', h⟩
      · rintro (h | ⟨c', hc', a', b', hs, hk, hl⟩)
        · left
          split
          · rfl
          · exact h
        · obtain rfl | hc' := mem_cons.mp hc'
          · rw [hc] at hs
            obtain ⟨rfl, rfl⟩ := Prod.mk.inj (Option.some.inj hs)
            rw [hi] at hk
            rw [hj] at hl
            left
            rw [if_pos ⟨(Option.some.inj hk).symm, (Option.some.inj hl).symm⟩]
          · exact .inr ⟨c', hc', a', b', hs, hk, hl⟩

theorem unconstrained_some (h : unconstrained n c = some i) : i < n ∧ ∀ j < n, c i j = false := by
  have hmem := mem_of_find?_eq_some h
  have hrow := find?_some h
  refine ⟨mem_range.mp hmem, fun j hj => ?_⟩
  have := List.all_eq_true.mp hrow j (mem_range.mpr hj)
  simpa using this

theorem unconstrained_none (h : unconstrained n c = none) (hi : i < n) : ∃ j < n, c i j = true := by
  have hrow := find?_eq_none.mp h i (mem_range.mpr hi)
  simpa using hrow

/-- What is output of the closure `t`, and what the matrix holds of the rest. -/
structure Peeled (t : Nat → Nat → Prop) (n : Nat) (c : Matrix) (result : List Nat) : Prop where
  nodup : result.Nodup
  lt : ∀ i ∈ result, i < n
  magic : ∀ i ∈ result, c i i = true
  rest : ∀ i < n, ∀ j < n, i ∉ result → (c i j = true ↔ t i j ∧ j ∉ result)
  ahead : ∀ i ∈ result, ∀ j < n, t i j → j ∈ result
  sorted : result.Pairwise fun i j => ¬ t i j
  irrefl : ∀ i ∈ result, ¬ t i i

theorem Peeled.output (h : Peeled t n c result) (hpick : unconstrained n c = some i) :
    i ∉ result ∧ Peeled t n (outputItem c i) (result ++ [i]) := by
  obtain ⟨hi, hrow⟩ := unconstrained_some hpick
  have hnew : i ∉ result := by
    intro hmem
    have hone := h.magic i hmem
    rw [hrow i hi] at hone
    cases hone
  have hfree : ∀ j < n, t i j → j ∈ result := by
    intro j hj ht
    by_contra hout
    have hone := (h.rest i hi j hj hnew).mpr ⟨ht, hout⟩
    rw [hrow j hj] at hone
    cases hone
  refine ⟨hnew, ?_, ?_, ?_, ?_, ?_, ?_, ?_⟩
  · rw [nodup_append]
    refine ⟨h.nodup, nodup_singleton i, fun a ha b hb => ?_⟩
    rw [mem_singleton] at hb
    rintro rfl
    exact hnew (hb ▸ ha)
  · intro j hj
    obtain hj | rfl : j ∈ result ∨ j = i := by simpa using hj
    · exact h.lt j hj
    · exact hi
  · intro j hj
    obtain hj | rfl : j ∈ result ∨ j = i := by simpa using hj
    · have hne : j ≠ i := fun heq => hnew (heq ▸ hj)
      rw [outputItem, if_neg hne, h.magic j hj]
    · rw [outputItem, if_pos rfl, decide_eq_true rfl]
  · intro k hk l hl hout
    have hki : k ≠ i := by
      rintro rfl
      exact hout (by simp)
    have hk' : k ∉ result := fun hmem => hout (mem_append_left _ hmem)
    rw [outputItem]
    by_cases hli : l = i
    · rw [if_pos hli, decide_eq_false hki]
      have hin : l ∈ result ++ [i] := by simp [hli]
      exact ⟨fun hf => (by cases hf), fun hn => absurd hin hn.2⟩
    · rw [if_neg hli, h.rest k hk l hl hk']
      simp [hli]
  · intro k hk l hl ht
    obtain hk | rfl : k ∈ result ∨ k = i := by simpa using hk
    · exact mem_append_left _ (h.ahead k hk l hl ht)
    · exact mem_append_left _ (hfree l hl ht)
  · rw [pairwise_append]
    refine ⟨h.sorted, pairwise_singleton _ _, fun k hk l hl ht => ?_⟩
    rw [mem_singleton] at hl
    subst hl
    exact hnew (h.ahead k hk l hi ht)
  · intro k hk
    obtain hk | rfl : k ∈ result ∨ k = i := by simpa using hk
    · exact h.irrefl k hk
    · exact fun ht => hnew (hfree k hi ht)

theorem Peeled.again (h : Peeled t n c result) (hpasses : n ≤ passes + result.length) :
    ∃ c', Peeled t n c' (again n passes c result) ∧ unconstrained n c' = none := by
  induction passes generalizing c result with
  | zero =>
    refine ⟨c, h, ?_⟩
    cases hpick : unconstrained n c with
    | none => rfl
    | some i =>
      obtain ⟨-, h'⟩ := h.output hpick
      have hsub : result ++ [i] ⊆ List.range n := fun j hj => mem_range.mpr (h'.lt j hj)
      have hle := (List.Nodup.subperm h'.nodup hsub).length_le
      rw [length_append, length_singleton, length_range] at hle
      omega
  | succ passes ih =>
    rw [Feature.again]
    cases hpick : unconstrained n c with
    | none => exact ⟨c, h, hpick⟩
    | some i =>
      refine ih (h.output hpick).2 ?_
      rw [length_append, length_singleton]
      omega

theorem exists_last {t : Nat → Nat → Prop} {p : Nat → Prop} (htrans : ∀ i j k, t i j → t j k → t i k)
    (hirrefl : ∀ i < n, ¬ t i i) (hi : i < n) (hout : p i) :
    ∃ m < n, p m ∧ ∀ j < n, p j → ¬ t m j := by
  let after : Fin n → Fin n → Prop := fun a b => t b a
  have : IsTrans (Fin n) after := ⟨fun a b c hab hbc => htrans c b a hbc hab⟩
  have : Std.Irrefl after := ⟨fun a => hirrefl a a.isLt⟩
  obtain ⟨m, hm, hmin⟩ := (Finite.wellFounded_of_trans_of_irrefl after).has_min {a | p a} ⟨⟨i, hi⟩, hout⟩
  exact ⟨m, m.isLt, hm, fun j hj hpj => hmin ⟨j, hj⟩ hpj⟩

theorem Peeled.length_eq_iff (h : Peeled t n c result) (hdone : unconstrained n c = none)
    (htrans : ∀ i j k, t i j → t j k → t i k) : result.length = n ↔ ∀ i < n, ¬ t i i := by
  have hsub : result ⊆ List.range n := fun j hj => mem_range.mpr (h.lt j hj)
  have hsubperm := List.Nodup.subperm h.nodup hsub
  constructor
  · intro hlen i hi
    have hperm : result.Perm (List.range n) := by
      apply hsubperm.perm_of_length_le
      rw [length_range, hlen]
    exact h.irrefl i (hperm.mem_iff.mpr (mem_range.mpr hi))
  · intro hirrefl
    have hall : ∀ i < n, i ∈ result := by
      by_contra hnot
      push Not at hnot
      obtain ⟨i, hi, hout⟩ := hnot
      obtain ⟨m, hm, hmout, hlast⟩ := exists_last (p := (· ∉ result)) htrans hirrefl hi hout
      obtain ⟨j, hj, hone⟩ := unconstrained_none hdone hm
      obtain ⟨ht, hjout⟩ := (h.rest m hm j hj hmout).mp hone
      exact hlast j hj hjout ht
    have hge := (List.Nodup.subperm nodup_range (fun i hi => hall i (mem_range.mp hi))).length_le
    have hle := hsubperm.length_le
    rw [length_range] at hge hle
    omega

theorem getD_nodeNames {regs : List VnetFeatureRegistration} (hi : i < regs.length) :
    (nodeNames regs).getD i [] = regs[i].nodeName := by
  have hlen : i < (nodeNames regs).length := by rwa [nodeNames, length_map]
  rw [getD_eq_getElem _ _ hlen]
  exact getElem_map _

theorem map_getD_nodeNames (regs : List VnetFeatureRegistration) :
    (List.range regs.length).map (fun r => (nodeNames regs).getD r []) = nodeNames regs := by
  apply ext_getElem
  · rw [length_map, length_range, nodeNames, length_map]
  · intro i _ hi
    rw [getElem_map, getElem_range, getD_eq_getElem _ _ hi]

theorem bindFeatures_spec {regs : List VnetFeatureRegistration} (hnodup : result.Nodup)
    (hlt : ∀ r ∈ result, r < regs.length)
    (hi : i ≤ result.length) (o : ArcOrder) :
    (bindFeatures regs result i o).featureNodes =
      o.featureNodes ++ (result.take i).reverse.map (fun r => (nodeNames regs).getD r []) ∧
    (∀ k (_ : k < i) (hk' : k < result.length),
      (bindFeatures regs result i o).featureIndex result[k] = regs.length - (k + 1)) ∧
    ∀ r ∉ result.take i, (bindFeatures regs result i o).featureIndex r = o.featureIndex r := by
  induction i generalizing o with
  | zero => exact ⟨by simp [bindFeatures], fun k hk => absurd hk (Nat.not_lt_zero k), fun r _ => rfl⟩
  | succ i ih =>
    have hr : result[i] < regs.length := hlt _ (getElem_mem _)
    have hname : (nodeNames regs).getD result[i] [] = regs[result[i]].nodeName := getD_nodeNames hr
    have htake : result.take (i + 1) = result.take i ++ [result[i]] := (take_append_getElem hi).symm
    have hfresh : result[i] ∉ result.take i := by
      rw [mem_take_iff_getElem]
      rintro ⟨j, hj, heq⟩
      have := hnodup.getElem_inj_iff.mp heq
      omega
    obtain ⟨hnodes, hindex, hkeep⟩ := ih (Nat.le_of_succ_le hi)
      { featureNodes := o.featureNodes ++ [regs[result[i]].nodeName]
        featureIndex := update o.featureIndex result[i] (regs.length - (i + 1)) }
    rw [bindFeatures, List.getElem?_eq_getElem hi]
    simp only [List.getElem?_eq_getElem hr]
    refine ⟨?_, ?_, ?_⟩
    · rw [hnodes, htake, List.reverse_append, reverse_singleton, singleton_append, map_cons, hname,
        List.append_assoc, singleton_append]
    · intro k hk hk'
      by_cases heq : k = i
      · subst heq
        exact (hkeep _ hfresh).trans (update_self ..)
      · exact hindex k (by omega) hk'
    · intro r hout
      rw [htake] at hout
      rw [mem_append, mem_singleton, not_or] at hout
      exact (hkeep r hout.1).trans (update_of_ne hout.2 ..)

structure Known (regs : List VnetFeatureRegistration) : Prop where
  nodup : (nodeNames regs).Nodup
  known : ∀ a b, Before regs a b → a ∈ nodeNames regs ∧ b ∈ nodeNames regs
  comma : ∀ a b, Before regs a b → ',' ∉ a

theorem Known.matrix (h : Known regs) :
    ∃ m, (pass1 regs).constraints.foldlM (addConstraint (pass1 regs).indexByName) (fun _ _ => false) = .ok m ∧
      ∀ i j, m i j = true ↔ ∃ a b, Before regs a b ∧ (nodeNames regs)[i]? = some a ∧ (nodeNames regs)[j]? = some b := by
  have hsplit : ∀ a b, Before regs a b → commaSplit (a ++ ',' :: b) = some (a, b) := by
    intro a b hab
    exact commaSplit_append (h.comma a b hab) b
  obtain ⟨m, hm, hrel⟩ := foldlM_addConstraint (pass1 regs).indexByName (pass1 regs).constraints (fun _ _ => false) (by
    intro c hc
    obtain ⟨a, b, hab, rfl⟩ := mem_constraints_pass1.mp hc
    obtain ⟨ha, hb⟩ := h.known a b hab
    obtain ⟨i, hi⟩ := mem_iff_getElem?.mp ha
    obtain ⟨j, hj⟩ := mem_iff_getElem?.mp hb
    exact ⟨a, b, i, j, hsplit a b hab, (indexByName_pass1 h.nodup).mpr hi, (indexByName_pass1 h.nodup).mpr hj⟩)
  refine ⟨m, hm, fun i j => ?_⟩
  rw [hrel]
  constructor
  · rintro (hf | ⟨c, hc, a, b, hs, hi, hj⟩)
    · cases hf
    · obtain ⟨a', b', hab, rfl⟩ := mem_constraints_pass1.mp hc
      rw [hsplit a' b' hab] at hs
      obtain ⟨rfl, rfl⟩ := Prod.mk.inj (Option.some.inj hs)
      exact ⟨a', b', hab, (indexByName_pass1 h.nodup).mp hi, (indexByName_pass1 h.nodup).mp hj⟩
  · rintro ⟨a, b, hab, hi, hj⟩
    exact .inr ⟨a ++ ',' :: b, mem_constraints_pass1.mpr ⟨a, b, hab, rfl⟩, a, b, hsplit a b hab,
      (indexByName_pass1 h.nodup).mpr hi, (indexByName_pass1 h.nodup).mpr hj⟩

theorem cycle_iff {m : Matrix} (h : Known regs)
    (hm : ∀ i j, m i j = true ↔ ∃ a b, Before regs a b ∧ (nodeNames regs)[i]? = some a ∧
        (nodeNames regs)[j]? = some b) :
    (∃ i, Relation.TransGen (m · ·) i i) ↔ ∃ a, Relation.TransGen (Before regs) a a := by
  constructor
  · rintro ⟨i, hi⟩
    refine ⟨((nodeNames regs)[i]?).getD [], ?_⟩
    apply hi.lift (fun i => ((nodeNames regs)[i]?).getD [])
    intro k l hkl
    obtain ⟨a, b, hab, hk, hl⟩ := (hm k l).mp hkl
    show Before regs (((nodeNames regs)[k]?).getD []) (((nodeNames regs)[l]?).getD [])
    rw [hk, hl]
    exact hab
  · rintro ⟨a, ha⟩
    refine ⟨(nodeNames regs).idxOf a, ?_⟩
    apply ha.lift (fun a => (nodeNames regs).idxOf a)
    intro c d hcd
    obtain ⟨hc, hd⟩ := h.known c d hcd
    exact (hm _ _).mpr ⟨c, d, hcd, getElem?_idxOf hc, getElem?_idxOf hd⟩

/-- The indices that a whole result gives. -/
theorem Peeled.bound {m : Matrix} (h : Peeled (Relation.TransGen (m · ·)) regs.length c result)
    (hlen : result.length = regs.length)
    (hm : ∀ i j, m i j = true ↔ ∃ a b, Before regs a b ∧ (nodeNames regs)[i]? = some a ∧
        (nodeNames regs)[j]? = some b) :
    (bindFeatures regs result regs.length ⟨[], fun _ => 0⟩).featureNodes.Perm (nodeNames regs) ∧
    (∀ i (hi : i < regs.length), (bindFeatures regs result regs.length ⟨[], fun _ => 0⟩).featureNodes[
      (bindFeatures regs result regs.length ⟨[], fun _ => 0⟩).featureIndex i]? = some regs[i].nodeName) ∧
    ∀ i (hi : i < regs.length) j (hj : j < regs.length), Before regs regs[i].nodeName regs[j].nodeName →
      (bindFeatures regs result regs.length ⟨[], fun _ => 0⟩).featureIndex i <
        (bindFeatures regs result regs.length ⟨[], fun _ => 0⟩).featureIndex j := by
  obtain ⟨hnodes, hindex, -⟩ := bindFeatures_spec h.nodup h.lt (Nat.le_of_eq hlen.symm) ⟨[], fun _ => 0⟩
  rw [nil_append, ← hlen, take_length, hlen] at hnodes
  have hperm : result.Perm (List.range regs.length) := by
    have hsub : result ⊆ List.range regs.length := fun j hj => mem_range.mpr (h.lt j hj)
    apply (List.Nodup.subperm h.nodup hsub).perm_of_length_le
    rw [length_range, hlen]
  have hat : ∀ i < regs.length, ∃ k, ∃ hk : k < result.length, result[k] = i := by
    intro i hi
    exact mem_iff_getElem.mp (hperm.mem_iff.mpr (mem_range.mpr hi))
  refine ⟨?_, fun i hi => ?_, fun i hi j hj hij => ?_⟩
  · have hmap := (result.reverse_perm.trans hperm).map fun r => (nodeNames regs).getD r []
    rwa [map_getD_nodeNames, ← hnodes] at hmap
  · obtain ⟨k, hk, rfl⟩ := hat i hi
    have hsub : result.length - 1 - (regs.length - (k + 1)) = k := by omega
    rw [hindex k (hlen ▸ hk) hk, hnodes, getElem?_map, getElem?_reverse (by omega), hsub,
      List.getElem?_eq_getElem hk, Option.map_some, getD_nodeNames]
  · obtain ⟨k, hk, rfl⟩ := hat i hi
    obtain ⟨l, hl, rfl⟩ := hat j hj
    have hget : ∀ r (hr : r < regs.length), (nodeNames regs)[r]? = some regs[r].nodeName := by
      intro r hr
      rw [nodeNames, getElem?_map, List.getElem?_eq_getElem hr, Option.map_some]
    have hedge := Relation.TransGen.single (r := (m · ·)) ((hm _ _).mpr ⟨_, _, hij, hget _ hi, hget _ hj⟩)
    have hne : k ≠ l := by
      rintro rfl
      exact h.irrefl _ (getElem_mem _) hedge
    have hord : ¬ k < l := fun hlt => pairwise_iff_getElem.mp h.sorted k l hk hl hlt hedge
    rw [hindex k (hlen ▸ hk) hk, hindex l (hlen ▸ hl) hl]
    omega

/-- The arc fails just where the constraints have a cycle. Else every node is in the order once, at its index, and each
constraint goes up. -/
theorem vnet_feature_arc_init_sorts (regs : List VnetFeatureRegistration) (h : Known regs) :
    ((∃ e, vnetFeatureArcInit regs = .error e) ↔ ∃ a, Relation.TransGen (Before regs) a a) ∧
    ∀ o, vnetFeatureArcInit regs = .ok o → o.featureNodes.Perm (nodeNames regs) ∧
      (∀ i (hi : i < regs.length), o.featureNodes[o.featureIndex i]? = some regs[i].nodeName) ∧
      ∀ i (hi : i < regs.length) j (hj : j < regs.length), Before regs regs[i].nodeName regs[j].nodeName →
        o.featureIndex i < o.featureIndex j := by
  obtain ⟨m, hm, hrel⟩ := h.matrix
  have hn : (nodeNames regs).length = regs.length := length_map _
  have hlt : ∀ i j, m i j = true → i < regs.length ∧ j < regs.length := by
    intro i j hij
    obtain ⟨a, b, -, hi, hj⟩ := (hrel i j).mp hij
    rw [← hn]
    exact ⟨(List.getElem?_eq_some_iff.mp hi).1, (List.getElem?_eq_some_iff.mp hj).1⟩
  have hclosure : ∀ i j, clibPtclosure regs.length m i j = true ↔ Relation.TransGen (m · ·) i j := by
    intro i j
    exact warshall_iff (fun i j hij => mem_range.mpr (hlt i j hij).2)
  have hstart : Peeled (Relation.TransGen (m · ·)) regs.length (clibPtclosure regs.length m) [] := by
    refine ⟨nodup_nil, ?_, ?_, ?_, ?_, List.Pairwise.nil, ?_⟩
    all_goals simp [hclosure]
  obtain ⟨c, hend, hdone⟩ := hstart.again (Nat.le_add_right _ _)
  have hfull := hend.length_eq_iff hdone (fun i j k => Relation.TransGen.trans)
  generalize hresult : again regs.length regs.length (clibPtclosure regs.length m) [] = result at hend hfull
  have hinit : vnetFeatureArcInit regs =
      if result.length ≠ regs.length then .error .noPartialOrder
      else .ok (bindFeatures regs result regs.length ⟨[], fun _ => 0⟩) := by
    rw [vnetFeatureArcInit, ← pass1, nodeNames_pass1, hn]
    simp only [hm, bind, Except.bind, hresult]
  have hcycle : (∀ i < regs.length, ¬ Relation.TransGen (m · ·) i i) ↔ ¬ ∃ a, Relation.TransGen (Before regs) a a := by
    rw [← cycle_iff h hrel, not_exists]
    refine ⟨fun hall i hi => hall i ?_ hi, fun hall i _ => hall i⟩
    obtain ⟨j, hij, -⟩ := Relation.TransGen.head'_iff.mp hi
    exact (hlt i j hij).1
  rw [hcycle] at hfull
  rw [hinit]
  by_cases hlen : result.length = regs.length
  · rw [if_neg (not_not_intro hlen)]
    refine ⟨⟨fun herr => ?_, fun hcyc => absurd hcyc (hfull.mp hlen)⟩, fun o ho => ?_⟩
    · obtain ⟨e, he⟩ := herr
      cases he
    · obtain rfl := Except.ok.inj ho
      exact hend.bound hlen hrel
  · rw [if_pos hlen]
    exact ⟨⟨fun _ => not_not.mp (fun hno => hlen (hfull.mpr hno)), fun _ => ⟨_, rfl⟩⟩, fun o ho => by cases ho⟩

def beforeLookup (name : NodeName) : List VnetFeatureRegistration := [⟨name, [['l']], []⟩, ⟨['l'], [], []⟩]

theorem before_beforeLookup (h : Before (beforeLookup name) a b) : a = name ∧ b = ['l'] := by
  obtain ⟨reg, hreg, h⟩ := h
  obtain rfl | rfl : reg = ⟨name, [['l']], []⟩ ∨ reg = ⟨['l'], [], []⟩ := by simpa [beforeLookup] using hreg
  · obtain ⟨rfl, hb⟩ | ⟨-, ha⟩ := h
    · exact ⟨rfl, mem_singleton.mp hb⟩
    · cases ha
  · obtain ⟨-, hb⟩ | ⟨-, ha⟩ := h
    · cases hb
    · cases ha

theorem vnet_feature_arc_init_sorts_lookup :
    ∃ o, vnetFeatureArcInit (beforeLookup ['a']) = .ok o ∧ o.featureIndex 0 < o.featureIndex 1 := by
  have hknown : Known (beforeLookup ['a']) := by
    refine ⟨by decide, fun a b hab => ?_, fun a b hab => ?_⟩
    · obtain ⟨rfl, rfl⟩ := before_beforeLookup hab
      decide
    · obtain ⟨rfl, -⟩ := before_beforeLookup hab
      decide
  refine ⟨_, rfl, ?_⟩
  apply ((vnet_feature_arc_init_sorts _ hknown).2 _ rfl).2.2 0 (by decide) 1 (by decide)
  exact ⟨⟨['a'], [['l']], []⟩, by simp [beforeLookup], .inl ⟨rfl, by decide⟩⟩

/-- A comma in a name ends the name. -/
theorem vnet_feature_arc_init_sorts_comma :
    (nodeNames (beforeLookup ['a', ',', 'b'])).Nodup ∧
    (∀ a b, Before (beforeLookup ['a', ',', 'b']) a b →
      a ∈ nodeNames (beforeLookup ['a', ',', 'b']) ∧ b ∈ nodeNames (beforeLookup ['a', ',', 'b'])) ∧
    (¬ ∃ a, Relation.TransGen (Before (beforeLookup ['a', ',', 'b'])) a a) ∧
    vnetFeatureArcInit (beforeLookup ['a', ',', 'b']) = .error (.featureNodeNotFound ['a']) := by
  refine ⟨by decide, fun a b hab => ?_, ?_, rfl⟩
  · obtain ⟨rfl, rfl⟩ := before_beforeLookup hab
    decide
  · rintro ⟨a, ha⟩
    obtain ⟨b, hab, -⟩ := Relation.TransGen.head'_iff.mp ha
    obtain ⟨c, -, hca⟩ := Relation.TransGen.tail'_iff.mp ha
    have heq := (before_beforeLookup hab).1.symm.trans (before_beforeLookup hca).2
    cases heq

end Vpp.Feature
