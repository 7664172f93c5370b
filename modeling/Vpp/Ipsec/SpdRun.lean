import Vpp.Ipsec.Spd

namespace Vpp.Ipsec
open Vpp.Lib Function List Option

variable {im im' : IpsecMain} {spd : IpsecSpd} {policy : IpsecPolicy} {v : PolicyVec}

def IpsecSpd.prio (spd : IpsecSpd) (i : Nat) : Int := (spd.policies.eltAt i).priority.toInt

/-- Each vector holds the policies in use that belong to it, each once and the highest priority first. -/
structure SpdLists (spd : IpsecSpd) : Prop where
  nodup : ∀ v, (spd.indices v).Nodup
  mem : ∀ v i, i ∈ spd.indices v ↔ spd.policies.Live i ∧ (spd.policies.eltAt i).vec = v
  sorted : ∀ v, (spd.indices v).Pairwise fun i j => spd.prio j ≤ spd.prio i

/-- The difference of two priorities is one that the comparison can return. -/
def Comparable (p q : IpsecPolicy) : Prop := (p.priority.toInt - q.priority.toInt).natAbs < 2 ^ 31

instance (p q : IpsecPolicy) : Decidable (Comparable p q) := inferInstanceAs (Decidable (_ < _))

def SpdComparable (spd : IpsecSpd) : Prop :=
  ∀ v, ∀ i ∈ spd.indices v, ∀ j ∈ spd.indices v, Comparable (spd.policies.eltAt i) (spd.policies.eltAt j)

theorem mem_liveIndices [Inhabited α] {p : Pool α} : i ∈ liveIndices p ↔ p.Live i := by
  rw [liveIndices, mem_filter, mem_range, decide_eq_true_iff]
  exact and_iff_right_of_imp fun h => h.1

/-- What is assumed of the sort: where the comparison is an order, it sorts. -/
def SortsBy (sort : (Nat → Nat → BitVec 32) → List Nat → List Nat) : Prop :=
  ∀ (cmp : Nat → Nat → BitVec 32) (l : List Nat),
    (∀ a ∈ l, ∀ b ∈ l, (cmp a b).toInt ≤ 0 ∨ (cmp b a).toInt ≤ 0) →
    (∀ a ∈ l, ∀ b ∈ l, ∀ c ∈ l, (cmp a b).toInt ≤ 0 → (cmp b c).toInt ≤ 0 → (cmp a c).toInt ≤ 0) →
    (sort cmp l).Perm l ∧ (sort cmp l).Pairwise fun a b => (cmp a b).toInt ≤ 0

theorem Comparable.symm {p q : IpsecPolicy} (h : Comparable p q) : Comparable q p := by
  unfold Comparable at *
  omega

theorem Comparable.refl (p : IpsecPolicy) : Comparable p p := by
  unfold Comparable
  omega

theorem Comparable.toInt_sub {p q : IpsecPolicy} (h : Comparable p q) :
    (q.priority - p.priority).toInt = q.priority.toInt - p.priority.toInt := by
  unfold Comparable at h
  rw [BitVec.toInt_sub]
  apply Int.bmod_eq_of_le
  · omega
  · omega

theorem delIndex_last (hi : i ∉ xs) : delIndex (xs ++ [i]) i = xs := by
  rw [delIndex, if_pos (mem_append_right xs (mem_singleton.mpr rfl)), delSwap, getLast?_concat]
  show ((xs ++ [i]).set _ i).dropLast = xs
  rw [idxOf_append_of_notMem hi, idxOf_cons_self, Nat.add_zero, set_append_right _ _ (Nat.le_refl _),
    Nat.sub_self, set_cons_zero, dropLast_concat]

theorem delIndex_middle (hi : i ∉ xs) : delIndex (xs ++ i :: (ys ++ [z])) i = xs ++ z :: ys := by
  have hlast : (xs ++ i :: (ys ++ [z])).getLast? = some z := by
    rw [← List.cons_append, ← List.append_assoc, getLast?_concat]
  rw [delIndex, if_pos (mem_append_right xs mem_cons_self), delSwap, hlast]
  show ((xs ++ i :: (ys ++ [z])).set _ z).dropLast = xs ++ z :: ys
  rw [idxOf_append_of_notMem hi, idxOf_cons_self, Nat.add_zero, set_append_right _ _ (Nat.le_refl _),
    Nat.sub_self, set_cons_zero, ← List.cons_append, ← List.append_assoc, dropLast_concat]

/-- The order survives where what is behind the one that goes has one rank. -/
theorem delIndex_spec {l : List Nat} {rank : Nat → Int} (hnd : l.Nodup) (hi : i ∈ l)
    (hs : l.Pairwise fun a b => rank b ≤ rank a)
    (heq : ∀ xs ys, l = xs ++ i :: ys → ∀ a ∈ ys, ∀ b ∈ ys, rank a = rank b) :
    (delIndex l i).Nodup ∧ (∀ j, j ∈ delIndex l i ↔ j ∈ l ∧ j ≠ i) ∧
      (delIndex l i).Pairwise fun a b => rank b ≤ rank a := by
  obtain ⟨xs, ys, rfl⟩ := append_of_mem hi
  have hix : i ∉ xs := fun hx => (nodup_append.mp hnd).2.2 i hx i mem_cons_self rfl
  have hmem {l' : List Nat} (hp : (xs ++ i :: ys).Perm (i :: l')) (j : Nat) :
      j ∈ l' ↔ j ∈ xs ++ i :: ys ∧ j ≠ i := by
    have hnd' := hp.nodup_iff.mp hnd
    rw [hp.mem_iff, mem_cons]
    constructor
    · exact fun hj => ⟨.inr hj, fun he => (nodup_cons.mp hnd').1 (he ▸ hj)⟩
    · exact fun ⟨hj, hne⟩ => hj.resolve_left hne
  rcases eq_nil_or_concat ys with rfl | ⟨ys, z, rfl⟩
  · rw [delIndex_last hix]
    have hp : (xs ++ [i]).Perm (i :: xs) := perm_append_singleton i xs
    exact ⟨(nodup_cons.mp (hp.nodup_iff.mp hnd)).2, hmem hp, (pairwise_append.mp hs).1⟩
  · rw [concat_eq_append] at hnd hs heq hmem ⊢
    rw [delIndex_middle hix]
    have hp : (xs ++ i :: (ys ++ [z])).Perm (i :: (xs ++ z :: ys)) := by
      apply perm_middle.trans
      apply List.Perm.cons
      exact List.Perm.append_left xs (perm_append_singleton z ys)
    have hsame := heq xs (ys ++ [z]) rfl
    obtain ⟨hsx, hsy, hcross⟩ := pairwise_append.mp hs
    have hin {a : Nat} (ha : a ∈ z :: ys) : a ∈ ys ++ [z] :=
      (perm_append_singleton z ys).mem_iff.mpr ha
    refine ⟨(nodup_cons.mp (hp.nodup_iff.mp hnd)).2, hmem hp, pairwise_append.mpr ⟨hsx, ?_, ?_⟩⟩
    · apply pairwise_of_forall_mem_list
      intro a ha b hb
      exact (hsame b (hin hb) a (hin ha)).le
    · intro a ha b hb
      exact hcross a ha b (mem_cons_of_mem i (hin hb))

def FirstSpd (im : IpsecMain) (s : Nat) : Prop := ∀ t < s, ¬ im.spds.Live t

/-- A policy comes into an empty vector, or into the first SPD with a priority near those of its vector. -/
def AddSafe (im : IpsecMain) (policy : IpsecPolicy) : Prop :=
  ∀ s, im.spdIndexBySpdId policy.id = some s → (im.spds.eltAt s).indices policy.vec = [] ∨
    (FirstSpd im s ∧ ∀ i, (im.spds.eltAt s).policies.Live i → ((im.spds.eltAt s).policies.eltAt i).vec = policy.vec →
      Comparable policy ((im.spds.eltAt s).policies.eltAt i))

theorem head_liveIndices [Inhabited α] {p : Pool α} (hs : p.Live s) (hfirst : ∀ t < s, ¬ p.Live t) :
    ∃ l, liveIndices p = s :: l := by
  obtain ⟨k, hk⟩ : ∃ k, p.elts.length = s + (k + 1) := ⟨p.elts.length - s - 1, by have := hs.1; omega⟩
  have hsplit : List.range p.elts.length = List.range s ++ s :: ((List.range k).map Nat.succ).map (s + ·) := by
    rw [hk, range_add, range_succ_eq_map, map_cons, Nat.add_zero]
  have hnone : (List.range s).filter (fun i => decide (p.Live i)) = [] := by
    rw [filter_eq_nil_iff]
    intro t ht
    simpa using hfirst t (mem_range.mp ht)
  rw [liveIndices, hsplit, filter_append, hnone, nil_append, filter_cons_of_pos (by simpa using hs)]
  exact ⟨_, rfl⟩

theorem ipsecSpdEntrySort_first (hs : im.spds.Live s) (hfirst : FirstSpd im s)
    (hne : (im.spds.eltAt s).policies.elts ≠ []) (a b : Nat) :
    ipsecSpdEntrySort im a b = ((im.spds.eltAt s).policies.eltAt b).priority -
      ((im.spds.eltAt s).policies.eltAt a).priority := by
  obtain ⟨l, hl⟩ := head_liveIndices hs hfirst
  have hat (i : Nat) : (im.spds.eltAt s).policyAt i = some ((im.spds.eltAt s).policies.eltAt i) :=
    if_neg fun h => hne h.1
  rw [ipsecSpdEntrySort, hl, findSome?_cons]
  simp only [hat, getD_some]

section
variable {sort : (Nat → Nat → BitVec 32) → List Nat → List Nat} (hsort : SortsBy sort)
include hsort

theorem sort_priorities {cmp : Nat → Nat → BitVec 32} {f : Nat → IpsecPolicy} {l : List Nat}
    (hcmp : ∀ a b, cmp a b = (f b).priority - (f a).priority) (hc : ∀ a ∈ l, ∀ b ∈ l, Comparable (f a) (f b)) :
    (sort cmp l).Perm l ∧ (sort cmp l).Pairwise fun a b => (f b).priority.toInt ≤ (f a).priority.toInt := by
  have hle {a b : Nat} (ha : a ∈ l) (hb : b ∈ l) :
      (cmp a b).toInt ≤ 0 ↔ (f b).priority.toInt ≤ (f a).priority.toInt := by
    rw [hcmp, (hc a ha b hb).toInt_sub]
    omega
  obtain ⟨hperm, hs⟩ := hsort cmp l
    (fun a ha b hb => by
      rw [hle ha hb, hle hb ha]
      exact le_total _ _)
    (fun a ha b hb c hd => by
      rw [hle ha hb, hle hb hd, hle ha hd]
      exact fun h₁ h₂ => h₂.trans h₁)
  refine ⟨hperm, hs.imp_of_mem ?_⟩
  intro a b ha hb
  exact (hle (hperm.mem_iff.mp ha) (hperm.mem_iff.mp hb)).mp

theorem sort_singleton {cmp : Nat → Nat → BitVec 32} (hcmp : cmp a a = 0) : sort cmp [a] = [a] := by
  have hle : (cmp a a).toInt ≤ 0 := by
    rw [hcmp]
    decide
  obtain ⟨hperm, -⟩ := hsort cmp [a]
    (fun x hx y hy => by
      rw [mem_singleton.mp hx, mem_singleton.mp hy]
      exact .inl hle)
    (fun x hx y hy z hz => by
      rw [mem_singleton.mp hx, mem_singleton.mp hy, mem_singleton.mp hz]
      exact fun _ _ => hle)
  exact perm_singleton.mp hperm

end

/-- The SPD with a new policy that is in no vector. -/
def IpsecSpd.withPolicy (spd : IpsecSpd) (policy : IpsecPolicy) : IpsecSpd :=
  { spd with policies := spd.policies.get.1.set spd.policies.get.2 policy }

/-- The vector of the policy is `l`. -/
def IpsecSpd.filed (spd : IpsecSpd) (policy : IpsecPolicy) (l : List Nat) : IpsecSpd :=
  ⟨(spd.withPolicy policy).policies, update spd.indices policy.vec l⟩

theorem live_withPolicy {policy : IpsecPolicy} :
    (spd.withPolicy policy).policies.Live i ↔ spd.policies.Live i ∨ i = spd.policies.get.2 :=
  Pool.live_set.trans Pool.live_get

theorem eltAt_withPolicy (spd : IpsecSpd) (policy : IpsecPolicy) (i : Nat) :
    (spd.withPolicy policy).policies.eltAt i = if i = spd.policies.get.2 then policy else spd.policies.eltAt i := by
  rw [IpsecSpd.withPolicy, Pool.eltAt_set (Pool.live_get.mpr (.inr rfl)), Pool.eltAt_get]

/-- The new index comes into the vector of its policy, in order. -/
theorem SpdLists.add (h : SpdLists spd)
    (hperm : l.Perm (spd.indices policy.vec ++ [spd.policies.get.2]))
    (hs : l.Pairwise fun i j => (spd.withPolicy policy).prio j ≤ (spd.withPolicy policy).prio i) :
    SpdLists (spd.filed policy l) := by
  have hnew := spd.policies.not_live_get
  have hfresh (v : PolicyVec) : spd.policies.get.2 ∉ spd.indices v := fun hm => hnew ((h.mem v _).mp hm).1
  constructor
  case nodup =>
    intro v
    by_cases hv : v = policy.vec
    · subst hv
      show (update spd.indices policy.vec l policy.vec).Nodup
      rw [update_self, hperm.nodup_iff, nodup_append]
      refine ⟨h.nodup _, nodup_singleton _, ?_⟩
      intro a ha b hb he
      rw [he, mem_singleton.mp hb] at ha
      exact hfresh _ ha
    · show (update spd.indices policy.vec l v).Nodup
      rw [update_of_ne hv]
      exact h.nodup v
  case mem =>
    intro v i
    show i ∈ update spd.indices policy.vec l v ↔
      (spd.withPolicy policy).policies.Live i ∧ ((spd.withPolicy policy).policies.eltAt i).vec = v
    rw [live_withPolicy, eltAt_withPolicy]
    have hold := h.mem v i
    by_cases hv : v = policy.vec
    · subst hv
      rw [update_self, hperm.mem_iff, mem_append, mem_singleton]
      by_cases hi : i = spd.policies.get.2
      · rw [if_pos hi]
        exact iff_of_true (.inr hi) ⟨.inr hi, rfl⟩
      · rw [if_neg hi, or_iff_left hi, or_iff_left hi]
        exact hold
    · rw [update_of_ne hv]
      by_cases hi : i = spd.policies.get.2
      · rw [if_pos hi]
        exact iff_of_false (hi ▸ hfresh v) fun hc => hv hc.2.symm
      · rw [if_neg hi, or_iff_left hi]
        exact hold
  case sorted =>
    intro v
    by_cases hv : v = policy.vec
    · subst hv
      show (update spd.indices policy.vec l policy.vec).Pairwise _
      rw [update_self]
      exact hs
    · show (update spd.indices policy.vec l v).Pairwise _
      rw [update_of_ne hv]
      refine (h.sorted v).imp_of_mem ?_
      intro a b ha hb hab
      have hne {c : Nat} (hc : c ∈ spd.indices v) : c ≠ spd.policies.get.2 := fun he => hfresh v (he ▸ hc)
      show (spd.withPolicy policy).prio b ≤ (spd.withPolicy policy).prio a
      rw [IpsecSpd.prio, IpsecSpd.prio, eltAt_withPolicy, eltAt_withPolicy, if_neg (hne ha), if_neg (hne hb)]
      exact hab

theorem SpdComparable.add (h : SpdLists spd) (hc : SpdComparable spd)
    (hperm : l.Perm (spd.indices policy.vec ++ [spd.policies.get.2]))
    (hnear : ∀ i ∈ spd.indices policy.vec, Comparable policy (spd.policies.eltAt i)) :
    SpdComparable (spd.filed policy l) := by
  have hfresh (v : PolicyVec) : spd.policies.get.2 ∉ spd.indices v :=
    fun hm => spd.policies.not_live_get ((h.mem v _).mp hm).1
  intro v i hi j hj
  show Comparable ((spd.withPolicy policy).policies.eltAt i) ((spd.withPolicy policy).policies.eltAt j)
  have hi : i ∈ update spd.indices policy.vec l v := hi
  have hj : j ∈ update spd.indices policy.vec l v := hj
  rw [eltAt_withPolicy, eltAt_withPolicy]
  by_cases hv : v = policy.vec
  · subst hv
    rw [update_self, hperm.mem_iff, mem_append, mem_singleton] at hi hj
    by_cases hin : i = spd.policies.get.2
    · by_cases hjn : j = spd.policies.get.2
      · rw [if_pos hin, if_pos hjn]
        exact .refl policy
      · rw [if_pos hin, if_neg hjn]
        exact hnear j (hj.resolve_right hjn)
    · by_cases hjn : j = spd.policies.get.2
      · rw [if_neg hin, if_pos hjn]
        exact (hnear i (hi.resolve_right hin)).symm
      · rw [if_neg hin, if_neg hjn]
        exact hc _ i (hi.resolve_right hin) j (hj.resolve_right hjn)
  · rw [update_of_ne hv] at hi hj
    have hne {k : Nat} (hk : k ∈ spd.indices v) : k ≠ spd.policies.get.2 := fun he => hfresh v (he ▸ hk)
    rw [if_neg (hne hi), if_neg (hne hj)]
    exact hc v i hi j hj

structure SpdInv (spd : IpsecSpd) : Prop where
  lists : SpdLists spd
  comparable : SpdComparable spd

theorem ipsecSpdEntrySort_self (im : IpsecMain) (a : Nat) : ipsecSpdEntrySort im a a = 0 := by
  unfold ipsecSpdEntrySort
  cases hfound : (liveIndices im.spds).findSome? _ with
  | none => rfl
  | some d =>
    obtain ⟨_, s, _, -, hd, -⟩ := findSome?_eq_some_iff.mp hfound
    cases hp : (im.spds.eltAt s).policyAt a with
    | none =>
      rw [hp] at hd
      cases hd
    | some p =>
      rw [hp] at hd
      obtain rfl := Option.some.inj hd
      exact sub_self p.priority

theorem addPolicy_eq (sort : (Nat → Nat → BitVec 32) → List Nat → List Nat) (im : IpsecMain) (s : Nat)
    (policy : IpsecPolicy) :
    addPolicy sort im s policy = { im with
      spds := im.spds.set s ((im.spds.eltAt s).filed policy
        (sort (ipsecSpdEntrySort { im with spds := im.spds.set s ((im.spds.eltAt s).withPolicy policy) })
          ((im.spds.eltAt s).indices policy.vec ++ [(im.spds.eltAt s).policies.get.2]))) } := rfl

theorem SpdInv.addPolicy {sort : (Nat → Nat → BitVec 32) → List Nat → List Nat} (hsort : SortsBy sort)
    (hs : im.spds.Live s) (h : SpdInv (im.spds.eltAt s))
    (hsafe : (im.spds.eltAt s).indices policy.vec = [] ∨ (FirstSpd im s ∧ ∀ i, (im.spds.eltAt s).policies.Live i →
      ((im.spds.eltAt s).policies.eltAt i).vec = policy.vec →
        Comparable policy ((im.spds.eltAt s).policies.eltAt i))) :
    SpdInv ((Ipsec.addPolicy sort im s policy).spds.eltAt s) := by
  obtain ⟨hl, hc⟩ := h
  generalize hspd : im.spds.eltAt s = spd at *
  let compared := { im with spds := im.spds.set s (spd.withPolicy policy) }
  let l := sort (ipsecSpdEntrySort compared) (spd.indices policy.vec ++ [spd.policies.get.2])
  have hresult : (Ipsec.addPolicy sort im s policy).spds.eltAt s =
      (spd.filed policy l) := by
    rw [addPolicy_eq, hspd]
    exact Pool.eltAt_set_self hs
  have hsorted : l.Perm (spd.indices policy.vec ++ [spd.policies.get.2]) ∧
      l.Pairwise fun i j => (spd.withPolicy policy).prio j ≤ (spd.withPolicy policy).prio i := by
    rcases hsafe with hempty | ⟨hfirst, hnear⟩
    · have hone : l = [spd.policies.get.2] := by
        show sort _ (spd.indices policy.vec ++ [spd.policies.get.2]) = _
        rw [hempty]
        exact sort_singleton hsort (ipsecSpdEntrySort_self compared _)
      rw [hone, hempty]
      exact ⟨.refl _, pairwise_singleton _ _⟩
    · have hown : compared.spds.eltAt s = spd.withPolicy policy := Pool.eltAt_set_self hs
      have hne : (compared.spds.eltAt s).policies.elts ≠ [] := by
        rw [hown]
        have hlive : (spd.withPolicy policy).policies.Live spd.policies.get.2 := live_withPolicy.mpr (.inr rfl)
        exact fun he => absurd hlive.1 (by simp [he])
      have hcmp := ipsecSpdEntrySort_first (Pool.live_set.mpr hs) (fun t ht => fun hlive =>
        hfirst t ht (Pool.live_set.mp hlive)) hne
      rw [hown] at hcmp
      apply sort_priorities hsort hcmp
      have hall := SpdComparable.add hl hc (l := spd.indices policy.vec ++ [spd.policies.get.2]) (.refl _)
        fun i hi => hnear i ((hl.mem _ i).mp hi).1 ((hl.mem _ i).mp hi).2
      have hself : (spd.filed policy (spd.indices policy.vec ++ [spd.policies.get.2])).indices policy.vec =
          spd.indices policy.vec ++ [spd.policies.get.2] := update_self ..
      have hcomp := hall policy.vec
      rw [hself] at hcomp
      exact hcomp
  rw [hresult]
  refine ⟨hl.add hsorted.1 hsorted.2, SpdComparable.add hl hc hsorted.1 ?_⟩
  intro i hi
  rcases hsafe with hempty | ⟨-, hnear⟩
  · rw [hempty] at hi
    cases hi
  · exact hnear i ((hl.mem _ i).mp hi).1 ((hl.mem _ i).mp hi).2

/-- An IPv4 delete takes the policy away. -/
def IpsecSpd.Takes (spd : IpsecSpd) (policy : IpsecPolicy) (i : Nat) : Prop :=
  (spd.policies.eltAt i).SameSelector policy ∧ (spd.policies.eltAt i).SameIp4 policy

instance : Decidable (spd.Takes policy i) := inferInstanceAs (Decidable (_ ∧ _))

/-- No IPv6 policy is found. At most one IPv4 policy is found, and behind it its vector has one priority. -/
def DelSafe (spd : IpsecSpd) (policy : IpsecPolicy) : Prop :=
  if policy.isIpv6 ≠ 0 then
    ∀ i, spd.policies.Live i →
      ¬ ((spd.policies.eltAt i).SameSelector policy ∧ (spd.policies.eltAt i).SameIp6 policy)
  else ∀ i, spd.policies.Live i → spd.Takes policy i →
    (∀ j, spd.policies.Live j → spd.Takes policy j → j = i) ∧
    ∀ xs ys, spd.indices policy.vec = xs ++ i :: ys → ∀ a ∈ ys, ∀ b ∈ ys, spd.prio a = spd.prio b

theorem delPolicy_ip6 (h6 : policy.isIpv6 ≠ 0) (l : List Nat)
    (hnone : ∀ i ∈ l, ¬ ((spd.policies.eltAt i).SameSelector policy ∧ (spd.policies.eltAt i).SameIp6 policy)) :
    delPolicy policy l spd = spd := by
  induction l with
  | nil => rfl
  | cons i l ih =>
    have hi := hnone i mem_cons_self
    have hrest := ih fun j hj => hnone j (mem_cons_of_mem i hj)
    rw [delPolicy]
    by_cases hs : (spd.policies.eltAt i).SameSelector policy
    · rw [if_neg (not_not.mpr hs), if_pos h6, if_pos fun h => hi ⟨hs, h⟩]
      exact hrest
    · rw [if_pos hs]
      exact hrest

theorem delPolicy_ip4_cons (h4 : ¬ policy.isIpv6 ≠ 0) (i : Nat) (l : List Nat) (spd : IpsecSpd) :
    delPolicy policy (i :: l) spd = delPolicy policy l (if spd.Takes policy i then spd.remove policy i else spd) := by
  rw [delPolicy]
  by_cases hs : (spd.policies.eltAt i).SameSelector policy
  · rw [if_neg (not_not.mpr hs), if_neg h4]
    by_cases hr : (spd.policies.eltAt i).SameIp4 policy
    · rw [if_neg (not_not.mpr hr), if_pos ⟨hs, hr⟩]
    · rw [if_pos hr, if_neg fun h => hr h.2]
  · rw [if_pos hs, if_neg fun h => hs h.1]

theorem delPolicy_ip4_none (h4 : ¬ policy.isIpv6 ≠ 0) (l : List Nat) (hnone : ∀ i ∈ l, ¬ spd.Takes policy i) :
    delPolicy policy l spd = spd := by
  induction l with
  | nil => rfl
  | cons i l ih =>
    rw [delPolicy_ip4_cons h4, if_neg (hnone i mem_cons_self)]
    exact ih fun j hj => hnone j (mem_cons_of_mem i hj)

theorem takes_remove : (spd.remove policy i).Takes policy j ↔ spd.Takes policy j := by
  show ((spd.policies.put i).eltAt j).SameSelector policy ∧ ((spd.policies.put i).eltAt j).SameIp4 policy ↔ _
  rw [Pool.eltAt_put]
  rfl

theorem delPolicy_ip4_one (h4 : ¬ policy.isIpv6 ≠ 0) {l : List Nat} (hnd : l.Nodup) (hi : i ∈ l)
    (hfound : spd.Takes policy i) (honly : ∀ j ∈ l, spd.Takes policy j → j = i) :
    delPolicy policy l spd = spd.remove policy i := by
  induction l with
  | nil => cases hi
  | cons j l ih =>
    obtain ⟨hj, hnd⟩ := nodup_cons.mp hnd
    rw [delPolicy_ip4_cons h4]
    by_cases he : j = i
    · subst he
      rw [if_pos hfound]
      apply delPolicy_ip4_none h4
      intro k hk htakes
      obtain rfl := honly k (mem_cons_of_mem j hk) (takes_remove.mp htakes)
      exact hj hk
    · rw [if_neg fun htakes => he (honly j mem_cons_self htakes)]
      have hi := (mem_cons.mp hi).resolve_left (Ne.symm he)
      exact ih hnd hi fun k hk => honly k (mem_cons_of_mem j hk)

theorem nodup_liveIndices [Inhabited α] (p : Pool α) : (liveIndices p).Nodup := nodup_range.filter _

theorem IpsecPolicy.SameSelector.vec {vp policy : IpsecPolicy} (h : vp.SameSelector policy) : vp.vec = policy.vec := by
  obtain ⟨-, hout, hact, -, -, -, -, h6⟩ := h
  rw [IpsecPolicy.vec, IpsecPolicy.vec, hout, hact, h6]

theorem SpdInv.remove (h : SpdInv spd) (hi : spd.policies.Live i) (hv : (spd.policies.eltAt i).vec = policy.vec)
    (hsafe : ∀ xs ys, spd.indices policy.vec = xs ++ i :: ys → ∀ a ∈ ys, ∀ b ∈ ys, spd.prio a = spd.prio b) :
    SpdInv (spd.remove policy i) := by
  obtain ⟨hl, hc⟩ := h
  obtain ⟨hnd, hmem, hsorted⟩ := delIndex_spec (hl.nodup policy.vec) ((hl.mem _ i).mpr ⟨hi, hv⟩) (hl.sorted _) hsafe
  have hspd : spd.remove policy i =
      ⟨spd.policies.put i, update spd.indices policy.vec (delIndex (spd.indices policy.vec) i)⟩ := rfl
  have hprio (j : Nat) : IpsecSpd.prio ⟨spd.policies.put i,
      update spd.indices policy.vec (delIndex (spd.indices policy.vec) i)⟩ j = spd.prio j := by
    rw [IpsecSpd.prio, Pool.eltAt_put]
    rfl
  have hsub (v : PolicyVec) (j : Nat)
      (hj : j ∈ update spd.indices policy.vec (delIndex (spd.indices policy.vec) i) v) :
      j ∈ spd.indices v := by
    by_cases he : v = policy.vec
    · subst he
      rw [update_self] at hj
      exact ((hmem j).mp hj).1
    · rwa [update_of_ne he] at hj
  rw [hspd]
  refine ⟨⟨?_, ?_, ?_⟩, ?_⟩
  · intro v
    by_cases he : v = policy.vec
    · subst he
      show (update spd.indices policy.vec _ policy.vec).Nodup
      rw [update_self]
      exact hnd
    · show (update spd.indices policy.vec _ v).Nodup
      rw [update_of_ne he]
      exact hl.nodup v
  · intro v j
    show j ∈ update spd.indices policy.vec _ v ↔
      (spd.policies.put i).Live j ∧ ((spd.policies.put i).eltAt j).vec = v
    rw [Pool.live_put, Pool.eltAt_put]
    by_cases he : v = policy.vec
    · subst he
      rw [update_self, hmem, hl.mem]
      exact and_right_comm
    · rw [update_of_ne he, hl.mem]
      constructor
      · intro ⟨hj, hjv⟩
        refine ⟨⟨hj, ?_⟩, hjv⟩
        rintro rfl
        exact he (hjv.symm.trans hv)
      · exact fun ⟨⟨hj, _⟩, hjv⟩ => ⟨hj, hjv⟩
  · intro v
    simp only [hprio]
    by_cases he : v = policy.vec
    · subst he
      show (update spd.indices policy.vec _ policy.vec).Pairwise _
      rw [update_self]
      exact hsorted
    · show (update spd.indices policy.vec _ v).Pairwise _
      rw [update_of_ne he]
      exact hl.sorted v
  · intro v a ha b hb
    show Comparable ((spd.policies.put i).eltAt a) ((spd.policies.put i).eltAt b)
    rw [Pool.eltAt_put, Pool.eltAt_put]
    exact hc v a (hsub v a ha) b (hsub v b hb)

/-- What a step must not meet. A policy whose SA or SPD is not there is refused before. -/
def OpSafe (im : IpsecMain) (policy : IpsecPolicy) (isAdd : Bool) : Prop :=
  ∀ p s, findSa im policy = some p → im.spdIndexBySpdId policy.id = some s →
    if isAdd then AddSafe im p else DelSafe (im.spds.eltAt s) p

inductive Reached (sort : (Nat → Nat → BitVec 32) → List Nat → List Nat) (Ok : IpsecMain → IpsecPolicy → Bool → Prop)
    (m : IpsecMain) : IpsecMain → Prop
  | start : Reached sort Ok m m
  | step (policy : IpsecPolicy) (isAdd : Bool) : Reached sort Ok m m' → Ok m' policy isAdd →
      Reached sort Ok m (ipsecAddDelPolicy sort m' policy isAdd).2

/-- Before the first policy: the SPDs are empty, and the hashes find what is in use. -/
structure Fresh (im : IpsecMain) : Prop where
  empty : ∀ s, im.spds.Live s → im.spds.eltAt s = default
  spds : ∀ id s, im.spdIndexBySpdId id = some s → im.spds.Live s
  sad : ∀ id i, im.saIndexBySaId id = some i → im.sad.Live i ∧ (im.sad.eltAt i).id = id

structure MainInv (im : IpsecMain) : Prop where
  spd : ∀ s, im.spds.Live s → SpdInv (im.spds.eltAt s)
  spds : ∀ id s, im.spdIndexBySpdId id = some s → im.spds.Live s
  sad : ∀ id i, im.saIndexBySaId id = some i → im.sad.Live i ∧ (im.sad.eltAt i).id = id
  sas : ∀ s, im.spds.Live s → ∀ i, (im.spds.eltAt s).policies.Live i →
    ((im.spds.eltAt s).policies.eltAt i).policy = .protect →
      im.saIndexBySaId ((im.spds.eltAt s).policies.eltAt i).saId ≠ none

theorem Fresh.inv (h : Fresh im) : MainInv im := by
  refine ⟨?_, h.spds, h.sad, ?_⟩
  · intro s hs
    rw [h.empty s hs]
    refine ⟨⟨fun v => .nil, fun v i => ?_, fun v => .nil⟩, fun v i hi => absurd hi (by simp [default])⟩
    exact iff_of_false (by simp [default]) fun hc => Pool.not_live_empty i hc.1
  · intro s hs i hi
    rw [h.empty s hs] at hi
    exact absurd hi (Pool.not_live_empty i)

theorem findSa_eq (h : findSa im policy = some p) : ∃ saIndex, p = { policy with saIndex } := by
  unfold findSa at h
  split at h
  · obtain ⟨saIndex, -, hp⟩ := map_eq_some_iff.mp h
    exact ⟨saIndex, hp.symm⟩
  · exact ⟨policy.saIndex, (Option.some.inj h).symm⟩

theorem findSa_known (h : findSa im policy = some p) (hp : p.policy = .protect) : im.saIndexBySaId p.saId ≠ none := by
  unfold findSa at h
  split at h
  · obtain ⟨saIndex, hsa, rfl⟩ := map_eq_some_iff.mp h
    rw [hsa]
    exact nofun
  · next hne =>
    obtain rfl := Option.some.inj h
    exact absurd hp hne

theorem MainInv.set (h : MainInv im) (hs : im.spds.Live s) (hspd : SpdInv spd)
    (hsas : ∀ i, spd.policies.Live i → (spd.policies.eltAt i).policy = .protect →
      im.saIndexBySaId (spd.policies.eltAt i).saId ≠ none) : MainInv { im with spds := im.spds.set s spd } := by
  refine ⟨?_, ?_, h.sad, ?_⟩
  · intro t ht
    show SpdInv ((im.spds.set s spd).eltAt t)
    rw [Pool.eltAt_set hs]
    split
    · exact hspd
    · exact h.spd t (Pool.live_set.mp ht)
  · exact fun id t ht => Pool.live_set.mpr (h.spds id t ht)
  · intro t ht i
    show ((im.spds.set s spd).eltAt t).policies.Live i →
      (((im.spds.set s spd).eltAt t).policies.eltAt i).policy = .protect →
      im.saIndexBySaId (((im.spds.set s spd).eltAt t).policies.eltAt i).saId ≠ none
    rw [Pool.eltAt_set hs]
    split
    · exact hsas i
    · exact h.sas t (Pool.live_set.mp ht) i

/-- A delete that is safe leaves the SPD, or takes one policy from it. -/
theorem delPolicy_safe (h : SpdInv spd) (hsafe : DelSafe spd policy) :
    (delPolicy policy (liveIndices spd.policies) spd = spd ∧ ∀ i, spd.policies.Live i →
      ¬ ((spd.policies.eltAt i).SameSelector policy ∧
        if policy.isIpv6 ≠ 0 then (spd.policies.eltAt i).SameIp6 policy else (spd.policies.eltAt i).SameIp4 policy)) ∨
    ∃ i, spd.policies.Live i ∧ (spd.policies.eltAt i).SameSelector policy ∧ ¬ policy.isIpv6 ≠ 0 ∧
      (spd.policies.eltAt i).SameIp4 policy ∧ SpdInv (delPolicy policy (liveIndices spd.policies) spd) ∧
      (delPolicy policy (liveIndices spd.policies) spd).policies = spd.policies.put i := by
  unfold DelSafe at hsafe
  by_cases h6 : policy.isIpv6 ≠ 0
  · rw [if_pos h6] at hsafe
    refine .inl ⟨delPolicy_ip6 h6 _ fun i hi => hsafe i (mem_liveIndices.mp hi), ?_⟩
    intro i hi
    rw [if_pos h6]
    exact hsafe i hi
  · rw [if_neg h6] at hsafe
    by_cases hfound : ∃ i, spd.policies.Live i ∧ spd.Takes policy i
    · obtain ⟨i, hi, htakes⟩ := hfound
      obtain ⟨honly, hbehind⟩ := hsafe i hi htakes
      have hresult := delPolicy_ip4_one h6 (nodup_liveIndices _) (mem_liveIndices.mpr hi) htakes fun j hj =>
        honly j (mem_liveIndices.mp hj)
      rw [hresult]
      exact .inr ⟨i, hi, htakes.1, h6, htakes.2, h.remove hi htakes.1.vec hbehind, rfl⟩
    · have hnone (i : Nat) (hi : spd.policies.Live i) : ¬ spd.Takes policy i := fun h => hfound ⟨i, hi, h⟩
      refine .inl ⟨delPolicy_ip4_none h6 _ fun i hi => hnone i (mem_liveIndices.mp hi), ?_⟩
      intro i hi
      rw [if_neg h6]
      exact hnone i hi

theorem ipsecAddDelPolicy_del (sort : (Nat → Nat → BitVec 32) → List Nat → List Nat) (hsa : findSa im policy = some p)
    (hid : im.spdIndexBySpdId policy.id = some s) :
    (ipsecAddDelPolicy sort im policy false).2 = { im with
      spds := im.spds.set s (delPolicy p (liveIndices (im.spds.eltAt s).policies) (im.spds.eltAt s)) } := by
  rw [ipsecAddDelPolicy, hsa, hid]
  rfl

theorem MainInv.step {sort : (Nat → Nat → BitVec 32) → List Nat → List Nat} (hsort : SortsBy sort) (h : MainInv im)
    (hsafe : OpSafe im policy isAdd) : MainInv (ipsecAddDelPolicy sort im policy isAdd).2 := by
  cases hsa : findSa im policy with
  | none =>
    rw [ipsecAddDelPolicy, hsa]
    exact h
  | some p =>
    cases hid : im.spdIndexBySpdId policy.id with
    | none =>
      rw [ipsecAddDelPolicy, hsa, hid]
      exact h
    | some s =>
    have hs := h.spds _ s hid
    have hop := hsafe p s hsa hid
    obtain ⟨saIndex, hp⟩ := findSa_eq hsa
    cases isAdd with
    | true =>
      have hadd := hop s (by rw [hp]; exact hid)
      have hspd := (h.spd s hs).addPolicy hsort hs hadd
      have hresult : (ipsecAddDelPolicy sort im policy true).2 = addPolicy sort im s p := by
        rw [ipsecAddDelPolicy, hsa, hid]
        rfl
      rw [addPolicy_eq] at hspd hresult
      rw [hresult]
      refine h.set hs ?_ ?_
      · exact (Pool.eltAt_set_self hs).subst (motive := SpdInv) hspd
      · intro i
        show ((im.spds.eltAt s).withPolicy p).policies.Live i →
          (((im.spds.eltAt s).withPolicy p).policies.eltAt i).policy = .protect →
          im.saIndexBySaId (((im.spds.eltAt s).withPolicy p).policies.eltAt i).saId ≠ none
        rw [live_withPolicy, eltAt_withPolicy]
        split
        · exact fun _ => findSa_known hsa
        · next hne => exact fun hi => h.sas s hs i (hi.resolve_right hne)
    | false =>
      have hdel : DelSafe (im.spds.eltAt s) p := hop
      rw [ipsecAddDelPolicy_del sort hsa hid]
      rcases delPolicy_safe (h.spd s hs) hdel with ⟨hsame, -⟩ | ⟨i, hi, -, -, -, hinv, hpool⟩
      · rw [hsame]
        exact h.set hs (h.spd s hs) (h.sas s hs)
      · refine h.set hs hinv ?_
        rw [hpool]
        intro j hj
        rw [Pool.eltAt_put]
        exact h.sas s hs j (Pool.live_put.mp hj).1

def IpsecPolicy.Equals (vp policy : IpsecPolicy) : Prop :=
  vp.SameSelector policy ∧
    if policy.isIpv6 ≠ 0 then vp.laddr = policy.laddr ∧ vp.raddr = policy.raddr else vp.SameIp4 policy

/-- One policy that equals the given one goes, or there is none and nothing changes. -/
def DeletesOne (im im' : IpsecMain) (policy : IpsecPolicy) : Prop :=
  (∃ s i, im.spdIndexBySpdId policy.id = some s ∧ (im.spds.eltAt s).policies.Live i ∧
    ((im.spds.eltAt s).policies.eltAt i).Equals policy ∧
    ∀ t, (im'.spds.eltAt t).policies =
      if t = s then (im.spds.eltAt s).policies.put i else (im.spds.eltAt t).policies) ∨
  (∀ s i, im.spdIndexBySpdId policy.id = some s → (im.spds.eltAt s).policies.Live i →
    ¬ ((im.spds.eltAt s).policies.eltAt i).Equals policy) ∧ im' = im

/-- A policy in use of the highest priority among those that match, or there is none. -/
def HighestMatch (spd : IpsecSpd) (pr : BitVec 8) (la ra : BitVec 32) (lp rp : BitVec 16) : Option Nat → Prop
  | none => ∀ i, spd.policies.Live i → (spd.policies.eltAt i).vec = .ipv4Outbound →
      ¬ (spd.policies.eltAt i).Matches pr la ra lp rp
  | some i => spd.policies.Live i ∧ (spd.policies.eltAt i).vec = .ipv4Outbound ∧
      (spd.policies.eltAt i).Matches pr la ra lp rp ∧
      ∀ j, spd.policies.Live j → (spd.policies.eltAt j).vec = .ipv4Outbound →
        (spd.policies.eltAt j).Matches pr la ra lp rp →
          (spd.policies.eltAt j).priority.toInt ≤ (spd.policies.eltAt i).priority.toInt

def SaUsed (im : IpsecMain) (saIndex : Nat) : Prop :=
  (∃ s i, im.spds.Live s ∧ (im.spds.eltAt s).policies.Live i ∧
    ((im.spds.eltAt s).policies.eltAt i).policy = .protect ∧
    ((im.spds.eltAt s).policies.eltAt i).saIndex = saIndex) ∨
  ∃ t, im.tunnelInterfaces.Live t ∧ ((im.tunnelInterfaces.eltAt t).inputSaIndex = saIndex ∨
    (im.tunnelInterfaces.eltAt t).outputSaIndex = saIndex)

theorem ipsecIsSaUsed_iff (im : IpsecMain) (saIndex : Nat) : ipsecIsSaUsed im saIndex = true ↔ SaUsed im saIndex := by
  unfold ipsecIsSaUsed SaUsed
  simp only [Bool.or_eq_true, List.any_eq_true, mem_liveIndices, decide_eq_true_eq]
  apply or_congr_left
  constructor
  · intro ⟨s, hs, i, hi, hp, hsa⟩
    exact ⟨s, i, hs, hi, hp, hsa⟩
  · intro ⟨s, i, hs, hi, hp, hsa⟩
    exact ⟨s, hs, i, hi, hp, hsa⟩

theorem IpsecPolicy.Equals.found {vp policy p : IpsecPolicy} (h : vp.Equals policy)
    (hp : p = { policy with saIndex := p.saIndex }) :
    vp.SameSelector p ∧ if p.isIpv6 ≠ 0 then vp.SameIp6 p else vp.SameIp4 p := by
  obtain ⟨hsel, hranges⟩ := h
  rw [hp]
  refine ⟨hsel, ?_⟩
  show if policy.isIpv6 ≠ 0 then vp.SameIp6 _ else vp.SameIp4 policy
  split
  · next h6 =>
    rw [if_pos h6] at hranges
    obtain ⟨hl, hr⟩ := hranges
    unfold IpsecPolicy.SameIp6
    rw [hl, hr]
    exact ⟨rfl, rfl, rfl, rfl, rfl, rfl, rfl, rfl⟩
  · next h4 => rwa [if_neg h4] at hranges

theorem MainInv.deletesOne {sort : (Nat → Nat → BitVec 32) → List Nat → List Nat} (h : MainInv im)
    (hsafe : OpSafe im policy false) : DeletesOne im (ipsecAddDelPolicy sort im policy false).2 policy := by
  cases hsa : findSa im policy with
  | none =>
    refine .inr ⟨?_, ?_⟩
    · intro s i hid hi hequals
      unfold findSa at hsa
      split at hsa
      · next hprotect =>
        obtain ⟨-, -, hact, hsaid, -⟩ := hequals.1
        have hknown := h.sas s (h.spds _ s hid) i hi (hact.trans hprotect)
        rw [hsaid] at hknown
        exact hknown (map_eq_none_iff.mp hsa)
      · cases hsa
    · rw [ipsecAddDelPolicy, hsa]
  | some p =>
    cases hid : im.spdIndexBySpdId policy.id with
    | none =>
      refine .inr ⟨?_, ?_⟩
      · intro s i hs
        cases hid.symm.trans hs
      · rw [ipsecAddDelPolicy, hsa, hid]
    | some s =>
      have hs := h.spds _ s hid
      obtain ⟨saIndex, rfl⟩ := findSa_eq hsa
      have hdel : DelSafe (im.spds.eltAt s) { policy with saIndex } := hsafe _ s hsa hid
      rw [ipsecAddDelPolicy_del sort hsa hid]
      rcases delPolicy_safe (h.spd s hs) hdel with ⟨hsame, hnone⟩ | ⟨i, hi, hsel, h4, hip, -, hpool⟩
      · refine .inr ⟨?_, ?_⟩
        · intro t i ht hi hequals
          obtain rfl := Option.some.inj (hid.symm.trans ht)
          exact hnone i hi (hequals.found rfl)
        · rw [hsame, Pool.set_eltAt hs]
      · refine .inl ⟨s, i, hid, hi, ⟨hsel, ?_⟩, ?_⟩
        · rw [if_neg h4]
          exact hip
        · intro t
          show ((im.spds.set s _).eltAt t).policies = _
          rw [Pool.eltAt_set hs]
          split
          · exact hpool
          · rfl

theorem SpdLists.match (h : SpdLists spd) (pr : BitVec 8) (la ra : BitVec 32) (lp rp : BitVec 16) :
    HighestMatch spd pr la ra lp rp (ipsecOutputPolicyMatch spd pr la ra lp rp) := by
  cases hfound : ipsecOutputPolicyMatch spd pr la ra lp rp with
  | none =>
    intro i hi hv
    simpa using find?_eq_none.mp hfound i ((h.mem _ i).mpr ⟨hi, hv⟩)
  | some i =>
    obtain ⟨hi, xs, ys, hsplit, hbefore⟩ := find?_eq_some_iff_append.mp hfound
    have hlive := (h.mem .ipv4Outbound i).mp (hsplit ▸ mem_append_right xs mem_cons_self)
    refine ⟨hlive.1, hlive.2, by simpa using hi, ?_⟩
    intro j hj hv hmatch
    have hsorted := h.sorted .ipv4Outbound
    have hjm := (h.mem .ipv4Outbound j).mpr ⟨hj, hv⟩
    rw [hsplit] at hsorted hjm
    rcases mem_append.mp hjm with hx | hy
    · have hno := hbefore j hx
      simp only [Bool.not_eq_true', decide_eq_false_iff_not] at hno
      exact absurd hmatch hno
    · rcases mem_cons.mp hy with rfl | hy
      · exact le_refl _
      · exact (pairwise_cons.mp (pairwise_append.mp hsorted).2.1).1 j hy

theorem MainInv.refuses (h : MainInv im) (hid : im.saIndexBySaId newSa.id = some saIndex) :
    ipsecAddDelSa im newSa false = (syscallError1, im) ↔ SaUsed im saIndex := by
  rw [← ipsecIsSaUsed_iff]
  unfold ipsecAddDelSa
  rw [hid]
  dsimp only
  cases hused : ipsecIsSaUsed im saIndex with
  | true => simp
  | false =>
    refine iff_of_false ?_ (by simp)
    rw [if_neg (by simp)]
    intro he
    have hunset : ∀ r : Int × IpsecMain, r = (syscallError1, im) → r.2.saIndexBySaId newSa.id = some saIndex := by
      rintro r rfl
      exact hid
    have hgone := hunset _ he
    have hnone : update im.saIndexBySaId (im.sad.eltAt saIndex).id none newSa.id = none := by
      rw [(h.sad _ saIndex hid).2]
      exact update_self ..
    split at hgone
    · exact absurd (hnone.symm.trans hgone) nofun
    · exact absurd (hnone.symm.trans hgone) nofun

/-- The vectors hold the policies in use in order, a delete takes one equal policy, a packet gets a policy of the
highest priority, and an SA in use stays, as long as every step is safe. -/
theorem ipsec_policy_database (sort : (Nat → Nat → BitVec 32) → List Nat → List Nat) (hsort : SortsBy sort)
    (im₀ im : IpsecMain) (hfresh : Fresh im₀) (h : Reached sort OpSafe im₀ im) :
    (∀ s, im.spds.Live s → SpdLists (im.spds.eltAt s)) ∧
    (∀ policy, OpSafe im policy false → DeletesOne im (ipsecAddDelPolicy sort im policy false).2 policy) ∧
    (∀ s, im.spds.Live s → ∀ pr la ra lp rp,
      HighestMatch (im.spds.eltAt s) pr la ra lp rp (ipsecOutputPolicyMatch (im.spds.eltAt s) pr la ra lp rp)) ∧
    ∀ newSa saIndex, im.saIndexBySaId newSa.id = some saIndex →
      (ipsecAddDelSa im newSa false = (syscallError1, im) ↔ SaUsed im saIndex) := by
  have hinv : MainInv im := by
    induction h with
    | start => exact hfresh.inv
    | step policy isAdd _ hsafe ih => exact ih.step hsort hsafe
  refine ⟨fun s hs => (hinv.spd s hs).lists, fun policy hsafe => hinv.deletesOne hsafe, ?_, ?_⟩
  · exact fun s hs pr la ra lp rp => (hinv.spd s hs).lists.match pr la ra lp rp
  · exact fun newSa saIndex hid => hinv.refuses hid

def sortInsert (cmp : Nat → Nat → BitVec 32) (l : List Nat) : List Nat :=
  l.insertionSort fun a b => (cmp a b).toInt ≤ 0

theorem sortsBy_insert : SortsBy sortInsert := by
  intro cmp l htotal htrans
  refine ⟨perm_insertionSort _ l, ?_⟩
  let r (a b : {a // a ∈ l}) : Prop := (cmp a b).toInt ≤ 0
  have : DecidableRel r := fun a b => inferInstanceAs (Decidable (_ ≤ _))
  have : Std.Total r := ⟨fun a b => htotal a a.2 b b.2⟩
  have : IsTrans _ r := ⟨fun a b c => htrans a a.2 b b.2 c c.2⟩
  have hsorted := pairwise_insertionSort r l.attach
  have hmap : (l.attach.insertionSort r).map Subtype.val = sortInsert cmp l := by
    rw [map_insertionSort r (fun a b => (cmp a b).toInt ≤ 0) Subtype.val l.attach fun a _ b _ => Iff.rfl,
      List.attach_map_subtype_val]
    rfl
  rw [← hmap, pairwise_map]
  exact hsorted

/-- Two empty SPDs, with ids 1 and 2. -/
def twoSpds : IpsecMain where
  spds := .ofElts [default, default]
  sad := .empty
  tunnelInterfaces := .empty
  spdIndexBySpdId := fun id => if id = 1 then some 0 else if id = 2 then some 1 else none
  saIndexBySaId := fun _ => none
  addDelSaSessCb := none

def outbound (id priority : BitVec 32) (isIpv6 : BitVec 8) : IpsecPolicy :=
  { (default : IpsecPolicy) with
    id
    priority
    isOutbound := 1
    isIpv6 }

theorem fresh_twoSpds : Fresh twoSpds := by
  refine ⟨?_, ?_, fun id i hi => nomatch hi⟩
  · intro s hs
    have hlt : s < 2 := hs.1
    match s, hlt with
    | 0, _ => rfl
    | 1, _ => rfl
  · intro id s hid
    have hid : (if id = 1 then some 0 else if id = 2 then some 1 else none) = some s := hid
    split at hid
    · obtain rfl := Option.some.inj hid
      decide
    · split at hid
      · obtain rfl := Option.some.inj hid
        decide
      · cases hid

def runPolicies (ops : List (IpsecPolicy × Bool)) : IpsecMain :=
  ops.foldl (fun im op => (ipsecAddDelPolicy sortInsert im op.1 op.2).2) twoSpds

theorem reached_runPolicies {Ok : IpsecMain → IpsecPolicy → Bool → Prop} (ops : List (IpsecPolicy × Bool))
    (hok : ∀ i (hi : i < ops.length), Ok (runPolicies (ops.take i)) ops[i].1 ops[i].2) :
    Reached sortInsert Ok twoSpds (runPolicies ops) := by
  induction ops using List.reverseRecOn with
  | nil => exact .start
  | append_singleton ops op ih =>
    have hlast := hok ops.length (by simp)
    rw [take_left, getElem_concat_length rfl] at hlast
    rw [runPolicies, foldl_append]
    refine .step op.1 op.2 (ih fun i hi => ?_) hlast
    have hop := hok i (by simp; omega)
    rwa [getElem_append_left hi, take_append_of_le_length hi.le] at hop

/-- Two IPv4 policies of the first SPD, and the one of the lower priority deleted. -/
def deletedOps : List (IpsecPolicy × Bool) :=
  [(outbound 1 10 0, true), (outbound 1 20 0, true), (outbound 1 10 0, false)]

theorem ipsec_policy_database_deleted :
    Fresh twoSpds ∧ Reached sortInsert OpSafe twoSpds (runPolicies deletedOps) ∧
      SpdLists ((runPolicies deletedOps).spds.eltAt 0) ∧
      ((runPolicies deletedOps).spds.eltAt 0).indices .ipv4Outbound = [1] := by
  have hreached : Reached sortInsert OpSafe twoSpds (runPolicies deletedOps) := by
    apply reached_runPolicies
    intro i hi p s hsa hid
    match i, hi with
    | 0, _ =>
      obtain rfl : outbound 1 10 0 = p := Option.some.inj hsa
      intro t ht
      obtain rfl : 0 = t := Option.some.inj ht
      exact .inl rfl
    | 1, _ =>
      obtain rfl : outbound 1 20 0 = p := Option.some.inj hsa
      intro t ht
      obtain rfl : 0 = t := Option.some.inj ht
      refine .inr ⟨fun t ht => absurd ht (Nat.not_lt_zero t), ?_⟩
      intro j hj _
      have hlt : j < 1 := hj.1
      obtain rfl : j = 0 := Nat.lt_one_iff.mp hlt
      decide
    | 2, _ =>
      obtain rfl : outbound 1 10 0 = p := Option.some.inj hsa
      obtain rfl : 0 = s := Option.some.inj hid
      have hvec : ((runPolicies (deletedOps.take 2)).spds.eltAt 0).indices .ipv4Outbound = [1, 0] := by decide
      have hdel : deletedOps[2].2 = false := rfl
      rw [if_neg (by rw [hdel]; exact nofun)]
      unfold DelSafe
      rw [if_neg (by decide)]
      have honly : ∀ j < 2, ((runPolicies (deletedOps.take 2)).spds.eltAt 0).Takes (outbound 1 10 0) j → j = 0 := by
        decide
      intro j hj htakes
      refine ⟨fun k hk hk' => (honly k hk.1 hk').trans (honly j hj.1 htakes).symm, ?_⟩
      intro xs ys hsplit
      have hlen := congrArg List.length (hvec.symm.trans hsplit)
      match ys with
      | [] => exact fun a ha => nomatch ha
      | [y] =>
        intro a ha b hb
        rw [mem_singleton.mp ha, mem_singleton.mp hb]
      | y :: y' :: ys =>
        simp only [length_append, length_cons, length_nil] at hlen
        omega
  exact ⟨fresh_twoSpds, hreached,
    (ipsec_policy_database sortInsert sortsBy_insert _ _ fresh_twoSpds hreached).1 0 (by decide), by decide⟩

/-- Two equal IPv4 policies of the first SPD. -/
def equalOps : List (IpsecPolicy × Bool) := [(outbound 1 10 0, true), (outbound 1 10 0, true)]

/-- A delete in the middle breaks the order, the second SPD is sorted by the first, an IPv6 policy that is deleted
stays in use, and of equal IPv4 policies all go. -/
theorem ipsec_policy_database_fails :
    (Reached sortInsert (fun _ _ _ => True) twoSpds (runPolicies
        [(outbound 1 30 0, true), (outbound 1 20 0, true), (outbound 1 10 0, true), (outbound 1 30 0, false)]) ∧
      ¬ SpdLists ((runPolicies
        [(outbound 1 30 0, true), (outbound 1 20 0, true), (outbound 1 10 0, true),
          (outbound 1 30 0, false)]).spds.eltAt 0)) ∧
    (Reached sortInsert (fun _ _ _ => True) twoSpds (runPolicies
        [(outbound 1 20 0, true), (outbound 1 10 0, true), (outbound 2 10 0, true), (outbound 2 20 0, true)]) ∧
      ¬ SpdLists ((runPolicies
        [(outbound 1 20 0, true), (outbound 1 10 0, true), (outbound 2 10 0, true),
          (outbound 2 20 0, true)]).spds.eltAt 1)) ∧
    (Reached sortInsert (fun _ _ _ => True) twoSpds
        (runPolicies [(outbound 1 10 1, true), (outbound 1 10 1, false)]) ∧
      ¬ SpdLists ((runPolicies [(outbound 1 10 1, true), (outbound 1 10 1, false)]).spds.eltAt 0)) ∧
    Reached sortInsert (fun _ _ _ => True) twoSpds (runPolicies equalOps) ∧
      ¬ DeletesOne (runPolicies equalOps)
        (ipsecAddDelPolicy sortInsert (runPolicies equalOps) (outbound 1 10 0) false).2 (outbound 1 10 0) := by
  have hreached (ops : List (IpsecPolicy × Bool)) :
      Reached sortInsert (fun _ _ _ => True) twoSpds (runPolicies ops) :=
    reached_runPolicies ops fun _ _ => trivial
  refine ⟨⟨hreached _, ?_⟩, ⟨hreached _, ?_⟩, ⟨hreached _, ?_⟩, hreached _, ?_⟩
  · intro h
    have hvec : ((runPolicies [(outbound 1 30 0, true), (outbound 1 20 0, true), (outbound 1 10 0, true),
        (outbound 1 30 0, false)]).spds.eltAt 0).indices .ipv4Outbound = [2, 1] := by decide
    have hsorted := h.sorted .ipv4Outbound
    rw [hvec] at hsorted
    exact absurd ((pairwise_cons.mp hsorted).1 1 (by simp)) (by decide)
  · intro h
    have hvec : ((runPolicies [(outbound 1 20 0, true), (outbound 1 10 0, true), (outbound 2 10 0, true),
        (outbound 2 20 0, true)]).spds.eltAt 1).indices .ipv4Outbound = [0, 1] := by decide
    have hsorted := h.sorted .ipv4Outbound
    rw [hvec] at hsorted
    exact absurd ((pairwise_cons.mp hsorted).1 1 (by simp)) (by decide)
  · intro h
    have hvec : ((runPolicies [(outbound 1 10 1, true), (outbound 1 10 1, false)]).spds.eltAt 0).indices
        .ipv6Outbound = [] := by decide
    have hmem := (h.mem .ipv6Outbound 0).mpr ⟨by decide, by decide⟩
    rw [hvec] at hmem
    cases hmem
  · have hboth : ∀ j < 2, ((runPolicies equalOps).spds.eltAt 0).policies.Live j ∧ ¬ ((ipsecAddDelPolicy sortInsert
        (runPolicies equalOps) (outbound 1 10 0) false).2.spds.eltAt 0).policies.Live j := by decide
    rintro (⟨s, i, hid, hi, -, hpool⟩ | ⟨-, hsame⟩)
    · obtain rfl : 0 = s := Option.some.inj hid
      have hother : ∃ j < 2, j ≠ i := by
        by_cases h0 : i = 0
        · exact ⟨1, by decide, by omega⟩
        · exact ⟨0, by decide, Ne.symm h0⟩
      obtain ⟨j, hj, hne⟩ := hother
      have hgone := (hboth j hj).2
      rw [hpool 0, if_pos rfl, Pool.live_put] at hgone
      exact hgone ⟨(hboth j hj).1, hne⟩
    · have hgone := (hboth 0 (by decide)).2
      rw [hsame] at hgone
      exact hgone (hboth 0 (by decide)).1

end Vpp.Ipsec
