import Vpp.Mtrie.Effect
import Vpp.Mtrie.Mask

namespace Vpp.Mtrie
open Vpp.Lib List

section

variable {p : Pool Ply} {S : Set Nat} {newLeaf : Leaf} {newBits : Nat}

def moreSpecific (newLeaf : Leaf) (newBits : Nat) : Action := fun _ r =>
  if r.2 ≤ newBits then (newLeaf, newBits) else r

theorem replaceLeaf_effect (hn : Node p d (Tree p d) idx S C) (hi : i < 256)
    (hnew : leafIsTerminal newLeaf = true) (hne : newLeaf ≠ leafEmpty) (hb : newBits ≤ 8 * (4 - d))
    (hl : leafIsTerminal ((p.eltAt idx).leaves i) = true)
    (hle : (p.eltAt idx).dstAddressBitsOfLeaves i ≤ newBits) :
    ∃ S', Effect p (replaceLeaf newLeaf newBits idx i p) (d + 1) idx S S'
      (below [i] (moreSpecific newLeaf newBits)) := by
  have hcount : (if (p.eltAt idx).leaves i = leafEmpty then (1 : Int) else 0) =
      (if newLeaf = leafEmpty then 0 else 1) - if (p.eltAt idx).leaves i = leafEmpty then 0 else 1 := by
    rw [if_neg hne]
    split
    · rfl
    · rfl
  obtain ⟨S', he⟩ := hn.assign hi hl hnew hb (fun h => absurd h hne) hcount
  refine ⟨S', he.congr ?_⟩
  intro bs _
  cases bs with
  | nil => rfl
  | cons b bs =>
    by_cases hbi : b = i
    · subst hbi
      simp [below, moreSpecific, find, hl, hle]
    · simp [below, hbi]

theorem Effect.refl_below (ht : Tree p (d + 1) idx S)
    (hF : ∀ bs, Bytes d bs → F bs (Mtrie.find p idx (i :: bs)) = Mtrie.find p idx (i :: bs)) :
    Effect p p (d + 1) idx S S (below [i] F) := by
  refine (Effect.refl ht).congr ?_
  intro bs hbs
  cases bs with
  | nil => rfl
  | cons b bs =>
    by_cases hb : b = i
    · subst hb
      simp only [below, mem_singleton, if_true]
      exact (hF bs hbs.tail).symm
    · simp [below, hb]

theorem moreSpecific_step (hnew : leafIsTerminal newLeaf = true) (hne : newLeaf ≠ leafEmpty)
    (hb : newBits ≤ 8 * (4 - d)) (ht : Tree p (d + 1) idx S) (hi : i < 256)
    (hsub : ∀ idx S, Tree p d idx S →
      ∃ S', Effect p (setPlyWithMoreSpecificLeaf newLeaf newBits d idx p) d idx S S'
        (moreSpecific newLeaf newBits)) :
    ∃ S', Effect p (if leafIsTerminal ((p.eltAt idx).leaves i) = false then
        setPlyWithMoreSpecificLeaf newLeaf newBits d (leafGetNextPlyIndex ((p.eltAt idx).leaves i)) p
      else if (p.eltAt idx).dstAddressBitsOfLeaves i ≤ newBits then
        replaceLeaf newLeaf newBits idx i p
      else p) (d + 1) idx S S' (below [i] (moreSpecific newLeaf newBits)) := by
  obtain ⟨C, hn⟩ := id ht
  by_cases hl : leafIsTerminal ((p.eltAt idx).leaves i) = false
  · rw [if_pos hl]
    obtain ⟨S', he⟩ := hsub _ _ (hn.next i hi hl).2
    exact hn.lift hi hl he
  · rw [if_neg hl]
    have hl' : leafIsTerminal ((p.eltAt idx).leaves i) = true := by simpa using hl
    by_cases hle : (p.eltAt idx).dstAddressBitsOfLeaves i ≤ newBits
    · rw [if_pos hle]
      exact replaceLeaf_effect hn hi hnew hne hb hl' hle
    · rw [if_neg hle]
      refine ⟨S, .refl_below ht ?_⟩
      intro bs _
      simp [moreSpecific, find, hl', hle]

theorem setPlyWithMoreSpecificLeaf_spec (hnew : leafIsTerminal newLeaf = true)
    (hne : newLeaf ≠ leafEmpty) (hb : newBits + 8 * d ≤ 40) (ht : Tree p d idx S) :
    ∃ S', Effect p (setPlyWithMoreSpecificLeaf newLeaf newBits d idx p) d idx S S'
      (moreSpecific newLeaf newBits) := by
  induction d generalizing p idx S with
  | zero => exact ht.elim
  | succ d ih =>
    obtain ⟨S', he⟩ := foldl_effect (fun p S i hm ht => moreSpecific_step hnew hne (by omega) ht
      (mem_range.mp hm) fun idx S ht => ih (by omega) ht) (nodup_range (n := 256)) ht
    refine ⟨S', he.congr ?_⟩
    intro bs hbs
    cases bs with
    | nil => exact absurd hbs.1 (by simp)
    | cons b bs => simp [below, hbs.2 b (.head _), moreSpecific]

/-- A new ply under a terminal leaf: all its leaves are copies, so every path finds what it found. -/
theorem plyCreate_effect (hn : Node p (d + 1) (Tree p (d + 1)) idx S C) (hi : i < 256)
    (hl : leafIsTerminal ((p.eltAt idx).leaves i) = true) :
    ∃ p' S', p' = ((p.get.1.set p.get.2 (plyInit ((p.eltAt idx).leaves i)
        ((p.eltAt idx).dstAddressBitsOfLeaves i))).modify idx fun q =>
          q.assign i (leafSetNextPlyIndex p.get.2) 0
            (-(if (p.eltAt idx).leaves i = leafEmpty then 0 else 1) + 1)) ∧
      (p'.eltAt idx).leaves i = leafSetNextPlyIndex p.get.2 ∧
      Effect p p' (d + 2) idx S S' fun _ r => r := by
  generalize hp' : ((p.get.1.set p.get.2 (plyInit ((p.eltAt idx).leaves i)
    ((p.eltAt idx).dstAddressBitsOfLeaves i))).modify idx fun q =>
      q.assign i (leafSetNextPlyIndex p.get.2) 0
        (-(if (p.eltAt idx).leaves i = leafEmpty then 0 else 1) + 1)) = p'
  obtain ⟨hC, hbits⟩ := hn.terminal i hi hl
  have hq := p.not_live_get
  have hlive (j : Nat) : p'.Live j ↔ p.Live j ∨ j = p.get.2 := by
    rw [← hp', Pool.live_modify, Pool.live_set, Pool.live_get]
  have hne : idx ≠ p.get.2 := fun he => hq (he ▸ hn.live)
  have hget : p.get.1.Live p.get.2 := Pool.live_get.mpr (.inr rfl)
  have hnew : p'.eltAt p.get.2 =
      plyInit ((p.eltAt idx).leaves i) ((p.eltAt idx).dstAddressBitsOfLeaves i) := by
    rw [← hp', Pool.eltAt_modify_ne hne.symm, Pool.eltAt_set_self hget]
  have hpar := leafIsTerminal_setNextPlyIndex p.get.2
  have hne1 := leafSetNextPlyIndex_ne p.get.2
  have hleaf : Tree p' (d + 1) p.get.2 {p.get.2} :=
    .plyInit ((hlive _).mpr (.inr rfl)) hnew hl (by omega) (hn.empty i hi)
  have hr : Replaced p p' (d + 1) idx i C {p.get.2} (leafSetNextPlyIndex p.get.2) 0
      (-(if (p.eltAt idx).leaves i = leafEmpty then 0 else 1) + 1) := by
    constructor
    case lt => exact hi
    case elt =>
      rw [← hp', Pool.eltAt_modify_self (Pool.live_set.mpr (Pool.live_get.mpr (.inl hn.live))),
        Pool.eltAt_set_ne hne, Pool.eltAt_get]
    case count =>
      rw [if_neg hne1]
      ring
    case live => simp [hlive, hC]
    case frame =>
      intro j hj hji _
      have hjq : j ≠ p.get.2 := fun he => hq (he ▸ hj)
      rw [← hp', Pool.eltAt_modify_ne hji, Pool.eltAt_set_ne hjq, Pool.eltAt_get]
    case fresh =>
      intro j hj
      rw [Set.mem_singleton_iff] at hj
      exact .inr (hj ▸ hq)
    case terminal => exact fun ht => absurd (ht.symm.trans hpar) (by decide)
    case empty => exact fun he => absurd he hne1
    case next =>
      intro _
      rw [leafGetNextPlyIndex_set]
      exact ⟨rfl, hleaf⟩
  obtain ⟨S', he⟩ := hr.effect hn (F := fun _ r => r) (by
    intro bs hbs
    cases bs with
    | nil => exact absurd hbs.1 (by simp)
    | cons b bs =>
      simp only [find, hr.leaf_self, hpar, Bool.false_eq_true, if_false, leafGetNextPlyIndex_set, hnew,
        plyInit, hl, if_true])
  refine ⟨p', S', rfl, hr.leaf_self, he.congr ?_⟩
  intro bs _
  cases bs with
  | nil => rfl
  | cons b bs => simp [below]

end

variable {p : Pool Ply} {S : Set Nat} {a : SetUnsetLeafArgs}

/-- Arguments as the callers pass them: a masked address and an index that has a leaf of its own. -/
structure SetUnsetLeafArgs.Ok (a : SetUnsetLeafArgs) : Prop where
  length_le : a.dstAddressLength ≤ 32
  masked : ∀ k, 8 * k < a.dstAddressLength → a.dstAddressLength ≤ 8 * (k + 1) →
    asU8 a.dstAddress k % 2 ^ (8 * (k + 1) - a.dstAddressLength) = 0
  adj_pos : 0 < a.adjIndex
  adj_lt : a.adjIndex < 2 ^ 31

theorem leafSetAdjIndex_eq (h : adj < 2 ^ 31) : leafSetAdjIndex adj = 1 + 2 * adj :=
  Nat.mod_eq_of_lt (by omega)

theorem leafGetAdjIndex_set (h : adj < 2 ^ 31) : leafGetAdjIndex (leafSetAdjIndex adj) = adj := by
  rw [leafSetAdjIndex_eq h, leafGetAdjIndex, Nat.shiftRight_one]
  omega

theorem leafSetAdjIndex_inj (h : adj < 2 ^ 31) (h' : adj' < 2 ^ 31)
    (he : leafSetAdjIndex adj = leafSetAdjIndex adj') : adj = adj' := by
  rw [← leafGetAdjIndex_set h, he, leafGetAdjIndex_set h']

theorem SetUnsetLeafArgs.Ok.terminal (ha : a.Ok) : leafIsTerminal (leafSetAdjIndex a.adjIndex) = true := by
  rw [leafSetAdjIndex_eq ha.adj_lt, leafIsTerminal_iff]
  show (1 + 2 * a.adjIndex) % 2 = 1
  omega

theorem SetUnsetLeafArgs.Ok.ne_empty (ha : a.Ok) : leafSetAdjIndex a.adjIndex ≠ leafEmpty := by
  have := ha.adj_pos
  rw [leafSetAdjIndex_eq ha.adj_lt]
  show 1 + 2 * a.adjIndex ≠ 1
  omega

/-- The leaves that the prefix covers become its leaf, unless they are more specific. -/
def setAction (a : SetUnsetLeafArgs) (k d : Nat) : Action := fun bs r =>
  if covers (a.dstAddressLength - 8 * k) (bytesFrom a.dstAddress k d) bs then
    moreSpecific (leafSetAdjIndex a.adjIndex) a.dstAddressLength bs r
  else r

theorem mem_range'_lt (hn : n ≤ 8) (hc : c < 256) (hmod : c % 2 ^ (8 - n) = 0)
    (hb : b ∈ List.range' c (2 ^ (8 - n))) : b < 256 := by
  have he := (mem_range'_iff (Nat.two_pow_pos _) hmod).mp hb
  have hpow : 2 ^ (8 - n) * 2 ^ n = 256 := by
    rw [← Nat.pow_add, Nat.sub_add_cancel hn]
  rw [← hpow] at hc ⊢
  have := Nat.div_lt_of_lt_mul hc
  rw [← he] at this
  exact (Nat.div_lt_iff_lt_mul (Nat.two_pow_pos _)).mp this |>.trans_eq (Nat.mul_comm ..)

theorem setLeaf_step (ha : a.Ok) (hb : a.dstAddressLength ≤ 8 * (4 - d)) (ht : Tree p (d + 1) idx S)
    (hi : i < 256) (hd : a.dstAddressLength + 8 * d ≤ 40) :
    ∃ S', Effect p (if (p.eltAt idx).dstAddressBitsOfLeaves i ≤ a.dstAddressLength then
        if leafIsTerminal ((p.eltAt idx).leaves i) = true then
          replaceLeaf (leafSetAdjIndex a.adjIndex) a.dstAddressLength idx i p
        else setPlyWithMoreSpecificLeaf (leafSetAdjIndex a.adjIndex) a.dstAddressLength d
          (leafGetNextPlyIndex ((p.eltAt idx).leaves i)) p
      else if leafIsTerminal ((p.eltAt idx).leaves i) = false then
        setLeaf a d (leafGetNextPlyIndex ((p.eltAt idx).leaves i)) (k + 1) p
      else p) (d + 1) idx S S'
      (below [i] (moreSpecific (leafSetAdjIndex a.adjIndex) a.dstAddressLength)) := by
  obtain ⟨C, hn⟩ := id ht
  by_cases hl : leafIsTerminal ((p.eltAt idx).leaves i) = true
  · by_cases hle : (p.eltAt idx).dstAddressBitsOfLeaves i ≤ a.dstAddressLength
    · rw [if_pos hle, if_pos hl]
      exact replaceLeaf_effect hn hi ha.terminal ha.ne_empty hb hl hle
    · rw [if_neg hle, if_neg (by simp [hl])]
      refine ⟨S, .refl_below ht ?_⟩
      intro bs _
      simp only [moreSpecific, find, hl, hle, if_true, if_false]
  · have hl' : leafIsTerminal ((p.eltAt idx).leaves i) = false := by simpa using hl
    obtain ⟨hbits, hsub⟩ := hn.next i hi hl'
    rw [if_pos (by omega), if_neg hl]
    obtain ⟨S', he⟩ := setPlyWithMoreSpecificLeaf_spec ha.terminal ha.ne_empty hd hsub
    exact hn.lift hi hl' he

theorem below_range_eq_setAction (hlen : 8 * k < a.dstAddressLength)
    (hend : a.dstAddressLength ≤ 8 * (k + 1)) (ha : a.Ok) (hbs : Bytes (d + 1) bs) (r : Leaf × Nat) :
    below (List.range' (asU8 a.dstAddress k) (2 ^ (8 * (k + 1) - a.dstAddressLength)))
      (moreSpecific (leafSetAdjIndex a.adjIndex) a.dstAddressLength) bs r = setAction a k (d + 1) bs r := by
  cases bs with
  | nil => exact absurd hbs.1 (by simp)
  | cons b bs =>
    have hmem := mem_range'_iff (b := b) (Nat.two_pow_pos _) (ha.masked k hlen hend)
    have hexp : 8 - (a.dstAddressLength - 8 * k) = 8 * (k + 1) - a.dstAddressLength := by omega
    have hrest : a.dstAddressLength - 8 * k - 8 = 0 := by omega
    simp only [below, setAction, bytesFrom, covers, hexp, hrest,
      covers_zero (bytesFrom_bytes _ _ _) hbs.tail, Bool.and_true, decide_eq_true_eq, hmem]
    rfl

theorem below_byte_eq_setAction (hlen : 8 * (k + 1) < a.dstAddressLength) (hbs : Bytes (d + 1) bs)
    (r : Leaf × Nat) :
    below [asU8 a.dstAddress k] (setAction a (k + 1) d) bs r = setAction a k (d + 1) bs r := by
  cases bs with
  | nil => exact absurd hbs.1 (by simp)
  | cons b bs =>
    have hexp : 8 - (a.dstAddressLength - 8 * k) = 0 := by omega
    have hrest : a.dstAddressLength - 8 * k - 8 = a.dstAddressLength - 8 * (k + 1) := by omega
    simp only [below, setAction, bytesFrom, covers, hexp, hrest, Nat.pow_zero, Nat.div_one,
      mem_singleton]
    by_cases hb : b = asU8 a.dstAddress k
    · simp [hb, moreSpecific]
    · simp [hb]

/-- The walk down to the ply at which the prefix ends, with its plies created on the way. -/
theorem setLeaf_spec (ha : a.Ok) (hkd : k + d = 4) (hlen : 8 * k < a.dstAddressLength)
    (ht : Tree p d idx S) : ∃ S', Effect p (setLeaf a d idx k p) d idx S S' (setAction a k d) := by
  induction d generalizing k p idx S with
  | zero => exact ht.elim
  | succ d ih =>
    have h32 := ha.length_le
    have hc := asU8_lt a.dstAddress k
    simp only [setLeaf]
    by_cases hend : a.dstAddressLength ≤ 8 * (k + 1)
    · have hneg : (-((a.dstAddressLength : Int) - 8 * (k + 1))).toNat =
          8 * (k + 1) - a.dstAddressLength := by omega
      have hexp : 8 * (k + 1) - a.dstAddressLength = 8 - (a.dstAddressLength - 8 * k) := by omega
      have hmask := ha.masked k hlen hend
      rw [if_pos (by omega), hneg, Nat.one_shiftLeft]
      obtain ⟨S', he⟩ := foldl_effect (fun p S i hm ht => setLeaf_step (k := k) ha (by omega) ht
        (mem_range'_lt (by omega) hc (hexp ▸ hmask) (hexp ▸ hm)) (by omega))
        (nodup_range' (n := 2 ^ (8 * (k + 1) - a.dstAddressLength)) (s := asU8 a.dstAddress k)) ht
      exact ⟨S', he.congr fun bs hbs => below_range_eq_setAction hlen hend ha hbs _⟩
    · have hdown (p : Pool Ply) (S : Set Nat) (ht : Tree p (d + 1) idx S)
          (hl : leafIsTerminal ((p.eltAt idx).leaves (asU8 a.dstAddress k)) = false) :
          ∃ S', Effect p (setLeaf a d
            (leafGetNextPlyIndex ((p.eltAt idx).leaves (asU8 a.dstAddress k))) (k + 1) p) (d + 1) idx S S'
            (setAction a k (d + 1)) := by
        obtain ⟨C, hn⟩ := ht
        obtain ⟨C', he⟩ := ih (k := k + 1) (by omega) (by omega) (hn.next _ hc hl).2
        obtain ⟨S', he'⟩ := hn.lift hc hl he
        exact ⟨S', he'.congr fun bs hbs => below_byte_eq_setAction (by omega) hbs _⟩
      rw [if_neg (by omega)]
      by_cases hl : leafIsTerminal ((p.eltAt idx).leaves (asU8 a.dstAddress k)) = true
      · obtain ⟨d, rfl⟩ : ∃ n, d = n + 1 := ⟨d - 1, by omega⟩
        obtain ⟨C, hn⟩ := ht
        obtain ⟨p₁, S₁, hp₁, hleaf, h₁⟩ := plyCreate_effect hn hc hl
        simp only [plyCreate]
        rw [if_pos hl, ← hp₁, ← hleaf]
        obtain ⟨S', h₂⟩ := hdown p₁ S₁ h₁.tree (by rw [hleaf]; exact leafIsTerminal_setNextPlyIndex _)
        exact ⟨S', h₁.trans h₂⟩
      · rw [if_neg hl]
        exact hdown p S ht (by simpa using hl)

end Vpp.Mtrie
