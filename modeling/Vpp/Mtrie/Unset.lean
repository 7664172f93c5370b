import Vpp.Mtrie.Set

namespace Vpp.Mtrie
open Vpp.Lib

variable {p p' p'' : Pool Ply} {S S' : Set Nat} {a : SetUnsetLeafArgs} {del : Leaf}

/-- The leaf `del` becomes empty on the paths of `c`. -/
def erase (c : List Nat → Bool) (del : Leaf) : Action := fun bs r =>
  if c bs = true ∧ r.1 = del then (leafEmpty, 0) else r

/-- The plies `S` go back to the pool and nothing else changes. -/
structure Freed (p p' : Pool Ply) (S : Set Nat) : Prop where
  live : ∀ j, p'.Live j ↔ p.Live j ∧ j ∉ S
  frame : ∀ j, p.Live j → j ∉ S → p'.eltAt j = p.eltAt j

/-- A ply that is kept has changed by `F`; one that is deleted had nothing left after `F`. -/
def Unset (p : Pool Ply) (r : Pool Ply × Bool) (d idx k : Nat) (S : Set Nat) (F : Action) : Prop :=
  r.2 = false ∧ (∃ S', Effect p r.1 d idx S S' F) ∨
  r.2 = true ∧ 0 < k ∧ Freed p r.1 S ∧ ∀ bs, Bytes d bs → F bs (find p idx bs) = (leafEmpty, 0)

theorem Unset.congr (h : Unset p r d idx k S F)
    (hFG : ∀ bs, Bytes d bs → F bs (find p idx bs) = G bs (find p idx bs)) :
    Unset p r d idx k S G := by
  rcases h with ⟨hr, S', he⟩ | ⟨hr, hk, hf, hall⟩
  · exact .inl ⟨hr, S', he.congr hFG⟩
  · exact .inr ⟨hr, hk, hf, fun bs hbs => (hFG bs hbs).symm.trans (hall bs hbs)⟩

/-- Wherever a path finds `del`, it has prefix length `len`. -/
def DelBits (p : Pool Ply) (d idx : Nat) (del : Leaf) (len : Nat) : Prop :=
  ∀ bs, Bytes d bs → (find p idx bs).1 = del → (find p idx bs).2 = len

theorem Effect.freed (he : Effect p p' d idx S S' F) (hf : Freed p' p'' S') : Freed p p'' S := by
  have hout (j : Nat) (hl : p.Live j) (hj : j ∉ S) : p'.Live j ∧ j ∉ S' := by
    refine ⟨(he.live j).mpr (.inl ⟨hl, hj⟩), fun hm => ?_⟩
    rcases he.fresh j hm with hs | hn
    · exact hj hs
    · exact hn hl
  constructor
  · intro j
    rw [hf.live, he.live]
    constructor
    · rintro ⟨hl | hm, hn⟩
      · exact hl
      · exact absurd hm hn
    · exact fun h => ⟨.inl h, (hout j h.1 h.2).2⟩
  · intro j hl hj
    obtain ⟨hl', hj'⟩ := hout j hl hj
    rw [hf.frame j hl' hj', he.frame j hl hj]

theorem erase_erase (hdel : del ≠ leafEmpty) (bs : List Nat) (r : Leaf × Nat) :
    erase c del bs (erase c del bs r) = erase c del bs r := by
  by_cases h : c bs = true ∧ r.1 = del
  · simp [erase, h, hdel.symm]
  · simp [erase, h]

theorem below_erase_cases (c : List Nat → Bool) (del : Leaf) (is bs : List Nat) (r : Leaf × Nat) :
    below is (erase c del) bs r = r ∨ below is (erase c del) bs r = (leafEmpty, 0) := by
  cases bs with
  | nil => exact .inl rfl
  | cons b bs =>
    simp only [below, erase]
    split
    · split
      · exact .inr rfl
      · exact .inl rfl
    · exact .inl rfl

theorem DelBits.effect (hd : DelBits p d idx del len) (hdel : del ≠ leafEmpty)
    (he : Effect p p' d idx S S' (below is (erase c del))) : DelBits p' d idx del len := by
  intro bs hbs hf
  rw [he.find bs hbs] at hf ⊢
  rcases below_erase_cases c del is bs (find p idx bs) with h | h
  · rw [h] at hf ⊢
    exact hd bs hbs hf
  · rw [h] at hf
    exact absurd hf.symm hdel

/-- A ply whose count is zero is empty, alone, and freed with the tree. -/
theorem Effect.put (he : Effect p p' (d + 1) idx S S' F) (hz : (p'.eltAt idx).nNonEmptyLeafs = 0) :
    Freed p (p'.put idx) S ∧ ∀ bs, Bytes (d + 1) bs → F bs (Mtrie.find p idx bs) = (leafEmpty, 0) := by
  obtain ⟨C, hn⟩ := id he.tree
  have hempty (i : Nat) (hi : i < 256) : (p'.eltAt idx).leaves i = leafEmpty :=
    eq_empty_of_nonEmptyLeaves (hn.count ▸ hz) hi
  have hS (j : Nat) : j ∈ S' ↔ j = idx := by
    rw [hn.mem]
    constructor
    · rintro (rfl | ⟨i, hi, hm⟩)
      · rfl
      · rw [(hn.terminal i hi (by rw [hempty i hi]; rfl)).1] at hm
        exact hm.elim
    · exact .inl
  constructor
  · apply he.freed
    constructor
    · intro j
      rw [Pool.live_put, hS]
    · intro j _ _
      exact Pool.eltAt_put ..
  · intro bs hbs
    rw [← he.find bs hbs]
    cases bs with
    | nil => rfl
    | cons b bs =>
      have hb := hbs.2 b (.head _)
      simp only [Mtrie.find, hempty b hb, hn.empty b hb (hempty b hb)]
      rfl

/-- The tree under a leaf was deleted and the leaf becomes empty. -/
theorem Node.drop (hn : Node p d (Tree p d) idx S C) (hi : i < 256)
    (hl : leafIsTerminal ((p.eltAt idx).leaves i) = false) (hf : Freed p p' (C i)) :
    ∃ S', Effect p (p'.modify idx fun q => q.assign i leafEmpty 0 (-1)) (d + 1) idx S S'
      (below [i] fun _ _ => (leafEmpty, 0)) := by
  have hself := hn.not_self i hi
  have hlive : p'.Live idx := (hf.live idx).mpr ⟨hn.live, hself⟩
  have hne : (p.eltAt idx).leaves i ≠ leafEmpty := by
    intro he
    rw [he] at hl
    exact absurd hl (by decide)
  have hr : Replaced p (p'.modify idx fun q => q.assign i leafEmpty 0 (-1)) d idx i C ∅ leafEmpty 0
      (-1) := by
    constructor
    case lt => exact hi
    case elt => rw [Pool.eltAt_modify_self hlive, hf.frame idx hn.live hself]
    case count => simp [hne]
    case live => simp [hf.live]
    case frame => exact fun j hl hj hc => (Pool.eltAt_modify_ne hj).trans (hf.frame j hl hc)
    case fresh => exact fun j hj => hj.elim
    case terminal => exact fun _ => ⟨rfl, Nat.zero_le _⟩
    case empty => exact fun _ => rfl
    case next => exact fun h => absurd h (by decide)
  apply hr.effect hn
  intro bs _
  simp only [Mtrie.find, hr.leaf_self, hr.bits_self]
  rfl

section Loop
variable {recurse : Nat → Pool Ply → Pool Ply × Bool} {c : List Nat → Bool} {len : Nat}
  (hdel : leafIsTerminal del = true) (hne : del ≠ leafEmpty)
  (hrec : ∀ p idx S, Tree p d idx S → DelBits p d idx del len →
    Unset p (recurse idx p) d idx (k + 1) S (erase c del))
  (hc : len ≤ 8 * (4 - d) → ∀ bs, Bytes d bs → c bs = true)
include hdel hne hrec hc

/-- One pass of the loop, with the ply's own leaf emptied on a hit. -/
theorem unsetLeaves_step (ht : Tree p (d + 1) idx S) (hi : i < 256)
    (hd : DelBits p (d + 1) idx del len) (hr : r = if (p.eltAt idx).leaves i = del then (p, true)
      else if leafIsTerminal ((p.eltAt idx).leaves i) = false then
        recurse (leafGetNextPlyIndex ((p.eltAt idx).leaves i)) p
      else (p, false)) :
    ∃ S', Effect p (if r.2 = true then r.1.modify idx fun q => q.assign i leafEmpty 0 (-1) else r.1)
      (d + 1) idx S S' (below [i] (erase c del)) := by
  obtain ⟨C, hn⟩ := id ht
  by_cases he : (p.eltAt idx).leaves i = del
  · have hl : leafIsTerminal ((p.eltAt idx).leaves i) = true := he ▸ hdel
    rw [if_pos he] at hr
    subst hr
    have hcount : (-1 : Int) = (if leafEmpty = leafEmpty then 0 else 1) -
        if (p.eltAt idx).leaves i = leafEmpty then 0 else 1 := by simp [he, hne]
    obtain ⟨S', heff⟩ := hn.assign hi hl rfl (Nat.zero_le _) (fun _ => rfl) hcount
    refine ⟨S', heff.congr ?_⟩
    intro bs hbs
    cases bs with
    | nil => rfl
    | cons b bs =>
      by_cases hb : b = i
      · subst hb
        have hfind : find p idx (b :: bs) = (del, (p.eltAt idx).dstAddressBitsOfLeaves b) := by
          simp only [find]
          rw [if_pos hl, he]
        have hlen := hd (b :: bs) hbs (by rw [hfind])
        rw [hfind] at hlen ⊢
        have hcb := hc (hlen ▸ (hn.terminal b hi hl).2) bs hbs.tail
        simp [below, erase, hcb]
      · simp [below, hb]
  · rw [if_neg he] at hr
    by_cases hl : leafIsTerminal ((p.eltAt idx).leaves i) = false
    · rw [if_pos hl] at hr
      obtain ⟨_, hsub⟩ := hn.next i hi hl
      have hd' : DelBits p d (leafGetNextPlyIndex ((p.eltAt idx).leaves i)) del len := by
        intro bs hbs
        have hbytes : Bytes (d + 1) (i :: bs) := by
          refine ⟨by simp [hbs.1], fun b hb => ?_⟩
          rcases List.mem_cons.mp hb with rfl | hb
          · exact hi
          · exact hbs.2 b hb
        have := hd (i :: bs) hbytes
        simp only [find, hl, Bool.false_eq_true, if_false] at this
        exact this
      rcases hrec p _ _ hsub hd' with ⟨hr2, C', heff⟩ | ⟨hr2, _, hfreed, hall⟩
      · rw [← hr] at hr2 heff
        rw [if_neg (by simp [hr2])]
        exact hn.lift hi hl heff
      · rw [← hr] at hr2 hfreed
        rw [if_pos hr2]
        obtain ⟨S', heff⟩ := hn.drop hi hl hfreed
        refine ⟨S', heff.congr ?_⟩
        intro bs hbs
        cases bs with
        | nil => rfl
        | cons b bs =>
          by_cases hb : b = i
          · subst hb
            simp only [below, List.mem_singleton, if_true, find, hl, Bool.false_eq_true, if_false]
            exact (hall bs hbs.tail).symm
          · simp [below, hb]
    · rw [if_neg hl] at hr
      subst hr
      refine ⟨S, .refl_below ht ?_⟩
      intro bs _
      have hl' : leafIsTerminal ((p.eltAt idx).leaves i) = true := by simpa using hl
      simp [find, hl', erase, he]

theorem unsetLeaves_spec {is : List Nat} (hlt : ∀ i ∈ is, i < 256) (ht : Tree p (d + 1) idx S)
    (hd : DelBits p (d + 1) idx del len) :
    Unset p (unsetLeaves recurse del idx k is p) (d + 1) idx k S (below is (erase c del)) := by
  induction is generalizing p S with
  | nil =>
    refine .inl ⟨rfl, S, (Effect.refl ht).congr ?_⟩
    intro bs _
    cases bs with
    | nil => rfl
    | cons b bs => simp [below]
  | cons i is ih =>
    have hcomp (bs : List Nat) (r : Leaf × Nat) : below is (erase c del) bs
        (below [i] (erase c del) bs r) = below (i :: is) (erase c del) bs r := by
      cases bs with
      | nil => rfl
      | cons b bs =>
        by_cases hb : b = i
        · subst hb
          simp only [below, List.mem_cons, true_or, if_true, List.not_mem_nil, or_false]
          split
          · exact erase_erase hne bs r
          · rfl
        · simp [below, hb]
    have hgo (p' : Pool Ply) (S₁ : Set Nat) (h₁ : Effect p p' (d + 1) idx S S₁ (below [i] (erase c del))) :
        Unset p (unsetLeaves recurse del idx k is p') (d + 1) idx k S (below (i :: is) (erase c del)) := by
      rcases ih (fun j hj => hlt j (.tail _ hj)) h₁.tree (hd.effect hne h₁) with
        ⟨hr, S₂, h₂⟩ | ⟨hr, hk, hf, hall⟩
      · exact .inl ⟨hr, S₂, (h₁.trans h₂).congr fun bs _ => hcomp bs _⟩
      · refine .inr ⟨hr, hk, h₁.freed hf, ?_⟩
        intro bs hbs
        rw [← hcomp, ← h₁.find bs hbs]
        exact hall bs hbs
    simp only [unsetLeaves]
    generalize hr : (if (p.eltAt idx).leaves i = del then (p, true)
      else if leafIsTerminal ((p.eltAt idx).leaves i) = false then
        recurse (leafGetNextPlyIndex ((p.eltAt idx).leaves i)) p
      else (p, false)) = r
    obtain ⟨S₁, h₁⟩ := unsetLeaves_step hdel hne hrec hc ht (hlt i (.head _)) hd hr.symm
    split
    · next hhit =>
      rw [if_pos hhit] at h₁
      split
      · next hz =>
        obtain ⟨hf, hall⟩ := h₁.put hz.1
        refine .inr ⟨rfl, hz.2, hf, ?_⟩
        intro bs hbs
        rw [← hcomp, hall bs hbs]
        rcases below_erase_cases c del is bs (leafEmpty, 0) with h | h
        · exact h
        · exact h
      · exact hgo _ _ h₁
    · next hhit =>
      rw [if_neg hhit] at h₁
      exact hgo _ _ h₁

end Loop

def unsetAction (a : SetUnsetLeafArgs) (k d : Nat) : Action :=
  erase (covers (a.dstAddressLength - 8 * k) (bytesFrom a.dstAddress k d)) (leafSetAdjIndex a.adjIndex)

theorem sub_mod_div (hm : 0 < m) (c : Nat) : (c - c % m) % m = 0 ∧ (c - c % m) / m = c / m := by
  have he : c - c % m = m * (c / m) := by
    have := Nat.div_add_mod c m
    omega
  rw [he]
  exact ⟨Nat.mul_mod_right .., Nat.mul_div_cancel_left _ hm⟩

theorem unsetLeaf_range (len k : Nat) (hc : c < 256) :
    List.range' (if (len : Int) - 8 * (k + 1) < 0
        then c - c % 2 ^ (-((len : Int) - 8 * (k + 1))).toNat else c)
      (1 <<< min 8 (-((len : Int) - 8 * (k + 1))).toNat) =
    List.range' (c - c % 2 ^ (8 - (len - 8 * k))) (2 ^ (8 - (len - 8 * k))) := by
  have hneg : (-((len : Int) - 8 * (k + 1))).toNat = 8 * (k + 1) - len := by omega
  have hmin : min 8 (8 * (k + 1) - len) = 8 - (len - 8 * k) := by omega
  rw [hneg, hmin, Nat.one_shiftLeft]
  congr 1
  by_cases hk : len < 8 * k
  · have h8 : 8 - (len - 8 * k) = 8 := by omega
    have hpow : 2 ^ 8 ≤ 2 ^ (8 * (k + 1) - len) := Nat.pow_le_pow_right (by decide) (by omega)
    rw [if_pos (by omega), h8, Nat.mod_eq_of_lt (Nat.lt_of_lt_of_le hc hpow),
      Nat.mod_eq_of_lt (show c < 2 ^ 8 from hc)]
  · by_cases hend : len < 8 * (k + 1)
    · rw [if_pos (by omega), show 8 * (k + 1) - len = 8 - (len - 8 * k) by omega]
    · rw [if_neg (by omega), show 8 - (len - 8 * k) = 0 by omega, Nat.pow_zero, Nat.mod_one,
        Nat.sub_zero]

theorem unsetLeaf_range_lt (a : SetUnsetLeafArgs) (k : Nat) (hi : i ∈ List.range' (asU8 a.dstAddress k -
      asU8 a.dstAddress k % 2 ^ (8 - (a.dstAddressLength - 8 * k)))
      (2 ^ (8 - (a.dstAddressLength - 8 * k)))) : i < 256 := by
  have hc := asU8_lt a.dstAddress k
  rw [show 8 - (a.dstAddressLength - 8 * k) = 8 - min 8 (a.dstAddressLength - 8 * k) by omega] at hi
  exact mem_range'_lt (Nat.min_le_left ..) (by omega) (sub_mod_div (Nat.two_pow_pos _) _).1 hi

theorem below_range_eq_unsetAction (hbs : Bytes (d + 1) bs) (r : Leaf × Nat) :
    below (List.range' (asU8 a.dstAddress k -
        asU8 a.dstAddress k % 2 ^ (8 - (a.dstAddressLength - 8 * k)))
      (2 ^ (8 - (a.dstAddressLength - 8 * k)))) (unsetAction a (k + 1) d) bs r =
    unsetAction a k (d + 1) bs r := by
  cases bs with
  | nil => exact absurd hbs.1 (by simp)
  | cons b bs =>
    have hpos : 0 < 2 ^ (8 - (a.dstAddressLength - 8 * k)) := Nat.two_pow_pos _
    obtain ⟨hmod, hdiv⟩ := sub_mod_div hpos (asU8 a.dstAddress k)
    have hrest : a.dstAddressLength - 8 * k - 8 = a.dstAddressLength - 8 * (k + 1) := by omega
    simp only [below, unsetAction, erase, bytesFrom, covers, hrest, mem_range'_iff hpos hmod, hdiv,
      Bool.and_eq_true, decide_eq_true_eq]
    by_cases hb : b / 2 ^ (8 - (a.dstAddressLength - 8 * k)) =
      asU8 a.dstAddress k / 2 ^ (8 - (a.dstAddressLength - 8 * k))
    · simp [hb]
    · simp [hb]

theorem unsetLeaf_spec (ha : a.Ok) (hkd : k + d = 4) (ht : Tree p d idx S)
    (hd : DelBits p d idx (leafSetAdjIndex a.adjIndex) a.dstAddressLength) :
    Unset p (unsetLeaf a d idx k p) d idx k S (unsetAction a k d) := by
  induction d generalizing k p idx S with
  | zero => exact ht.elim
  | succ d ih =>
    have hrec (p : Pool Ply) (idx : Nat) (S : Set Nat) (ht : Tree p d idx S)
        (hd : DelBits p d idx (leafSetAdjIndex a.adjIndex) a.dstAddressLength) :
        Unset p (unsetLeaf a d idx (k + 1) p) d idx (k + 1) S (unsetAction a (k + 1) d) :=
      ih (by omega) ht hd
    have hcov (hlen : a.dstAddressLength ≤ 8 * (4 - d)) (bs : List Nat) (hbs : Bytes d bs) :
        covers (a.dstAddressLength - 8 * (k + 1)) (bytesFrom a.dstAddress (k + 1) d) bs = true := by
      rw [show a.dstAddressLength - 8 * (k + 1) = 0 by omega]
      exact covers_zero (bytesFrom_bytes _ _ _) hbs
    simp only [unsetLeaf]
    rw [unsetLeaf_range a.dstAddressLength k (asU8_lt a.dstAddress k)]
    exact (unsetLeaves_spec ha.terminal ha.ne_empty hrec hcov (fun i hi => unsetLeaf_range_lt a k hi) ht hd).congr
      fun bs hbs => below_range_eq_unsetAction hbs _

end Vpp.Mtrie
