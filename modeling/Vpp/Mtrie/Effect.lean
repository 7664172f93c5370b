import Vpp.Mtrie.Tree

namespace Vpp.Mtrie
open Vpp.Lib Function

abbrev Action := List Nat → Leaf × Nat → Leaf × Nat

/-- From pool `p` to `p'` the tree at `idx` changes as `F` says, its plies from `S` to `S'`; what is
neither in the one nor in the other stays. -/
structure Effect (p p' : Pool Ply) (d idx : Nat) (S S' : Set Nat) (F : Action) : Prop where
  tree : Tree p' d idx S'
  live : ∀ j, p'.Live j ↔ p.Live j ∧ j ∉ S ∨ j ∈ S'
  frame : ∀ j, p.Live j → j ∉ S → p'.eltAt j = p.eltAt j
  fresh : ∀ j ∈ S', j ∈ S ∨ ¬ p.Live j
  find : ∀ bs, Bytes d bs → Mtrie.find p' idx bs = F bs (Mtrie.find p idx bs)

variable {p p' p'' : Pool Ply} {S S' S'' : Set Nat} {C : Nat → Set Nat} {F G : Action}

theorem Effect.refl (ht : Tree p d idx S) : Effect p p d idx S S fun _ r => r := by
  refine ⟨ht, ?_, fun _ _ _ => rfl, fun _ h => .inl h, fun _ _ => rfl⟩
  intro j
  by_cases hj : j ∈ S
  · simp [hj, ht.live hj]
  · simp [hj]

theorem Effect.trans (h : Effect p p' d idx S S' F) (h' : Effect p' p'' d idx S' S'' G) :
    Effect p p'' d idx S S'' fun bs r => G bs (F bs r) := by
  have hout (j : Nat) (hl : p.Live j) (hj : j ∉ S) : p'.Live j ∧ j ∉ S' := by
    refine ⟨(h.live j).mpr (.inl ⟨hl, hj⟩), fun hm => ?_⟩
    rcases h.fresh j hm with hs | hn
    · exact hj hs
    · exact hn hl
  refine ⟨h'.tree, ?_, ?_, ?_, ?_⟩
  · intro j
    rw [h'.live j, h.live j]
    constructor
    · rintro (⟨(hl | hm), hn⟩ | hm)
      · exact .inl hl
      · exact absurd hm hn
      · exact .inr hm
    · rintro (⟨hl, hj⟩ | hm)
      · exact .inl ⟨.inl ⟨hl, hj⟩, (hout j hl hj).2⟩
      · exact .inr hm
  · intro j hl hj
    obtain ⟨hl', hj'⟩ := hout j hl hj
    rw [h'.frame j hl' hj', h.frame j hl hj]
  · intro j hm
    rcases h'.fresh j hm with hs | hn
    · exact h.fresh j hs
    · by_cases hj : j ∈ S
      · exact .inl hj
      · exact .inr fun hl => hn (hout j hl hj).1
  · intro bs hbs
    rw [h'.find bs hbs, h.find bs hbs]

theorem Effect.congr (h : Effect p p' d idx S S' F)
    (hFG : ∀ bs, Bytes d bs → F bs (Mtrie.find p idx bs) = G bs (Mtrie.find p idx bs)) :
    Effect p p' d idx S S' G :=
  { h with find := fun bs hbs => (h.find bs hbs).trans (hFG bs hbs) }

/-- The action `F` below the leaves of `is`. -/
def below (is : List Nat) (F : Action) : Action
  | [], r => r
  | b :: bs, r => if b ∈ is then F bs r else r

/-- Leaf `i` of the ply at `idx` becomes `leaf`, and the plies under it change from `C i` to `C'`. -/
structure Replaced (p p' : Pool Ply) (d idx i : Nat) (C : Nat → Set Nat) (C' : Set Nat) (leaf : Leaf)
    (bits : Nat) (n : Int) : Prop where
  lt : i < 256
  elt : p'.eltAt idx = (p.eltAt idx).assign i leaf bits n
  count : n = (if leaf = leafEmpty then 0 else 1) -
    if (p.eltAt idx).leaves i = leafEmpty then 0 else 1
  live : ∀ j, p'.Live j ↔ p.Live j ∧ j ∉ C i ∨ j ∈ C'
  frame : ∀ j, p.Live j → j ≠ idx → j ∉ C i → p'.eltAt j = p.eltAt j
  fresh : ∀ j ∈ C', j ∈ C i ∨ ¬ p.Live j
  terminal : leafIsTerminal leaf = true → C' = ∅ ∧ bits ≤ 8 * (4 - d)
  empty : leaf = leafEmpty → bits = 0
  next : leafIsTerminal leaf = false → bits = 0 ∧ Tree p' d (leafGetNextPlyIndex leaf) C'

section Replaced
variable {C' : Set Nat} {leaf : Leaf} {n : Int} (hr : Replaced p p' d idx i C C' leaf bits n)
include hr

theorem Replaced.leaf_self : (p'.eltAt idx).leaves i = leaf := by simp [hr.elt, Ply.assign]

theorem Replaced.bits_self : (p'.eltAt idx).dstAddressBitsOfLeaves i = bits := by
  simp [hr.elt, Ply.assign]

theorem Replaced.leaf_ne (hne : i' ≠ i) : (p'.eltAt idx).leaves i' = (p.eltAt idx).leaves i' := by
  simp [hr.elt, Ply.assign, hne]

theorem Replaced.bits_ne (hne : i' ≠ i) : (p'.eltAt idx).dstAddressBitsOfLeaves i' =
    (p.eltAt idx).dstAddressBitsOfLeaves i' := by
  simp [hr.elt, Ply.assign, hne]

variable (hn : Node p d (Tree p d) idx S C)
include hn

omit hr in
theorem Node.live_of_mem (hi : i < 256) (hj : j ∈ C i) : p.Live j := by
  have ht : Tree p (d + 1) idx S := ⟨C, hn⟩
  exact ht.live ((hn.mem j).mpr (.inr ⟨i, hi, hj⟩))

theorem Replaced.not_mem (hi' : i' < 256) (hne : i' ≠ i) (hj : j ∈ C i') : j ∉ C i ∧ j ∉ C' := by
  have hni : j ∉ C i := fun hm => hne (hn.disjoint i' i j hi' hr.lt hj hm)
  refine ⟨hni, fun hm => ?_⟩
  rcases hr.fresh j hm with hc | hd
  · exact hni hc
  · exact hd (hn.live_of_mem hi' hj)

theorem Replaced.same (hi' : i' < 256) (hne : i' ≠ i) (j : Nat) (hj : j ∈ C i') :
    p'.Live j ∧ p'.eltAt j = p.eltAt j := by
  have hni := (hr.not_mem hn hi' hne hj).1
  have hl := hn.live_of_mem hi' hj
  have hidx : j ≠ idx := fun he => hn.not_self i' hi' (he ▸ hj)
  exact ⟨(hr.live j).mpr (.inl ⟨hl, hni⟩), hr.frame j hl hidx hni⟩

theorem Replaced.idx_not_mem : idx ∉ C' := by
  intro hm
  rcases hr.fresh idx hm with hc | hd
  · exact hn.not_self i hr.lt hc
  · exact hd hn.live

theorem Replaced.node :
    Node p' d (Tree p' d) idx (fun j => j = idx ∨ ∃ i', i' < 256 ∧ j ∈ update C i C' i')
      (update C i C') := by
  have hupd (i' j : Nat) (hj : j ∈ update C i C' i') :
      i' = i ∧ j ∈ C' ∨ i' ≠ i ∧ j ∈ C i' := by
    by_cases he : i' = i
    · subst he
      rw [update_self] at hj
      exact .inl ⟨rfl, hj⟩
    · rw [update_of_ne he] at hj
      exact .inr ⟨he, hj⟩
  constructor
  case live => exact (hr.live idx).mpr (.inl ⟨hn.live, hn.not_self i hr.lt⟩)
  case count =>
    rw [hr.elt]
    simp only [Ply.assign]
    rw [nonEmptyLeaves_update _ hr.lt, hn.count, hr.count]
  case mem => exact fun j => .rfl
  case not_self =>
    intro i' hi' hm
    rcases hupd i' idx hm with ⟨_, hm⟩ | ⟨_, hm⟩
    · exact hr.idx_not_mem hn hm
    · exact hn.not_self i' hi' hm
  case disjoint =>
    intro i₁ i₂ j h₁ h₂ hj₁ hj₂
    rcases hupd i₁ j hj₁ with ⟨he₁, hm₁⟩ | ⟨he₁, hm₁⟩
    · rcases hupd i₂ j hj₂ with ⟨he₂, _⟩ | ⟨he₂, hm₂⟩
      · exact he₁.trans he₂.symm
      · exact absurd hm₁ (hr.not_mem hn h₂ he₂ hm₂).2
    · rcases hupd i₂ j hj₂ with ⟨he₂, hm₂⟩ | ⟨he₂, hm₂⟩
      · exact absurd hm₂ (hr.not_mem hn h₁ he₁ hm₁).2
      · exact hn.disjoint i₁ i₂ j h₁ h₂ hm₁ hm₂
  case terminal =>
    intro i' hi' hl
    by_cases he : i' = i
    · subst he
      rw [update_self, hr.bits_self]
      exact hr.terminal (hr.leaf_self ▸ hl)
    · rw [hr.leaf_ne he] at hl
      rw [update_of_ne he, hr.bits_ne he]
      exact hn.terminal i' hi' hl
  case empty =>
    intro i' hi' hl
    by_cases he : i' = i
    · subst he
      rw [hr.bits_self]
      exact hr.empty (hr.leaf_self ▸ hl)
    · rw [hr.leaf_ne he] at hl
      rw [hr.bits_ne he]
      exact hn.empty i' hi' hl
  case next =>
    intro i' hi' hl
    by_cases he : i' = i
    · subst he
      rw [hr.leaf_self] at hl
      rw [update_self, hr.bits_self, hr.leaf_self]
      exact hr.next hl
    · rw [hr.leaf_ne he] at hl
      rw [update_of_ne he, hr.bits_ne he, hr.leaf_ne he]
      obtain ⟨hb, ht⟩ := hn.next i' hi' hl
      exact ⟨hb, (ht.frame (hr.same hn hi' he)).1⟩

theorem Replaced.live_iff (j : Nat) : p'.Live j ↔ p.Live j ∧ j ∉ S ∨
    (j = idx ∨ ∃ i', i' < 256 ∧ j ∈ update C i C' i') := by
  rw [hr.live, hn.mem]
  constructor
  · rintro (⟨hl, hni⟩ | hm)
    · by_cases hs : j = idx ∨ ∃ i', i' < 256 ∧ j ∈ C i'
      · rcases hs with he | ⟨i', hi', hj⟩
        · exact .inr (.inl he)
        · have hne : i' ≠ i := fun he => hni (he ▸ hj)
          exact .inr (.inr ⟨i', hi', by rwa [update_of_ne hne]⟩)
      · exact .inl ⟨hl, hs⟩
    · exact .inr (.inr ⟨i, hr.lt, by rwa [update_self]⟩)
  · rintro (⟨hl, hs⟩ | rfl | ⟨i', hi', hj⟩)
    · exact .inl ⟨hl, fun hm => hs (.inr ⟨i, hr.lt, hm⟩)⟩
    · exact .inl ⟨hn.live, hn.not_self i hr.lt⟩
    · by_cases he : i' = i
      · subst he
        rw [update_self] at hj
        exact .inr hj
      · rw [update_of_ne he] at hj
        exact .inl ⟨hn.live_of_mem hi' hj, (hr.not_mem hn hi' he hj).1⟩

theorem Replaced.find_ne (hb : b < 256) (hne : b ≠ i) (hbs : Bytes d bs) :
    find p' idx (b :: bs) = find p idx (b :: bs) := by
  simp only [find, hr.leaf_ne hne, hr.bits_ne hne]
  split
  · rfl
  · next hl =>
    obtain ⟨_, ht⟩ := hn.next b hb (Bool.not_eq_true _ ▸ hl)
    exact (ht.frame (hr.same hn hb hne)).2 bs hbs

theorem Replaced.effect
    (hfind : ∀ bs, Bytes d bs → find p' idx (i :: bs) = F bs (find p idx (i :: bs))) :
    ∃ S', Effect p p' (d + 1) idx S S' (below [i] F) := by
  refine ⟨_, ⟨_, hr.node hn⟩, ?_, ?_, ?_, ?_⟩
  · exact hr.live_iff hn
  · intro j hl hj
    rw [hn.mem, not_or] at hj
    exact hr.frame j hl hj.1 fun hm => hj.2 ⟨i, hr.lt, hm⟩
  · rintro j (rfl | ⟨i', hi', hm⟩)
    · exact .inl ((hn.mem j).mpr (.inl rfl))
    · by_cases he : i' = i
      · subst he
        rw [update_self] at hm
        rcases hr.fresh j hm with hc | hd
        · exact .inl ((hn.mem j).mpr (.inr ⟨i', hi', hc⟩))
        · exact .inr hd
      · rw [update_of_ne he] at hm
        exact .inl ((hn.mem j).mpr (.inr ⟨i', hi', hm⟩))
  · intro bs hbs
    cases bs with
    | nil => exact absurd hbs.1 (by simp)
    | cons b bs =>
      by_cases he : b = i
      · subst he
        simp only [below, List.mem_singleton, if_true]
        exact hfind bs hbs.tail
      · simp only [below, List.mem_singleton, he, if_false]
        exact hr.find_ne hn (hbs.2 b (.head _)) he hbs.tail

end Replaced

theorem Node.assign (hn : Node p d (Tree p d) idx S C) (hi : i < 256)
    (hold : leafIsTerminal ((p.eltAt idx).leaves i) = true) (hnew : leafIsTerminal leaf = true)
    (hbits : bits ≤ 8 * (4 - d)) (hempty : leaf = leafEmpty → bits = 0)
    (hcount : n = (if leaf = leafEmpty then 0 else 1) -
      if (p.eltAt idx).leaves i = leafEmpty then 0 else 1) :
    ∃ S', Effect p (p.modify idx fun q => q.assign i leaf bits n) (d + 1) idx S S'
      (below [i] fun _ _ => (leaf, bits)) := by
  have hC := (hn.terminal i hi hold).1
  have hr : Replaced p (p.modify idx fun q => q.assign i leaf bits n) d idx i C ∅ leaf bits n := by
    constructor
    case lt => exact hi
    case elt => exact Pool.eltAt_modify_self hn.live
    case count => exact hcount
    case live => simp [hC]
    case frame => exact fun j _ hne _ => Pool.eltAt_modify_ne hne
    case fresh => exact fun j hj => hj.elim
    case terminal => exact fun _ => ⟨rfl, hbits⟩
    case empty => exact hempty
    case next => exact fun hl => absurd (hnew.symm.trans hl) (by decide)
  apply hr.effect hn
  intro bs _
  simp only [Mtrie.find, hr.leaf_self, hr.bits_self, hnew, if_true]

theorem Node.lift (hn : Node p d (Tree p d) idx S C) (hi : i < 256)
    (hl : leafIsTerminal ((p.eltAt idx).leaves i) = false)
    (he : Effect p p' d (leafGetNextPlyIndex ((p.eltAt idx).leaves i)) (C i) C' F) :
    ∃ S', Effect p p' (d + 1) idx S S' (below [i] F) := by
  have helt : p'.eltAt idx = p.eltAt idx := he.frame idx hn.live (hn.not_self i hi)
  have hr : Replaced p p' d idx i C C' ((p.eltAt idx).leaves i)
      ((p.eltAt idx).dstAddressBitsOfLeaves i) 0 := by
    constructor
    case lt => exact hi
    case elt =>
      rw [helt]
      simp only [Ply.assign, update_eq_self, Int.add_zero]
    case count => exact (Int.sub_self _).symm
    case live => exact he.live
    case frame => exact fun j hl _ hj => he.frame j hl hj
    case fresh => exact he.fresh
    case terminal => exact fun ht => absurd (ht.symm.trans hl) (by decide)
    case empty => exact hn.empty i hi
    case next => exact fun _ => ⟨(hn.next i hi hl).1, he.tree⟩
  apply hr.effect hn
  intro bs hbs
  simp only [Mtrie.find, hr.leaf_self, hl, Bool.false_eq_true, if_false]
  exact he.find bs hbs

/-- A loop over leaves, each step of which acts below its own leaf. -/
theorem foldl_effect {step : Pool Ply → Nat → Pool Ply} {is : List Nat}
    (hstep : ∀ p S i, i ∈ is → Tree p (d + 1) idx S →
      ∃ S', Effect p (step p i) (d + 1) idx S S' (below [i] F))
    (hnd : is.Nodup) (ht : Tree p (d + 1) idx S) :
    ∃ S', Effect p (is.foldl step p) (d + 1) idx S S' (below is F) := by
  induction is generalizing p S with
  | nil =>
    refine ⟨S, (Effect.refl ht).congr ?_⟩
    intro bs _
    cases bs with
    | nil => rfl
    | cons b bs => simp [below]
  | cons i is ih =>
    obtain ⟨hni, hnd'⟩ := List.nodup_cons.mp hnd
    obtain ⟨S₁, h₁⟩ := hstep p S i (.head _) ht
    obtain ⟨S₂, h₂⟩ := ih (fun p S i' hm => hstep p S i' (.tail _ hm)) hnd' h₁.tree
    refine ⟨S₂, (h₁.trans h₂).congr ?_⟩
    intro bs _
    cases bs with
    | nil => rfl
    | cons b bs =>
      by_cases hb : b = i
      · subst hb
        simp [below, hni]
      · simp [below, hb]

end Vpp.Mtrie
