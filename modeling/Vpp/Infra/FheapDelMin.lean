import Mathlib.Data.List.ReduceOption
import Vpp.Infra.FheapForest
import Vpp.Lib.EndedList

namespace Vpp.Infra
open Vpp.Lib Function List

variable {f f' : Fheap} {d lim o : Option Nat} {H : Nat → Prop} {kids : Option Nat → List Nat} {i j n p r c x m : Nat}
  {rest us ps cs rs : List Nat}

/-- The roots `us` wait, and each root of `ps` has a slot, but for those of `out`. -/
structure Linking (f : Fheap) (d : Option Nat) (H : Nat → Prop) (us ps out : List Nat) : Prop where
  shape : ∃ kids, Shape f d none H kids ∧ kids none = us ++ ps
  ordered : Ordered f d H
  root : ∀ i ∈ ps, (f.nodes i).parent = none ∧ some i ≠ d
  slots : (out ++ f.rootListByRank.reduceOption).Perm ps

theorem reduceOption_set {l : List (Option Nat)} (hk : k < l.length) (hl : l.getD k none = none) (i : Nat) :
    (l.set k (some i)).reduceOption.Perm (i :: l.reduceOption) := by
  induction l generalizing k with
  | nil => exact absurd hk (Nat.not_lt_zero k)
  | cons a l ih =>
    cases k with
    | zero =>
      obtain rfl : a = none := hl
      rfl
    | succ k =>
      have hrest := ih (Nat.lt_of_succ_lt_succ hk) hl
      cases a with
      | none => exact hrest
      | some a => exact (hrest.cons a).trans (.swap i a _)

theorem reduceOption_clear {l : List (Option Nat)} (hl : l.getD k none = some i) :
    l.reduceOption.Perm (i :: (l.set k none).reduceOption) := by
  induction l generalizing k with
  | nil => exact nomatch hl
  | cons a l ih =>
    cases k with
    | zero =>
      obtain rfl : a = some i := hl
      rfl
    | succ k =>
      have hrest := ih (k := k) hl
      cases a with
      | none => exact hrest
      | some a => exact (hrest.cons a).trans (.swap i a _)

theorem reduceOption_pad (l : List (Option Nat)) (k : Nat) :
    (l ++ List.replicate k none).reduceOption = l.reduceOption := by
  induction k with
  | zero => rw [List.replicate_zero, append_nil]
  | succ k ih =>
    rw [List.replicate_succ', ← List.append_assoc, reduceOption_append, ih]
    exact append_nil _

/-- One link: of the two roots without a slot, one is left. -/
theorem Linking.link {lo hi : Nat} (h : Linking f d H us ps [lo, hi]) (hkey : (f.nodes lo).key ≤ (f.nodes hi).key) :
    ∃ ps', Linking (linkTo f lo hi) d H us ps' [lo] ∧ (∀ x ∈ ps', x ∈ ps) ∧ Kept f (linkTo f lo hi) := by
  obtain ⟨kids, hs, hk⟩ := h.shape
  have hhi : hi ∈ ps := h.slots.subset (mem_cons_of_mem lo mem_cons_self)
  have hlo : lo ∈ ps := h.slots.subset mem_cons_self
  have hnd : (us ++ ps).Nodup := hk ▸ (hs.circle none).nodup
  have hndp : ps.Nodup := (nodup_append.mp hnd).2.1
  have hne : lo ≠ hi := by
    rintro rfl
    have hdup := h.slots.nodup_iff.mpr hndp
    exact (nodup_cons.mp hdup).1 mem_cons_self
  obtain ⟨xs, ys, rfl⟩ := append_of_mem hhi
  have hcirc := hs.circle none
  have heq : us ++ (xs ++ hi :: ys) = (us ++ xs) ++ hi :: ys := (List.append_assoc ..).symm
  rw [hk, heq] at hcirc
  have hperm : (hi :: (ys ++ (us ++ xs))).Perm (kids none) := by
    rw [hk, heq]
    exact (perm_append_comm.cons hi).trans perm_middle.symm
  have hrot := hs.reorder hcirc.rotate hperm
  have hlorest : lo ∈ ys ++ (us ++ xs) := by
    have hlo' := (mem_append.mp hlo).imp_right fun hm => mem_of_ne_of_mem hne hm
    simp only [mem_append]
    tauto
  obtain ⟨kids', hs', hk', hkept, hparent⟩ := hrot.link (update_self ..) hlorest (h.root hi hhi).1 (h.root lo hlo).2
  have hcirc' := hs'.circle none
  rw [hk'] at hcirc'
  have hback := hs'.reorder (o := none) hcirc'.swap (by rw [hk']; exact perm_append_comm)
  have hpar : f.par d lo = none := par_of_parent (h.root lo hlo).1
  refine ⟨xs ++ ys, ⟨⟨_, hback, ?_⟩, h.ordered.link hpar hne hkey (h.root lo hlo).2 hparent hkept.key, ?_, ?_⟩,
      ?_, hkept⟩
  · rw [update_self, List.append_assoc]
  · intro i hi'
    have hm : i ∈ xs ++ hi :: ys := by
      simp only [mem_append, mem_cons] at hi' ⊢
      tauto
    have hih : i ≠ hi := by
      rintro rfl
      exact (nodup_middle.mp hndp |> nodup_cons.mp).1 hi'
    rw [hparent, if_neg hih]
    exact h.root i hm
  · rw [hkept.ranks]
    have hslots : (hi :: ([lo] ++ f.rootListByRank.reduceOption)).Perm (hi :: (xs ++ ys)) :=
      (List.Perm.swap lo hi _).trans (h.slots.trans perm_middle)
    exact hslots.cons_inv
  · intro x hx
    simp only [mem_append, mem_cons] at hx ⊢
    tauto

theorem Linking.setRanks (h : Linking f d H us ps cs) {ranks : List (Option Nat)}
    (hp : (rs ++ ranks.reduceOption).Perm ps) : Linking { f with rootListByRank := ranks } d H us ps rs := by
  obtain ⟨kids, hs, hk⟩ := h.shape
  exact ⟨⟨kids, hs.setMain f.minRoot ranks, hk⟩, h.ordered, h.root, hp⟩

/-- Links go on until there is a slot without a root. Every link frees one. -/
theorem Linking.linkRoot {fuel : Nat} (h : Linking f d H us ps [i])
    (hfuel : f.rootListByRank.reduceOption.length < fuel) :
    ∃ ps', Linking (fheapLinkRoot fuel f i) d H us ps' [] ∧ (∀ x ∈ ps', x ∈ ps) ∧
      ∀ x, ((fheapLinkRoot fuel f i).nodes x).key = (f.nodes x).key := by
  induction fuel generalizing f i ps with
  | zero => exact absurd hfuel (Nat.not_lt_zero _)
  | succ fuel ih =>
    unfold fheapLinkRoot
    dsimp only
    have hlen : (f.nodes i).rank <
        (f.rootListByRank ++ List.replicate ((f.nodes i).rank + 1 - f.rootListByRank.length) none).length := by
      rw [length_append, length_replicate]
      omega
    have hpad := reduceOption_pad f.rootListByRank ((f.nodes i).rank + 1 - f.rootListByRank.length)
    generalize f.rootListByRank ++ List.replicate ((f.nodes i).rank + 1 - f.rootListByRank.length) none = ranks at *
    cases hslot : ranks.getD (f.nodes i).rank none with
    | none =>
      refine ⟨ps, h.setRanks ?_, fun _ => id, fun _ => rfl⟩
      have hset := reduceOption_set hlen hslot i
      rw [hpad] at hset
      exact hset.trans h.slots
    | some j =>
      have hclear := reduceOption_clear hslot
      rw [hpad] at hclear
      have hcount := hclear.length_eq
      have hperm : ([i, j] ++ (ranks.set (f.nodes i).rank none).reduceOption).Perm ps :=
        (hclear.symm.cons i).trans h.slots
      have hfuel' : (ranks.set (f.nodes i).rank none).reduceOption.length < fuel := by
        rw [length_cons] at hcount
        omega
      dsimp only
      split
      · next hlt =>
        obtain ⟨ps1, hlink, hsub, hkept⟩ := (h.setRanks hperm).link (BitVec.le_of_lt hlt)
        obtain ⟨ps2, hrest, hsub2, hkey⟩ := ih hlink (hkept.ranks ▸ hfuel')
        exact ⟨ps2, hrest, fun x hx => hsub x (hsub2 x hx), fun x => (hkey x).trans (hkept.key x)⟩
      · next hge =>
        have hswap : ([j, i] ++ (ranks.set (f.nodes i).rank none).reduceOption).Perm ps :=
          (List.Perm.swap i j _).trans hperm
        obtain ⟨ps1, hlink, hsub, hkept⟩ := (h.setRanks hswap).link (BitVec.not_lt.mp hge)
        obtain ⟨ps2, hrest, hsub2, hkey⟩ := ih hlink (hkept.ranks ▸ hfuel')
        exact ⟨ps2, hrest, fun x hx => hsub x (hsub2 x hx), fun x => (hkey x).trans (hkept.key x)⟩

theorem Linking.setParent (h : Linking f d H (i :: us) ps []) (hd : some i ≠ d) :
    Linking (f.modify i fun x => { x with parent := none }) d H us (ps ++ [i]) [i] := by
  obtain ⟨kids, hs, hk⟩ := h.shape
  have him : i ∈ kids none := by
    rw [hk]
    exact mem_cons_self
  have hroot := ((hs.mem none i).mp him).2.2
  have hs' := hs.setRoot hroot
  have hcirc : (f.modify i fun x => { x with parent := none }).links.Circle ([i] ++ (us ++ ps)) := by
    have hcirc := hs'.circle none
    rw [hk] at hcirc
    exact hcirc
  have hback := hs'.reorder (o := none) hcirc.swap (by rw [hk]; exact perm_append_comm)
  refine ⟨⟨_, hback, ?_⟩, ?_, ?_, ?_⟩
  · rw [update_self, List.append_assoc]
  · refine h.ordered.mono (fun _ => id) ?_ ?_
    · intro x p hx hp
      rw [proj_modify (p := FheapNode.key)]
      · refine ⟨?_, rfl⟩
        unfold Fheap.par at hp
        rw [nodes_modify] at hp
        split at hp
        · rw [ite_self] at hp
          exact nomatch hp
        · exact hp
      · exact fun _ => rfl
    · intro x
      rw [proj_modify (p := FheapNode.key)]
      · exact BitVec.le_refl _
      · exact fun _ => rfl
  · intro x hx
    rw [nodes_modify]
    rcases mem_append.mp hx with hx | hx
    · split
      · next he => exact ⟨rfl, he ▸ hd⟩
      · exact h.root x hx
    · obtain rfl := mem_singleton.mp hx
      rw [if_pos rfl]
      exact ⟨rfl, hd⟩
  · exact (h.slots.cons i).trans (perm_append_singleton i ps).symm

theorem next_of_circle (hl : f.links.Circle (i :: j :: rest)) : (f.nodes i).nextSibling = some j := by
  have hnext : (f.nodes i).nextSibling.getD i = j := hl.next_eq
  cases hn : (f.nodes i).nextSibling with
  | none =>
    rw [hn] at hnext
    exact absurd (hnext ▸ mem_cons_self) (nodup_cons.mp hl.nodup).1
  | some y =>
    rw [hn] at hnext
    exact congrArg some hnext

/-- All roots of the list are linked, the last of them at the end. -/
theorem Linking.linkRoots {fuel last : Nat} (h : Linking f d H (i :: us) ps []) (hd : ∀ x ∈ i :: us, some x ≠ d)
    (hlast : (i :: us).getLast? = some last) (hfuel : us.length < fuel) :
    ∃ ps', Linking (linkRoots last fuel f i) d H [] ps' [] ∧ (∀ x ∈ ps', x ∈ i :: us ∨ x ∈ ps) ∧
      ∀ x, ((linkRoots last fuel f i).nodes x).key = (f.nodes x).key := by
  induction fuel generalizing f i us ps with
  | zero => exact absurd hfuel (Nat.not_lt_zero _)
  | succ fuel ih =>
    obtain ⟨kids, hs, hk⟩ := h.shape
    have hnd : (i :: us).Nodup := (nodup_append.mp (hk ▸ (hs.circle none).nodup)).1
    have hfirst := h.setParent (hd i mem_cons_self)
    obtain ⟨ps1, hone, hsub, hkey⟩ := hfirst.linkRoot
      (Nat.lt_succ_of_le (reduceOption_length_le (f.modify i fun x => { x with parent := none }).rootListByRank))
    have hkey1 (x : Nat) := (hkey x).trans (proj_modify (p := FheapNode.key) (g := fun x => { x with parent := none })
      (fun _ => rfl) f i x)
    have hsub1 (x : Nat) (hx : x ∈ ps1) : x = i ∨ x ∈ ps := by
      have hm := hsub x hx
      rw [mem_append, mem_singleton] at hm
      exact hm.symm
    unfold Infra.linkRoots
    dsimp only
    cases us with
    | nil =>
      rw [getLast?_singleton] at hlast
      rw [if_pos (Option.some.inj hlast)]
      exact ⟨ps1, hone, fun x hx => (hsub1 x hx).imp_left fun he : x = i => he ▸ mem_cons_self, hkey1⟩
    | cons j us =>
      rw [getLast?_cons_cons] at hlast
      have hne : i ≠ last := fun he => (nodup_cons.mp hnd).1 (he ▸ mem_of_getLast? hlast)
      have hnext : ((f.modify i fun x => { x with parent := none }).nodes i).nextSibling = some j := by
        have hcirc := hs.circle none
        rw [hk] at hcirc
        rw [nodes_modify, if_pos rfl]
        exact next_of_circle hcirc
      rw [if_neg hne, hnext]
      obtain ⟨ps2, hall, hsub2, hkey2⟩ := ih hone (fun x hx => hd x (mem_cons_of_mem i hx)) hlast
        (Nat.lt_of_succ_lt_succ hfuel)
      refine ⟨ps2, hall, ?_, fun x => (hkey2 x).trans (hkey1 x)⟩
      intro x hx
      rcases hsub2 x hx with hx | hx
      · exact .inl (mem_cons_of_mem i hx)
      · exact (hsub1 x hx).imp_left fun he : x = i => he ▸ mem_cons_self

theorem Shape.leave (h : Shape f none none H kids) (hr : kids (some r) = []) : Shape f (some r) none H kids := by
  have hpar {x : Nat} (hx : H x) : f.par (some r) x = f.par none x := by
    rw [par_none]
    unfold Fheap.par
    split
    · next he =>
      have hm : x ∈ kids (some r) := (h.mem _ x).mpr ⟨hx, nofun, (par_none f x).trans he⟩
      rw [hr] at hm
      exact absurd hm not_mem_nil
    · rfl
  refine ⟨h.circle, ?_, ?_, fun p hp _ => h.first p hp nofun, fun p hp _ => h.rank p hp nofun, h.linked, h.bound⟩
  · intro o x
    rw [h.mem]
    exact and_congr_right fun hx => by rw [hpar hx]
  · intro x p hx
    rw [hpar hx]
    exact h.owner x p hx

theorem kept_splice {p : FheapNode → β} (hp : ∀ a next prev, p { a with
      nextSibling := next
      prevSibling := prev } = p a) (f : Fheap) (i x : Nat) : p ((spliceChildren f i).nodes x) = p (f.nodes x) := by
  unfold spliceChildren
  split
  · rfl
  · dsimp only
    rw [proj_modifyAt (p := p), proj_modifyAt (p := p), proj_modify (p := p), proj_modify (p := p)]
    · exact fun a => hp a _ a.prevSibling
    · exact fun a => hp a _ a.prevSibling
    · exact fun a => hp a a.nextSibling _
    · exact fun a => hp a a.nextSibling _

theorem nNodes_modifyAt (f : Fheap) (o : Option Nat) (g : FheapNode → FheapNode) :
    (f.modifyAt o g).nNodes = f.nNodes := by
  cases o <;> rfl

theorem nNodes_splice (f : Fheap) (i : Nat) : (spliceChildren f i).nNodes = f.nNodes := by
  unfold spliceChildren
  split
  · rfl
  · dsimp only
    rw [nNodes_modifyAt, nNodes_modifyAt]
    rfl

theorem ranks_modifyAt (f : Fheap) (o : Option Nat) (g : FheapNode → FheapNode) :
    (f.modifyAt o g).rootListByRank = f.rootListByRank := by
  cases o <;> rfl

theorem ranks_splice (f : Fheap) (i : Nat) : (spliceChildren f i).rootListByRank = f.rootListByRank := by
  unfold spliceChildren
  split
  · rfl
  · dsimp only
    rw [ranks_modifyAt, ranks_modifyAt]
    rfl

theorem links_splice (hc : (f.nodes r).firstChild = some c) (hlr : f.Linked r) (hlc : f.Linked c) :
    (spliceChildren f r).links = f.links.join r c := by
  obtain ⟨y, hy⟩ := Option.ne_none_iff_exists'.mp hlr.1
  obtain ⟨z, hz⟩ := Option.ne_none_iff_exists'.mp hlc.1
  have hny : f.links.next r = y := congrArg (Option.getD · r) hy
  have hnz : f.links.next c = z := congrArg (Option.getD · c) hz
  unfold spliceChildren Links.join
  rw [hc]
  dsimp only
  rw [hy, hz, hny, hnz, modifyAt_some, modifyAt_some, links_setPrev (y := c), links_setPrev (y := r),
    links_setNext (y := y), links_setNext (y := z)]
  all_goals exact fun _ => rfl

theorem linked_splice (hc : (f.nodes r).firstChild = some c) (hlr : f.Linked r) (hlc : f.Linked c) (hx : f.Linked x) :
    (spliceChildren f r).Linked x := by
  unfold spliceChildren
  rw [hc]
  dsimp only
  apply linked_modifyAt
  · exact fun _ => id
  · exact nofun
  · apply linked_modifyAt
    · exact fun _ => id
    · exact nofun
    · apply linked_modify
      · exact fun _ hn => absurd hn hlr.1
      · exact fun _ => id
      · apply linked_modify
        · exact fun _ hn => absurd hn hlc.1
        · exact fun _ => id
        · exact hx

theorem Shape.splice (h : Shape f none none H kids) (hr : kids none = r :: rs) :
    ∃ kids' rest, Shape (spliceChildren f r) (some r) none H kids' ∧ kids' none = r :: rest ∧ kids' (some r) = [] := by
  have hHr : H r := ((h.mem none r).mp (hr ▸ mem_cons_self)).1
  rcases h.first r hHr nofun with ⟨hc, hk⟩ | ⟨c, hcm, hc⟩
  · have hsame : spliceChildren f r = f := by
      unfold spliceChildren
      rw [hc]
    rw [hsame]
    exact ⟨kids, rs, h.leave hk, hr, hk⟩
  · obtain ⟨hHc, -, hpc⟩ := (h.mem _ c).mp hcm
    have hrc : r ≠ c := by
      rintro rfl
      have hrm : r ∈ kids none := hr ▸ mem_cons_self
      exact nomatch h.owner_unique hcm hrm
    have hall (x : Nat) (hx : H x) : f.Linked x := by
      by_cases hxr : x = r
      · exact hxr ▸ h.linked_of_ne hHr hHc hrc
      · exact h.linked_of_ne hx hHr hxr
    have hlinks := links_splice hc (hall r hHr) (hall c hHc)
    obtain ⟨cs, hcirc, hperm⟩ := h.enter hcm
    have hrcirc : f.links.Circle (r :: rs) := hr ▸ h.circle none
    have hdisj (x : Nat) (hx : x ∈ r :: rs) (hx' : x ∈ c :: cs) : False :=
      nomatch h.owner_unique (hr ▸ hx : x ∈ kids none) (hperm.subset hx')
    have hfields {β : Type} {p : FheapNode → β} (hp : ∀ a next prev, p { a with
        nextSibling := next
        prevSibling := prev } = p a) := kept_splice hp f r
    have hpar (x : Nat) : (spliceChildren f r).par (some r) x = f.par (some r) x := by
      unfold Fheap.par
      rw [hfields (p := FheapNode.parent) fun _ _ _ => rfl]
    have hmem (o : Option Nat) (x : Nat) :
        x ∈ update (update kids (some r) []) none (r :: (cs ++ c :: rs)) o ↔
          x ∈ kids o ∧ o ≠ some r ∨ o = none ∧ x ∈ kids (some r) := by
      by_cases ho : o = none
      · have hx := hperm.mem_iff (a := x)
        rw [mem_cons] at hx
        rw [ho, update_self, hr, ← hx]
        simp only [mem_cons, mem_append]
        simp
        tauto
      · rw [update_of_ne ho, update_apply]
        split
        · next he => simp [he]
        · next he => simp [he, ho]
    refine ⟨update (update kids (some r) []) none (r :: (cs ++ c :: rs)), cs ++ c :: rs, ?_,
      update_self .., ?_⟩
    · constructor
      case circle =>
        intro o
        rw [hlinks, update_apply]
        split
        · exact hrcirc.join hcirc hdisj
        · next ho =>
          rw [update_apply]
          split
          · trivial
          · next hor =>
            apply (h.circle o).congr
            intro x hx
            apply Links.join_eq hrcirc hcirc
            · exact fun hm => ho (h.owner_unique hx (hr ▸ hm))
            · exact fun hm => hor (h.owner_unique hx (hperm.subset hm))
      case mem =>
        intro o x
        rw [hmem, hpar, h.mem, h.mem, par_none]
        unfold Fheap.par
        split
        · next he =>
          rw [he]
          simp
          tauto
        · next he =>
          simp [he]
          rintro - rfl
          exact he
      case owner =>
        intro x p hx hp
        rw [hpar] at hp
        exact h.owner x p hx ((par_none f x).trans (parent_of_par hp))
      case first =>
        intro p hp hpr
        rw [hfields (p := FheapNode.firstChild) fun _ _ _ => rfl, update_of_ne (by simp), update_of_ne hpr]
        exact h.first p hp nofun
      case rank =>
        intro p hp hpr
        rw [hfields (p := FheapNode.rank) fun _ _ _ => rfl, update_of_ne (by simp), update_of_ne hpr]
        exact h.rank p hp nofun
      case linked =>
        exact fun x hx _ => .inl (linked_splice hc (hall r hHr) (hall c hHc) (hall x hx))
      case bound =>
        intro x hx
        rw [nNodes_splice]
        exact h.bound x hx
    · rw [update_of_ne (by simp), update_self]

theorem pickMin_spec (nodes : Nat → FheapNode) (slots : List (Option Nat)) (root : Option Nat) (ds : BitVec 32) :
    pickMin nodes slots root ds = root ∧ (∀ i ∈ slots.reduceOption, ds ≤ (nodes i).key) ∨
      ∃ m ∈ slots.reduceOption, pickMin nodes slots root ds = some m ∧ (nodes m).key < ds ∧
        ∀ i ∈ slots.reduceOption, (nodes m).key ≤ (nodes i).key := by
  induction slots generalizing root ds with
  | nil => exact .inl ⟨rfl, nofun⟩
  | cons a slots ih =>
    cases a with
    | none => exact ih root ds
    | some i =>
      unfold pickMin
      split
      · next hlt =>
        right
        rcases ih (some i) (nodes i).key with ⟨he, hall⟩ | ⟨m, hm, he, hmi, hall⟩
        · exact ⟨i, mem_cons_self, he, hlt, forall_mem_cons.mpr ⟨BitVec.le_refl _, hall⟩⟩
        · exact ⟨m, mem_cons_of_mem i hm, he, BitVec.lt_trans hmi hlt,
            forall_mem_cons.mpr ⟨BitVec.le_of_lt hmi, hall⟩⟩
      · next hge =>
        rcases ih root ds with ⟨he, hall⟩ | ⟨m, hm, he, hmd, hall⟩
        · exact .inl ⟨he, forall_mem_cons.mpr ⟨BitVec.not_lt.mp hge, hall⟩⟩
        · refine .inr ⟨m, mem_cons_of_mem i hm, he, hmd, forall_mem_cons.mpr ⟨?_, hall⟩⟩
          exact BitVec.le_trans (BitVec.le_of_lt hmd) (BitVec.not_lt.mp hge)

/-- A heap of the nodes `H`. -/
structure Forest (f : Fheap) (H : Nat → Prop) : Prop where
  shape : ∃ kids, Shape f none none H kids
  ordered : Ordered f none H
  root : ∀ r, f.minRoot = some r → H r ∧ (f.nodes r).parent = none
  min : ∀ i, H i → ∃ r, f.minRoot = some r ∧ (f.nodes r).key ≤ (f.nodes i).key
  slots : f.rootListByRank.reduceOption = []

theorem reduceOption_map_none (l : List (Option Nat)) :
    (l.map fun _ => (none : Option Nat)).reduceOption = [] := by
  induction l with
  | nil => rfl
  | cons a l ih => exact ih

theorem Linking.newMinRoot (h : Linking f (some r) H [] ps []) (hr : ¬ H r) (hi : H i) (hkey : (f.nodes i).key ≠ -1) :
    Forest (newMinRoot f) H := by
  obtain ⟨kids, hs, hk⟩ := h.shape
  have hroots : ∀ x ∈ kids none, (f.nodes x).parent = none := by
    rw [hk]
    exact fun x hx => (h.root x hx).1
  have hslots {x : Nat} : x ∈ f.rootListByRank.reduceOption ↔ x ∈ kids none := by
    rw [hk]
    exact h.slots.mem_iff
  have hset := (hs.settle hroots hr).setMain (Infra.newMinRoot f).minRoot (Infra.newMinRoot f).rootListByRank
  have hord : Ordered (Infra.newMinRoot f) none H := by
    obtain ⟨w, hw⟩ := h.ordered
    exact ⟨w, fun x p hx hp => hw x p hx ((hs.par_settled hroots hx).symm.trans hp)⟩
  obtain ⟨m, hm, he, hall⟩ : ∃ m ∈ kids none, (Infra.newMinRoot f).minRoot = some m ∧
      ∀ x ∈ kids none, (f.nodes m).key ≤ (f.nodes x).key := by
    rcases pickMin_spec f.nodes f.rootListByRank none (-1) with ⟨-, hall⟩ | ⟨m, hm, he, -, hall⟩
    · obtain ⟨x, hx, hle⟩ := hs.root_le h.ordered hi
      have htop := BitVec.le_trans (hall x (hslots.mpr hx)) hle
      exact absurd (BitVec.allOnes_le_iff.mp htop) hkey
    · exact ⟨m, hslots.mp hm, he, fun x hx => hall x (hslots.mpr hx)⟩
  refine ⟨⟨kids, hset⟩, hord, ?_, ?_, reduceOption_map_none f.rootListByRank⟩
  · intro x hx
    obtain rfl := Option.some.inj (hx.symm.trans he)
    exact ⟨((hs.mem none x).mp hm).1, hroots x hm⟩
  · intro x hx
    obtain ⟨y, hy, hle⟩ := hs.root_le h.ordered hx
    exact ⟨m, he, BitVec.le_trans (hall y hy) hle⟩

/-- The minimum goes. Where the rest is not all of the largest key, it has a minimum of its own. -/
theorem Forest.delMin (h : Forest f H) (hr : f.minRoot = some r) :
    (fheapDelMin f).2 = some (r, (f.nodes r).key) ∧ (∀ x, ((fheapDelMin f).1.nodes x).key = (f.nodes x).key) ∧
      ((∀ i, H i → i = r) ∨ (∃ i, H i ∧ i ≠ r ∧ (f.nodes i).key ≠ -1) →
        Forest (fheapDelMin f).1 fun x => H x ∧ x ≠ r) := by
  obtain ⟨kids, hs⟩ := h.shape
  obtain ⟨hHr, hpr⟩ := h.root r hr
  have hrm : r ∈ kids none := (hs.mem none r).mpr ⟨hHr, nofun, (par_none f r).trans hpr⟩
  obtain ⟨rs, hcirc, hperm⟩ := hs.enter hrm
  obtain ⟨kids', rest, hsplice, hk, hkr⟩ := (hs.reorder hcirc hperm).splice (update_self ..)
  have hkey0 := kept_splice (p := FheapNode.key) (fun _ _ _ => rfl) f r
  have hparent0 := kept_splice (p := FheapNode.parent) (fun _ _ _ => rfl) f r
  obtain ⟨hrem, hnext, -⟩ := hsplice.remove hk ((hparent0 r).trans hpr) true
  have hdrop := hrem.drop (by rw [update_of_ne (by simp), hkr])
  have hkept := remove_kept (spliceChildren f r) r true
  have hparent := parent_remove (spliceChildren f r) r true
  unfold fheapDelMin fheapNodeRemoveAndInvalidate
  rw [hr]
  dsimp only
  rw [hnext]
  generalize (fheapNodeRemoveInternal (spliceChildren f r) r true).1 = g at *
  have hkey (x : Nat) : (g.nodes x).key = (f.nodes x).key := (hkept.key x).trans (hkey0 x)
  have hranks : g.rootListByRank.reduceOption = [] := by
    rw [hkept.ranks, ranks_splice, h.slots]
  have hord : Ordered g (some r) fun x => H x ∧ x ≠ r := by
    refine h.ordered.mono (fun _ hx => hx.1) ?_ ?_
    · intro x p hx hp
      refine ⟨?_, hkey x⟩
      have hpar := parent_of_par hp
      rw [hparent, if_neg hx.2, hparent0] at hpar
      exact (par_none f x).trans hpar
    · intro x
      rw [hkey]
      exact BitVec.le_refl _
  cases rest with
  | nil =>
    have hnil : update kids' none [] none = [] := update_self ..
    have hempty (x : Nat) (hx : H x ∧ x ≠ r) : False := by
      obtain ⟨y, hy, -⟩ := hdrop.root_le hord hx
      rw [hnil] at hy
      exact not_mem_nil hy
    refine ⟨congrArg (fun k => some (r, k)) (hkey r), hkey, fun _ =>
      ⟨⟨_, (hdrop.settle ?_ ?_).setMain none g.rootListByRank⟩, ?_, nofun, ?_, hranks⟩⟩
    · rw [hnil]
      exact nofun
    · exact fun hx => hx.2 rfl
    · exact ⟨fun _ => 0, fun x p hx => (hempty x hx).elim⟩
    · exact fun x hx => (hempty x hx).elim
  | cons i us =>
    have hself : update kids' none (i :: us) none = i :: us := update_self ..
    have hHi : H i ∧ i ≠ r := ((hdrop.mem none i).mp (hself ▸ mem_cons_self)).1
    have hcirc' : g.links.Circle (i :: us) := hself ▸ hdrop.circle none
    have hlinking : Linking { g with minRoot := none } (some r) (fun x => H x ∧ x ≠ r) (i :: us) [] [] := by
      refine ⟨⟨_, hdrop.setMain none g.rootListByRank, ?_⟩, hord, nofun, ?_⟩
      · rw [hself, append_nil]
      · rw [nil_append]
        exact hranks ▸ List.Perm.nil
    have hd (x : Nat) (hx : x ∈ i :: us) : some x ≠ some r := fun he =>
      ((hdrop.mem none x).mp (hself ▸ hx)).1.2 (Option.some.inj he)
    have hlen : us.length < g.nNodes + 1 := by
      have hlt (x : Nat) (hx : x ∈ us) : x < g.nNodes :=
        hdrop.bound x ((hdrop.mem none x).mp (hself ▸ mem_cons_of_mem i hx)).1
      exact Nat.lt_succ_of_le (length_le_of_lt (nodup_cons.mp hcirc'.nodup).2 hlt)
    obtain ⟨ps, hall, -, hkey'⟩ := hlinking.linkRoots hd hcirc'.getLast?_eq hlen
    refine ⟨congrArg (fun k => some (r, k)) ((hkey' r).trans (hkey r)), fun x => (hkey' x).trans (hkey x), ?_⟩
    intro hrest
    obtain ⟨x, hHx, hxr, hmax⟩ := hrest.resolve_left fun hone => hHi.2 (hone i hHi.1)
    apply hall.newMinRoot (fun hx => hx.2 rfl) ⟨hHx, hxr⟩
    rw [hkey' x]
    exact fun he => hmax ((hkey x).symm.trans he)

end Vpp.Infra
