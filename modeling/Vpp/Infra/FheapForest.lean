import Mathlib.Data.Finset.Lattice.Fold
import Vpp.Infra.FheapShape

namespace Vpp.Infra
open Vpp.Lib Function List

variable {f f' : Fheap} {d lim o : Option Nat} {H : Nat → Prop} {kids : Option Nat → List Nat} {i j n p r c x m : Nat}
  {rest : List Nat}

structure Kept (f f' : Fheap) : Prop where
  minRoot : f'.minRoot = f.minRoot
  ranks : f'.rootListByRank = f.rootListByRank
  nNodes : f'.nNodes = f.nNodes
  key : ∀ i, (f'.nodes i).key = (f.nodes i).key

theorem Kept.refl (f : Fheap) : Kept f f := ⟨rfl, rfl, rfl, fun _ => rfl⟩

theorem Kept.trans {g : Fheap} (h : Kept f f') (h' : Kept f' g) : Kept f g :=
  ⟨h'.minRoot.trans h.minRoot, h'.ranks.trans h.ranks, h'.nNodes.trans h.nNodes, fun i => (h'.key i).trans (h.key i)⟩

theorem kept_modify {g : FheapNode → FheapNode} (hg : ∀ a, (g a).key = a.key) (f : Fheap) (i : Nat) :
    Kept f (f.modify i g) := ⟨rfl, rfl, rfl, proj_modify hg f i⟩

theorem addSibling_kept (f : Fheap) (i j : Nat) : Kept f (fheapNodeAddSibling f i j) := by
  refine ⟨?_, ?_, nNodes_addSibling f i j, key_addSibling f i j⟩
  all_goals
    unfold fheapNodeAddSibling Fheap.modifyAt
    dsimp only
    cases (f.nodes i).parent <;> cases (f.nodes i).nextSibling <;> rfl

theorem remove_kept (f : Fheap) (i : Nat) (b : Bool) : Kept f (fheapNodeRemoveInternal f i b).1 := by
  refine ⟨?_, ?_, nNodes_remove f i b, key_remove f i b⟩
  all_goals
    unfold fheapNodeRemoveInternal Fheap.modifyAt
    dsimp only
    cases (f.nodes i).parent <;> cases (f.nodes i).nextSibling <;> cases (f.nodes i).prevSibling <;> rfl

/-- Other fields of the nodes do not matter. -/
theorem Shape.same (h : Shape f d lim H kids) (hn : ∀ x, (f'.nodes x).nextSibling = (f.nodes x).nextSibling)
    (hp : ∀ x, (f'.nodes x).prevSibling = (f.nodes x).prevSibling) (hpar : ∀ x, f'.par d x = f.par d x)
    (hc : ∀ x, (f'.nodes x).firstChild = (f.nodes x).firstChild) (hr : ∀ x, (f'.nodes x).rank = (f.nodes x).rank)
    (hb : f'.nNodes = f.nNodes) : Shape f' d lim H kids := by
  have hlinks : f'.links = f.links := by
    unfold Fheap.links
    congr 1
    · funext x
      rw [hn]
    · funext x
      rw [hp]
  refine ⟨?_, ?_, ?_, ?_, ?_, ?_, ?_⟩
  · rw [hlinks]
    exact h.circle
  · intro o i
    rw [hpar]
    exact h.mem o i
  · intro i p hi
    rw [hpar]
    exact h.owner i p hi
  · intro p
    rw [hc]
    exact h.first p
  · intro p
    rw [hr]
    exact h.rank p
  · intro i
    unfold Fheap.Linked
    rw [hn, hp]
    exact h.linked i
  · rw [hb]
    exact h.bound

theorem par_modify {g : FheapNode → FheapNode} (hg : ∀ a, (g a).parent = a.parent) (f : Fheap) (i x : Nat) :
    (f.modify i g).par d x = f.par d x := by
  unfold Fheap.par
  rw [proj_modify hg]

theorem Shape.modify {g : FheapNode → FheapNode} (h : Shape f d lim H kids)
    (hg : ∀ a, (g a).nextSibling = a.nextSibling ∧
    (g a).prevSibling = a.prevSibling ∧ (g a).parent = a.parent ∧ (g a).firstChild = a.firstChild ∧
    (g a).rank = a.rank) (i : Nat) : Shape (f.modify i g) d lim H kids :=
  h.same (proj_modify (fun a => (hg a).1) f i) (proj_modify (fun a => (hg a).2.1) f i)
    (par_modify (fun a => (hg a).2.2.1) f i) (proj_modify (fun a => (hg a).2.2.2.1) f i)
    (proj_modify (fun a => (hg a).2.2.2.2) f i) rfl

theorem Shape.setRoot (h : Shape f d lim H kids) (hi : f.par d i = none) :
    Shape (f.modify i fun x => { x with parent := none }) d lim H kids := by
  refine h.same ?_ ?_ ?_ ?_ ?_ rfl
  · exact proj_modify (p := FheapNode.nextSibling) (g := fun x => { x with parent := none }) (fun _ => rfl) f i
  · exact proj_modify (p := FheapNode.prevSibling) (g := fun x => { x with parent := none }) (fun _ => rfl) f i
  · intro x
    by_cases hx : x = i
    · rw [hx, hi, par_of_parent]
      rw [nodes_modify, if_pos rfl]
    · unfold Fheap.par
      rw [nodes_modify, if_neg hx]
  · exact proj_modify (p := FheapNode.firstChild) (g := fun x => { x with parent := none }) (fun _ => rfl) f i
  · exact proj_modify (p := FheapNode.rank) (g := fun x => { x with parent := none }) (fun _ => rfl) f i

theorem Shape.setMain (h : Shape f d lim H kids) (root : Option Nat) (ranks : List (Option Nat)) :
    Shape { f with
      minRoot := root
      rootListByRank := ranks } d lim H kids :=
  h.same (fun _ => rfl) (fun _ => rfl) (fun _ => rfl) (fun _ => rfl) (fun _ => rfl) rfl

theorem Shape.drop (h : Shape f d (some i) H kids) (hi : kids (some i) = []) :
    Shape f d none (fun x => H x ∧ x ≠ i) kids := by
  have hmem (o : Option Nat) (x : Nat) : x ∈ kids o ↔ (H x ∧ x ≠ i) ∧ some x ≠ none ∧ f.par d x = o := by
    rw [h.mem]
    simp [and_assoc]
  refine ⟨h.circle, hmem, ?_, fun p hp => h.first p hp.1, fun p hp => h.rank p hp.1, ?_, fun x hx => h.bound x hx.1⟩
  · intro x p hx hp
    refine ⟨h.owner x p hx.1 hp, ?_⟩
    rintro rfl
    have hm := (h.mem (some p) x).mpr ⟨hx.1, by simpa using hx.2, hp⟩
    rw [hi] at hm
    exact not_mem_nil hm
  · intro x hx _
    refine (h.linked x hx.1 (by simpa using hx.2)).imp_right fun ⟨hn, hp, hall⟩ => ⟨hn, hp, ?_⟩
    intro y hy _
    exact hall y hy.1 (by simpa using hy.2)

theorem Shape.par_settled (h : Shape f (some r) none H kids) (hall : ∀ i ∈ kids none, (f.nodes i).parent = none)
    (hx : H x) : f.par none x = f.par (some r) x := by
  rw [par_none]
  unfold Fheap.par
  split
  · next he =>
    have hm : x ∈ kids none := (h.mem none x).mpr ⟨hx, nofun, by rw [Fheap.par, if_pos he]⟩
    exact hall x hm
  · rfl

theorem Shape.settle (h : Shape f (some r) none H kids) (hall : ∀ i ∈ kids none, (f.nodes i).parent = none)
    (hr : ¬ H r) : Shape f none none H kids := by
  have hpar {x : Nat} (hx : H x) := h.par_settled hall hx
  refine ⟨h.circle, ?_, ?_, ?_, ?_, h.linked, h.bound⟩
  · intro o x
    rw [h.mem]
    exact and_congr_right fun hx => by rw [hpar hx]
  · intro x p hx
    rw [hpar hx]
    exact h.owner x p hx
  · exact fun p hp _ => h.first p hp fun he => hr (Option.some.inj he ▸ hp)
  · exact fun p hp _ => h.rank p hp fun he => hr (Option.some.inj he ▸ hp)

theorem child_of_kids (h : Shape f d lim H kids) (hp : H p) (hd : some p ≠ d) (hc : (f.nodes p).firstChild = some c) :
    c ∈ kids (some p) := by
  rcases h.first p hp hd with ⟨hf, -⟩ | ⟨c', hc', hf⟩
  · exact nomatch hc.symm.trans hf
  · exact Option.some.inj (hf.symm.trans hc) ▸ hc'

theorem parent_of_par (h : f.par d i = some p) : (f.nodes i).parent = some p := by
  unfold Fheap.par at h
  split at h
  · exact nomatch h
  · exact h

/-- A node between lists becomes the only child. -/
theorem Shape.adopt (h : Shape f d (some n) H kids) (hn : H n) (hself : f.links.Circle [n]) (hl : ∀ x, H x → f.Linked x)
    (hp : H p) (hd : some p ≠ d) (hpn : p ≠ n) (hc : (f.nodes p).firstChild = none) :
    Shape ((f.modify n fun x => { x with parent := some p }).modify p fun x => { x with
      firstChild := some n
      rank := 1 }) d none H (update kids (some p) [n]) := by
  have hnone : kids (some p) = [] := by
    rcases h.first p hp hd with ⟨-, hk⟩ | ⟨c, -, hf⟩
    · exact hk
    · exact nomatch hc.symm.trans hf
  have hnot (o : Option Nat) : n ∉ kids o := fun hm => ((h.mem o n).mp hm).2.1 rfl
  have hlinks : ((f.modify n fun x => { x with parent := some p }).modify p fun x => { x with
      firstChild := some n
      rank := 1 }).links = f.links := by
    rw [links_modify, links_modify]
    all_goals exact fun _ => rfl
  have hpar (x : Nat) : (((f.modify n fun x => { x with parent := some p }).modify p fun x => { x with
      firstChild := some n
      rank := 1 }).par d x) = if x = n then some p else f.par d x := by
    rw [par_modify]
    · unfold Fheap.par
      rw [nodes_modify]
      by_cases hx : x = n
      · rw [if_pos hx, if_pos hx]
        exact if_neg hd
      · rw [if_neg hx, if_neg hx]
    · exact fun _ => rfl
  have hmem (o : Option Nat) (x : Nat) : x ∈ update kids (some p) [n] o ↔ x ∈ kids o ∨ x = n ∧ o = some p := by
    rw [update_apply]
    split
    · next he => rw [he, hnone, mem_singleton, and_iff_left rfl, or_iff_right not_mem_nil]
    · next he => simp [he]
  constructor
  case circle =>
    intro o
    rw [hlinks, update_apply]
    split
    · exact hself
    · exact h.circle o
  case mem =>
    intro o x
    rw [hmem, hpar]
    by_cases hx : x = n
    · subst hx
      simp [hnot, hn, eq_comm]
    · rw [if_neg hx, h.mem]
      simp [hx]
  case owner =>
    intro x q hx hq
    rw [hpar] at hq
    split at hq
    · exact Option.some.inj hq ▸ hp
    · exact h.owner x q hx hq
  case first =>
    intro q hq hqd
    rw [nodes_modify]
    split
    · next he =>
      subst he
      rw [update_self]
      exact .inr ⟨n, mem_cons_self, rfl⟩
    · next he =>
      rw [proj_modify (p := FheapNode.firstChild), update_of_ne (by simpa using he)]
      · exact h.first q hq hqd
      · exact fun _ => rfl
  case rank =>
    intro q hq hqd
    rw [nodes_modify]
    split
    · next he =>
      subst he
      rw [update_self]
      rfl
    · next he =>
      rw [proj_modify (p := FheapNode.rank), update_of_ne (by simpa using he)]
      · exact h.rank q hq hqd
      · exact fun _ => rfl
  case linked =>
    intro x hx _
    left
    apply linked_modify
    · exact fun _ => id
    · exact fun _ => id
    · apply linked_modify
      · exact fun _ => id
      · exact fun _ => id
      · exact hl x hx
  case bound => exact h.bound

theorem Shape.link {lo hi : Nat} (h : Shape f d none H kids) (hhi : kids none = hi :: rest) (hlo : lo ∈ rest)
    (hp : (f.nodes hi).parent = none) (hd : some lo ≠ d) :
    ∃ kids', Shape (linkTo f lo hi) d none H kids' ∧ kids' none = rest ∧ Kept f (linkTo f lo hi) ∧
      ∀ x, ((linkTo f lo hi).nodes x).parent = if x = hi then some lo else (f.nodes x).parent := by
  obtain ⟨hrem, -, hself⟩ := h.remove hhi hp false
  have hnd : hi ∉ rest := (nodup_cons.mp (hhi ▸ (h.circle none).nodup)).1
  have hne : lo ≠ hi := fun he => hnd (he ▸ hlo)
  have hHlo : H lo := ((h.mem none lo).mp (hhi ▸ mem_cons_of_mem hi hlo)).1
  have hHhi : H hi := ((h.mem none hi).mp (hhi ▸ mem_cons_self)).1
  have hlinked (x : Nat) (hx : H x) : (fheapNodeRemoveInternal f hi false).1.Linked x := by
    apply linked_remove (h.linked_of_ne hHhi hHlo hne.symm)
    by_cases hxh : x = hi
    · exact hxh ▸ h.linked_of_ne hHhi hHlo hne.symm
    · exact h.linked_of_ne hx hHhi hxh
  unfold linkTo fheapNodeRemove
  dsimp only
  have hparent := parent_remove f hi false
  have hkept := remove_kept f hi false
  generalize (fheapNodeRemoveInternal f hi false).1 = g at *
  cases hc : (g.nodes lo).firstChild with
  | some c =>
    dsimp only
    have hcm := child_of_kids hrem hHlo hd hc
    obtain ⟨cs, hcirc, hperm⟩ := hrem.enter hcm
    have hcp : (g.nodes c).parent = some lo := parent_of_par ((hrem.mem _ _).mp hcm).2.2
    have hadd := (hrem.reorder hcirc hperm).add hHhi (update_self ..) hcp fun he => hne (Option.some.inj he)
    have hmark := hadd.modify (g := fun x => { x with isMarked := false }) (fun _ => ⟨rfl, rfl, rfl, rfl, rfl⟩) hi
    refine ⟨_, hmark, ?_, hkept.trans ((addSibling_kept g c hi).trans ?_), ?_⟩
    · rw [update_of_ne (by simp), update_of_ne (by simp), update_self]
    · exact kept_modify (g := fun x => { x with isMarked := false }) (fun _ => rfl) _ hi
    · intro x
      rw [proj_modify (p := FheapNode.parent), parent_addSibling, hcp]
      · split
        · rfl
        · next hx => rw [hparent, if_neg hx]
      · exact fun _ => rfl
  | none =>
    dsimp only
    have hadopt := hrem.adopt hHhi hself hlinked hHlo hd hne hc
    have hmark := hadopt.modify (g := fun x => { x with isMarked := false }) (fun _ => ⟨rfl, rfl, rfl, rfl, rfl⟩) hi
    refine ⟨_, hmark, ?_, hkept.trans ⟨rfl, rfl, rfl, fun x => ?_⟩, ?_⟩
    · rw [update_of_ne (by simp), update_self]
    · rw [proj_modify (p := FheapNode.key), proj_modify (p := FheapNode.key), proj_modify (p := FheapNode.key)]
      all_goals exact fun _ => rfl
    · intro x
      rw [proj_modify (p := FheapNode.parent), proj_modify (p := FheapNode.parent), nodes_modify]
      · split
        · rfl
        · next hx => rw [hparent, if_neg hx]
      all_goals exact fun _ => rfl

theorem Ordered.mono (h : Ordered f d H) {H' : Nat → Prop} (hH : ∀ x, H' x → H x)
    (hpar : ∀ x p, H' x → f'.par d' x = some p → f.par d x = some p ∧ (f'.nodes x).key = (f.nodes x).key)
    (hkey : ∀ x, (f'.nodes x).key ≤ (f.nodes x).key) : Ordered f' d' H' := by
  obtain ⟨w, hw⟩ := h
  refine ⟨w, ?_⟩
  intro x p hx hp
  obtain ⟨hold, hsame⟩ := hpar x p hx hp
  obtain ⟨hlt, hle⟩ := hw x p (hH x hx) hold
  exact ⟨hlt, BitVec.le_trans (hkey p) (hsame ▸ hle)⟩

theorem Ordered.link {lo hi : Nat} (h : Ordered f d H) (hlo : f.par d lo = none) (hne : lo ≠ hi)
    (hkey : (f.nodes lo).key ≤ (f.nodes hi).key) (hd : some lo ≠ d)
    (hparent : ∀ x, (f'.nodes x).parent = if x = hi then some lo else (f.nodes x).parent)
    (hsame : ∀ x, (f'.nodes x).key = (f.nodes x).key) : Ordered f' d H := by
  obtain ⟨w, hw⟩ := h
  refine ⟨update w lo (max (w lo) (w hi + 1)), ?_⟩
  intro x p hx hp
  rw [hsame, hsame]
  unfold Fheap.par at hp
  rw [hparent] at hp
  by_cases hxh : x = hi
  · rw [if_pos hxh, if_neg hd] at hp
    cases hp
    subst hxh
    rw [update_self, update_of_ne hne.symm]
    exact ⟨Nat.lt_of_lt_of_le (Nat.lt_succ_self _) (Nat.le_max_right ..), hkey⟩
  · rw [if_neg hxh] at hp
    obtain ⟨hlt, hle⟩ := hw x p hx hp
    have hxl : x ≠ lo := by
      rintro rfl
      exact nomatch hlo.symm.trans hp
    rw [update_of_ne hxl, update_apply]
    split
    · next he =>
      subst he
      exact ⟨hlt.trans_le (Nat.le_max_left ..), hle⟩
    · exact ⟨hlt, hle⟩

theorem Shape.climb {P : Nat → Prop} (h : Shape f d none H kids) (ho : Ordered f d H) (hroot : ∀ i ∈ kids none, P i)
    (hchild : ∀ i p, H i → f.par d i = some p → P p → P i) (hi : H i) : P i := by
  obtain ⟨w, hw⟩ := ho
  have hbound {x : Nat} (hx : H x) : w x ≤ (Finset.range f.nNodes).sup w :=
    Finset.le_sup (Finset.mem_range.mpr (h.bound x hx))
  induction hk : (Finset.range f.nNodes).sup w - w i using Nat.strong_induction_on generalizing i with
  | _ k ih =>
    cases hp : f.par d i with
    | none => exact hroot i ((h.mem none i).mpr ⟨hi, nofun, hp⟩)
    | some p =>
      have hlt := (hw i p hi hp).1
      have hHp := h.owner i p hi hp
      have hbp := hbound hHp
      exact hchild i p hi hp (ih _ (by omega) hHp rfl)

theorem Shape.root_le (h : Shape f d none H kids) (ho : Ordered f d H) (hi : H i) :
    ∃ r ∈ kids none, (f.nodes r).key ≤ (f.nodes i).key := by
  apply h.climb ho (P := fun i => ∃ r ∈ kids none, (f.nodes r).key ≤ (f.nodes i).key) _ _ hi
  · exact fun i hm => ⟨i, hm, BitVec.le_refl _⟩
  · rintro i p hHi hp ⟨r, hr, hle⟩
    obtain ⟨w, hw⟩ := ho
    exact ⟨r, hr, BitVec.le_trans hle (hw i p hHi hp).2⟩

end Vpp.Infra
