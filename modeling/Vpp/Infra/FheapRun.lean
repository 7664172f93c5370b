import Vpp.Infra.FheapCut

namespace Vpp.Infra
open Vpp.Lib Function List

section

variable {f f' : Fheap} {o : Option Nat} {H : Nat → Prop} {kids : Option Nat → List Nat} {i j n p r c x m : Nat}
  {rest xs ys zs js rs : List Nat}

/-- The walk goes on along the roots until the next one is the first child. -/
theorem Shape.cutRoots {fuel : Nat} (h : Shape f none none H kids) (hm : f.minRoot = some m)
    (hmp : (f.nodes m).parent = none) (hroots : kids none = m :: (xs ++ i :: (zs ++ c :: ys)))
    (hfuel : zs.length < fuel) :
    ∃ kids', Shape (cutChildren c fuel f i) none none H kids' ∧ (∀ p, kids' (some p) = kids (some p)) ∧
      Kept f (cutChildren c fuel f i) ∧ ∀ x, ((cutChildren c fuel f i).nodes x).parent = (f.nodes x).parent := by
  induction fuel generalizing f kids i xs zs with
  | zero => exact absurd hfuel (Nat.not_lt_zero _)
  | succ fuel ih =>
    have hcirc := h.circle none
    have heq : m :: (xs ++ i :: (zs ++ c :: ys)) = (m :: xs) ++ i :: (zs ++ c :: ys) := rfl
    rw [hroots, heq] at hcirc
    have hperm : (i :: ((zs ++ c :: ys) ++ m :: xs)).Perm (kids none) := by
      rw [hroots, heq]
      exact (perm_append_comm.cons i).trans perm_middle.symm
    have him : i ∈ kids none := by
      rw [hroots]
      simp
    have hpi : (f.nodes i).parent = none := (par_none f i).symm.trans ((h.mem none i).mp him).2.2
    obtain ⟨hcut, hkept, hparent⟩ := (h.reorder hcirc.rotate hperm).cut hm hmp (update_self ..) (update_self ..)
    have hsame (x : Nat) : ((Infra.cut f i).nodes x).parent = (f.nodes x).parent := by
      rw [hparent]
      split
      · next he => rw [he, hpi]
      · rfl
    have hkids (p : Nat) : update (update (update kids none (i :: ((zs ++ c :: ys) ++ m :: xs)))
        none ((zs ++ c :: ys) ++ m :: xs)) none (m :: i :: (xs ++ (zs ++ c :: ys))) (some p) = kids (some p) := by
      rw [update_of_ne (by simp), update_of_ne (by simp), update_of_ne (by simp)]
    unfold Infra.cutChildren
    cases zs with
    | nil =>
      have hnext : (f.nodes i).nextSibling = some c := next_of_circle hcirc.rotate
      rw [hnext]
      dsimp only
      rw [if_pos rfl]
      exact ⟨_, hcut, hkids, hkept, hsame⟩
    | cons z zs =>
      have hnext : (f.nodes i).nextSibling = some z := next_of_circle hcirc.rotate
      have hzc : z ≠ c := by
        rintro rfl
        have hnd := (nodup_cons.mp hcirc.rotate.nodup).2
        have hz := (nodup_cons.mp hnd).1
        exact hz (by simp)
      rw [hnext]
      dsimp only
      rw [if_neg hzc]
      have hroots' : update (update (update kids none (i :: ((z :: zs ++ c :: ys) ++ m :: xs)))
          none ((z :: zs ++ c :: ys) ++ m :: xs)) none (m :: i :: (xs ++ (z :: zs ++ c :: ys))) none =
          m :: ((i :: xs) ++ z :: (zs ++ c :: ys)) := update_self ..
      obtain ⟨kids', hs', hkids', hkept', hsame'⟩ := ih hcut (hkept.minRoot.trans hm) ((hsame m).trans hmp) hroots'
        (Nat.lt_of_succ_lt_succ hfuel)
      exact ⟨kids', hs', fun p => (hkids' p).trans (hkids p), hkept.trans hkept', fun x => (hsame' x).trans (hsame x)⟩

/-- All children become roots: the walk cuts each of them, and the later ones again from among the roots. -/
theorem Shape.cutChildren {fuel : Nat} (h : Shape f none none H kids) (hm : f.minRoot = some m)
    (hmp : (f.nodes m).parent = none) (hn : H n) (hi : kids (some n) = i :: rest) (hni : n ∉ i :: rest)
    (hroots : kids none = m :: (js ++ rs)) (hfirst : js = [] ∧ i = c ∨ ∃ zs, js = zs ++ [c])
    (hfuel : 2 * rest.length + js.length < fuel) :
    ∃ kids', Shape (cutChildren c fuel f i) none none H kids' ∧ kids' (some n) = [] ∧ Kept f (cutChildren c fuel f i) ∧
      ∀ x, ((cutChildren c fuel f i).nodes x).parent = (f.nodes x).parent ∨
        x ≠ n ∧ ((cutChildren c fuel f i).nodes x).parent = none := by
  induction fuel generalizing f kids i rest js with
  | zero => exact absurd hfuel (Nat.not_lt_zero _)
  | succ fuel ih =>
    have hin : i ≠ n := fun he => hni (he ▸ mem_cons_self)
    have him : i ∈ kids (some n) := by
      rw [hi]
      exact mem_cons_self
    have hHi := ((h.mem _ i).mp him).1
    have hcirc : f.links.Circle (i :: rest) := hi ▸ h.circle (some n)
    have hroots' : update kids (some n) rest none = [] ++ m :: (js ++ rs) := by
      rw [update_of_ne (by simp), hroots]
      rfl
    obtain ⟨hcut, hkept, hparent⟩ := h.cut hm hmp hi hroots'
    have hsame (x : Nat) : ((Infra.cut f i).nodes x).parent = (f.nodes x).parent ∨
        x ≠ n ∧ ((Infra.cut f i).nodes x).parent = none := by
      rw [hparent]
      split
      · next he => exact .inr ⟨he ▸ hin, rfl⟩
      · exact .inl rfl
    have hmp' : ((Infra.cut f i).nodes m).parent = none := (hsame m).elim (fun he => he.trans hmp) And.right
    have hm' := hkept.minRoot.trans hm
    rw [append_nil] at hcut
    unfold Infra.cutChildren
    cases rest with
    | nil =>
      have hnext : (f.nodes i).nextSibling = some i := by
        obtain ⟨y, hy⟩ := Option.ne_none_iff_exists'.mp (h.linked_of_ne hHi hn hin).1
        have hself : (f.nodes i).nextSibling.getD i = i := hcirc.next_eq
        rw [hy] at hself
        exact hy.trans (congrArg some hself)
      have hempty : update (update kids (some n) []) none (m :: i :: (js ++ rs)) (some n) = [] := by
        rw [update_of_ne (by simp), update_self]
      rw [hnext]
      dsimp only
      rcases hfirst with ⟨rfl, rfl⟩ | ⟨zs, rfl⟩
      · rw [if_pos rfl]
        exact ⟨_, hcut, hempty, hkept, hsame⟩
      · have hic : i ≠ c := by
          rintro rfl
          have hroot : i ∈ kids none := by
            rw [hroots]
            simp
          exact nomatch h.owner_unique him hroot
        rw [if_neg hic]
        have hall : update (update kids (some n) []) none (m :: i :: (zs ++ [c] ++ rs)) none =
            m :: ([] ++ i :: (zs ++ c :: rs)) := by
          rw [update_self, List.append_assoc]
          rfl
        have hlen : zs.length < fuel := by
          rw [length_append] at hfuel
          exact Nat.lt_of_succ_lt_succ (Nat.lt_of_le_of_lt (Nat.le_add_left _ _) hfuel)
        obtain ⟨kids', hs', hkids', hkept', hsame'⟩ := hcut.cutRoots hm' hmp' hall hlen
        refine ⟨kids', hs', (hkids' n).trans hempty, hkept.trans hkept', ?_⟩
        intro x
        rw [hsame']
        exact hsame x
    | cons y rest =>
      have hnext : (f.nodes i).nextSibling = some y := next_of_circle hcirc
      have hyc : y ≠ c := by
        rintro rfl
        rcases hfirst with ⟨-, rfl⟩ | ⟨zs, rfl⟩
        · exact (nodup_cons.mp hcirc.nodup).1 mem_cons_self
        · have hroot : y ∈ kids none := by
            rw [hroots]
            simp
          have hym : y ∈ kids (some n) := by
            rw [hi]
            simp
          exact nomatch h.owner_unique hym hroot
      rw [hnext]
      dsimp only
      rw [if_neg hyc]
      have hlast : i :: js = [] ∧ y = c ∨ ∃ zs, i :: js = zs ++ [c] := by
        rcases hfirst with ⟨rfl, rfl⟩ | ⟨zs, rfl⟩
        · exact .inr ⟨[], rfl⟩
        · exact .inr ⟨i :: zs, rfl⟩
      have hlen : 2 * rest.length + (i :: js).length < fuel := by
        rw [length_cons] at hfuel ⊢
        omega
      have hkids : update (update kids (some n) (y :: rest)) none (m :: i :: (js ++ rs)) (some n) =
          y :: rest := by
        rw [update_of_ne (by simp), update_self]
      have hmoved : update (update kids (some n) (y :: rest)) none (m :: i :: (js ++ rs)) none =
          m :: ((i :: js) ++ rs) := update_self ..
      obtain ⟨kids', hs', hkids', hkept', hsame'⟩ := ih hcut hm' hmp' hkids (fun hx => hni (mem_cons_of_mem i hx))
        hmoved hlast hlen
      refine ⟨kids', hs', hkids', hkept.trans hkept', ?_⟩
      intro x
      rcases hsame' x with he | he
      · rw [he]
        exact hsame x
      · exact .inr he

/-- A node without children goes, which has a parent. -/
theorem Forest.removeLeaf (h : Forest f H) (hs : Shape f' none none H kids) (hkept : Kept f f') (hn : H n)
    (hkids : kids (some n) = []) (hpn : (f'.nodes n).parent = some p) (hne : p ≠ n) (hroot : f.minRoot ≠ some n)
    (hparent : ∀ x, (f'.nodes x).parent = (f.nodes x).parent ∨ (f'.nodes x).parent = none) :
    Forest (fheapNodeRemoveAndInvalidate f' n).1 (fun x => H x ∧ x ≠ n) ∧
      Kept f (fheapNodeRemoveAndInvalidate f' n).1 := by
  obtain ⟨rest, hcirc, hperm⟩ := hs.enter ((hs.mem _ n).mpr ⟨hn, nofun, (par_none f' n).trans hpn⟩)
  obtain ⟨hrem, -, -⟩ := (hs.reorder hcirc hperm).remove (update_self ..) hpn true
  have hkept' := hkept.trans (remove_kept f' n true)
  have hparent' := parent_remove f' n true
  have hdrop := hrem.drop (by
    have hnp : some n ≠ some p := fun he => hne (Option.some.inj he).symm
    rw [update_of_ne hnp, update_of_ne hnp, hkids])
  unfold fheapNodeRemoveAndInvalidate
  generalize (fheapNodeRemoveInternal f' n true).1 = g at *
  have hgone (x : Nat) : (g.nodes x).parent = (f.nodes x).parent ∨ (g.nodes x).parent = none := by
    rw [hparent']
    split
    · exact .inr rfl
    · exact hparent x
  refine ⟨⟨⟨_, hdrop⟩, ?_, ?_, ?_, hkept'.ranks ▸ h.slots⟩, hkept'⟩
  · refine h.ordered.mono (fun _ hx => hx.1) ?_ ?_
    · intro x p hx hp
      rw [par_none] at hp ⊢
      exact ⟨((hgone x).resolve_right fun he => nomatch hp.symm.trans he).symm.trans hp, hkept'.key x⟩
    · intro x
      rw [hkept'.key]
      exact BitVec.le_refl _
  · intro x hx
    have hx' := hkept'.minRoot.symm.trans hx
    obtain ⟨hHx, hpx⟩ := h.root x hx'
    exact ⟨⟨hHx, fun he => hroot (he ▸ hx')⟩, (hgone x).elim (fun he => he.trans hpx) id⟩
  · intro x hx
    obtain ⟨y, hy, hle⟩ := h.min x hx.1
    refine ⟨y, hkept'.minRoot.trans hy, ?_⟩
    rw [hkept'.key, hkept'.key]
    exact hle

theorem Forest.del (h : Forest f H) (hn : H n) (hp : (f.nodes n).parent ≠ none) :
    Forest (fheapDel f n) (fun x => H x ∧ x ≠ n) ∧ Kept f (fheapDel f n) := by
  obtain ⟨kids, hs⟩ := h.shape
  obtain ⟨p, hp⟩ := Option.ne_none_iff_exists'.mp hp
  obtain ⟨m, hm, -⟩ := h.min n hn
  obtain ⟨hHm, hmp⟩ := h.root m hm
  have hroot : f.minRoot ≠ some n := fun he => nomatch (h.root n he).2.symm.trans hp
  obtain ⟨hHp, hpn⟩ := h.parent_ne hn hp
  obtain ⟨kids1, hs1, hkept1, hparent1⟩ := hs.markParent hm hmp hHm hHp f.nNodes
  unfold fheapDel
  rw [hp]
  dsimp only
  generalize fheapMarkParent f.nNodes f p = g at *
  have hm1 := hkept1.minRoot.trans hm
  have hmp1 : (g.nodes m).parent = none := (hparent1 m).elim (fun he => he.trans hmp) And.right
  have hp1 : (g.nodes n).parent = some p := ((hparent1 n).resolve_right fun he => hpn he.1.symm).trans hp
  have hgone1 (x : Nat) : (g.nodes x).parent = (f.nodes x).parent ∨ (g.nodes x).parent = none :=
    (hparent1 x).imp_right And.right
  cases hc : (g.nodes n).firstChild with
  | none =>
    have hkids : kids1 (some n) = [] := by
      rcases hs1.first n hn nofun with ⟨-, hk⟩ | ⟨c, -, hf⟩
      · exact hk
      · exact nomatch hc.symm.trans hf
    exact h.removeLeaf hs1 hkept1 hn hkids hp1 hpn hroot hgone1
  | some c =>
    have hcm := child_of_kids hs1 hn nofun hc
    obtain ⟨rest, hcirc, hperm⟩ := hs1.enter hcm
    have hmm : m ∈ kids1 none := (hs1.mem none m).mpr ⟨hHm, nofun, (par_none g m).trans hmp1⟩
    obtain ⟨ms, hmcirc, hmperm⟩ := hs1.enter hmm
    have hs2 := (hs1.reorder hmcirc hmperm).reorder (o := some n) hcirc (by rwa [update_of_ne (by simp)])
    have hroots : update (update kids1 none (m :: ms)) (some n) (c :: rest) none = m :: ([] ++ ms) := by
      rw [update_of_ne (by simp), update_self]
      rfl
    have hnc : n ∉ c :: rest := by
      intro hx
      have hpar := ((hs1.mem _ n).mp (hperm.subset hx)).2.2
      rw [par_none, hp1] at hpar
      exact hpn (Option.some.inj hpar)
    have hlen : 2 * rest.length + ([] : List Nat).length < 2 * g.nNodes + 2 := by
      have hlt (x : Nat) (hx : x ∈ rest) : x < g.nNodes :=
        hs1.bound x ((hs1.mem _ x).mp (hperm.subset (mem_cons_of_mem c hx))).1
      have hle := length_le_of_lt (nodup_cons.mp hcirc.nodup).2 hlt
      rw [length_nil]
      omega
    obtain ⟨kids3, hs3, hkids3, hkept3, hparent3⟩ := hs2.cutChildren hm1 hmp1 hn (update_self ..) hnc hroots
      (.inl ⟨rfl, rfl⟩) hlen
    dsimp only
    generalize cutChildren c (2 * g.nNodes + 2) g c = g' at *
    have hp3 : (g'.nodes n).parent = some p := ((hparent3 n).resolve_right fun he => he.1 rfl).trans hp1
    refine h.removeLeaf hs3 (hkept1.trans hkept3) hn hkids3 hp3 hpn hroot ?_
    intro x
    rcases hparent3 x with he | he
    · rw [he]
      exact hgone1 x
    · exact .inr he.2

end

/-- A heap, and the nodes that were put in and not taken out, with their keys. -/
structure FheapWorld where
  f : Fheap
  key : Nat → Option (BitVec 32)

inductive FheapOp where
  | add (ni : Nat) (key : BitVec 32)
  | decreaseKey (ni : Nat) (key : BitVec 32)
  | del (ni : Nat)
  | delMin

namespace FheapWorld

def OpOk (w : FheapWorld) : FheapOp → Prop
  | .add ni _ => w.key ni = none ∧ ni < w.f.nNodes
  | .decreaseKey ni key => ∃ old, w.key ni = some old ∧ key < old
  | .del ni => w.key ni ≠ none
  | .delMin => True

/-- The root `r` is the only node, or another one has a key that is not the largest. -/
def MayGo (w : FheapWorld) (r : Nat) : Prop :=
  (∀ i, w.key i ≠ none → i = r) ∨ ∃ i k, w.key i = some k ∧ i ≠ r ∧ k ≠ -1

/-- A root that is deleted is the minimum, and what is left when the minimum goes has a key that is not the largest. -/
def OpSafe (w : FheapWorld) : FheapOp → Prop
  | .del ni => (w.f.nodes ni).parent = none → w.f.minRoot = some ni ∧ w.MayGo ni
  | .delMin => ∀ r, w.f.minRoot = some r → w.MayGo r
  | _ => True

def apply (w : FheapWorld) : FheapOp → FheapWorld
  | .add ni key => ⟨fheapAdd w.f ni key, update w.key ni (some key)⟩
  | .decreaseKey ni key => ⟨fheapDecreaseKey w.f ni key, update w.key ni (some key)⟩
  | .del ni => ⟨fheapDel w.f ni, update w.key ni none⟩
  | .delMin =>
    match (fheapDelMin w.f).2 with
    | none => ⟨(fheapDelMin w.f).1, w.key⟩
    | some (ni, _) => ⟨(fheapDelMin w.f).1, update w.key ni none⟩

def Step (w w' : FheapWorld) : Prop := ∃ op, w.OpOk op ∧ w' = w.apply op

def SafeStep (w w' : FheapWorld) : Prop := ∃ op, w.OpOk op ∧ w.OpSafe op ∧ w' = w.apply op

end FheapWorld

inductive Fheap.Reaches (f : Fheap) : Nat → Prop
  | root (h : f.minRoot = some i) : f.Reaches i
  | next (h : f.Reaches i) (hn : (f.nodes i).nextSibling = some j) : f.Reaches j
  | child (h : f.Reaches i) (hc : (f.nodes i).firstChild = some j) : f.Reaches j

/-- The nodes are the ones that are in, with their keys, and the minimum is one of them, if there is any. -/
structure FheapWorld.Sound (w : FheapWorld) : Prop where
  nodes : ∀ i, w.f.Reaches i ↔ w.key i ≠ none
  keys : ∀ i k, w.key i = some k → (w.f.nodes i).key = k
  empty : (fheapDelMin w.f).2 = none ↔ ∀ i, w.key i = none
  delMin : ∀ i k, (fheapDelMin w.f).2 = some (i, k) → w.key i = some k ∧ ∀ j k', w.key j = some k' → k ≤ k'

variable {f f' : Fheap} {d o : Option Nat} {H : Nat → Prop} {kids : Option Nat → List Nat} {i j n r c : Nat}
    {rest : List Nat}
  {w w' : FheapWorld}

theorem Fheap.Reaches.sibling (h : f.Reaches i) : f.Reaches (f.links.next i) := by
  show f.Reaches ((f.nodes i).nextSibling.getD i)
  cases hn : (f.nodes i).nextSibling with
  | none => exact h
  | some j => exact h.next hn

theorem Fheap.Reaches.seg (h : f.Reaches i) (hs : f.links.Seg i rest n) (hj : j ∈ rest) : f.Reaches j := by
  induction rest generalizing i with
  | nil => exact absurd hj not_mem_nil
  | cons x rest ih =>
    obtain ⟨hnext, -, hrest⟩ := hs
    have hx := hnext ▸ h.sibling
    rcases mem_cons.mp hj with rfl | hj
    · exact hx
    · exact ih hx hrest hj

theorem Shape.reaches_all (h : Shape f d none H kids) (hi : i ∈ kids o) (hr : f.Reaches i) (hj : j ∈ kids o) :
    f.Reaches j := by
  obtain ⟨rest, hcirc, hperm⟩ := h.enter hi
  rcases mem_cons.mp (hperm.symm.subset hj) with rfl | hj
  · exact hr
  · exact hr.seg hcirc.seg hj

theorem Forest.reaches (h : Forest f H) : f.Reaches i ↔ H i := by
  obtain ⟨kids, hs⟩ := h.shape
  constructor
  · intro hi
    induction hi with
    | root hr => exact (h.root _ hr).1
    | @next i j _ hn ih =>
      have hm := (hs.mem _ i).mpr ⟨ih, nofun, rfl⟩
      have hnext : f.links.next i = j := congrArg (Option.getD · i) hn
      exact ((hs.mem _ j).mp (hnext ▸ (hs.circle _).next_mem hm)).1
    | child _ hc ih => exact ((hs.mem _ _).mp (child_of_kids hs ih nofun hc)).1
  · intro hi
    apply hs.climb h.ordered _ _ hi
    · intro j hj
      obtain ⟨r, hr, -⟩ := h.min i hi
      obtain ⟨hHr, hpr⟩ := h.root r hr
      exact hs.reaches_all ((hs.mem none r).mpr ⟨hHr, nofun, (par_none f r).trans hpr⟩) (.root hr) hj
    · intro j p hj hp hreach
      have hm := (hs.mem (some p) j).mpr ⟨hj, nofun, hp⟩
      rcases hs.first p (hs.owner j p hj hp) nofun with ⟨-, hk⟩ | ⟨c, hcm, hc⟩
      · exact absurd (hk ▸ hm) not_mem_nil
      · exact hs.reaches_all hcm (hreach.child hc) hm

structure FheapWorld.Holds (w : FheapWorld) : Prop where
  forest : Forest w.f fun i => w.key i ≠ none
  keys : ∀ i k, w.key i = some k → (w.f.nodes i).key = k

theorem FheapWorld.holds_init (f : Fheap) (n : Nat) : FheapWorld.Holds ⟨fheapInit f n, fun _ => none⟩ := by
  refine ⟨⟨⟨fun _ => [], ?_⟩, ⟨fun _ => 0, fun _ _ hi => absurd rfl hi⟩, nofun, fun _ hi => absurd rfl hi, rfl⟩, nofun⟩
  refine ⟨fun _ => trivial, fun _ _ => iff_of_false not_mem_nil fun hc => hc.1 rfl, ?_, ?_, ?_, ?_, ?_⟩
  all_goals exact fun i => by simp

theorem FheapWorld.Holds.key_eq (h : w.Holds) (hi : w.key i ≠ none) : w.key i = some (w.f.nodes i).key := by
  obtain ⟨k, hk⟩ := Option.ne_none_iff_exists'.mp hi
  rw [h.keys i k hk, hk]

theorem FheapWorld.Holds.take (h : w.Holds) (hf : Forest f' fun i => w.key i ≠ none ∧ i ≠ n)
    (hkey : ∀ i, (f'.nodes i).key = (w.f.nodes i).key) : FheapWorld.Holds ⟨f', update w.key n none⟩ := by
  have hin : (fun i => update w.key n none i ≠ none) = fun i => w.key i ≠ none ∧ i ≠ n := by
    funext i
    rw [update_apply]
    split <;> simp [*]
  refine ⟨?_, ?_⟩
  · show Forest f' fun i => update w.key n none i ≠ none
    rw [hin]
    exact hf
  · intro i k hk
    replace hk : update w.key n none i = some k := hk
    rw [update_apply] at hk
    split at hk
    · exact nomatch hk
    · rw [hkey]
      exact h.keys i k hk

theorem FheapWorld.Holds.put {key : BitVec 32} (h : w.Holds) (hf : Forest f' fun i => w.key i ≠ none ∨ i = n)
    (hkey : ∀ i, (f'.nodes i).key = if i = n then key else (w.f.nodes i).key) :
    FheapWorld.Holds ⟨f', update w.key n (some key)⟩ := by
  have hin : (fun i => update w.key n (some key) i ≠ none) = fun i => w.key i ≠ none ∨ i = n := by
    funext i
    rw [update_apply]
    split <;> simp [*]
  refine ⟨?_, ?_⟩
  · show Forest f' fun i => update w.key n (some key) i ≠ none
    rw [hin]
    exact hf
  · intro i k hk
    replace hk : update w.key n (some key) i = some k := hk
    rw [update_apply] at hk
    rw [hkey]
    split at hk
    · next he =>
      rw [if_pos he]
      exact Option.some.inj hk
    · next hne =>
      rw [if_neg hne]
      exact h.keys i k hk

theorem FheapWorld.MayGo.keys (h : w.Holds) (hr : w.MayGo r) :
    (∀ i, w.key i ≠ none → i = r) ∨ ∃ i, w.key i ≠ none ∧ i ≠ r ∧ (w.f.nodes i).key ≠ -1 := by
  refine hr.imp_right fun ⟨i, k, hk, hir, hkm⟩ => ⟨i, ?_, hir, ?_⟩
  · rw [hk]
    exact nofun
  · rw [h.keys i k hk]
    exact hkm

theorem FheapWorld.Holds.step (h : w.Holds) (hs : w.SafeStep w') : w'.Holds := by
  obtain ⟨op, hok, hsafe, rfl⟩ := hs
  cases op with
  | add n key =>
    obtain ⟨hnone, hlt⟩ := hok
    obtain ⟨hf, hkey⟩ := h.forest.add (fun hn => hn hnone) hlt key
    exact h.put hf hkey
  | decreaseKey n key =>
    obtain ⟨old, hold, hlt⟩ := hok
    have hin : w.key n ≠ none := by
      rw [hold]
      exact nofun
    have hle : key ≤ (w.f.nodes n).key := by
      rw [h.keys n old hold]
      exact BitVec.le_of_lt hlt
    obtain ⟨hf, hkey⟩ := h.forest.decreaseKey hin hle
    have hsame : (fun i => w.key i ≠ none ∨ i = n) = fun i => w.key i ≠ none :=
      funext fun i => propext (or_iff_left_of_imp fun he => he ▸ hin)
    exact h.put (hsame ▸ hf) hkey
  | del n =>
    cases hp : (w.f.nodes n).parent with
    | none =>
      obtain ⟨hr, hgo⟩ := hsafe hp
      obtain ⟨-, hkey, hf⟩ := h.forest.delMin hr
      have hdel : fheapDel w.f n = (fheapDelMin w.f).1 := by
        unfold fheapDel
        rw [hp]
      exact h.take (hdel ▸ hf (hgo.keys h)) (hdel ▸ hkey)
    | some p =>
      obtain ⟨hf, hkept⟩ := h.forest.del hok (by rw [hp]; exact nofun)
      exact h.take hf hkept.key
  | delMin =>
    unfold FheapWorld.apply
    cases hr : w.f.minRoot with
    | none =>
      have hsame : fheapDelMin w.f = (w.f, none) := by
        unfold fheapDelMin
        rw [hr]
      rw [hsame]
      exact h
    | some r =>
      obtain ⟨hres, hkey, hf⟩ := h.forest.delMin hr
      rw [hres]
      exact h.take (hf ((hsafe r hr).keys h)) hkey

theorem FheapWorld.Holds.run (h : w.Holds) (hrun : Relation.ReflTransGen FheapWorld.SafeStep w w') : w'.Holds := by
  induction hrun with
  | refl => exact h
  | tail _ hs ih => exact ih.step hs

theorem FheapWorld.Holds.sound (h : w.Holds) : w.Sound := by
  refine ⟨fun i => h.forest.reaches, h.keys, ?_, ?_⟩
  · constructor
    · intro hnone i
      by_contra hi
      obtain ⟨r, hr, -⟩ := h.forest.min i hi
      exact nomatch hnone.symm.trans (h.forest.delMin hr).1
    · intro hempty
      cases hr : w.f.minRoot with
      | none =>
        unfold fheapDelMin
        rw [hr]
      | some r => exact absurd (hempty r) (h.forest.root r hr).1
  · intro i k hik
    cases hr : w.f.minRoot with
    | none =>
      unfold fheapDelMin at hik
      rw [hr] at hik
      exact nomatch hik
    | some r =>
      rw [(h.forest.delMin hr).1] at hik
      obtain ⟨rfl, rfl⟩ := Prod.mk.inj (Option.some.inj hik)
      refine ⟨h.key_eq (h.forest.root r hr).1, ?_⟩
      intro j k' hj
      obtain ⟨x, hx, hle⟩ := h.forest.min j (by rw [hj]; exact nofun)
      obtain rfl := Option.some.inj (hx.symm.trans hr)
      exact h.keys j k' hj ▸ hle

/-- The heap is a priority queue while no minimum goes that leaves only largest keys, and no other root is deleted. -/
theorem fheap_queue (f : Fheap) (n : Nat) (w : FheapWorld)
    (hrun : Relation.ReflTransGen FheapWorld.SafeStep ⟨fheapInit f n, fun _ => none⟩ w) : w.Sound :=
  ((FheapWorld.holds_init f n).run hrun).sound

def emptyFheap : Fheap := fheapInit ⟨none, fun _ => ⟨none, none, none, none, 0, 0, false, false⟩, 0, []⟩ 4

/-- Two nodes of the largest key, and the first of them is taken out. -/
def largestKeys : FheapWorld :=
  (((⟨emptyFheap, fun _ => none⟩ : FheapWorld).apply (.add 0 (-1))).apply (.add 1 (-1))).apply .delMin

theorem fheap_queue_fails : ¬ ∀ f n w,
    Relation.ReflTransGen FheapWorld.Step ⟨fheapInit f n, fun _ => none⟩ w → w.Sound := by
  intro hall
  have hrun : Relation.ReflTransGen FheapWorld.Step ⟨emptyFheap, fun _ => none⟩ largestKeys :=
    ((Relation.ReflTransGen.single ⟨.add 0 (-1), ⟨rfl, by decide⟩, rfl⟩).tail
      ⟨.add 1 (-1), ⟨rfl, by decide⟩, rfl⟩).tail ⟨.delMin, trivial, rfl⟩
  have hone := (hall _ _ _ hrun).empty.mp (by decide) 1
  exact absurd hone (by decide)

/-- Keys 5, 3 and 8, and the minimum goes. -/
def threeKeys : FheapWorld :=
  ((((⟨emptyFheap, fun _ => none⟩ : FheapWorld).apply (.add 0 5)).apply (.add 1 3)).apply (.add 2 8)).apply .delMin

theorem threeKeys_root : ((((⟨emptyFheap, fun _ => none⟩ : FheapWorld).apply (.add 0 5)).apply (.add 1 3)).apply
    (.add 2 8)).f.minRoot = some 1 := by decide

theorem threeKeys_child : ((threeKeys.apply (.decreaseKey 0 4)).f.nodes 2).parent = some 0 ∧
    (threeKeys.apply (.decreaseKey 0 4)).key 2 = some 8 := by decide

theorem fheap_queue_threeKeys : ((threeKeys.apply (.decreaseKey 0 4)).apply (.del 2)).Sound := by
  apply fheap_queue ⟨none, fun _ => ⟨none, none, none, none, 0, 0, false, false⟩, 0, []⟩ 4
  refine (((((Relation.ReflTransGen.single ⟨.add 0 5, ⟨rfl, by decide⟩, trivial, rfl⟩).tail
    ⟨.add 1 3, ⟨rfl, by decide⟩, trivial, rfl⟩).tail ⟨.add 2 8, ⟨rfl, by decide⟩, trivial, rfl⟩).tail
    ⟨.delMin, trivial, ?_, rfl⟩).tail ⟨.decreaseKey 0 4, ⟨5, rfl, by decide⟩, trivial, rfl⟩).tail
    ⟨.del 2, ?_, ?_, rfl⟩
  · exact fun (hnone : (threeKeys.apply (.decreaseKey 0 4)).key 2 = none) => nomatch threeKeys_child.2.symm.trans hnone
  · exact fun hp => nomatch threeKeys_child.1.symm.trans hp
  · intro r hr
    obtain rfl := Option.some.inj (threeKeys_root.symm.trans hr)
    exact .inr ⟨0, 5, rfl, by decide, by decide⟩

end Vpp.Infra
