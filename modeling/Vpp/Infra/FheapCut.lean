import Vpp.Infra.FheapDelMin

namespace Vpp.Infra
open Vpp.Lib Function List

variable {f f' : Fheap} {d lim o : Option Nat} {H : Nat → Prop} {kids : Option Nat → List Nat} {i j n p r c x m : Nat}
  {rest us ps cs rs xs ys ms : List Nat} {key : BitVec 32}

/-- A node that was not in the heap is between lists. -/
theorem Shape.enlist (h : Shape f d none H kids) (hn : ¬ H n) (hlt : n < f.nNodes) {g : FheapNode → FheapNode}
    (hg : (g (f.nodes n)).parent = none ∧ (g (f.nodes n)).firstChild = none ∧ (g (f.nodes n)).rank = 0) :
    Shape (f.modify n g) d (some n) (fun x => H x ∨ x = n) kids := by
  have hother {x : Nat} (hx : x ≠ n) : (f.modify n g).nodes x = f.nodes x := by
    rw [nodes_modify, if_neg hx]
  have hne {x : Nat} (hx : H x) : x ≠ n := fun he => hn (he ▸ hx)
  have hmem {o : Option Nat} {x : Nat} (hx : x ∈ kids o) : H x := ((h.mem o x).mp hx).1
  have hpar {x : Nat} (hx : x ≠ n) : (f.modify n g).par d x = f.par d x := by
    unfold Fheap.par
    rw [hother hx]
  have hself : (f.modify n g).nodes n = g (f.nodes n) := by
    rw [nodes_modify, if_pos rfl]
  constructor
  case circle =>
    intro o
    apply (h.circle o).congr
    intro x hx
    unfold Fheap.links
    dsimp only
    rw [hother (hne (hmem hx))]
    exact ⟨rfl, rfl⟩
  case mem =>
    intro o x
    by_cases hx : x = n
    · subst hx
      exact iff_of_false (fun hm => hn (hmem hm)) fun hc => hc.2.1 rfl
    · rw [h.mem, hpar hx]
      simp [hx]
  case owner =>
    intro x p hx hp
    by_cases hxn : x = n
    · rw [hxn, par_of_parent (by rw [hself]; exact hg.1)] at hp
      exact nomatch hp
    · rw [hpar hxn] at hp
      exact .inl (h.owner x p (hx.resolve_right hxn) hp)
  case first =>
    intro p hp hpd
    by_cases hpn : p = n
    · subst hpn
      left
      refine ⟨hself ▸ hg.2.1, eq_nil_iff_forall_not_mem.mpr ?_⟩
      intro x hx
      obtain ⟨hHx, -, hpx⟩ := (h.mem _ x).mp hx
      exact hn (h.owner x p hHx hpx)
    · rw [hother hpn]
      exact h.first p (hp.resolve_right hpn) hpd
  case rank =>
    intro p hp hpd
    by_cases hpn : p = n
    · subst hpn
      have hnil : kids (some p) = [] := by
        apply eq_nil_iff_forall_not_mem.mpr
        intro x hx
        obtain ⟨hHx, -, hpx⟩ := (h.mem _ x).mp hx
        exact hn (h.owner x p hHx hpx)
      rw [hself, hnil]
      exact hg.2.2
    · rw [hother hpn]
      exact h.rank p (hp.resolve_right hpn) hpd
  case linked =>
    intro x hx hxn
    have hxn' : x ≠ n := fun he => hxn (congrArg some he)
    unfold Fheap.Linked
    rw [hother hxn']
    refine (h.linked x (hx.resolve_right hxn') nofun).imp_right fun ⟨hnext, hprev, hall⟩ => ⟨hnext, hprev, ?_⟩
    intro y hy hyn
    exact hall y (hy.resolve_right fun he => hyn (congrArg some he)) nofun
  case bound =>
    intro x hx
    rcases hx with hx | rfl
    · exact h.bound x hx
    · exact hlt

theorem Shape.single (hp : (f.nodes n).parent = none) (hc : (f.nodes n).firstChild = none) (hk : (f.nodes n).rank = 0)
    (hnext : (f.nodes n).nextSibling = none) (hprev : (f.nodes n).prevSibling = none) (hlt : n < f.nNodes) :
    Shape f none none (· = n) (update (fun _ => []) none [n]) := by
  constructor
  case circle =>
    intro o
    rw [update_apply]
    split
    · apply Links.circle_singleton.mpr
      unfold Fheap.links
      dsimp only
      rw [hnext, hprev]
      exact ⟨rfl, rfl⟩
    · trivial
  case mem =>
    intro o x
    rw [update_apply, par_none]
    split
    · next ho =>
      rw [mem_singleton, ho]
      exact ⟨fun hx => ⟨hx, nofun, hx ▸ hp⟩, And.left⟩
    · next ho =>
      refine iff_of_false not_mem_nil ?_
      rintro ⟨rfl, -, hx⟩
      exact ho (hx.symm.trans hp)
  case owner =>
    rintro x p rfl hx
    rw [par_none, hp] at hx
    exact nomatch hx
  case first =>
    rintro p rfl -
    exact .inl ⟨hc, update_of_ne (by simp) _ _⟩
  case rank =>
    rintro p rfl -
    rw [hk, update_of_ne (by simp)]
    rfl
  case linked =>
    rintro x rfl -
    exact .inr ⟨hnext, hprev, fun y hy _ => hy⟩
  case bound =>
    rintro x rfl
    exact hlt

abbrev addedNode (key : BitVec 32) : FheapNode := ⟨none, none, none, none, key, 0, false, false⟩

theorem Forest.addFirst (h : Forest f H) (hr : f.minRoot = none) (hlt : n < f.nNodes) (key : BitVec 32) :
    Forest { f.modify n fun _ => addedNode key with minRoot := some n } fun x => H x ∨ x = n := by
  have hempty (x : Nat) : ¬ H x := fun hx => by
    obtain ⟨r, hr', -⟩ := h.min x hx
    exact nomatch hr.symm.trans hr'
  have honly : (fun x => H x ∨ x = n) = (· = n) := funext fun x => propext (or_iff_right (hempty x))
  have hnode : (f.modify n fun _ => addedNode key).nodes n = addedNode key := by
    rw [nodes_modify, if_pos rfl]
  have hb : n < (f.modify n fun _ => addedNode key).nNodes := hlt
  have hslots : (f.modify n fun _ => addedNode key).rootListByRank.reduceOption = [] := h.slots
  generalize (f.modify n fun _ => addedNode key) = g at *
  have hsingle : Shape g none none (· = n) (update (fun _ => []) none [n]) := by
    apply Shape.single _ _ _ _ _ hb <;> rw [hnode]
  rw [honly]
  refine ⟨⟨_, hsingle.setMain (some n) g.rootListByRank⟩, ⟨fun _ => 0, ?_⟩, ?_, ?_, hslots⟩
  · rintro x p rfl hx
    exact nomatch (hx.symm.trans (par_of_parent (by rw [hnode])))
  · rintro x ⟨⟩
    exact ⟨rfl, by rw [hnode]⟩
  · rintro x rfl
    exact ⟨x, rfl, BitVec.le_refl _⟩

/-- A heap with one more root, which is the minimum when its key is below the one of the minimum. -/
theorem Forest.addRoot (h : Forest f H) (hn : ¬ H n) (hr : f.minRoot = some r)
    (hshape : ∃ kids, Shape f' none none (fun x => H x ∨ x = n) kids)
    (hkey : ∀ x, (f'.nodes x).key = if x = n then key else (f.nodes x).key)
    (hpar : ∀ x, (f'.nodes x).parent = if x = n then none else (f.nodes x).parent)
    (hmin : f'.minRoot = some (if (f.nodes r).key > key then n else r)) (hslots : f'.rootListByRank.reduceOption = []) :
    Forest f' fun x => H x ∨ x = n := by
  obtain ⟨hHr, hpr⟩ := h.root r hr
  have hrn : r ≠ n := fun he => hn (he ▸ hHr)
  have hold : ∀ x, H x → x ≠ n ∧ (f.nodes r).key ≤ (f.nodes x).key := by
    intro x hx
    obtain ⟨y, hy, hle⟩ := h.min x hx
    obtain rfl := Option.some.inj (hr.symm.trans hy)
    exact ⟨fun he => hn (he ▸ hx), hle⟩
  refine ⟨hshape, ?_, ?_, ?_, hslots⟩
  · obtain ⟨kids, hs⟩ := h.shape
    obtain ⟨w, hw⟩ := h.ordered
    refine ⟨w, ?_⟩
    intro x p hx hp
    rw [par_none, hpar] at hp
    split at hp
    · exact nomatch hp
    · next hxn =>
      have hHx := hx.resolve_right hxn
      have hp' : f.par none x = some p := (par_none f x).trans hp
      rw [hkey, hkey, if_neg hxn, if_neg (hold p (hs.owner x p hHx hp')).1]
      exact hw x p hHx hp'
  · intro x hx
    rw [hmin] at hx
    obtain rfl := Option.some.inj hx
    rw [hpar]
    by_cases hgt : (f.nodes r).key > key
    · rw [if_pos hgt]
      exact ⟨.inr rfl, if_pos rfl⟩
    · rw [if_neg hgt, if_neg hrn]
      exact ⟨.inl hHr, hpr⟩
  · intro x hx
    refine ⟨_, hmin, ?_⟩
    have hnew : x = n → (f'.nodes x).key = key := fun he => (hkey x).trans (if_pos he)
    have hsame : H x → (f'.nodes x).key = (f.nodes x).key := fun hx => (hkey x).trans (if_neg (hold x hx).1)
    split
    · next hgt =>
      rw [hkey, if_pos rfl]
      rcases hx with hx | hx
      · rw [hsame hx]
        exact BitVec.le_trans (BitVec.le_of_lt hgt) (hold x hx).2
      · rw [hnew hx]
        exact BitVec.le_refl _
    · next hle =>
      rw [hkey, if_neg hrn]
      rcases hx with hx | hx
      · exact (hsame hx).symm ▸ (hold x hx).2
      · rw [hnew hx]
        exact BitVec.not_lt.mp hle

theorem Forest.add (h : Forest f H) (hn : ¬ H n) (hlt : n < f.nNodes) (key : BitVec 32) :
    Forest (fheapAdd f n key) (fun x => H x ∨ x = n) ∧
      ∀ x, ((fheapAdd f n key).nodes x).key = if x = n then key else (f.nodes x).key := by
  obtain ⟨kids, hs⟩ := h.shape
  have hstart := hs.enlist hn hlt (g := fun _ => addedNode key) ⟨rfl, rfl, rfl⟩
  have hkey (x : Nat) : ((f.modify n fun _ => addedNode key).nodes x).key = if x = n then key else (f.nodes x).key := by
    rw [nodes_modify]
    split <;> rfl
  have hparent (x : Nat) : ((f.modify n fun _ => addedNode key).nodes x).parent =
      if x = n then none else (f.nodes x).parent := by
    rw [nodes_modify]
    split <;> rfl
  have hmain : (f.modify n fun _ => addedNode key).minRoot = f.minRoot := rfl
  have hslots : (f.modify n fun _ => addedNode key).rootListByRank.reduceOption = [] := h.slots
  have hfirst := fun hr => h.addFirst hr hlt key
  unfold fheapAdd
  generalize (f.modify n fun _ => addedNode key) = g at *
  dsimp only
  rw [hmain]
  cases hr : f.minRoot with
  | none => exact ⟨hfirst hr, hkey⟩
  | some r =>
    obtain ⟨hHr, hpr⟩ := h.root r hr
    have hrn : r ≠ n := fun he => hn (he ▸ hHr)
    have hpr' : (g.nodes r).parent = none := by
      rw [hparent, if_neg hrn, hpr]
    have hrm : r ∈ kids none := (hs.mem none r).mpr ⟨hHr, nofun, (par_none f r).trans hpr⟩
    obtain ⟨rest, hcirc, hperm⟩ := hstart.enter hrm
    have hadd := (hstart.reorder hcirc hperm).add (.inr rfl) (update_self ..) hpr' nofun
    have hkept := addSibling_kept g r n
    have hparent' := parent_addSibling g r n
    dsimp only
    generalize fheapNodeAddSibling g r n = g' at *
    have hkey' (x : Nat) := (hkept.key x).trans (hkey x)
    have hpar (x : Nat) : (g'.nodes x).parent = if x = n then none else (f.nodes x).parent := by
      rw [hparent', hpr', hparent]
      exact ite_congr rfl (fun _ => rfl) fun hx => if_neg hx
    have hslots' : g'.rootListByRank.reduceOption = [] := hkept.ranks ▸ hslots
    have hrkey : (g.nodes r).key = (f.nodes r).key := by
      rw [hkey, if_neg hrn]
    rw [hrkey]
    split
    · next hgt =>
      refine ⟨h.addRoot hn hr ⟨_, hadd.setMain (some n) g'.rootListByRank⟩ hkey' hpar ?_ hslots', hkey'⟩
      rw [if_pos hgt]
    · next hle =>
      refine ⟨h.addRoot hn hr ⟨_, hadd⟩ hkey' hpar ?_ hslots', hkey'⟩
      rw [if_neg hle, hkept.minRoot, hmain, hr]

/-- A node leaves its list and goes behind the minimum. -/
theorem Shape.cut (h : Shape f none none H kids) (hm : f.minRoot = some m) (hmp : (f.nodes m).parent = none)
    (hi : kids o = i :: rest) (hroots : update kids o rest none = ys ++ m :: xs) :
    Shape (cut f i) none none H (update (update kids o rest) none (m :: i :: (xs ++ ys))) ∧
      Kept f (cut f i) ∧ ∀ x, ((cut f i).nodes x).parent = if x = i then none else (f.nodes x).parent := by
  have hmem : i ∈ kids o := by
    rw [hi]
    exact mem_cons_self
  obtain ⟨hHi, -, hpi⟩ := (h.mem o i).mp hmem
  rw [par_none] at hpi
  obtain ⟨hrem, -, -⟩ := h.remove hi hpi false
  have hkept := remove_kept f i false
  have hparent := parent_remove f i false
  unfold Infra.cut fheapNodeRemove
  rw [hm]
  dsimp only
  generalize (fheapNodeRemoveInternal f i false).1 = g at *
  have hmp' : (g.nodes m).parent = none := by
    rw [hparent, hmp]
    exact ite_self none
  have hcirc := hrem.circle none
  rw [hroots] at hcirc
  have hperm : (m :: (xs ++ ys)).Perm (update kids o rest none) := by
    rw [hroots]
    exact (perm_append_comm.cons m).trans perm_middle.symm
  have hadd := (hrem.reorder hcirc.rotate hperm).add hHi (update_self ..) hmp' nofun
  rw [update_idem] at hadd
  refine ⟨hadd, hkept.trans (addSibling_kept g m i), ?_⟩
  intro x
  rw [parent_addSibling, hmp', hparent]
  split <;> rfl

theorem Shape.cut_child (h : Shape f none none H kids) (hm : f.minRoot = some m) (hmp : (f.nodes m).parent = none)
    (hHm : H m) (hi : H i) (hpi : (f.nodes i).parent = some p) :
    ∃ kids', Shape (Infra.cut f i) none none H kids' ∧ Kept f (Infra.cut f i) ∧
      ∀ x, ((Infra.cut f i).nodes x).parent = if x = i then none else (f.nodes x).parent := by
  obtain ⟨rest, hcirc, hperm⟩ := h.enter ((h.mem _ i).mpr ⟨hi, nofun, (par_none f i).trans hpi⟩)
  obtain ⟨xs, ys, hroots⟩ := append_of_mem ((h.mem none m).mpr ⟨hHm, nofun, (par_none f m).trans hmp⟩)
  have hroots' : update (update kids (some p) (i :: rest)) (some p) rest none = xs ++ m :: ys := by
    rw [update_of_ne (by simp), update_of_ne (by simp), hroots]
  exact ⟨_, (h.reorder hcirc hperm).cut hm hmp (update_self ..) hroots'⟩

/-- The walk up ends at once: a node that has been cut is a root. -/
theorem Shape.markParent (h : Shape f none none H kids) (hm : f.minRoot = some m) (hmp : (f.nodes m).parent = none)
    (hHm : H m) (hp : H p) (n : Nat) :
    ∃ kids', Shape (fheapMarkParent n f p) none none H kids' ∧ Kept f (fheapMarkParent n f p) ∧
      ∀ x, ((fheapMarkParent n f p).nodes x).parent = (f.nodes x).parent ∨
        x = p ∧ ((fheapMarkParent n f p).nodes x).parent = none := by
  cases n with
  | zero => exact ⟨kids, h, .refl f, fun _ => .inl rfl⟩
  | succ n =>
    unfold fheapMarkParent
    cases hpp : (f.nodes p).parent with
    | none =>
      rw [if_pos rfl]
      exact ⟨kids, h, .refl f, fun _ => .inl rfl⟩
    | some q =>
      rw [if_neg nofun]
      split
      · refine ⟨kids, h.modify (g := fun x => { x with isMarked := true }) (fun _ => ⟨rfl, rfl, rfl, rfl, rfl⟩) p,
            ?_, ?_⟩
        · exact kept_modify (g := fun x => { x with isMarked := true }) (fun _ => rfl) f p
        · exact fun x => .inl (proj_modify (p := FheapNode.parent) (g := fun x => { x with isMarked := true })
            (fun _ => rfl) f p x)
      · obtain ⟨kids', hcut, hkept, hparent⟩ := h.cut_child hm hmp hHm hp hpp
        have hmark := hcut.modify (g := fun x => { x with isMarked := false }) (fun _ => ⟨rfl, rfl, rfl, rfl, rfl⟩) p
        have hmarked := hkept.trans (kept_modify (g := fun x => { x with isMarked := false }) (fun _ => rfl) _ p)
        have hparent' (x : Nat) : (((Infra.cut f p).modify p fun x => { x with isMarked := false }).nodes x).parent =
            if x = p then none else (f.nodes x).parent := by
          rw [proj_modify (p := FheapNode.parent), hparent]
          exact fun _ => rfl
        dsimp only
        rw [hparent', if_pos rfl]
        refine ⟨kids', hmark, hmarked, ?_⟩
        intro x
        rw [hparent']
        split
        · next he => exact .inr ⟨he, rfl⟩
        · exact .inl rfl

theorem Forest.parent_ne (h : Forest f H) (hi : H i) (hp : (f.nodes i).parent = some p) : H p ∧ p ≠ i := by
  obtain ⟨kids, hs⟩ := h.shape
  obtain ⟨w, hw⟩ := h.ordered
  have hp' := (par_none f i).trans hp
  refine ⟨hs.owner i p hi hp', ?_⟩
  rintro rfl
  exact Nat.lt_irrefl _ (hw p p hi hp').1

/-- Nodes became roots, and the key of a root went down. -/
theorem Forest.lower (h : Forest f H) (hs : Shape f' none none H kids) (hr : f.minRoot = some r)
    (hmain : f'.minRoot = some r) (hranks : f'.rootListByRank = f.rootListByRank)
    (hparent : ∀ x, (f'.nodes x).parent = (f.nodes x).parent ∨ (f'.nodes x).parent = none) (hi : H i)
    (hpi : (f'.nodes i).parent = none) (hle : key ≤ (f.nodes i).key)
    (hkey : ∀ x, (f'.nodes x).key = if x = i then key else (f.nodes x).key) :
    Forest (if key < (f'.nodes r).key then { f' with minRoot := some i } else f') H := by
  have hord : Ordered f' none H := by
    refine h.ordered.mono (fun _ => id) ?_ ?_
    · intro x p hx hp
      rw [par_none] at hp
      have hxi : x ≠ i := by
        rintro rfl
        exact nomatch hp.symm.trans hpi
      rw [hkey, if_neg hxi, par_none]
      exact ⟨((hparent x).resolve_right fun hn => nomatch hp.symm.trans hn).symm.trans hp, rfl⟩
    · intro x
      rw [hkey]
      split
      · next he => exact he ▸ hle
      · exact BitVec.le_refl _
  have hold (x : Nat) (hx : H x) : (f.nodes r).key ≤ (f.nodes x).key := by
    obtain ⟨y, hy, hle⟩ := h.min x hx
    exact Option.some.inj (hy.symm.trans hr) ▸ hle
  have hslots : f'.rootListByRank.reduceOption = [] := hranks ▸ h.slots
  split
  · next hlt =>
    have hri : r ≠ i := by
      rintro rfl
      rw [hkey, if_pos rfl] at hlt
      exact BitVec.lt_irrefl _ hlt
    refine ⟨⟨kids, hs.setMain (some i) f'.rootListByRank⟩, hord, ?_, ?_, hslots⟩
    · rintro x ⟨⟩
      exact ⟨hi, hpi⟩
    · intro x hx
      refine ⟨i, rfl, ?_⟩
      show (f'.nodes i).key ≤ (f'.nodes x).key
      rw [hkey r, if_neg hri] at hlt
      rw [hkey, if_pos rfl, hkey]
      split
      · exact BitVec.le_refl _
      · exact BitVec.le_trans (BitVec.le_of_lt hlt) (hold x hx)
  · next hge =>
    refine ⟨⟨kids, hs⟩, hord, ?_, ?_, hslots⟩
    · intro x hx
      obtain rfl := Option.some.inj (hx.symm.trans hmain)
      obtain ⟨hHx, hpx⟩ := h.root x hr
      exact ⟨hHx, (hparent x).elim (fun he => he.trans hpx) id⟩
    · intro x hx
      refine ⟨r, hmain, ?_⟩
      rw [hkey x]
      split
      · exact BitVec.not_lt.mp hge
      · rw [hkey]
        split
        · next hri => exact BitVec.le_trans hle (hri ▸ hold x hx)
        · exact hold x hx

theorem Forest.decreaseKey (h : Forest f H) (hi : H i) (hle : key ≤ (f.nodes i).key) :
    Forest (fheapDecreaseKey f i key) H ∧
      ∀ x, ((fheapDecreaseKey f i key).nodes x).key = if x = i then key else (f.nodes x).key := by
  obtain ⟨kids, hs⟩ := h.shape
  obtain ⟨r, hr, -⟩ := h.min i hi
  obtain ⟨hHr, hpr⟩ := h.root r hr
  have hset := hs.modify (g := fun x => { x with key := key }) (fun _ => ⟨rfl, rfl, rfl, rfl, rfl⟩) i
  have hparent (x : Nat) : ((f.modify i fun x => { x with key := key }).nodes x).parent = (f.nodes x).parent :=
    proj_modify (p := FheapNode.parent) (g := fun x => { x with key := key }) (fun _ => rfl) f i x
  have hkey (x : Nat) : ((f.modify i fun x => { x with key := key }).nodes x).key =
      if x = i then key else (f.nodes x).key := by
    rw [nodes_modify]
    split <;> rfl
  have hmain : (f.modify i fun x => { x with key := key }).minRoot = some r := hr
  have hranks : (f.modify i fun x => { x with key := key }).rootListByRank = f.rootListByRank := rfl
  unfold fheapDecreaseKey
  generalize (f.modify i fun x => { x with key := key }) = g at *
  dsimp only
  rw [hmain]
  cases hp : (g.nodes i).parent with
  | none =>
    dsimp only
    refine ⟨h.lower hset hr hmain hranks (fun x => .inl (hparent x)) hi hp hle hkey, ?_⟩
    intro x
    rw [← hkey]
    split <;> rfl
  | some p =>
    obtain ⟨hHp, hpi⟩ := h.parent_ne hi ((hparent i).symm.trans hp)
    obtain ⟨kids1, hs1, hkept1, hparent1⟩ := hset.markParent hmain ((hparent r).trans hpr) hHr hHp g.nNodes
    have hpr1 : ((fheapMarkParent g.nNodes g p).nodes r).parent = none := by
      rcases hparent1 r with he | he
      · exact he.trans ((hparent r).trans hpr)
      · exact he.2
    have hpi1 := ((hparent1 i).resolve_right fun he => hpi he.1.symm).trans hp
    obtain ⟨kids2, hs2, hkept2, hparent2⟩ := hs1.cut_child (hkept1.minRoot.trans hmain) hpr1 hHr hi hpi1
    have hkept := hkept1.trans hkept2
    dsimp only
    have hparent3 (x : Nat) : ((cut (fheapMarkParent g.nNodes g p) i).nodes x).parent = (f.nodes x).parent ∨
        ((cut (fheapMarkParent g.nNodes g p) i).nodes x).parent = none := by
      rw [hparent2]
      split
      · exact .inr rfl
      · exact (hparent1 x).imp (fun he => he.trans (hparent x)) And.right
    have hkey2 (x : Nat) := (hkept.key x).trans (hkey x)
    have hpi2 : ((cut (fheapMarkParent g.nNodes g p) i).nodes i).parent = none := by
      rw [hparent2, if_pos rfl]
    refine ⟨h.lower hs2 hr (hkept.minRoot.trans hmain) (hkept.ranks.trans hranks) hparent3 hi hpi2 hle hkey2, ?_⟩
    intro x
    rw [← hkey2]
    split <;> rfl

end Vpp.Infra
