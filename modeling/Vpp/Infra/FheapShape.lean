import Mathlib.Algebra.Order.Group.Nat
import Vpp.Infra.Fheap
import Vpp.Lib.Circles

namespace Vpp.Infra
open Vpp.Lib Function List

variable {f f' : Fheap} {d lim o : Option Nat} {H : Nat → Prop} {kids : Option Nat → List Nat} {i j n p r c x : Nat}
  {rest : List Nat}

theorem nodes_modify (f : Fheap) (i : Nat) (g : FheapNode → FheapNode) (x : Nat) :
    (f.modify i g).nodes x = if x = i then g (f.nodes i) else f.nodes x := update_apply ..

theorem modifyAt_some (f : Fheap) (i : Nat) (g : FheapNode → FheapNode) : f.modifyAt (some i) g = f.modify i g := rfl

variable {p : FheapNode → β}

theorem proj_modify {g : FheapNode → FheapNode} (hg : ∀ a, p (g a) = p a) (f : Fheap) (i x : Nat) :
    p ((f.modify i g).nodes x) = p (f.nodes x) := by
  rw [nodes_modify]
  split
  · next he => rw [hg, he]
  · rfl

theorem proj_modifyAt {g : FheapNode → FheapNode} (hg : ∀ a, p (g a) = p a) (f : Fheap)
    (i : Option Nat) (x : Nat) : p ((f.modifyAt i g).nodes x) = p (f.nodes x) := by
  cases i with
  | none => rfl
  | some i => exact proj_modify hg f i x

/-- The neighbours of a node, which is its own neighbour where it has none. -/
def Fheap.links (f : Fheap) : Links :=
  ⟨fun i => (f.nodes i).nextSibling.getD i, fun i => (f.nodes i).prevSibling.getD i⟩

variable {g : FheapNode → FheapNode}

theorem links_modify (hn : ∀ a, (g a).nextSibling = a.nextSibling)
    (hp : ∀ a, (g a).prevSibling = a.prevSibling) (f : Fheap) (i : Nat) : (f.modify i g).links = f.links := by
  unfold Fheap.links
  congr 1
  · funext x
    rw [proj_modify hn]
  · funext x
    rw [proj_modify hp]

theorem links_modifyAt (hn : ∀ a, (g a).nextSibling = a.nextSibling)
    (hp : ∀ a, (g a).prevSibling = a.prevSibling) (f : Fheap) (i : Option Nat) : (f.modifyAt i g).links = f.links := by
  cases i with
  | none => rfl
  | some i => exact links_modify hn hp f i

theorem links_setNext (hn : ∀ a, (g a).nextSibling = some y)
    (hp : ∀ a, (g a).prevSibling = a.prevSibling) (f : Fheap) (i : Nat) :
    (f.modify i g).links = f.links.setNext i y := by
  unfold Fheap.links Links.setNext
  congr 1
  · funext x
    rw [nodes_modify, update_apply]
    split
    · rw [hn]
      rfl
    · rfl
  · funext x
    rw [proj_modify hp]

theorem links_setPrev (hn : ∀ a, (g a).nextSibling = a.nextSibling)
    (hp : ∀ a, (g a).prevSibling = some y) (f : Fheap) (i : Nat) : (f.modify i g).links = f.links.setPrev i y := by
  unfold Fheap.links Links.setPrev
  congr 1
  · funext x
    rw [proj_modify hn]
  · funext x
    rw [nodes_modify, update_apply]
    split
    · rw [hp]
      rfl
    · rfl

theorem links_setBoth (hn : ∀ a, (g a).nextSibling = some y)
    (hp : ∀ a, (g a).prevSibling = some z) (f : Fheap) (i : Nat) :
    (f.modify i g).links = (f.links.setNext i y).setPrev i z := by
  unfold Fheap.links Links.setNext Links.setPrev
  congr 1
  · funext x
    show _ = update (fun i => (f.nodes i).nextSibling.getD i) i y x
    rw [nodes_modify, update_apply]
    split
    · rw [hn]
      rfl
    · rfl
  · funext x
    show _ = update (fun i => (f.nodes i).prevSibling.getD i) i z x
    rw [nodes_modify, update_apply]
    split
    · rw [hp]
      rfl
    · rfl

/-- The parent, where a node whose parent is `d` has become a root. -/
def Fheap.par (d : Option Nat) (f : Fheap) (i : Nat) : Option Nat :=
  if (f.nodes i).parent = d then none else (f.nodes i).parent

def Fheap.Linked (f : Fheap) (i : Nat) : Prop := (f.nodes i).nextSibling ≠ none ∧ (f.nodes i).prevSibling ≠ none

/-- The nodes `H` are in circular lists of siblings, `kids o` those of the parent `o`, and the roots without one. Of a
node `d` that goes, the children are roots already, and a node `lim` is between two lists. -/
structure Shape (f : Fheap) (d lim : Option Nat) (H : Nat → Prop) (kids : Option Nat → List Nat) : Prop where
  circle : ∀ o, f.links.Circle (kids o)
  mem : ∀ o i, i ∈ kids o ↔ H i ∧ some i ≠ lim ∧ f.par d i = o
  owner : ∀ i p, H i → f.par d i = some p → H p
  first : ∀ p, H p → some p ≠ d →
    (f.nodes p).firstChild = none ∧ kids (some p) = [] ∨ ∃ c ∈ kids (some p), (f.nodes p).firstChild = some c
  rank : ∀ p, H p → some p ≠ d → (f.nodes p).rank = (kids (some p)).length
  linked : ∀ i, H i → some i ≠ lim → f.Linked i ∨
    (f.nodes i).nextSibling = none ∧ (f.nodes i).prevSibling = none ∧ ∀ j, H j → some j ≠ lim → j = i
  bound : ∀ i, H i → i < f.nNodes

/-- Nodes that can be followed up to a root, along which keys do not grow. -/
def Ordered (f : Fheap) (d : Option Nat) (H : Nat → Prop) : Prop :=
  ∃ w : Nat → Nat, ∀ i p, H i → f.par d i = some p → w i < w p ∧ (f.nodes p).key ≤ (f.nodes i).key

theorem par_none (f : Fheap) (i : Nat) : f.par none i = (f.nodes i).parent := by
  rw [Fheap.par]
  split
  · next he => exact he.symm
  · rfl

theorem par_of_parent (h : (f.nodes i).parent = none) : f.par d i = none := by
  rw [Fheap.par, h]
  exact ite_self none

theorem Shape.owner_unique (h : Shape f d lim H kids) (ho : i ∈ kids o) (ho' : i ∈ kids o') : o = o' :=
  ((h.mem o i).mp ho).2.2.symm.trans ((h.mem o' i).mp ho').2.2

theorem Shape.enter (h : Shape f d lim H kids) (hi : i ∈ kids o) : ∃ rest, f.links.Circle (i :: rest) ∧
    (i :: rest).Perm (kids o) := by
  obtain ⟨xs, ys, he⟩ := append_of_mem hi
  have hc := h.circle o
  rw [he] at hc ⊢
  exact ⟨ys ++ xs, hc.rotate, (perm_append_comm.cons i).trans perm_middle.symm⟩

/-- The order of the lists does not matter, but for where a circle is entered. -/
theorem Shape.reorder (h : Shape f d lim H kids) (hc : f.links.Circle rest) (hp : rest.Perm (kids o)) :
    Shape f d lim H (update kids o rest) := by
  have hmem (o' : Option Nat) (i : Nat) : i ∈ update kids o rest o' ↔ i ∈ kids o' := by
    rw [update_apply]
    split
    · next he =>
      subst he
      exact hp.mem_iff
    · rfl
  refine ⟨?_, fun o' i => (hmem o' i).trans (h.mem o' i), h.owner, ?_, ?_, h.linked, h.bound⟩
  · intro o'
    rw [update_apply]
    split
    · exact hc
    · exact h.circle o'
  · intro p hp' hd
    refine (h.first p hp' hd).imp (fun hf => ⟨hf.1, ?_⟩) fun ⟨c, hc, hf⟩ => ⟨c, (hmem _ _).mpr hc, hf⟩
    rw [eq_nil_iff_forall_not_mem]
    intro i hi
    rw [hmem, hf.2] at hi
    exact not_mem_nil hi
  · intro p hp' hd
    rw [h.rank p hp' hd, update_apply]
    split
    · next he =>
      rw [he]
      exact hp.length_eq.symm
    · rfl

theorem kept_addSibling (hp : ∀ a next prev parent rank, p { a with
      nextSibling := next
      prevSibling := prev
      parent := parent
      rank := rank } = p a) (f : Fheap) (i j x : Nat) : p ((fheapNodeAddSibling f i j).nodes x) = p (f.nodes x) := by
  have hkeep {g : FheapNode → FheapNode} (hg : ∀ a, ∃ next prev parent rank, g a = { a with
      nextSibling := next
      prevSibling := prev
      parent := parent
      rank := rank }) (a : FheapNode) : p (g a) = p a := by
    obtain ⟨next, prev, parent, rank, he⟩ := hg a
    rw [he, hp]
  unfold fheapNodeAddSibling
  dsimp only
  rw [proj_modifyAt (p := p), proj_modify (p := p)]
  · split
    · rw [proj_modify (p := p), proj_modify (p := p)]
      all_goals exact hkeep fun a => ⟨_, _, _, _, rfl⟩
    · rw [proj_modify (p := p), proj_modify (p := p), proj_modify (p := p)]
      all_goals exact hkeep fun a => ⟨_, _, _, _, rfl⟩
  all_goals exact hkeep fun a => ⟨_, _, _, _, rfl⟩

theorem kept_remove (hp : ∀ a next prev parent rank child valid, p { a with
      nextSibling := next
      prevSibling := prev
      parent := parent
      rank := rank
      firstChild := child
      isValid := valid } = p a) (f : Fheap) (i : Nat) (b : Bool) (x : Nat) :
    p ((fheapNodeRemoveInternal f i b).1.nodes x) = p (f.nodes x) := by
  have hkeep {g : FheapNode → FheapNode} (hg : ∀ a, ∃ next prev parent rank child valid, g a = { a with
      nextSibling := next
      prevSibling := prev
      parent := parent
      rank := rank
      firstChild := child
      isValid := valid }) (a : FheapNode) : p (g a) = p a := by
    obtain ⟨next, prev, parent, rank, child, valid, he⟩ := hg a
    rw [he, hp]
  unfold fheapNodeRemoveInternal
  dsimp only
  rw [proj_modify (p := p), proj_modifyAt (p := p), proj_modifyAt (p := p), proj_modifyAt (p := p)]
  all_goals exact hkeep fun a => ⟨_, _, _, _, _, _, rfl⟩

theorem key_addSibling (f : Fheap) (i j x : Nat) : ((fheapNodeAddSibling f i j).nodes x).key = (f.nodes x).key :=
  kept_addSibling (p := FheapNode.key) (fun _ _ _ _ _ => rfl) f i j x

theorem firstChild_addSibling (f : Fheap) (i j x : Nat) :
    ((fheapNodeAddSibling f i j).nodes x).firstChild = (f.nodes x).firstChild :=
  kept_addSibling (p := FheapNode.firstChild) (fun _ _ _ _ _ => rfl) f i j x

theorem key_remove (f : Fheap) (i : Nat) (b : Bool) (x : Nat) :
    ((fheapNodeRemoveInternal f i b).1.nodes x).key = (f.nodes x).key :=
  kept_remove (p := FheapNode.key) (fun _ _ _ _ _ _ _ => rfl) f i b x

theorem parent_addSibling (f : Fheap) (i j x : Nat) :
    ((fheapNodeAddSibling f i j).nodes x).parent = if x = j then (f.nodes i).parent else (f.nodes x).parent := by
  unfold fheapNodeAddSibling
  dsimp only
  rw [proj_modifyAt (p := FheapNode.parent), nodes_modify]
  · split
    · rfl
    · split
      · rw [proj_modify (p := FheapNode.parent), proj_modify (p := FheapNode.parent)]
        all_goals exact fun _ => rfl
      · rw [proj_modify (p := FheapNode.parent), proj_modify (p := FheapNode.parent),
          proj_modify (p := FheapNode.parent)]
        all_goals exact fun _ => rfl
  · exact fun _ => rfl

theorem rank_addSibling (f : Fheap) (i j x : Nat) : ((fheapNodeAddSibling f i j).nodes x).rank =
    if (f.nodes i).parent = some x then (f.nodes x).rank + 1 else (f.nodes x).rank := by
  have hstart : ∀ g : Fheap, (∀ y, (g.nodes y).rank = (f.nodes y).rank) → ∀ o : Option Nat,
      ((g.modifyAt o fun a => { a with rank := a.rank + 1 }).nodes x).rank =
        if o = some x then (f.nodes x).rank + 1 else (f.nodes x).rank := by
    intro g hg o
    cases o with
    | none => rw [if_neg nofun]; exact hg x
    | some y =>
      rw [Fheap.modifyAt, nodes_modify]
      by_cases hx : x = y
      · rw [if_pos hx, if_pos (by rw [hx]), hx]
        exact congrArg (· + 1) (hg y)
      · rw [if_neg hx, if_neg (by simpa using Ne.symm hx)]
        exact hg x
  apply hstart
  intro y
  rw [proj_modify (p := FheapNode.rank)]
  · split
    · rw [proj_modify (p := FheapNode.rank), proj_modify (p := FheapNode.rank)]
      all_goals exact fun _ => rfl
    · rw [proj_modify (p := FheapNode.rank), proj_modify (p := FheapNode.rank), proj_modify (p := FheapNode.rank)]
      all_goals exact fun _ => rfl
  · exact fun _ => rfl

theorem parent_remove (f : Fheap) (i : Nat) (b : Bool) (x : Nat) :
    ((fheapNodeRemoveInternal f i b).1.nodes x).parent = if x = i then none else (f.nodes x).parent := by
  unfold fheapNodeRemoveInternal
  dsimp only
  rw [nodes_modify]
  split
  · rfl
  · rw [proj_modifyAt (p := FheapNode.parent), proj_modifyAt (p := FheapNode.parent),
      proj_modifyAt (p := FheapNode.parent)]
    all_goals exact fun _ => rfl

theorem links_addSibling (hij : i ≠ j) :
    (fheapNodeAddSibling f i j).links = f.links.linkAfter i j := by
  have hstart {g : Fheap} (hg : g.links = f.links.linkAfter i j) (o : Option Nat) :
      ((g.modify j fun x => { x with parent := o }).modifyAt o fun x => { x with rank := x.rank + 1 }).links =
        f.links.linkAfter i j := by
    rw [links_modifyAt, links_modify, hg]
    all_goals exact fun _ => rfl
  apply hstart
  cases hn : (f.nodes i).nextSibling with
  | none =>
    have hnext : f.links.next i = i := congrArg (Option.getD · i) hn
    dsimp only
    rw [links_setBoth (y := i) (z := i), links_setBoth (y := j) (z := j), Links.linkAfter, hnext]
    · unfold Links.setNext Links.setPrev
      congr 1
      · exact update_comm hij _ _ _
      · exact update_comm hij _ _ _
    all_goals exact fun _ => rfl
  | some y =>
    have hnext : f.links.next i = y := congrArg (Option.getD · i) hn
    dsimp only
    rw [links_setPrev (y := j), links_setNext (y := j), links_setBoth (y := y) (z := i), Links.linkAfter, hnext]
    all_goals exact fun _ => rfl

theorem links_remove (hlone : (f.nodes i).nextSibling = none ↔ (f.nodes i).prevSibling = none) (b : Bool) :
    (fheapNodeRemoveInternal f i b).1.links = f.links.takeOut i := by
  unfold fheapNodeRemoveInternal Links.takeOut
  dsimp only
  rw [links_setBoth (y := i) (z := i)]
  · cases hn : (f.nodes i).nextSibling with
    | none =>
      have hp := hlone.mp hn
      have hnext : f.links.next i = i := congrArg (Option.getD · i) hn
      have hprev : f.links.prev i = i := congrArg (Option.getD · i) hp
      rw [hp]
      show ((Fheap.links (f.modifyAt _ _)).setNext i i).setPrev i i = _
      rw [links_modifyAt, Links.unlink, hnext, hprev]
      · unfold Links.clear Links.setNext Links.setPrev
        dsimp only
        rw [update_idem, update_idem]
      all_goals exact fun _ => rfl
    | some y =>
      obtain ⟨z, hp⟩ := Option.ne_none_iff_exists'.mp fun hp => Option.some_ne_none y (hn.symm.trans (hlone.mpr hp))
      have hnext : f.links.next i = y := congrArg (Option.getD · i) hn
      have hprev : f.links.prev i = z := congrArg (Option.getD · i) hp
      rw [hp, modifyAt_some, modifyAt_some, links_setPrev (y := z), links_setNext (y := y), links_modifyAt,
          Links.unlink, hnext, hprev]
      · rfl
      all_goals exact fun _ => rfl
  all_goals exact fun _ => rfl

theorem linked_modify (hn : ∀ a, (g a).nextSibling = none → a.nextSibling = none)
    (hp : ∀ a, (g a).prevSibling = none → a.prevSibling = none) (h : f.Linked x) : (f.modify i g).Linked x := by
  unfold Fheap.Linked
  rw [nodes_modify]
  split
  · next he => exact ⟨fun hc => (he ▸ h).1 (hn _ hc), fun hc => (he ▸ h).2 (hp _ hc)⟩
  · exact h

theorem linked_modifyAt {o : Option Nat} {g : FheapNode → FheapNode}
    (hn : ∀ a, (g a).nextSibling = none → a.nextSibling = none)
    (hp : ∀ a, (g a).prevSibling = none → a.prevSibling = none) (h : f.Linked x) : (f.modifyAt o g).Linked x := by
  cases o with
  | none => exact h
  | some i => exact linked_modify hn hp h

theorem linked_addSibling (hi : (f.nodes i).nextSibling ≠ none → (f.nodes i).prevSibling ≠ none) (hij : i ≠ j)
    (hx : x = i ∨ x = j ∨ f.Linked x) : (fheapNodeAddSibling f i j).Linked x := by
  have hstart {g : Fheap} (hg : g.Linked x) (o : Option Nat) :
      ((g.modify j fun x => { x with parent := o }).modifyAt o fun x => { x with rank := x.rank + 1 }).Linked x := by
    apply linked_modifyAt
    · exact fun _ => id
    · exact fun _ => id
    · apply linked_modify
      · exact fun _ => id
      · exact fun _ => id
      · exact hg
  apply hstart
  split
  · next hnone =>
    unfold Fheap.Linked
    rw [nodes_modify]
    by_cases hxj : x = j
    · rw [if_pos hxj]
      exact ⟨nofun, nofun⟩
    · rw [if_neg hxj, nodes_modify]
      by_cases hxi : x = i
      · rw [if_pos hxi]
        exact ⟨nofun, nofun⟩
      · rw [if_neg hxi]
        exact (hx.resolve_left hxi).resolve_left hxj
  · next y hsome =>
    apply linked_modify
    · exact fun _ => id
    · exact nofun
    · unfold Fheap.Linked
      rw [nodes_modify, nodes_modify, if_neg hij, nodes_modify]
      by_cases hxi : x = i
      · rw [if_pos hxi]
        exact ⟨nofun, hi (by rw [hsome]; exact nofun)⟩
      · rw [if_neg hxi]
        by_cases hxj : x = j
        · rw [if_pos hxj]
          exact ⟨nofun, nofun⟩
        · rw [if_neg hxj]
          exact (hx.resolve_left hxi).resolve_left hxj

theorem linked_remove (hi : f.Linked i) (b : Bool) (hx : f.Linked x) : (fheapNodeRemoveInternal f i b).1.Linked x := by
  unfold fheapNodeRemoveInternal
  dsimp only
  apply linked_modify
  · exact nofun
  · exact nofun
  · apply linked_modifyAt
    · exact fun _ => id
    · exact fun _ hc => absurd hc hi.2
    · apply linked_modifyAt
      · exact fun _ hc => absurd hc hi.1
      · exact fun _ => id
      · apply linked_modifyAt
        · exact fun _ => id
        · exact fun _ => id
        · exact hx

theorem child_remove (f : Fheap) (i : Nat) (b : Bool) (x : Nat) :
    ((fheapNodeRemoveInternal f i b).1.nodes x).firstChild =
      if (f.nodes i).parent = some x then (fheapNodeRemoveInternal f i b).2 else (f.nodes x).firstChild := by
  unfold fheapNodeRemoveInternal
  dsimp only
  generalize (if (f.nodes i).prevSibling = some i then none else (f.nodes i).nextSibling) = result
  rw [proj_modify (p := FheapNode.firstChild), proj_modifyAt (p := FheapNode.firstChild),
    proj_modifyAt (p := FheapNode.firstChild)]
  · cases ho : (f.nodes i).parent with
    | none => rw [if_neg nofun]; rfl
    | some y =>
      rw [modifyAt_some, nodes_modify]
      by_cases hx : x = y
      · rw [if_pos hx, if_pos (by rw [hx])]
      · rw [if_neg hx, if_neg (by simpa using Ne.symm hx)]
  all_goals exact fun _ => rfl

theorem rank_remove (f : Fheap) (i : Nat) (b : Bool) (x : Nat) : ((fheapNodeRemoveInternal f i b).1.nodes x).rank =
    if (f.nodes i).parent = some x then (f.nodes x).rank - 1 else (f.nodes x).rank := by
  unfold fheapNodeRemoveInternal
  dsimp only
  generalize (if (f.nodes i).prevSibling = some i then none else (f.nodes i).nextSibling) = result
  rw [proj_modify (p := FheapNode.rank), proj_modifyAt (p := FheapNode.rank), proj_modifyAt (p := FheapNode.rank)]
  · cases ho : (f.nodes i).parent with
    | none => rw [if_neg nofun]; rfl
    | some y =>
      rw [modifyAt_some, nodes_modify]
      by_cases hx : x = y
      · rw [if_pos hx, if_pos (by rw [hx]), hx]
      · rw [if_neg hx, if_neg (by simpa using Ne.symm hx)]
  all_goals exact fun _ => rfl

theorem nNodes_addSibling (f : Fheap) (i j : Nat) : (fheapNodeAddSibling f i j).nNodes = f.nNodes := by
  unfold fheapNodeAddSibling Fheap.modifyAt
  dsimp only
  cases (f.nodes i).parent <;> cases (f.nodes i).nextSibling <;> rfl

/-- A node between lists goes in behind a sibling. -/
theorem Shape.add (h : Shape f d (some n) H kids) (hn : H n) (hj : kids o = j :: rest) (hreal : (f.nodes j).parent = o)
    (hon : o ≠ some n) : Shape (fheapNodeAddSibling f j n) d none H (update kids o (j :: n :: rest)) := by
  have hjm : j ∈ kids o := by
    rw [hj]
    exact mem_cons_self
  obtain ⟨hHj, hjn, hjo⟩ := (h.mem o j).mp hjm
  have hjn' : j ≠ n := fun he => hjn (congrArg some he)
  have hnot (o' : Option Nat) : n ∉ kids o' := fun hm => ((h.mem o' n).mp hm).2.1 rfl
  have hcirc : f.links.Circle (j :: rest) := hj ▸ h.circle o
  have hnrest : n ∉ j :: rest := hj ▸ hnot o
  have hlinks := links_addSibling (f := f) hjn'
  have hpar (i : Nat) : (fheapNodeAddSibling f j n).par d i = if i = n then o else f.par d i := by
    rw [Fheap.par, parent_addSibling]
    split
    · rw [← hjo]
      rfl
    · rfl
  have hmem (o' : Option Nat) (i : Nat) : i ∈ update kids o (j :: n :: rest) o' ↔
      i ∈ kids o' ∨ i = n ∧ o' = o := by
    rw [update_apply]
    split
    · next he =>
      rw [he, hj, mem_cons, mem_cons, mem_cons, and_iff_left rfl]
      tauto
    · next he => simp [he]
  constructor
  case circle =>
    intro o'
    rw [hlinks, update_apply]
    split
    · exact hcirc.insert hnrest
    · next ho' =>
      apply (h.circle o').congr
      intro x hx
      refine Links.linkAfter_eq hcirc hnrest (fun hm => ho' ?_) fun he => hnot o' (he ▸ hx)
      exact h.owner_unique hx (hj ▸ hm)
  case mem =>
    intro o' i
    rw [hmem, hpar]
    by_cases hi : i = n
    · subst hi
      simp [hnot, hn, eq_comm]
    · rw [if_neg hi, h.mem]
      simp [hi]
  case owner =>
    intro i p hi hp
    rw [hpar] at hp
    split at hp
    · exact h.owner j p hHj (hjo.trans hp)
    · exact h.owner i p hi hp
  case first =>
    intro p hp hpd
    rw [firstChild_addSibling]
    rcases h.first p hp hpd with ⟨hf, hk⟩ | ⟨c, hc, hf⟩
    · have hop : some p ≠ o := fun he => by
        rw [← he, hk] at hjm
        exact not_mem_nil hjm
      rw [update_of_ne hop]
      exact .inl ⟨hf, hk⟩
    · exact .inr ⟨c, (hmem _ _).mpr (.inl hc), hf⟩
  case rank =>
    intro p hp hpd
    rw [rank_addSibling, hreal, h.rank p hp hpd, update_apply]
    by_cases ho : o = some p
    · rw [if_pos ho, if_pos ho.symm, ← ho, hj]
      rfl
    · rw [if_neg ho, if_neg (Ne.symm ho)]
  case linked =>
    intro i hi _
    left
    have hjl : (f.nodes j).nextSibling ≠ none → (f.nodes j).prevSibling ≠ none := by
      intro hne
      rcases h.linked j hHj hjn with hl | ⟨hl, -⟩
      · exact hl.2
      · exact absurd hl hne
    apply linked_addSibling hjl hjn'
    by_cases hij : i = j
    · exact .inl hij
    by_cases hin : i = n
    · exact .inr (.inl hin)
    rcases h.linked i hi (fun he => hin (Option.some.inj he)) with hl | ⟨-, -, hl⟩
    · exact .inr (.inr hl)
    · exact absurd (hl j hHj hjn).symm hij
  case bound =>
    intro i hi
    rw [nNodes_addSibling]
    exact h.bound i hi

theorem nNodes_remove (f : Fheap) (i : Nat) (b : Bool) : (fheapNodeRemoveInternal f i b).1.nNodes = f.nNodes := by
  unfold fheapNodeRemoveInternal Fheap.modifyAt
  dsimp only
  cases (f.nodes i).parent <;> cases (f.nodes i).nextSibling <;> cases (f.nodes i).prevSibling <;> rfl

theorem par_remove (f : Fheap) (i : Nat) (b : Bool) (d : Option Nat) (x : Nat) :
    (fheapNodeRemoveInternal f i b).1.par d x = if x = i then none else f.par d x := by
  by_cases hx : x = i
  · rw [if_pos hx, par_of_parent]
    rw [parent_remove, if_pos hx]
  · rw [if_neg hx, Fheap.par, parent_remove, if_neg hx]
    rfl

/-- What is returned is the node behind the one that leaves. -/
theorem remove_result (hcirc : f.links.Circle (i :: rest))
    (hlone : (f.nodes i).nextSibling = none ↔ (f.nodes i).prevSibling = none) (b : Bool) :
    (fheapNodeRemoveInternal f i b).2 = rest.head? := by
  have hnot : i ∉ rest := (nodup_cons.mp hcirc.nodup).1
  have hprev := hcirc.prev_eq_self
  have hnext : f.links.next i = rest.headD i := hcirc.next_eq
  show (if (f.nodes i).prevSibling = some i then none else (f.nodes i).nextSibling) = rest.head?
  cases rest with
  | nil =>
    have hself : (f.nodes i).prevSibling.getD i = i := hprev.mpr rfl
    split
    · rfl
    · next hne =>
      cases hp : (f.nodes i).prevSibling with
      | none => exact hlone.mpr hp
      | some y =>
        rw [hp] at hself hne
        exact absurd (congrArg some hself) hne
  | cons y rest =>
    have hnext' : (f.nodes i).nextSibling.getD i = y := hnext
    rw [if_neg]
    · cases hn : (f.nodes i).nextSibling with
      | none =>
        rw [hn] at hnext'
        exact absurd mem_cons_self (hnext' ▸ hnot)
      | some z =>
        rw [hn] at hnext'
        exact congrArg some hnext'
    · intro hp
      exact absurd (hprev.mp (congrArg (Option.getD · i) hp)) (cons_ne_nil y rest)

theorem Shape.linked_of_ne (h : Shape f d none H kids) (hi : H i) (hj : H j) (hij : i ≠ j) : f.Linked i := by
  rcases h.linked i hi nofun with hl | ⟨-, -, hl⟩
  · exact hl
  · exact absurd (hl j hj nofun).symm hij

theorem Shape.mem_remove (h : Shape f d none H kids) (hi : kids o = i :: rest) (o' : Option Nat) (x : Nat) :
    x ∈ update kids o rest o' ↔ x ∈ kids o' ∧ x ≠ i := by
  have him : i ∈ kids o := hi ▸ mem_cons_self
  have hnot : i ∉ rest := (nodup_cons.mp (hi ▸ h.circle o).nodup).1
  rw [update_apply]
  split
  · next he =>
    rw [he, hi, mem_cons]
    constructor
    · exact fun hx => ⟨.inr hx, fun he => hnot (he ▸ hx)⟩
    · exact fun ⟨hx, hne⟩ => hx.resolve_left hne
  · next ho' =>
    refine (and_iff_left_of_imp fun hx he => ho' ?_).symm
    exact h.owner_unique (he ▸ hx) him

/-- A node leaves its list. What is returned is the one behind it. -/
theorem Shape.remove (h : Shape f d none H kids) (hi : kids o = i :: rest) (hreal : (f.nodes i).parent = o)
    (b : Bool) :
    Shape (fheapNodeRemoveInternal f i b).1 d (some i) H (update kids o rest) ∧
      (fheapNodeRemoveInternal f i b).2 = rest.head? ∧ (fheapNodeRemoveInternal f i b).1.links.Circle [i] := by
  have him : i ∈ kids o := by
    rw [hi]
    exact mem_cons_self
  obtain ⟨hHi, hin, hio⟩ := (h.mem o i).mp him
  have hcirc : f.links.Circle (i :: rest) := hi ▸ h.circle o
  have hlone : (f.nodes i).nextSibling = none ↔ (f.nodes i).prevSibling = none := by
    rcases h.linked i hHi hin with hl | ⟨hn, hp, -⟩
    · exact iff_of_false hl.1 hl.2
    · exact iff_of_true hn hp
  have hlinks := links_remove hlone b
  have hout := hcirc.takeOut
  have hresult := remove_result hcirc hlone b
  refine ⟨?_, hresult, hlinks ▸ hout.2⟩
  constructor
  case circle =>
    intro o'
    rw [hlinks, update_apply]
    split
    · exact hout.1
    · next ho' =>
      apply (h.circle o').congr
      intro x hx
      exact Links.takeOut_eq hcirc fun hm => ho' (h.owner_unique hx (hi ▸ hm))
  case mem =>
    intro o' x
    rw [h.mem_remove hi, par_remove, h.mem]
    by_cases hx : x = i
    · simp [hx]
    · simp [hx]
  case owner =>
    intro x p hx hp
    rw [par_remove] at hp
    split at hp
    · exact nomatch hp
    · exact h.owner x p hx hp
  case first =>
    intro p hp hpd
    rw [child_remove, hreal, hresult]
    by_cases ho : o = some p
    · rw [if_pos ho, ho, update_self]
      cases rest with
      | nil => exact .inl ⟨rfl, rfl⟩
      | cons y rest => exact .inr ⟨y, mem_cons_self, rfl⟩
    · rw [if_neg ho, update_of_ne (Ne.symm ho)]
      exact h.first p hp hpd
  case rank =>
    intro p hp hpd
    rw [rank_remove, hreal, h.rank p hp hpd]
    by_cases ho : o = some p
    · rw [if_pos ho, ho, update_self, ← ho, hi]
      rfl
    · rw [if_neg ho, update_of_ne (Ne.symm ho)]
  case linked =>
    intro x hx hxi
    left
    have hne : x ≠ i := fun he => hxi (congrArg some he)
    exact linked_remove (h.linked_of_ne hHi hx hne.symm) b (h.linked_of_ne hx hHi hne)
  case bound =>
    intro x hx
    rw [nNodes_remove]
    exact h.bound x hx

end Vpp.Infra
