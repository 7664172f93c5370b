import Mathlib.Data.List.Basic

namespace Vpp.Lib
open Function List

structure Links where
  next : Nat → Nat
  prev : Nat → Nat

namespace Links

def setNext (L : Links) (x y : Nat) : Links := { L with next := update L.next x y }

def setPrev (L : Links) (x y : Nat) : Links := { L with prev := update L.prev x y }

/-- Link `new` in behind `head`. -/
def addHead (L : Links) (head new : Nat) : Links :=
  if L.next head = head then
    (((L.setNext head new).setPrev head new).setNext new head).setPrev new head
  else
    (((L.setNext new (L.next head)).setPrev new (L.prev (L.next head))).setPrev
      (L.next head) new).setNext head new

/-- Link the neighbours of `x` with each other. -/
def unlink (L : Links) (x : Nat) : Links := (L.setPrev (L.next x) (L.prev x)).setNext (L.prev x) (L.next x)

/-- Make `head` its own neighbour. -/
def clear (L : Links) (head : Nat) : Links := (L.setNext head head).setPrev head head

/-- From `a` along the nodes `l` to `b`, linked both ways. -/
def Seg (L : Links) : Nat → List Nat → Nat → Prop
  | a, [], b => L.next a = b ∧ L.prev b = a
  | a, x :: l, b => L.next a = x ∧ L.prev x = a ∧ Seg L x l b

/-- A walk along `next` through the nodes `l` that ends at `b`. -/
def Trail (L : Links) : List Nat → Nat → Prop
  | [], _ => True
  | x :: l, b => L.next x = l.headD b ∧ Trail L l b

variable {L L' : Links}

theorem Seg.congr (hs : Seg L a l b) (hn : ∀ x ∈ a :: l, L'.next x = L.next x)
    (hp : ∀ x ∈ l ++ [b], L'.prev x = L.prev x) : Seg L' a l b := by
  induction l generalizing a with
  | nil =>
    obtain ⟨h1, h2⟩ := hs
    exact ⟨(hn a (.head _)).trans h1, (hp b (.head _)).trans h2⟩
  | cons x l ih =>
    obtain ⟨h1, h2, h3⟩ := hs
    exact ⟨(hn a (.head _)).trans h1, (hp x (.head _)).trans h2,
      ih h3 (fun y hy => hn y (.tail _ hy)) fun y hy => hp y (.tail _ hy)⟩

theorem Seg.split (hs : Seg L a (l₁ ++ x :: l₂) b) : Seg L a l₁ x ∧ Seg L x l₂ b := by
  induction l₁ generalizing a with
  | nil =>
    obtain ⟨h1, h2, h3⟩ := hs
    exact ⟨⟨h1, h2⟩, h3⟩
  | cons y l₁ ih =>
    obtain ⟨h1, h2, h3⟩ := hs
    obtain ⟨h4, h5⟩ := ih h3
    exact ⟨⟨h1, h2, h4⟩, h5⟩

theorem Seg.next_eq (hs : Seg L a l b) : L.next a = l.headD b := by
  cases l with
  | nil => exact hs.1
  | cons x l => exact hs.1

theorem Seg.next_mem (hs : Seg L a l b) : L.next a ∈ l ++ [b] := by
  cases l with
  | nil => simp [hs.1]
  | cons x l => simp [hs.1]

theorem Seg.prev_mem (hs : Seg L a l b) : L.prev b ∈ a :: l := by
  induction l generalizing a with
  | nil => simp [hs.2]
  | cons x l ih => exact .tail _ (ih hs.2.2)

theorem Seg.trail (hs : Seg L a l b) : Trail L l b := by
  induction l generalizing a with
  | nil => trivial
  | cons x l ih => exact ⟨hs.2.2.next_eq, ih hs.2.2⟩

theorem Trail.congr (ht : Trail L l b) (hn : ∀ x ∈ l, L'.next x = L.next x) : Trail L' l b := by
  induction l with
  | nil => trivial
  | cons x l ih =>
    exact ⟨(hn x (.head _)).trans ht.1, ih ht.2 fun y hy => hn y (.tail _ hy)⟩

/-- The two parts of a segment close up when the node between them is unlinked. -/
theorem Seg.unlink (h₁ : Seg L a l₁ x) (h₂ : Seg L x l₂ b) (hnd : (a :: l₁ ++ x :: l₂).Nodup)
    (hb : b ∉ l₁ ++ x :: l₂) : Seg (L.unlink x) a (l₁ ++ l₂) b := by
  induction l₁ generalizing a with
  | nil =>
    obtain ⟨hax, hxa⟩ := h₁
    cases l₂ with
    | nil =>
      obtain ⟨hxb, _⟩ := h₂
      simp only [append_nil, Seg, Links.unlink, setNext, setPrev, hxa, hxb, update_self,
        and_self]
    | cons y l₂ =>
      obtain ⟨hxy, _, hyb⟩ := h₂
      simp only [List.cons_append, nil_append, nodup_cons, mem_cons, not_or] at hnd hb
      refine ⟨?_, ?_, hyb.congr ?_ ?_⟩
      · simp only [Links.unlink, setNext, setPrev, hxa, hxy, update_self]
      · simp only [Links.unlink, setNext, setPrev, hxa, hxy, update_self]
      · intro z hz
        have hne : z ≠ a := by
          rintro rfl
          exact (mem_cons.mp hz).elim hnd.1.2.1 hnd.1.2.2
        simp only [Links.unlink, setNext, setPrev, hxa, update_of_ne hne]
      · intro z hz
        have hne : z ≠ y := by
          rintro rfl
          rcases mem_append.mp hz with hz | hz
          · exact hnd.2.2.1 hz
          · exact hb.2.1 (mem_singleton.mp hz).symm
        simp only [Links.unlink, setNext, setPrev, hxy, update_of_ne hne]
  | cons c l₁ ih =>
    obtain ⟨hac, hca, hcx⟩ := h₁
    have hnd' := (nodup_cons.mp hnd).2
    have hb' : b ∉ l₁ ++ x :: l₂ := fun hm => hb (.tail _ hm)
    have hpx : L.prev x ≠ a := by
      rintro rfl
      exact (nodup_cons.mp hnd).1 (mem_append_left _ hcx.prev_mem)
    have hnx : L.next x ≠ c := by
      rintro rfl
      rcases mem_append.mp h₂.next_mem with hm | hm
      · exact (nodup_cons.mp hnd').1 (mem_append_right _ (.tail _ hm))
      · exact hb (by rw [← mem_singleton.mp hm]; exact .head _)
    refine ⟨?_, ?_, ih hcx hnd' hb'⟩
    · simp only [Links.unlink, setNext, setPrev, update_of_ne hpx.symm]
      exact hac
    · simp only [Links.unlink, setNext, setPrev, update_of_ne hnx.symm]
      exact hca

/-- A circular list: from its head along distinct nodes back to the head. -/
structure IsRing (L : Links) (h : Nat) (l : List Nat) : Prop where
  seg : Seg L h l h
  nodup : (h :: l).Nodup

theorem IsRing.congr (hr : IsRing L h l)
    (hsame : ∀ x ∈ h :: l, L'.next x = L.next x ∧ L'.prev x = L.prev x) : IsRing L' h l := by
  refine ⟨hr.seg.congr (fun x hx => (hsame x hx).1) fun x hx => (hsame x ?_).2, hr.nodup⟩
  rcases mem_append.mp hx with hx | hx
  · exact .tail _ hx
  · exact mem_singleton.mp hx ▸ .head _

theorem IsRing.clear (L : Links) (h : Nat) : IsRing (L.clear h) h [] := by
  refine ⟨⟨?_, ?_⟩, by simp⟩
  · simp only [Links.clear, setNext, setPrev, update_self]
  · simp only [Links.clear, setNext, setPrev, update_self]

theorem addHead_eq (hr : IsRing L h l) (hx : x ∉ h :: l) (hn : x ≠ n) :
    (L.addHead h n).next x = L.next x ∧ (L.addHead h n).prev x = L.prev x := by
  have hh : x ≠ h := fun he => hx (he ▸ .head _)
  have hf : x ≠ L.next h := by
    intro he
    rcases mem_append.mp (he ▸ hr.seg.next_mem) with hm | hm
    · exact hx (.tail _ hm)
    · exact hh (mem_singleton.mp hm)
  unfold Links.addHead
  split
  · simp only [setNext, setPrev, update_of_ne hh, update_of_ne hn, and_self]
  · simp only [setNext, setPrev, update_of_ne hh, update_of_ne hn,
      update_of_ne hf, and_self]

theorem IsRing.addHead (hr : IsRing L h l) (hn : n ∉ h :: l) :
    IsRing (L.addHead h n) h (n :: l) := by
  obtain ⟨hs, hnd⟩ := hr
  simp only [mem_cons, not_or] at hn
  have hnd' : (h :: n :: l).Nodup := by
    simp only [nodup_cons, mem_cons, not_or] at hnd ⊢
    exact ⟨⟨Ne.symm hn.1, hnd.1⟩, hn.2, hnd.2⟩
  refine ⟨?_, hnd'⟩
  cases l with
  | nil =>
    obtain ⟨h1, _⟩ := hs
    have hne := Ne.symm hn.1
    simp only [Links.addHead, h1, if_pos, Seg, setNext, setPrev, update_self,
      update_of_ne hne, and_self]
  | cons y l =>
    obtain ⟨h1, h2, h3⟩ := hs
    simp only [nodup_cons, mem_cons, not_or] at hnd hn
    have hyh := Ne.symm hnd.1.1
    have hyn := Ne.symm hn.2.1
    have hhn := Ne.symm hn.1
    simp only [Links.addHead, h1, if_neg hyh, h2]
    refine ⟨?_, ?_, ?_, ?_, h3.congr ?_ ?_⟩
    · simp only [setNext, setPrev, update_self]
    · simp only [setNext, setPrev, update_self, update_of_ne hn.2.1]
    · simp only [setNext, setPrev, update_self, update_of_ne hn.1]
    · simp only [setNext, setPrev, update_self]
    · intro z hz
      have hzh : z ≠ h := by
        rintro rfl
        exact (mem_cons.mp hz).elim (Ne.symm hyh) hnd.1.2
      have hzn : z ≠ n := by
        rintro rfl
        exact (mem_cons.mp hz).elim hn.2.1 hn.2.2
      simp only [setNext, setPrev, update_of_ne hzh, update_of_ne hzn]
    · intro z hz
      have hzy : z ≠ y := by
        rintro rfl
        rcases mem_append.mp hz with hm | hm
        · exact hnd.2.1 hm
        · exact hyh (mem_singleton.mp hm)
      have hzn : z ≠ n := by
        rintro rfl
        rcases mem_append.mp hz with hm | hm
        · exact hn.2.2 hm
        · exact hn.1 (mem_singleton.mp hm)
      simp only [setNext, setPrev, update_of_ne hzy, update_of_ne hzn]

theorem IsRing.unlink (hr : IsRing L h (l₁ ++ x :: l₂)) : IsRing (L.unlink x) h (l₁ ++ l₂) := by
  obtain ⟨h₁, h₂⟩ := hr.seg.split
  refine ⟨h₁.unlink h₂ hr.nodup (nodup_cons.mp hr.nodup).1, ?_⟩
  refine hr.nodup.sublist (List.Sublist.cons_cons _ ?_)
  exact List.Sublist.append_left (sublist_cons_self x l₂) l₁

theorem unlink_eq (hr : IsRing L h (l₁ ++ x :: l₂)) (hy : y ∉ h :: (l₁ ++ x :: l₂)) :
    (L.unlink x).next y = L.next y ∧ (L.unlink x).prev y = L.prev y := by
  obtain ⟨h₁, h₂⟩ := hr.seg.split
  have hp : y ≠ L.prev x := by
    intro he
    rcases mem_cons.mp (he ▸ h₁.prev_mem) with hm | hm
    · exact hy (hm ▸ .head _)
    · exact hy (.tail _ (mem_append_left _ hm))
  have hn : y ≠ L.next x := by
    intro he
    rcases mem_append.mp (he ▸ h₂.next_mem) with hm | hm
    · exact hy (.tail _ (mem_append_right _ (.tail _ hm)))
    · exact hy (mem_singleton.mp hm ▸ .head _)
  simp only [Links.unlink, setNext, setPrev, update_of_ne hp, update_of_ne hn,
    and_self]

/-- Circular lists, one for each index, that share no node. -/
structure Rings (L : Links) (head : ι → Nat) (nodes : ι → List Nat) : Prop where
  ring : ∀ i, IsRing L (head i) (nodes i)
  disjoint : ∀ i j, i ≠ j → ∀ x ∈ head i :: nodes i, x ∉ head j :: nodes j

section Rings
variable {head : ι → Nat} {nodes : ι → List Nat}

theorem Rings.congr (hr : Rings L head nodes)
    (hsame : ∀ i, ∀ x ∈ head i :: nodes i, L'.next x = L.next x ∧ L'.prev x = L.prev x) :
    Rings L' head nodes :=
  ⟨fun i => (hr.ring i).congr (hsame i), hr.disjoint⟩

variable [DecidableEq ι]

theorem Rings.replace (hr : Rings L head nodes) (hi : IsRing L' (head i) l)
    (hsame : ∀ x, x ∉ head i :: nodes i → x ∉ l → L'.next x = L.next x ∧ L'.prev x = L.prev x)
    (hnew : ∀ j, j ≠ i → ∀ x ∈ l, x ∉ head j :: nodes j) :
    Rings L' head (update nodes i l) := by
  have hother (j : ι) (hj : j ≠ i) (x : Nat) (hx : x ∈ head j :: nodes j) :
      x ∉ head i :: nodes i ∧ x ∉ l :=
    ⟨hr.disjoint j i hj x hx, fun hm => hnew j hj x hm hx⟩
  have hhead (j : ι) (hj : j ≠ i) : head i ∉ head j :: nodes j :=
    hr.disjoint i j hj.symm (head i) (.head _)
  constructor
  · intro j
    by_cases hj : j = i
    · subst hj
      rw [update_self]
      exact hi
    · rw [update_of_ne hj]
      exact (hr.ring j).congr fun x hx => hsame x (hother j hj x hx).1 (hother j hj x hx).2
  · intro j k hjk x
    by_cases hj : j = i
    · subst hj
      rw [update_self, update_of_ne hjk.symm]
      rintro (_ | ⟨_, hx⟩)
      · exact hhead k hjk.symm
      · exact hnew k hjk.symm x hx
    · rw [update_of_ne hj]
      by_cases hk : k = i
      · subst hk
        rw [update_self]
        rintro hx (_ | ⟨_, hm⟩)
        · exact hhead j hj hx
        · exact (hother j hj x hx).2 hm
      · rw [update_of_ne hk]
        exact hr.disjoint j k hjk x

theorem Rings.addHead (hr : Rings L head nodes) (hn : ∀ j, n ∉ head j :: nodes j) (i : ι) :
    Rings (L.addHead (head i) n) head (update nodes i (n :: nodes i)) := by
  apply hr.replace ((hr.ring i).addHead (hn i))
  · intro x hx hx'
    exact addHead_eq (hr.ring i) hx fun he => hx' (he ▸ .head _)
  · intro j hj x hx
    rcases mem_cons.mp hx with rfl | hm
    · exact hn j
    · exact hr.disjoint i j hj.symm x (.tail _ hm)

theorem Rings.unlink (hr : Rings L head nodes) (hx : nodes i = l₁ ++ x :: l₂) :
    Rings (L.unlink x) head (update nodes i (l₁ ++ l₂)) := by
  have hi := hx ▸ hr.ring i
  apply hr.replace hi.unlink
  · intro y hy _
    exact unlink_eq hi (hx ▸ hy)
  · intro j hj y hy
    refine hr.disjoint i j hj.symm y (.tail _ ?_)
    rw [hx]
    rcases mem_append.mp hy with hm | hm
    · exact mem_append_left _ hm
    · exact mem_append_right _ (.tail _ hm)

theorem Rings.clear (hr : Rings L head nodes) (i : ι) :
    Rings (L.clear (head i)) head (update nodes i []) := by
  apply hr.replace (IsRing.clear L (head i))
  · intro x hx _
    have hne : x ≠ head i := fun he => hx (he ▸ .head _)
    simp only [Links.clear, setNext, setPrev, update_of_ne hne, and_self]
  · intro j _ x hx
    exact absurd hx (by simp)

end Rings

end Links
end Vpp.Lib
