import Vpp.Mtrie.Plies

namespace Vpp.Mtrie
open Vpp.Lib

variable {p p' p'' : Pool Ply} {S S' : Set Nat} {C : Nat → Set Nat} {a : SetUnsetLeafArgs}
  {newLeaf del : Leaf}

/-- Plies in use stay in use, a leaf that is not empty stays so, and every new ply has one. -/
structure Fills (p p' : Pool Ply) : Prop where
  live : ∀ j, p.Live j → p'.Live j
  leaf : ∀ j i, p.Live j → (p.eltAt j).leaves i ≠ leafEmpty → (p'.eltAt j).leaves i ≠ leafEmpty
  fresh : ∀ j, p'.Live j → p.Live j ∨ HasLeaf p' j

theorem Fills.refl (p : Pool Ply) : Fills p p := ⟨fun _ h => h, fun _ _ _ h => h, fun _ h => .inl h⟩

theorem Fills.hasLeaf (h : Fills p p') (hl : p.Live j) (hj : HasLeaf p j) : HasLeaf p' j := by
  obtain ⟨i, hi, hne⟩ := hj
  exact ⟨i, hi, h.leaf j i hl hne⟩

theorem Fills.trans (h : Fills p p') (h' : Fills p' p'') : Fills p p'' := by
  refine ⟨fun j hj => h'.live j (h.live j hj),
    fun j i hj hne => h'.leaf j i (h.live j hj) (h.leaf j i hj hne), ?_⟩
  intro j hj
  rcases h'.fresh j hj with hj' | hl
  · rcases h.fresh j hj' with hl | hl
    · exact .inl hl
    · exact .inr (h'.hasLeaf hj' hl)
  · exact .inr hl

theorem fills_assign (hne : newLeaf ≠ leafEmpty) (idx i bits : Nat) (n : Int) :
    Fills p (p.modify idx fun q => q.assign i newLeaf bits n) := by
  refine ⟨fun j hj => Pool.live_modify.mpr hj, ?_, fun j hj => .inl (Pool.live_modify.mp hj)⟩
  intro j i' hj hl
  by_cases he : j = idx
  · subst he
    rw [Pool.eltAt_modify_self hj]
    by_cases hi : i' = i
    · simp [Ply.assign, hi, hne]
    · simpa [Ply.assign, hi] using hl
  · rwa [Pool.eltAt_modify_ne he]

theorem replaceLeaf_fills (hne : newLeaf ≠ leafEmpty) (newBits idx i : Nat) :
    Fills p (replaceLeaf newLeaf newBits idx i p) := fills_assign hne idx i newBits _

theorem foldl_fills {step : Pool Ply → Nat → Pool Ply} {is : List Nat}
    (hstep : ∀ p, ∀ i ∈ is, Fills p (step p i)) : Fills p (is.foldl step p) := by
  induction is generalizing p with
  | nil => exact .refl p
  | cons i is ih => exact (hstep p i (.head _)).trans (ih fun p j hj => hstep p j (.tail _ hj))

theorem setPlyWithMoreSpecificLeaf_fills (hne : newLeaf ≠ leafEmpty) (newBits d idx : Nat) :
    Fills p (setPlyWithMoreSpecificLeaf newLeaf newBits d idx p) := by
  induction d generalizing p idx with
  | zero => exact .refl p
  | succ d ih =>
    rw [setPlyWithMoreSpecificLeaf]
    apply foldl_fills
    intro p i _
    dsimp only
    split
    · exact ih _
    · split
      · exact replaceLeaf_fills hne newBits idx i
      · exact .refl p

/-- One pass of the loop over the leaves of the last ply leaves its leaf not empty. -/
theorem setLeaf_step_fills (ha : a.Ok) (ht : Tree p (d + 1) idx S) (hi : i < 256)
    (hp' : p' = if (p.eltAt idx).dstAddressBitsOfLeaves i ≤ a.dstAddressLength then
        if leafIsTerminal ((p.eltAt idx).leaves i) = true then
          replaceLeaf (leafSetAdjIndex a.adjIndex) a.dstAddressLength idx i p
        else setPlyWithMoreSpecificLeaf (leafSetAdjIndex a.adjIndex) a.dstAddressLength d
          (leafGetNextPlyIndex ((p.eltAt idx).leaves i)) p
      else if leafIsTerminal ((p.eltAt idx).leaves i) = false then
        setLeaf a d (leafGetNextPlyIndex ((p.eltAt idx).leaves i)) (k + 1) p
      else p) :
    Fills p p' ∧ (p'.eltAt idx).leaves i ≠ leafEmpty := by
  obtain ⟨C, hn⟩ := ht
  by_cases hl : leafIsTerminal ((p.eltAt idx).leaves i) = true
  · by_cases hle : (p.eltAt idx).dstAddressBitsOfLeaves i ≤ a.dstAddressLength
    · rw [if_pos hle, if_pos hl] at hp'
      subst hp'
      refine ⟨replaceLeaf_fills ha.ne_empty _ _ _, ?_⟩
      rw [replaceLeaf, Pool.eltAt_modify_self hn.live]
      simpa [Ply.assign] using ha.ne_empty
    · rw [if_neg hle, if_neg (by simp [hl])] at hp'
      subst hp'
      refine ⟨.refl _, fun he => hle ?_⟩
      rw [hn.empty i hi he]
      exact Nat.zero_le _
  · have hl' : leafIsTerminal ((p.eltAt idx).leaves i) = false := by simpa using hl
    have hz := (hn.next i hi hl').1
    rw [if_pos (by omega), if_neg hl] at hp'
    have hf : Fills p p' := hp' ▸ setPlyWithMoreSpecificLeaf_fills ha.ne_empty _ _ _
    refine ⟨hf, hf.leaf idx i hn.live fun he => ?_⟩
    rw [he] at hl
    exact hl rfl

theorem foldl_fills_tree {step : Pool Ply → Nat → Pool Ply} {is : List Nat}
    (hstep : ∀ p S i, i ∈ is → Tree p (d + 1) idx S →
      (∃ S', Tree (step p i) (d + 1) idx S') ∧ Fills p (step p i) ∧
        ((step p i).eltAt idx).leaves i ≠ leafEmpty)
    (ht : Tree p (d + 1) idx S) :
    Fills p (is.foldl step p) ∧ ∀ i ∈ is, ((is.foldl step p).eltAt idx).leaves i ≠ leafEmpty := by
  induction is generalizing p S with
  | nil => exact ⟨.refl p, nofun⟩
  | cons i is ih =>
    obtain ⟨⟨S', ht'⟩, hf, hl⟩ := hstep p S i (.head _) ht
    obtain ⟨hf', hl'⟩ := ih (fun p S j hj => hstep p S j (.tail _ hj)) ht'
    refine ⟨hf.trans hf', ?_⟩
    intro j hj
    rcases List.mem_cons.mp hj with rfl | hj
    · exact hf'.leaf idx j (ht'.live ht'.mem_self) hl
    · exact hl' j hj

theorem Node.down_fills (hn : Node p d (Tree p d) idx S C)
    (hl : leafIsTerminal ((p.eltAt idx).leaves i) = false) (hf : Fills p p')
    (hb : b < 256) (hne : (p'.eltAt (leafGetNextPlyIndex ((p.eltAt idx).leaves i))).leaves b ≠ leafEmpty) :
    (p'.eltAt idx).leaves i ≠ leafEmpty ∧
      HasLeaf p' (leafGetNextPlyIndex ((p.eltAt idx).leaves i)) := by
  refine ⟨hf.leaf idx i hn.live fun he => ?_, b, hb, hne⟩
  rw [he] at hl
  exact absurd hl (by decide)

theorem plyCreate_fills (hp₁ : p₁ = (p.get.1.set p.get.2 q).modify idx fun r =>
      r.assign i (leafSetNextPlyIndex p.get.2) 0 n) (hf : Fills p₁ p') (hnew : HasLeaf p' p.get.2) :
    Fills p p' := by
  have hlive (j : Nat) : p₁.Live j ↔ p.Live j ∨ j = p.get.2 := by
    rw [hp₁, Pool.live_modify, Pool.live_set, Pool.live_get]
  constructor
  case live => exact fun j hj => hf.live j ((hlive j).mpr (.inl hj))
  case leaf =>
    intro j i' hj hne
    have hjq : j ≠ p.get.2 := fun he => p.not_live_get (he ▸ hj)
    apply hf.leaf j i' ((hlive j).mpr (.inl hj))
    rw [hp₁]
    apply (fills_assign (leafSetNextPlyIndex_ne _) _ _ _ _).leaf
    · exact Pool.live_set.mpr (Pool.live_get.mpr (.inl hj))
    · rwa [Pool.eltAt_set_ne hjq, Pool.eltAt_get]
  case fresh =>
    intro j hj
    rcases hf.fresh j hj with hj | hj
    · rcases (hlive j).mp hj with hj | rfl
      · exact .inl hj
      · exact .inr hnew
    · exact .inr hj

theorem setLeaf_fills (ha : a.Ok) (hkd : k + d = 4) (hlen : 8 * k < a.dstAddressLength)
    (ht : Tree p d idx S) :
    Fills p (setLeaf a d idx k p) ∧
      ((setLeaf a d idx k p).eltAt idx).leaves (asU8 a.dstAddress k) ≠ leafEmpty := by
  induction d generalizing k p idx S with
  | zero => exact ht.elim
  | succ d ih =>
    have h32 := ha.length_le
    have hc := asU8_lt a.dstAddress k
    simp only [setLeaf]
    by_cases hend : a.dstAddressLength ≤ 8 * (k + 1)
    · have hneg : (-((a.dstAddressLength : Int) - 8 * (k + 1))).toNat =
          8 * (k + 1) - a.dstAddressLength := by omega
      have hexp : 8 * (k + 1) - a.dstAddressLength = 8 - (a.dstAddressLength - 8 * k) := by omega
      have hmask := ha.masked k hlen hend
      rw [if_pos (by omega), hneg, Nat.one_shiftLeft]
      have hmem : asU8 a.dstAddress k ∈
          List.range' (asU8 a.dstAddress k) (2 ^ (8 * (k + 1) - a.dstAddressLength)) :=
        List.mem_range'_1.mpr ⟨Nat.le_refl _, Nat.lt_add_of_pos_right (Nat.two_pow_pos _)⟩
      refine (foldl_fills_tree ?_ ht).imp id fun h => h _ hmem
      intro p S i hm ht
      have hi := mem_range'_lt (by omega) hc (hexp ▸ hmask) (hexp ▸ hm)
      obtain ⟨S', he⟩ := setLeaf_step (k := k) ha (by omega) ht hi (by omega)
      exact ⟨⟨S', he.tree⟩, setLeaf_step_fills ha ht hi rfl⟩
    · rw [if_neg (by omega)]
      by_cases hl : leafIsTerminal ((p.eltAt idx).leaves (asU8 a.dstAddress k)) = true
      · obtain ⟨d, rfl⟩ : ∃ n, d = n + 1 := ⟨d - 1, by omega⟩
        obtain ⟨C, hn⟩ := ht
        obtain ⟨p₁, S₁, hp₁, hleaf, h₁⟩ := plyCreate_effect hn hc hl
        simp only [plyCreate]
        rw [if_pos hl, ← hp₁, ← hleaf]
        have hl₁ : leafIsTerminal ((p₁.eltAt idx).leaves (asU8 a.dstAddress k)) = false := by
          rw [hleaf]
          exact leafIsTerminal_setNextPlyIndex _
        obtain ⟨C₁, hn₁⟩ := h₁.tree
        obtain ⟨hf, hb⟩ := ih (k := k + 1) (by omega) (by omega) (hn₁.next _ hc hl₁).2
        obtain ⟨hne, hnew⟩ := hn₁.down_fills hl₁ hf (asU8_lt ..) hb
        rw [hleaf, leafGetNextPlyIndex_set] at hf hne hnew ⊢
        exact ⟨plyCreate_fills hp₁ hf hnew, hne⟩
      · have hl' : leafIsTerminal ((p.eltAt idx).leaves (asU8 a.dstAddress k)) = false := by
          simpa using hl
        obtain ⟨C, hn⟩ := ht
        obtain ⟨hf, hb⟩ := ih (k := k + 1) (by omega) (by omega) (hn.next _ hc hl').2
        rw [if_neg hl]
        exact ⟨hf, (hn.down_fills hl' hf (asU8_lt ..) hb).1⟩

/-- No leaf is set, no ply is taken, and of the plies with a leaf the ones that are given back are those
that have none any more. Ply 0 is never given back. -/
structure Thins (p p' : Pool Ply) : Prop where
  live : ∀ j, p'.Live j → p.Live j
  leaf : ∀ j i, (p'.eltAt j).leaves i ≠ leafEmpty → (p.eltAt j).leaves i ≠ leafEmpty
  kept_iff : ∀ j, j ≠ 0 → p.Live j → HasLeaf p j → (p'.Live j ↔ HasLeaf p' j)

theorem Thins.refl (p : Pool Ply) : Thins p p :=
  ⟨fun _ h => h, fun _ _ h => h, fun _ _ hl hj => ⟨fun _ => hj, fun _ => hl⟩⟩

theorem Thins.trans (h : Thins p p') (h' : Thins p' p'') : Thins p p'' := by
  refine ⟨fun j hj => h.live j (h'.live j hj), fun j i hne => h.leaf j i (h'.leaf j i hne), ?_⟩
  intro j hne hl hj
  by_cases hl' : p'.Live j
  · exact h'.kept_iff j hne hl' ((h.kept_iff j hne hl hj).mp hl')
  · have hno : ¬ HasLeaf p' j := fun hj' => hl' ((h.kept_iff j hne hl hj).mpr hj')
    refine ⟨fun hl'' => absurd (h'.live j hl'') hl', ?_⟩
    rintro ⟨i, hi, hleaf⟩
    exact absurd ⟨i, hi, h'.leaf j i hleaf⟩ hno

/-- A leaf is emptied and its ply given back when that was the last one. -/
theorem thins_assign (hp₁ : p₁ = p.modify idx fun q => q.assign i leafEmpty 0 n)
    (ht : Tree p₁ d idx S) (hk : k = 0 → idx = 0)
    (hp' : p' = if (p₁.eltAt idx).nNonEmptyLeafs = 0 ∧ k > 0 then p₁.put idx else p₁) :
    Thins p p' := by
  have hlive₁ : p₁.Live idx := ht.live ht.mem_self
  have hlive : p.Live idx := by
    rw [hp₁] at hlive₁
    exact Pool.live_modify.mp hlive₁
  have helt (j : Nat) : p'.eltAt j = p₁.eltAt j := by
    rw [hp']
    split
    · exact Pool.eltAt_put ..
    · rfl
  have hne (j : Nat) (hj : j ≠ idx) : p'.eltAt j = p.eltAt j := by
    rw [helt, hp₁, Pool.eltAt_modify_ne hj]
  have hlv (j : Nat) (hj : j ≠ idx) : p'.Live j ↔ p.Live j := by
    rw [hp']
    split
    · rw [Pool.live_put, hp₁, Pool.live_modify]
      exact and_iff_left hj
    · rw [hp₁, Pool.live_modify]
  constructor
  case live =>
    intro j hj
    by_cases he : j = idx
    · exact he ▸ hlive
    · exact (hlv j he).mp hj
  case leaf =>
    intro j i' hl
    by_cases he : j = idx
    · subst he
      rw [helt, hp₁, Pool.eltAt_modify_self hlive] at hl
      by_cases hi : i' = i
      · simp [Ply.assign, hi] at hl
      · simpa [Ply.assign, hi] using hl
    · rwa [hne j he] at hl
  case kept_iff =>
    intro j hj0 hl hj
    by_cases he : j = idx
    · subst he
      have hpos : k > 0 := Nat.pos_of_ne_zero fun h => hj0 (hk h)
      have hz := ht.count_eq_zero_iff ht.mem_self
      have hsame : HasLeaf p' j ↔ HasLeaf p₁ j := by simp only [HasLeaf, helt]
      rw [hsame, hp']
      by_cases hz0 : (p₁.eltAt j).nNonEmptyLeafs = 0
      · rw [if_pos ⟨hz0, hpos⟩, Pool.live_put]
        exact ⟨fun h => absurd rfl h.2, fun h => absurd h (hz.mp hz0)⟩
      · rw [if_neg fun h => hz0 h.1]
        exact ⟨fun _ => Classical.not_not.mp (mt hz.mpr hz0), fun _ => hlive₁⟩
    · have hsame : HasLeaf p' j ↔ HasLeaf p j := by simp only [HasLeaf, hne j he]
      rw [hsame, hlv j he]
      exact ⟨fun _ => hj, fun _ => hl⟩

section Loop
variable {recurse : Nat → Pool Ply → Pool Ply × Bool} (hdel : leafIsTerminal del = true)
  (hne : del ≠ leafEmpty)
  (hrec : ∀ p idx S, Tree p d idx S →
    (∃ F, Unset p (recurse idx p) d idx (k + 1) S F) ∧ Thins p (recurse idx p).1)
include hdel hne hrec

/-- One pass of the loop, with the ply's own leaf emptied on a hit. -/
theorem unsetLeaves_step_tree (ht : Tree p (d + 1) idx S) (hi : i < 256)
    (hr : r = if (p.eltAt idx).leaves i = del then (p, true)
      else if leafIsTerminal ((p.eltAt idx).leaves i) = false then
        recurse (leafGetNextPlyIndex ((p.eltAt idx).leaves i)) p
      else (p, false)) :
    Thins p r.1 ∧ ∃ S' F,
      Effect p (if r.2 = true then r.1.modify idx fun q => q.assign i leafEmpty 0 (-1) else r.1)
        (d + 1) idx S S' F := by
  obtain ⟨C, hn⟩ := id ht
  by_cases he : (p.eltAt idx).leaves i = del
  · rw [if_pos he] at hr
    subst hr
    have hcount : (-1 : Int) = (if leafEmpty = leafEmpty then 0 else 1) -
        if (p.eltAt idx).leaves i = leafEmpty then 0 else 1 := by simp [he, hne]
    obtain ⟨S', heff⟩ := hn.assign hi (he ▸ hdel) rfl (Nat.zero_le _) (fun _ => rfl) hcount
    exact ⟨.refl p, S', _, heff⟩
  · rw [if_neg he] at hr
    by_cases hl : leafIsTerminal ((p.eltAt idx).leaves i) = false
    · rw [if_pos hl] at hr
      obtain ⟨⟨F, hun⟩, hthin⟩ := hrec p _ _ (hn.next i hi hl).2
      rw [← hr] at hun hthin
      refine ⟨hthin, ?_⟩
      rcases hun with ⟨hr2, C', heff⟩ | ⟨hr2, _, hfreed, _⟩
      · rw [if_neg (by simp [hr2])]
        obtain ⟨S', h⟩ := hn.lift hi hl heff
        exact ⟨S', _, h⟩
      · rw [if_pos hr2]
        obtain ⟨S', h⟩ := hn.drop hi hl hfreed
        exact ⟨S', _, h⟩
    · rw [if_neg hl] at hr
      subst hr
      exact ⟨.refl p, S, _, .refl ht⟩

theorem unsetLeaves_thins {is : List Nat} (hlt : ∀ i ∈ is, i < 256) (hk : k = 0 → idx = 0)
    (ht : Tree p (d + 1) idx S) :
    (∃ F, Unset p (unsetLeaves recurse del idx k is p) (d + 1) idx k S F) ∧
      Thins p (unsetLeaves recurse del idx k is p).1 := by
  induction is generalizing p S with
  | nil => exact ⟨⟨_, .inl ⟨rfl, S, .refl ht⟩⟩, .refl p⟩
  | cons i is ih =>
    have hgo (p' : Pool Ply) (S₁ : Set Nat) (F : Action) (h₁ : Effect p p' (d + 1) idx S S₁ F)
        (hthin : Thins p p') :
        (∃ F, Unset p (unsetLeaves recurse del idx k is p') (d + 1) idx k S F) ∧
          Thins p (unsetLeaves recurse del idx k is p').1 := by
      obtain ⟨⟨G, hun⟩, hthin'⟩ := ih (fun j hj => hlt j (.tail _ hj)) h₁.tree
      refine ⟨?_, hthin.trans hthin'⟩
      rcases hun with ⟨hr, S₂, h₂⟩ | ⟨hr, hk, hf, _⟩
      · exact ⟨_, .inl ⟨hr, S₂, h₁.trans h₂⟩⟩
      · exact ⟨fun _ _ => (leafEmpty, 0), .inr ⟨hr, hk, h₁.freed hf, fun _ _ => rfl⟩⟩
    simp only [unsetLeaves]
    generalize hr : (if (p.eltAt idx).leaves i = del then (p, true)
      else if leafIsTerminal ((p.eltAt idx).leaves i) = false then
        recurse (leafGetNextPlyIndex ((p.eltAt idx).leaves i)) p
      else (p, false)) = r
    obtain ⟨hthin, S₁, F, h₁⟩ := unsetLeaves_step_tree hdel hne hrec ht (hlt i (.head _)) hr.symm
    split
    · next hhit =>
      rw [if_pos hhit] at h₁
      split
      · next hz =>
        refine ⟨⟨F, .inr ⟨rfl, hz.2, h₁.put hz.1⟩⟩, hthin.trans ?_⟩
        exact thins_assign rfl h₁.tree hk (if_pos hz).symm
      · next hz => exact hgo _ _ _ h₁ (hthin.trans (thins_assign rfl h₁.tree hk (if_neg hz).symm))
    · next hhit =>
      rw [if_neg hhit] at h₁
      exact hgo _ _ _ h₁ hthin

end Loop

theorem unsetLeaf_thins (hdel : leafIsTerminal (leafSetAdjIndex a.adjIndex) = true)
    (hne : leafSetAdjIndex a.adjIndex ≠ leafEmpty) (hk : k = 0 → idx = 0) (ht : Tree p d idx S) :
    (∃ F, Unset p (unsetLeaf a d idx k p) d idx k S F) ∧ Thins p (unsetLeaf a d idx k p).1 := by
  induction d generalizing k p idx S with
  | zero => exact ht.elim
  | succ d ih =>
    simp only [unsetLeaf]
    rw [unsetLeaf_range a.dstAddressLength k (asU8_lt a.dstAddress k)]
    apply unsetLeaves_thins hdel hne _ (fun i hi => unsetLeaf_range_lt a k hi) hk ht
    intro p idx S ht
    exact ih (fun h => absurd h (Nat.succ_ne_zero k)) ht

theorem leafSetAdjIndex_terminal (adj : Nat) : leafIsTerminal (leafSetAdjIndex adj) = true := by
  rw [leafIsTerminal_iff]
  have hodd : (1 + 2 * adj) % 2 ^ 32 % 2 = 1 := by omega
  exact hodd

theorem leafSetAdjIndex_mod (adj : Nat) : leafSetAdjIndex (adj % 2 ^ 31) = leafSetAdjIndex adj := by
  have heq : (1 + 2 * (adj % 2 ^ 31)) % 2 ^ 32 = (1 + 2 * adj) % 2 ^ 32 := by omega
  exact heq

theorem setLeaf_mod (dst : Ip4Address) (len adj d idx k : Nat) (p : Pool Ply) :
    setLeaf ⟨dst, len, adj % 2 ^ 31⟩ d idx k p = setLeaf ⟨dst, len, adj⟩ d idx k p := by
  induction d generalizing idx k p with
  | zero => rfl
  | succ d ih => simp only [setLeaf, leafSetAdjIndex_mod, ih]

theorem adj_mod_pos (hne : leafSetAdjIndex adj ≠ leafEmpty) : 0 < adj % 2 ^ 31 := by
  rw [← leafSetAdjIndex_mod] at hne
  apply Nat.pos_of_ne_zero
  intro hz
  rw [hz] at hne
  exact hne rfl

theorem kept_init : Kept ip4MtrieInit.plyPool := by
  refine ⟨stores_init.tree, ?_⟩
  intro j hj hne
  simp only [ip4MtrieInit, plyCreate, Pool.live_set, Pool.live_get, Pool.not_live_empty, false_or] at hj
  exact absurd hj hne

theorem Kept.setLeaf (h : Kept p) (dst : Ip4Address) (hpos : 0 < len) (hlen : len ≤ 32)
    (hne : leafSetAdjIndex adj ≠ leafEmpty) :
    Kept (Mtrie.setLeaf ⟨dst &&& fibMask len, len, adj⟩ 4 0 0 p) ∧
      Fills p (Mtrie.setLeaf ⟨dst &&& fibMask len, len, adj⟩ 4 0 0 p) := by
  have ha := maskedArgs_ok dst hlen (adj_mod_pos hne) (Nat.mod_lt adj (by decide))
  obtain ⟨S, ht, hS⟩ := h.tree
  obtain ⟨S', he⟩ := setLeaf_spec ha rfl hpos ht
  obtain ⟨hf, _⟩ := setLeaf_fills ha rfl hpos ht
  rw [setLeaf_mod] at he hf
  refine ⟨⟨⟨S', he.tree, ?_⟩, ?_⟩, hf⟩
  · intro j
    rw [he.live, hS]
    exact ⟨fun h => h.resolve_left fun hc => hc.2 hc.1, .inr⟩
  · intro j hj hj0
    rcases hf.fresh j hj with hl | hl
    · exact hf.hasLeaf hl (h.hasLeaf j hl hj0)
    · exact hl

theorem Kept.unsetLeaf (h : Kept p) (hne : leafSetAdjIndex a.adjIndex ≠ leafEmpty) :
    Kept (Mtrie.unsetLeaf a 4 0 0 p).1 ∧ Thins p (Mtrie.unsetLeaf a 4 0 0 p).1 := by
  obtain ⟨S, ht, hS⟩ := h.tree
  obtain ⟨⟨F, hun⟩, hthin⟩ := unsetLeaf_thins (k := 0) (leafSetAdjIndex_terminal _) hne (fun _ => rfl) ht
  refine ⟨?_, hthin⟩
  rcases hun with ⟨_, S', he⟩ | ⟨_, hk, _⟩
  · refine ⟨⟨S', he.tree, ?_⟩, ?_⟩
    · intro j
      rw [he.live, hS]
      exact ⟨fun h => h.resolve_left fun hc => hc.2 hc.1, .inr⟩
    · intro j hj hj0
      have hl := hthin.live j hj
      exact (hthin.kept_iff j hj0 hl (h.hasLeaf j hl hj0)).mp hj
  · exact absurd hk (Nat.lt_irrefl 0)

/-- The installed prefixes have indices whose leaves are not the empty one. -/
def Routes.Valid (routes : Routes) : Prop :=
  ∀ len key adj, routes len key = some adj → leafSetAdjIndex adj ≠ leafEmpty

theorem Kept.insertLessSpecific (h : Kept p) (hr : Routes.Valid routes) (dst : Ip4Address) (hn : n ≤ 32) :
    Kept (insertLessSpecific routes dst n p) ∧ Fills p (insertLessSpecific routes dst n p) := by
  induction n with
  | zero => exact ⟨h, .refl p⟩
  | succ n ih =>
    have ih := ih (Nat.le_of_succ_le hn)
    rw [Mtrie.insertLessSpecific]
    cases he : routes (n + 1) (dst &&& fibMask (n + 1)) with
    | none => exact ih
    | some lbi =>
      dsimp only
      split
      · exact ih
      · exact h.setLeaf dst (Nat.succ_pos n) hn (hr _ _ _ he)

/-- A prefix length and an index whose leaf is not the empty one. A prefix that is deleted need not be
installed, and prefixes may share an index. -/
def Op.Valid : Op → Prop
  | .add _ len adj => len ≤ 32 ∧ leafSetAdjIndex adj ≠ leafEmpty
  | .del _ len adj => len ≤ 32 ∧ leafSetAdjIndex adj ≠ leafEmpty

instance : DecidablePred Op.Valid
  | .add _ _ _ => inferInstanceAs (Decidable (_ ∧ _))
  | .del _ _ _ => inferInstanceAs (Decidable (_ ∧ _))

/-- A call gives back the plies whose last leaf it removes, and no others: an add none, a delete those
that have no leaf once the prefix is unset. -/
def Op.GivesBack (fib : Ip4Fib) : Op → Prop
  | .add dst len adj => ∀ j, fib.mtrie.plyPool.Live j →
    (fib.call (.add dst len adj)).mtrie.plyPool.Live j
  | .del dst len adj => ∃ p,
    (p = if len = 0 then fib.mtrie.plyPool
      else (unsetLeaf ⟨dst &&& fibMask len, len, adj⟩ 4 0 0 fib.mtrie.plyPool).1) ∧
    (∀ j, fib.mtrie.plyPool.Live j → (¬ p.Live j ↔ j ≠ 0 ∧ ¬ HasLeaf p j)) ∧
    (∀ j, p.Live j → fib.mtrie.plyPool.Live j ∧ (fib.call (.del dst len adj)).mtrie.plyPool.Live j)

structure Ip4Fib.Kept (fib : Ip4Fib) : Prop where
  kept : Mtrie.Kept fib.mtrie.plyPool
  routes : fib.fibEntryByDstAddress.Valid

variable {fib : Ip4Fib}

theorem Routes.Valid.set (hr : Routes.Valid routes) (len : Nat) (key : Ip4Address)
    (hadj : ∀ adj, r = some adj → leafSetAdjIndex adj ≠ leafEmpty) : (routes.set len key r).Valid := by
  intro len' key' adj h
  simp only [Routes.set] at h
  split at h
  · exact hadj adj h
  · exact hr len' key' adj h

theorem Thins.givesBack (h : Thins p p') (hk : Mtrie.Kept p) (hk' : Mtrie.Kept p') (hj : p.Live j) :
    ¬ p'.Live j ↔ j ≠ 0 ∧ ¬ HasLeaf p' j := by
  by_cases hj0 : j = 0
  · subst hj0
    exact ⟨fun hn => absurd hk'.bookkeeping.root.1 hn, fun hn => absurd rfl hn.1⟩
  · rw [h.kept_iff j hj0 hj (hk.hasLeaf j hj hj0)]
    exact (and_iff_right hj0).symm

theorem Ip4Fib.Kept.call (h : fib.Kept) (hop : op.Valid) : (fib.call op).Kept ∧ op.GivesBack fib := by
  cases op with
  | add dst len adj =>
    obtain ⟨hlen, hne⟩ := hop
    have hroutes := h.routes.set len (dst &&& fibMask len) fun _ he => Option.some.inj he ▸ hne
    by_cases hz : len = 0
    · subst hz
      exact ⟨⟨h.kept, hroutes⟩, fun j hj => hj⟩
    · have hmt : (fib.call (.add dst len adj)).mtrie.plyPool =
          setLeaf ⟨dst &&& fibMask len, len, adj⟩ 4 0 0 fib.mtrie.plyPool := by
        simp [Ip4Fib.call, ip4FibMtrieAddDelRoute, hz]
      obtain ⟨hk, hf⟩ := h.kept.setLeaf dst (Nat.pos_of_ne_zero hz) hlen hne
      rw [← hmt] at hk hf
      exact ⟨⟨hk, hroutes⟩, hf.live⟩
  | del dst len adj =>
    obtain ⟨hlen, hne⟩ := hop
    have hroutes := h.routes.set len (dst &&& fibMask len) (r := none) fun _ he =>
      absurd he.symm (Option.some_ne_none _)
    by_cases hz : len = 0
    · subst hz
      exact ⟨⟨h.kept, hroutes⟩, _, rfl, fun j hj => (Thins.refl _).givesBack h.kept h.kept hj,
        fun j hj => ⟨hj, hj⟩⟩
    · have hmt : (fib.call (.del dst len adj)).mtrie.plyPool =
          insertLessSpecific fib.fibEntryByDstAddress (dst &&& fibMask len) (len - 1)
            (unsetLeaf ⟨dst &&& fibMask len, len, adj⟩ 4 0 0 fib.mtrie.plyPool).1 := by
        simp [Ip4Fib.call, ip4FibMtrieAddDelRoute, hz]
      obtain ⟨hk₁, hthin⟩ := h.kept.unsetLeaf (a := ⟨dst &&& fibMask len, len, adj⟩) hne
      obtain ⟨hk₂, hf⟩ := hk₁.insertLessSpecific h.routes (dst &&& fibMask len) (n := len - 1) (by omega)
      rw [← hmt] at hk₂ hf
      refine ⟨⟨hk₂, hroutes⟩, _, (if_neg hz).symm, fun j hj => hthin.givesBack h.kept hk₁ hj, ?_⟩
      exact fun j hj => ⟨hthin.live j hj, hf.live j hj⟩

theorem Ip4Fib.Kept.run (h : fib.Kept) (hops : ∀ op ∈ ops, op.Valid) : (fib.run ops).Kept := by
  induction ops generalizing fib with
  | nil => exact h
  | cons op ops ih => exact ih (h.call (hops op (.head _))).1 fun o ho => hops o (.tail _ ho)

/-- After any run the plies in use are counted, referred to and reached as they should be, and the next
call gives a ply back exactly when it removes its last leaf. -/
theorem mtrie_ply_bookkeeping (ops : List Op) (hops : ∀ op ∈ ops, op.Valid) :
    Bookkeeping (Ip4Fib.init.run ops).mtrie.plyPool ∧
      ∀ op : Op, op.Valid → op.GivesBack (Ip4Fib.init.run ops) := by
  have hinit : Ip4Fib.init.Kept := ⟨kept_init, nofun⟩
  have h := hinit.run hops
  exact ⟨h.kept.bookkeeping, fun op hop => (h.call hop).2⟩

theorem mtrie_ply_bookkeeping_nested :
    (∀ op ∈ nestedOps, op.Valid) ∧ (Op.del 0x0a010203 24 6).Valid ∧
      Bookkeeping (Ip4Fib.init.run nestedOps).mtrie.plyPool ∧
      (Op.del 0x0a010203 24 6).GivesBack (Ip4Fib.init.run nestedOps) := by
  have hops : ∀ op ∈ nestedOps, op.Valid := by decide
  have hdel : (Op.del 0x0a010203 24 6).Valid := by decide
  obtain ⟨hbook, hgive⟩ := mtrie_ply_bookkeeping nestedOps hops
  exact ⟨hops, hdel, hbook, hgive _ hdel⟩

end Vpp.Mtrie
