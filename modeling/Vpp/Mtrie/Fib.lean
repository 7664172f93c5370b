import Vpp.Mtrie.Unset

namespace Vpp.Mtrie
open Vpp.Lib

section

/-- The plies in use form one tree, in which the path of every address finds what `r` says. -/
structure Stores (p : Pool Ply) (r : Ip4Address → Leaf × Nat) : Prop where
  tree : ∃ S, Tree p 4 0 S ∧ ∀ j, p.Live j ↔ j ∈ S
  find : ∀ a, find p 0 (bytesFrom a 0 4) = r a

variable {p p' : Pool Ply} {r r' : Ip4Address → Leaf × Nat}

theorem Stores.congr (h : Stores p r) (hr : ∀ a, r a = r' a) : Stores p r' :=
  ⟨h.tree, fun a => (h.find a).trans (hr a)⟩

theorem Stores.effect (h : Stores p r) (hs : ∀ S, Tree p 4 0 S → ∃ S', Effect p p' 4 0 S S' F) :
    Stores p' fun a => F (bytesFrom a 0 4) (r a) := by
  obtain ⟨S, ht, hlive⟩ := h.tree
  obtain ⟨S', he⟩ := hs S ht
  refine ⟨⟨S', he.tree, ?_⟩, ?_⟩
  · intro j
    rw [he.live, hlive]
    constructor
    · rintro (⟨hj, hn⟩ | hj)
      · exact absurd hj hn
      · exact hj
    · exact .inr
  · intro a
    rw [he.find _ (bytesFrom_bytes a 0 4), h.find]

theorem stores_init : Stores ip4MtrieInit.plyPool fun _ => (leafEmpty, 0) := by
  have hlive (j : Nat) : ip4MtrieInit.plyPool.Live j ↔ j = 0 := by
    simp only [ip4MtrieInit, plyCreate, Pool.live_set, Pool.live_get, Pool.not_live_empty, false_or]
    rfl
  have helt : ip4MtrieInit.plyPool.eltAt 0 = plyInit leafEmpty 0 := rfl
  refine ⟨⟨{0}, .plyInit ((hlive 0).mpr rfl) helt rfl (Nat.zero_le _) fun _ => rfl, hlive⟩, ?_⟩
  intro a
  have hl : leafIsTerminal leafEmpty = true := by decide
  rw [bytesFrom, Mtrie.find, helt]
  simp only [plyInit, hl, if_true]

theorem maskedArgs_ok (dst : Ip4Address) (hlen : len ≤ 32) (hpos : 0 < adj) (hlt : adj < 2 ^ 31) :
    SetUnsetLeafArgs.Ok ⟨dst &&& fibMask len, len, adj⟩ :=
  ⟨hlen, fun _ hk hend => masked_byte dst hlen hk hend, hpos, hlt⟩

theorem covers_masked (a dst : Ip4Address) (hlen : len ≤ 32) :
    covers (len - 8 * 0) (bytesFrom (dst &&& fibMask len) 0 4) (bytesFrom a 0 4) = true ↔
      a &&& fibMask len = dst &&& fibMask len := by
  rw [Nat.mul_zero, Nat.sub_zero, covers_iff_mask a _ hlen, and_fibMask_idem]

theorem Stores.setLeaf (h : Stores p r) (dst : Ip4Address) (hpos : 0 < len) (hlen : len ≤ 32)
    (hadj : 0 < adj) (hlt : adj < 2 ^ 31) :
    Stores (setLeaf ⟨dst &&& fibMask len, len, adj⟩ 4 0 0 p) fun a =>
      if a &&& fibMask len = dst &&& fibMask len ∧ (r a).2 ≤ len then (leafSetAdjIndex adj, len)
      else r a := by
  have ha := maskedArgs_ok dst hlen hadj hlt
  refine (h.effect fun S ht => setLeaf_spec ha rfl hpos ht).congr ?_
  intro a
  simp only [setAction, moreSpecific, covers_masked a dst hlen]
  by_cases hc : a &&& fibMask len = dst &&& fibMask len
  · simp [hc]
  · simp [hc]

theorem Stores.unsetLeaf (h : Stores p r) (dst : Ip4Address) (hlen : len ≤ 32) (hadj : 0 < adj)
    (hlt : adj < 2 ^ 31) (hbits : ∀ a, (r a).1 = leafSetAdjIndex adj → (r a).2 = len) :
    Stores (unsetLeaf ⟨dst &&& fibMask len, len, adj⟩ 4 0 0 p).1 fun a =>
      if a &&& fibMask len = dst &&& fibMask len ∧ (r a).1 = leafSetAdjIndex adj then (leafEmpty, 0)
      else r a := by
  have ha := maskedArgs_ok dst hlen hadj hlt
  have hd : DelBits p 4 0 (leafSetAdjIndex adj) len := by
    intro bs hbs
    obtain ⟨a, rfl⟩ := exists_bytesFrom hbs
    rw [h.find a]
    exact hbits a
  have hs (S : Set Nat) (ht : Tree p 4 0 S) :
      ∃ S', Effect p (Mtrie.unsetLeaf ⟨dst &&& fibMask len, len, adj⟩ 4 0 0 p).1 4 0 S S'
        (unsetAction ⟨dst &&& fibMask len, len, adj⟩ 0 4) := by
    rcases unsetLeaf_spec ha rfl ht hd with ⟨_, he⟩ | ⟨_, hk, _⟩
    · exact he
    · exact absurd hk (Nat.lt_irrefl 0)
  refine (h.effect hs).congr ?_
  intro a
  simp only [unsetAction, erase, covers_masked a dst hlen]

/-- The installed prefixes have indices that fit a leaf, one for each prefix. -/
structure Routes.Ok (routes : Routes) : Prop where
  length_le : routes len key = some adj → len ≤ 32
  masked : routes len key = some adj → key &&& fibMask len = key
  adj_pos : routes len key = some adj → 0 < adj
  adj_lt : routes len key = some adj → adj < 2 ^ 31
  distinct : routes len key = some adj → routes len' key' = some adj → len = len' ∧ key = key'

variable {routes : Routes}

/-- The next less specific route is put back under the leaves that are not more specific. -/
theorem Stores.insertLessSpecific (h : Stores p r) (hok : routes.Ok) (dst : Ip4Address) (n : Nat) :
    Stores (insertLessSpecific routes dst n p) fun a =>
      if 0 < (bestMatch routes dst n).2 ∧ (r a).2 ≤ (bestMatch routes dst n).2 ∧
        a &&& fibMask (bestMatch routes dst n).2 = dst &&& fibMask (bestMatch routes dst n).2
      then bestMatch routes dst n else r a := by
  induction n with
  | zero =>
    refine h.congr ?_
    intro a
    rw [if_neg fun hc => absurd hc.1 (Nat.lt_irrefl 0)]
  | succ n ih =>
    rw [Mtrie.insertLessSpecific]
    cases hr : routes (n + 1) (dst &&& fibMask (n + 1)) with
    | none =>
      rw [bestMatch_of_none hr]
      exact ih
    | some lbi =>
      have hlt := hok.adj_lt hr
      have hne : indexInvalid ≠ lbi := by
        simp only [indexInvalid]
        omega
      simp only [bestMatch_of_some hr, if_neg hne]
      refine (h.setLeaf dst (Nat.succ_pos n) (hok.length_le hr) (hok.adj_pos hr) hlt).congr ?_
      intro a
      simp only [Nat.succ_pos, true_and, and_comm]

end

/-- The part of `ip4_fib_t` that forwarding uses: the mtrie, and the installed prefixes with the
indices they contribute to forwarding. -/
structure Ip4Fib where
  mtrie : Mtrie
  fibEntryByDstAddress : Routes

def Ip4Fib.init : Ip4Fib := ⟨ip4MtrieInit, fun _ _ => none⟩

inductive Op where
  | add (dstAddress : Ip4Address) (dstAddressLength adjIndex : Nat)
  | del (dstAddress : Ip4Address) (dstAddressLength adjIndex : Nat)

def Ip4Fib.call (fib : Ip4Fib) : Op → Ip4Fib
  | .add dst len adj =>
    ⟨ip4FibMtrieAddDelRoute fib.fibEntryByDstAddress fib.mtrie dst len adj false,
      fib.fibEntryByDstAddress.set len (dst &&& fibMask len) (some adj)⟩
  | .del dst len adj =>
    ⟨ip4FibMtrieAddDelRoute fib.fibEntryByDstAddress fib.mtrie dst len adj true,
      fib.fibEntryByDstAddress.set len (dst &&& fibMask len) none⟩

/-- A prefix is added with an index that no other prefix has, and deleted with the index it has. -/
def Op.Ok (routes : Routes) : Op → Prop
  | .add dst len adj => len ≤ 32 ∧ 0 < adj ∧ adj < 2 ^ 31 ∧
    ∀ len' key, routes len' key = some adj → len' = len ∧ key = dst &&& fibMask len
  | .del dst len adj => routes len (dst &&& fibMask len) = some adj

def Ip4Fib.run (fib : Ip4Fib) (ops : List Op) : Ip4Fib := ops.foldl Ip4Fib.call fib

def Ip4Fib.RunOk : Ip4Fib → List Op → Prop
  | _, [] => True
  | fib, op :: ops => op.Ok fib.fibEntryByDstAddress ∧ (fib.call op).RunOk ops

def leafOf : Option Nat → Leaf
  | some adj => leafSetAdjIndex adj
  | none => leafEmpty

structure Ip4Fib.Inv (fib : Ip4Fib) : Prop where
  routes : fib.fibEntryByDstAddress.Ok
  stores : Stores fib.mtrie.plyPool fun a => bestMatch fib.fibEntryByDstAddress a 32
  default : fib.mtrie.defaultLeaf = leafOf (fib.fibEntryByDstAddress 0 0)

theorem Ip4Fib.inv_init : Ip4Fib.init.Inv := by
  refine ⟨⟨nofun, nofun, nofun, nofun, nofun⟩, ?_, rfl⟩
  refine stores_init.congr ?_
  intro a
  rcases bestMatch_cases init.fibEntryByDstAddress a 32 with he | ⟨_, _, _, _, hr, _⟩
  · exact he.symm
  · exact absurd hr (by simp [init])

section Routes
variable {routes : Routes} (hok : routes.Ok)
include hok

theorem Routes.Ok.set_some (hop : (Op.add dst len adj).Ok routes) :
    (routes.set len (dst &&& fibMask len) (some adj)).Ok := by
  obtain ⟨hlen, hpos, hlt, hnew⟩ := hop
  have hcases {len' key' adj'} (h : routes.set len (dst &&& fibMask len) (some adj) len' key' = some adj') :
      (len' = len ∧ key' = dst &&& fibMask len ∧ adj' = adj) ∨ routes len' key' = some adj' := by
    simp only [Routes.set] at h
    split at h
    · next he => exact .inl ⟨he.1, he.2, (Option.some.inj h).symm⟩
    · exact .inr h
  constructor
  case length_le =>
    intro len' key' adj' h
    rcases hcases h with ⟨rfl, _, _⟩ | h
    · exact hlen
    · exact hok.length_le h
  case masked =>
    intro len' key' adj' h
    rcases hcases h with ⟨rfl, rfl, _⟩ | h
    · exact and_fibMask_idem dst
    · exact hok.masked h
  case adj_pos =>
    intro len' key' adj' h
    rcases hcases h with ⟨_, _, rfl⟩ | h
    · exact hpos
    · exact hok.adj_pos h
  case adj_lt =>
    intro len' key' adj' h
    rcases hcases h with ⟨_, _, rfl⟩ | h
    · exact hlt
    · exact hok.adj_lt h
  case distinct =>
    intro len₁ key₁ adj' len₂ key₂ h₁ h₂
    rcases hcases h₁ with ⟨hl₁, hk₁, ha⟩ | h₁
    · rcases hcases h₂ with ⟨hl₂, hk₂, _⟩ | h₂
      · exact ⟨hl₁.trans hl₂.symm, hk₁.trans hk₂.symm⟩
      · obtain ⟨hl₂, hk₂⟩ := hnew len₂ key₂ (ha ▸ h₂)
        exact ⟨hl₁.trans hl₂.symm, hk₁.trans hk₂.symm⟩
    · rcases hcases h₂ with ⟨hl₂, hk₂, ha⟩ | h₂
      · obtain ⟨hl₁, hk₁⟩ := hnew len₁ key₁ (ha ▸ h₁)
        exact ⟨hl₁.trans hl₂.symm, hk₁.trans hk₂.symm⟩
      · exact hok.distinct h₁ h₂

theorem Routes.Ok.set_none (len : Nat) (key : Ip4Address) : (routes.set len key none).Ok := by
  have hsub {len' key' adj'} (h : routes.set len key none len' key' = some adj') :
      routes len' key' = some adj' := by
    simp only [Routes.set] at h
    split at h
    · exact absurd h (by simp)
    · exact h
  exact ⟨fun h => hok.length_le (hsub h), fun h => hok.masked (hsub h), fun h => hok.adj_pos (hsub h),
    fun h => hok.adj_lt (hsub h), fun h h' => hok.distinct (hsub h) (hsub h')⟩

theorem Routes.Ok.leaf_iff (hr : routes len key = some adj) (hpos : 0 < len) (a : Ip4Address) :
    (bestMatch routes a 32).1 = leafSetAdjIndex adj ↔
      a &&& fibMask len = key ∧ (bestMatch routes a 32).2 = len := by
  rcases bestMatch_cases routes a 32 with he | ⟨i, adj', hi, hle, hr', he⟩
  · rw [he]
    have hne := (maskedArgs_ok key (hok.length_le hr) (hok.adj_pos hr) (hok.adj_lt hr)).ne_empty
    exact ⟨fun h => absurd h.symm hne, fun h => absurd h.2 hpos.ne⟩
  · rw [he]
    constructor
    · intro h
      have hadj : adj' = adj := leafSetAdjIndex_inj (hok.adj_lt hr') (hok.adj_lt hr) h
      obtain ⟨rfl, hk⟩ := hok.distinct (hadj ▸ hr') hr
      exact ⟨hk, rfl⟩
    · rintro ⟨hk, rfl⟩
      rw [hk, hr] at hr'
      rw [Option.some.inj hr']

/-- What deleting a prefix and putting back the next less specific one leaves. -/
theorem Routes.Ok.bestMatch_refill (hr : routes len key = some adj) (hpos : 0 < len) (a : Ip4Address)
    (r : Leaf × Nat) (h : r = if a &&& fibMask len = key ∧ (bestMatch routes a 32).1 = leafSetAdjIndex adj
      then (leafEmpty, 0) else bestMatch routes a 32) :
    (if 0 < (bestMatch routes key (len - 1)).2 ∧ r.2 ≤ (bestMatch routes key (len - 1)).2 ∧
        a &&& fibMask (bestMatch routes key (len - 1)).2 =
          key &&& fibMask (bestMatch routes key (len - 1)).2
      then bestMatch routes key (len - 1) else r) =
    bestMatch (routes.set len key none) a 32 := by
  have hlen := hok.length_le hr
  have hle := bestMatch_le routes key (len - 1)
  rw [bestMatch_set_none hpos]
  simp only [hok.leaf_iff hr hpos] at h
  by_cases hc : a &&& fibMask len = key ∧ (bestMatch routes a 32).2 = len
  · have hcov : a &&& fibMask len = key &&& fibMask len := hc.1.trans (hok.masked hr).symm
    have heq : bestMatch routes a (len - 1) = bestMatch routes key (len - 1) :=
      bestMatch_eq_of_covers hcov (Nat.sub_le len 1) hlen
    rw [if_pos ⟨hc.1, hc⟩] at h
    rw [if_pos hc, heq, h]
    by_cases hz : (bestMatch routes key (len - 1)).2 = 0
    · rw [if_neg fun hp => hp.1.ne' hz, bestMatch_zero hz]
    · rw [if_pos ⟨Nat.pos_of_ne_zero hz, Nat.zero_le _, and_fibMask_of_le hcov (by omega) hlen⟩]
  · rw [if_neg fun hp => hc hp.2] at h
    rw [if_neg hc, h]
    split
    · next hp =>
      obtain ⟨_, hr2, hcov⟩ := hp
      calc bestMatch routes key (len - 1)
        _ = bestMatch routes key (bestMatch routes key (len - 1)).2 := bestMatch_of_le (Nat.le_refl _) hle
        _ = bestMatch routes a (bestMatch routes key (len - 1)).2 :=
          (bestMatch_eq_of_covers hcov (Nat.le_refl _) (by omega)).symm
        _ = bestMatch routes a 32 := (bestMatch_of_le hr2 (by omega)).symm
    · rfl

end Routes

variable {fib : Ip4Fib} {routes : Routes}

theorem Ip4Fib.Inv.call_add (hi : fib.Inv) (hop : (Op.add dst len adj).Ok fib.fibEntryByDstAddress) :
    (fib.call (.add dst len adj)).Inv := by
  have hroutes := hi.routes.set_some hop
  obtain ⟨hlen, hpos, hlt, _⟩ := hop
  by_cases hz : len = 0
  · subst hz
    refine ⟨hroutes, ?_, ?_⟩
    · refine hi.stores.congr ?_
      intro a
      exact (bestMatch_set_zero ..).symm
    · simp [Ip4Fib.call, ip4FibMtrieAddDelRoute, Routes.set, and_fibMask_zero, leafOf]
  · have hmt : (fib.call (.add dst len adj)).mtrie = { fib.mtrie with
        plyPool := setLeaf ⟨dst &&& fibMask len, len, adj⟩ 4 0 0 fib.mtrie.plyPool } := by
      simp [Ip4Fib.call, ip4FibMtrieAddDelRoute, hz]
    refine ⟨hroutes, ?_, ?_⟩
    · rw [hmt]
      refine (hi.stores.setLeaf dst (Nat.pos_of_ne_zero hz) hlen hpos hlt).congr ?_
      intro a
      simp only [Ip4Fib.call, bestMatch_set_some (Nat.pos_of_ne_zero hz), hlen, true_and]
    · rw [hmt]
      refine hi.default.trans ?_
      simp [Ip4Fib.call, Routes.set, Ne.symm hz]

theorem Ip4Fib.Inv.call_del (hi : fib.Inv) (hop : (Op.del dst len adj).Ok fib.fibEntryByDstAddress) :
    (fib.call (.del dst len adj)).Inv := by
  have hroutes := hi.routes.set_none len (dst &&& fibMask len)
  have hr : fib.fibEntryByDstAddress len (dst &&& fibMask len) = some adj := hop
  by_cases hz : len = 0
  · subst hz
    refine ⟨hroutes, ?_, ?_⟩
    · refine hi.stores.congr ?_
      intro a
      exact (bestMatch_set_zero ..).symm
    · simp [Ip4Fib.call, ip4FibMtrieAddDelRoute, Routes.set, and_fibMask_zero, leafOf]
  · have hpos := Nat.pos_of_ne_zero hz
    have hmt : (fib.call (.del dst len adj)).mtrie = { fib.mtrie with
        plyPool := insertLessSpecific fib.fibEntryByDstAddress (dst &&& fibMask len) (len - 1)
          (unsetLeaf ⟨dst &&& fibMask len, len, adj⟩ 4 0 0 fib.mtrie.plyPool).1 } := by
      simp [Ip4Fib.call, ip4FibMtrieAddDelRoute, hz]
    refine ⟨hroutes, ?_, ?_⟩
    · rw [hmt]
      have hun := hi.stores.unsetLeaf dst (hi.routes.length_le hr) (hi.routes.adj_pos hr)
        (hi.routes.adj_lt hr) fun a h => ((hi.routes.leaf_iff hr hpos a).mp h).2
      refine (hun.insertLessSpecific hi.routes (dst &&& fibMask len) (len - 1)).congr ?_
      intro a
      exact hi.routes.bestMatch_refill hr hpos a _ rfl
    · rw [hmt]
      refine hi.default.trans ?_
      simp [Ip4Fib.call, Routes.set, Ne.symm hz]

theorem Ip4Fib.Inv.call (hi : fib.Inv) (hop : op.Ok fib.fibEntryByDstAddress) : (fib.call op).Inv := by
  cases op with
  | add dst len adj => exact hi.call_add hop
  | del dst len adj => exact hi.call_del hop

theorem Ip4Fib.Inv.run (hi : fib.Inv) (hops : fib.RunOk ops) : (fib.run ops).Inv := by
  induction ops generalizing fib with
  | nil => exact hi
  | cons op ops ih =>
    obtain ⟨hop, hrest⟩ := hops
    exact ih (hi.call hop) hrest

/-- The steps of a lookup from byte `k` on. -/
def walk (m : Mtrie) (a : Ip4Address) : (k d : Nat) → Leaf → Leaf
  | _, 0, leaf => leaf
  | k, d + 1, leaf => walk m a (k + 1) d (ip4FibMtrieLookupStep m leaf a k)

theorem walk_terminal (hl : leafIsTerminal leaf = true) : walk m a k d leaf = leaf := by
  induction d generalizing k with
  | zero => rfl
  | succ d ih => rw [walk, ip4FibMtrieLookupStep, if_pos hl, ih]

theorem walk_eq_find {m : Mtrie} (ht : Tree m.plyPool d (leafGetNextPlyIndex leaf) S)
    (hl : leafIsTerminal leaf = false) :
    walk m a k d leaf = (find m.plyPool (leafGetNextPlyIndex leaf) (bytesFrom a k d)).1 := by
  induction d generalizing k leaf S with
  | zero => exact ht.elim
  | succ d ih =>
    obtain ⟨C, hn⟩ := ht
    have hstep : ip4FibMtrieLookupStep m leaf a k =
        (m.plyPool.eltAt (leafGetNextPlyIndex leaf)).leaves (asU8 a k) := by
      rw [ip4FibMtrieLookupStep, if_neg (by simp [hl])]
      rfl
    rw [walk, hstep, bytesFrom, find]
    split
    · next hl' => exact walk_terminal hl'
    · next hl' => exact ih (hn.next _ (asU8_lt a k) (by simpa using hl')).2 (by simpa using hl')

theorem Ip4Fib.Inv.lookupLeaf_eq (hi : fib.Inv) (a : Ip4Address) :
    lookupLeaf fib.mtrie a =
      if (bestMatch fib.fibEntryByDstAddress a 32).1 = leafEmpty
      then leafOf (fib.fibEntryByDstAddress 0 (a &&& fibMask 0))
      else (bestMatch fib.fibEntryByDstAddress a 32).1 := by
  obtain ⟨S, ht, _⟩ := hi.stores.tree
  have hwalk : walk fib.mtrie a 0 4 leafRoot = (bestMatch fib.fibEntryByDstAddress a 32).1 := by
    rw [walk_eq_find ht (by decide)]
    exact congrArg Prod.fst (hi.stores.find a)
  rw [and_fibMask_zero, ← hi.default, ← hwalk]
  rfl

/-- Among the installed prefixes that cover `a`, the longest has length `len` and index `adj`. -/
structure Routes.LongestMatch (routes : Routes) (a : Ip4Address) (len adj : Nat) : Prop where
  length_le : len ≤ 32
  found : routes len (a &&& fibMask len) = some adj
  longest : ∀ len', len < len' → len' ≤ 32 → routes len' (a &&& fibMask len') = none

theorem Routes.LongestMatch.bestMatch_eq (hm : routes.LongestMatch a len adj) (hpos : 0 < len) :
    bestMatch routes a 32 = (leafSetAdjIndex adj, len) := by
  have hge := le_bestMatch hm.found hm.length_le
  rcases bestMatch_cases routes a 32 with he | ⟨i, adj', hi, hle, hr, he⟩
  · rw [he] at hge
    exact absurd hpos (Nat.not_lt.mpr hge)
  · rw [he] at hge ⊢
    rcases Nat.lt_or_eq_of_le hge with hlt | hlen
    · rw [hm.longest i hlt hle] at hr
      exact absurd hr (by simp)
    · change len = i at hlen
      subst hlen
      rw [hm.found] at hr
      rw [Option.some.inj hr]

theorem bestMatch_uncovered (h : ∀ i, 0 < i → i ≤ n → routes i (a &&& fibMask i) = none) :
    bestMatch routes a n = (leafEmpty, 0) := by
  rcases bestMatch_cases routes a n with he | ⟨i, adj, hi, hle, hr, _⟩
  · exact he
  · rw [h i hi hle] at hr
    exact absurd hr (by simp)

theorem Ip4Fib.Inv.lookupLeaf_longest (hi : fib.Inv) (hm : fib.fibEntryByDstAddress.LongestMatch a len adj) :
    lookupLeaf fib.mtrie a = leafSetAdjIndex adj := by
  rw [hi.lookupLeaf_eq]
  by_cases hz : len = 0
  · subst hz
    rw [bestMatch_uncovered hm.longest, if_pos rfl, hm.found]
    rfl
  · have hne := (maskedArgs_ok a hm.length_le (hi.routes.adj_pos hm.found)
      (hi.routes.adj_lt hm.found)).ne_empty
    rw [hm.bestMatch_eq (Nat.pos_of_ne_zero hz)]
    exact if_neg hne

/-- After any run, the lookup of every address gives the index of the longest installed prefix that
covers it, and the empty leaf where none does. -/
theorem mtrie_longest_prefix_match (ops : List Op) (hops : Ip4Fib.init.RunOk ops) (a : Ip4Address) :
    (∀ len adj, (Ip4Fib.init.run ops).fibEntryByDstAddress.LongestMatch a len adj →
      leafIsTerminal (lookupLeaf (Ip4Fib.init.run ops).mtrie a) = true ∧
      leafGetAdjIndex (lookupLeaf (Ip4Fib.init.run ops).mtrie a) = adj) ∧
    ((∀ len, len ≤ 32 → (Ip4Fib.init.run ops).fibEntryByDstAddress len (a &&& fibMask len) = none) →
      lookupLeaf (Ip4Fib.init.run ops).mtrie a = leafEmpty) := by
  have hi := Ip4Fib.inv_init.run hops
  constructor
  · intro len adj hm
    have hlt := hi.routes.adj_lt hm.found
    have ha := maskedArgs_ok a hm.length_le (hi.routes.adj_pos hm.found) hlt
    rw [hi.lookupLeaf_longest hm]
    exact ⟨ha.terminal, leafGetAdjIndex_set hlt⟩
  · intro hnone
    rw [hi.lookupLeaf_eq, bestMatch_uncovered fun i _ hle => hnone i hle, if_pos rfl,
      hnone 0 (Nat.zero_le _)]
    rfl

/-- Nested prefixes at byte boundaries, of which the middle one is deleted again. -/
def nestedOps : List Op :=
  [.add 0x0a000000 8 5, .add 0x0a010203 24 6, .add 0x0a010000 16 7, .add 0 0 8, .del 0x0a010000 16 7]

theorem mtrie_longest_prefix_match_nested :
    Ip4Fib.init.RunOk nestedOps ∧
      leafGetAdjIndex (lookupLeaf (Ip4Fib.init.run nestedOps).mtrie 0x0a0102ff) = 6 ∧
      leafGetAdjIndex (lookupLeaf (Ip4Fib.init.run nestedOps).mtrie 0x0a010303) = 5 := by
  have hops : Ip4Fib.init.RunOk nestedOps := by
    simp only [nestedOps, Ip4Fib.RunOk, Op.Ok, Ip4Fib.call, Ip4Fib.init]
    refine ⟨⟨by decide, by decide, by decide, ?_⟩, ⟨by decide, by decide, by decide, ?_⟩,
      ⟨by decide, by decide, by decide, ?_⟩, ⟨by decide, by decide, by decide, ?_⟩, by decide, trivial⟩
    · intro len key h
      simp at h
    · intro len key h
      simp [Routes.set] at h
    · intro len key h
      simp only [Routes.set] at h
      split_ifs at h <;> simp at h
    · intro len key h
      simp only [Routes.set] at h
      split_ifs at h <;> simp at h
  refine ⟨hops, ?_, ?_⟩
  · refine ((mtrie_longest_prefix_match nestedOps hops _).1 24 6 ⟨by decide, by decide, ?_⟩).2
    have hlong : ∀ len < 33, 24 < len →
        (Ip4Fib.init.run nestedOps).fibEntryByDstAddress len (0x0a0102ff &&& fibMask len) = none := by decide
    exact fun len hlt hle => hlong len (Nat.lt_succ_of_le hle) hlt
  · refine ((mtrie_longest_prefix_match nestedOps hops _).1 8 5 ⟨by decide, by decide, ?_⟩).2
    have hlong : ∀ len < 33, 8 < len →
        (Ip4Fib.init.run nestedOps).fibEntryByDstAddress len (0x0a010303 &&& fibMask len) = none := by decide
    exact fun len hlt hle => hlong len (Nat.lt_succ_of_le hle) hlt

end Vpp.Mtrie
