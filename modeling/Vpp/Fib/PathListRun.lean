import Vpp.Fib.PathListCopy

namespace Vpp.Fib
open Vpp.Lib List

namespace FibPathLists

variable {env : FibPathEnv} {s : FibPathLists}

/-- The path-list is there; its paths are `cs` in some order, all of them live and its own. -/
structure Holds (s : FibPathLists) (l : Nat) (cs : List FibPathConf) : Prop where
  live : s.lists.Live l
  confs : (s.confs l).Perm cs
  own : ∀ i ∈ s.fplPaths l, s.paths.Live i ∧ (s.paths.eltAt i).fpPlIndex = l

theorem Inv.holds (hi : Inv env s) (hl : s.lists.Live l) (hcs : (s.confs l).Perm cs) : s.Holds l cs :=
  ⟨hl, hcs, hi.own l hl⟩

theorem Built.not_mem_db (h : Built s s' l v cs) (hi : Inv env s) : l ∉ s'.db := by
  rw [h.db]
  exact fun hm => h.fresh (hi.dbLive l hm)

theorem Built.live (h : Built s s' l v cs) : s'.lists.Live l := (h.lists l).mpr (.inr rfl)

theorem Built.share_inv (h : Built s s' l v cs) (hi : Inv env s) : Inv env (s'.share env l).1 := by
  rw [share]
  split
  · next hs =>
    cases hf : s'.fibPathListDbFind env l with
    | none => exact (h.inv hi).insert h.live hs hf
    | some e => exact (h.inv hi).destroy h.live (h.not_mem_db hi)
  · exact h.inv hi

/-- A path-list of the data-base that has the hash of the wanted paths has the wanted paths. -/
def NoClash (env : FibPathEnv) (s : FibPathLists) (flags : FibPathListFlags) (cs : List FibPathConf) : Prop :=
  flags.shared = true → ∀ e ∈ s.db, ∀ ds : List FibPathConf, ds.Perm cs →
    s.fibPathListHash env e = confsHash env ds → (s.confs e).Perm cs

theorem Built.share_holds (h : Built s s' l v cs) (hi : Inv env s)
    (hclash : NoClash env s (s'.lists.eltAt l).fplFlags cs) : (s'.share env l).1.Holds (s'.share env l).2 cs := by
  have hinv := h.share_inv hi
  apply hinv.holds
  · rw [share]
    split
    · cases hf : s'.fibPathListDbFind env l with
      | none => exact h.live
      | some e =>
        have he : e ∈ s'.db := mem_of_find?_eq_some hf
        have hne : e ≠ l := fun heq => h.not_mem_db hi (heq ▸ he)
        exact destroy_live_list.mpr ⟨(h.inv hi).dbLive e he, hne⟩
    · exact h.live
  · rw [share]
    split
    · next hs =>
      cases hf : s'.fibPathListDbFind env l with
      | none => exact h.confs
      | some e =>
        have he : e ∈ s.db := h.db ▸ mem_of_find?_eq_some hf
        have hsame := h.confs_eq hi (hi.dbLive e he)
        have hhash : s'.fibPathListHash env e = s'.fibPathListHash env l := by
          simpa using find?_some hf
        rw [fibPathListHash, hsame] at hhash
        rw [destroy_confs, hsame]
        exact hclash hs e he (s'.confs l) h.confs hhash
    · exact h.confs

theorem alloc_lists (hl : s.lists.Live orig) :
    s.fibPathListAlloc.1.lists.eltAt orig = s.lists.eltAt orig := by
  have hne : orig ≠ s.lists.get.2 := fun heq => s.lists.not_live_get (heq ▸ hl)
  exact (Pool.eltAt_set_ne hne).trans (s.lists.eltAt_get orig)

theorem alloc_fplPaths (hl : s.lists.Live orig) : s.fibPathListAlloc.1.fplPaths orig = s.fplPaths orig := by
  rw [fplPaths, fplPaths, alloc_lists hl]

/-- The path that is added or removed, as the copy of `orig` has it. -/
def givenConf (s : FibPathLists) (orig : Nat) (flags : FibPathListFlags) (rpath : FibRoutePath) : FibPathConf :=
  fibPathConf (s.lists.eltAt orig).fplNhProto (fibPathListFlags2PathFlags (fibPathListFlagsFixup flags)) rpath

theorem fibPathListCreate_built (env : FibPathEnv) (s : FibPathLists) (flags : FibPathListFlags) (rpath : FibRoutePath)
    (rpaths : List FibRoutePath) :
    ∃ s' l v cs, Built s s' l v cs ∧ s.fibPathListCreate env flags rpath rpaths = s'.share env l := by
  obtain ⟨is, hc, hv⟩ := createPaths_copied s.fibPathListAlloc.2 rpath.frpProto
    (fibPathListFlags2PathFlags (fibPathListFlagsFixup flags)) (rpath :: rpaths) s.fibPathListAlloc.1 []
  exact ⟨_, _, _, _, built_of_copied hc (.of_eq hv) (fibPathListFlagsFixup flags) rpath.frpProto, rfl⟩

theorem copied_given (hi : Inv env s) (hl : s.lists.Live orig) (flags : FibPathListFlags) (rpath : FibRoutePath)
    (hc : Copied s.fibPathListAlloc.1 s₁ s.fibPathListAlloc.2 [new] [s.givenConf orig flags rpath]) :
    s₁.fplPaths orig = s.fplPaths orig ∧ (∀ i ∈ s.fplPaths orig, s₁.paths.Live i) ∧ s₁.paths.Live new ∧
      s₁.conf new = s.givenConf orig flags rpath ∧ (s.fplPaths orig).map s₁.conf = s.confs orig := by
  have hlive (i : Nat) (hm : i ∈ s.fplPaths orig) : s.fibPathListAlloc.1.paths.Live i := (hi.own orig hl i hm).1
  refine ⟨?_, fun i hm => hc.stay (hlive i hm), ?_, ?_, ?_⟩
  · rw [fplPaths, hc.lists]
    exact alloc_fplPaths hl
  · exact (hc.live new).mpr (.inr (mem_singleton_self new))
  · exact (List.cons.inj hc.confs).1
  · rw [hc.map_conf hlive]
    rfl

/-- Every match but one leaves a slot that is not filled. -/
theorem copyAndPathAdd_copied (hi : Inv env s) (hl : s.lists.Live orig) (flags : FibPathListFlags)
    (rpath : FibRoutePath) :
    ∃ s₁ new js v, Copied s.fibPathListAlloc.1 s₁ s.fibPathListAlloc.2 (new :: js)
        (s.givenConf orig flags rpath :: differing env (s.givenConf orig flags rpath) (s.confs orig)) ∧
      v.Perm ((js ++ [new]) ++
        List.replicate ((matching env (s.givenConf orig flags rpath) (s.confs orig)).length - 1) 0) ∧
      s.fibPathListCopyAndPathAdd env orig flags rpath =
        (s₁.setList s.fibPathListAlloc.2
          ⟨fibPathListFlagsFixup flags, (s.lists.eltAt orig).fplNhProto, v⟩).share env s.fibPathListAlloc.2 := by
  have hnew := fibPathCreate_copied s.fibPathListAlloc.1 s.fibPathListAlloc.2 (s.lists.eltAt orig).fplNhProto
    (fibPathListFlags2PathFlags (fibPathListFlagsFixup flags)) rpath
  obtain ⟨hvec, hlive, hnlive, hconf, hconfs⟩ := copied_given hi hl flags rpath hnew
  generalize hp : s.fibPathListAlloc.1.fibPathCreate s.fibPathListAlloc.2 (s.lists.eltAt orig).fplNhProto
    (fibPathListFlags2PathFlags (fibPathListFlagsFixup flags)) rpath = p at *
  obtain ⟨js, hc, hpi, m, hv, hlen⟩ := copyForAdd_copied env s.fibPathListAlloc.2 (s.fplPaths orig).length []
    ((s.fplPaths orig).length + 1) hnlive hlive (by simp) (by simp)
  simp only [nil_append, length_nil, hconf, hconfs] at hc hpi hv hlen
  generalize hr : copyForAdd env p.2 s.fibPathListAlloc.2 (s.fplPaths orig).length (s.fplPaths orig) p.1
    (List.replicate ((s.fplPaths orig).length + 1) 0) 0 = r at hc hpi hv
  have hop : s.fibPathListCopyAndPathAdd env orig flags rpath =
      (r.1.setList s.fibPathListAlloc.2 ⟨fibPathListFlagsFixup flags, (s.lists.eltAt orig).fplNhProto,
        env.vecSort (r.1.fibPathCmp env) (r.2.1.set r.2.2 p.2)⟩).share env s.fibPathListAlloc.2 := by
    simp only [fibPathListCopyAndPathAdd, alloc_lists hl, alloc_fplPaths hl, hp, hvec, hr]
  refine ⟨r.1, p.2, js, _, hnew.trans hc, ?_, hop⟩
  apply (env.vecSort_perm _ _).trans
  apply List.Perm.of_eq
  have hjs : js.length = (differing env (s.givenConf orig flags rpath) (s.confs orig)).length := by
    rw [← hc.confs, length_map]
  have hcount := length_differing env (s.givenConf orig flags rpath) (s.confs orig)
  have hn : (s.confs orig).length = (s.fplPaths orig).length := length_map _
  have hm : m = (matching env (s.givenConf orig flags rpath) (s.confs orig)).length - 1 + 1 := by
    by_cases hnil : matching env (s.givenConf orig flags rpath) (s.confs orig) = []
    · rw [if_pos hnil] at hlen
      rw [hnil, length_nil] at hcount ⊢
      omega
    · have hpos := length_pos_of_ne_nil hnil
      rw [if_neg hnil] at hlen
      omega
  rw [hv, hpi, hm, set_fill]

/-- Every match but one leaves a slot that is not filled; a slot is enough for a path-list. -/
theorem copyAndPathRemove_copied (hi : Inv env s) (hl : s.lists.Live orig) (flags : FibPathListFlags)
    (rpath : FibRoutePath) :
    ∃ s₁ js v, Copied s.fibPathListAlloc.1 s₁ s.fibPathListAlloc.2 js
        (differing env (s.givenConf orig flags rpath) (s.confs orig)) ∧
      v.Perm (js ++ List.replicate ((matching env (s.givenConf orig flags rpath) (s.confs orig)).length - 1) 0) ∧
      s.fibPathListCopyAndPathRemove env orig flags rpath =
        if v = [] then
          ((s₁.setList s.fibPathListAlloc.2 ⟨fibPathListFlagsFixup flags, (s.lists.eltAt orig).fplNhProto,
            []⟩).fibPathListDestroy s.fibPathListAlloc.2, none)
        else
          (((s₁.setList s.fibPathListAlloc.2 ⟨fibPathListFlagsFixup flags, (s.lists.eltAt orig).fplNhProto,
              v⟩).share env s.fibPathListAlloc.2).1,
            some ((s₁.setList s.fibPathListAlloc.2 ⟨fibPathListFlagsFixup flags, (s.lists.eltAt orig).fplNhProto,
              v⟩).share env s.fibPathListAlloc.2).2) := by
  have htmp := fibPathCreate_copied s.fibPathListAlloc.1 s.fibPathListAlloc.2 (s.lists.eltAt orig).fplNhProto
    (fibPathListFlags2PathFlags (fibPathListFlagsFixup flags)) rpath
  obtain ⟨hvec, hlive, htlive, hconf, hconfs⟩ := copied_given hi hl flags rpath htmp
  generalize hp : s.fibPathListAlloc.1.fibPathCreate s.fibPathListAlloc.2 (s.lists.eltAt orig).fplNhProto
    (fibPathListFlags2PathFlags (fibPathListFlagsFixup flags)) rpath = p at *
  obtain ⟨js, hc, hv⟩ := copyForRemove_copied env s.fibPathListAlloc.2 ((s.fplPaths orig).length - 1)
      [] htlive hlive (by simp; omega)
  simp only [nil_append, length_nil, Nat.sub_zero, Nat.zero_min, hconf, hconfs] at hc hv
  generalize hr : copyForRemove env p.2 s.fibPathListAlloc.2 (s.fplPaths orig) p.1
    (List.replicate ((s.fplPaths orig).length - 1) 0) 0 = r at hc hv
  have hdone := (htmp.trans hc).destroy_head
  obtain ⟨v, hsort⟩ : ∃ v, v = if r.2 = [] then [] else env.vecSort ((r.1.fibPathDestroy p.2).fibPathCmp env) r.2 :=
    ⟨_, rfl⟩
  have hperm : v.Perm r.2 := by
    rw [hsort]
    split
    · next hnil => rw [hnil]
    · exact env.vecSort_perm _ _
  have hjs : js.length = (differing env (s.givenConf orig flags rpath) (s.confs orig)).length := by
    rw [← hc.confs, length_map]
  have hcount := length_differing env (s.givenConf orig flags rpath) (s.confs orig)
  have hn : (s.confs orig).length = (s.fplPaths orig).length := length_map _
  have hm : (s.fplPaths orig).length - 1 - js.length =
      (matching env (s.givenConf orig flags rpath) (s.confs orig)).length - 1 := by omega
  refine ⟨r.1.fibPathDestroy p.2, js, v, hdone, ?_, ?_⟩
  · rw [← hm, ← hv]
    exact hperm
  · simp only [fibPathListCopyAndPathRemove, alloc_lists hl, alloc_fplPaths hl, hp, hvec, hr]
    by_cases hnil : r.2 = []
    · rw [if_pos hnil] at hsort
      rw [if_pos hnil, if_pos hsort]
    · have hne : v ≠ [] := by
        intro h0
        exact hnil (perm_nil.mp (h0 ▸ hperm).symm)
      rw [if_neg hnil] at hsort
      rw [if_neg hnil, if_neg hne, hsort]

end FibPathLists

/-- The operations on path-lists; a create has one path at least. -/
inductive PathListOp where
  | create (flags : FibPathListFlags) (rpath : FibRoutePath) (rpaths : List FibRoutePath)
  | copyAndPathAdd (orig : Nat) (flags : FibPathListFlags) (rpath : FibRoutePath)
  | copyAndPathRemove (orig : Nat) (flags : FibPathListFlags) (rpath : FibRoutePath)
  | lastLockGone (l : Nat)
  deriving DecidableEq, Repr

namespace PathListOp

open FibPathLists

def Ready (s : FibPathLists) : PathListOp → Prop
  | create _ _ _ => True
  | copyAndPathAdd orig _ _ => s.lists.Live orig
  | copyAndPathRemove orig _ _ => s.lists.Live orig
  | lastLockGone l => s.lists.Live l

def exec (env : FibPathEnv) (s : FibPathLists) : PathListOp → FibPathLists
  | create flags rpath rpaths => (s.fibPathListCreate env flags rpath rpaths).1
  | copyAndPathAdd orig flags rpath => (s.fibPathListCopyAndPathAdd env orig flags rpath).1
  | copyAndPathRemove orig flags rpath => (s.fibPathListCopyAndPathRemove env orig flags rpath).1
  | lastLockGone l => s.fibPathListLastLockGone env l

def wanted (env : FibPathEnv) (s : FibPathLists) : PathListOp → List FibPathConf
  | copyAndPathAdd orig flags rpath =>
    s.givenConf orig flags rpath :: differing env (s.givenConf orig flags rpath) (s.confs orig)
  | copyAndPathRemove orig flags rpath => differing env (s.givenConf orig flags rpath) (s.confs orig)
  | _ => []

/-- A copy has the wanted paths; without any there is no path-list. -/
def Exact (env : FibPathEnv) (s : FibPathLists) (op : PathListOp) : Prop :=
  match op with
  | copyAndPathAdd orig flags rpath =>
    (s.fibPathListCopyAndPathAdd env orig flags rpath).1.Holds
      (s.fibPathListCopyAndPathAdd env orig flags rpath).2 (op.wanted env s)
  | copyAndPathRemove orig flags rpath =>
    if op.wanted env s = [] then (s.fibPathListCopyAndPathRemove env orig flags rpath).2 = none
    else ∃ l, (s.fibPathListCopyAndPathRemove env orig flags rpath).2 = some l ∧
      (s.fibPathListCopyAndPathRemove env orig flags rpath).1.Holds l (op.wanted env s)
  | _ => True

/-- Of the original's paths one at most is the same as the given one, and no other path-list has the hash of the new
one by chance. -/
def Single (env : FibPathEnv) (s : FibPathLists) (op : PathListOp) : Prop :=
  match op with
  | copyAndPathAdd orig flags rpath =>
    (matching env (s.givenConf orig flags rpath) (s.confs orig)).length ≤ 1 ∧
      NoClash env s (fibPathListFlagsFixup flags) (op.wanted env s)
  | copyAndPathRemove orig flags rpath =>
    (matching env (s.givenConf orig flags rpath) (s.confs orig)).length ≤ 1 ∧
      NoClash env s (fibPathListFlagsFixup flags) (op.wanted env s)
  | _ => True

end PathListOp

namespace FibPathLists

open PathListOp

def empty : FibPathLists := ⟨Pool.empty, Pool.empty, []⟩

/-- The states that operations lead to when each meets `P` where it starts. -/
inductive Run (env : FibPathEnv) (P : FibPathLists → PathListOp → Prop) : FibPathLists → Prop where
  | empty : Run env P empty
  | step {op : PathListOp} (h : Run env P s) (hr : op.Ready s) (hp : P s op) : Run env P (op.exec env s)

variable {env : FibPathEnv} {s : FibPathLists}

theorem inv_empty (env : FibPathEnv) : Inv env empty where
  own := fun l hl => absurd hl (Pool.not_live_empty l)
  nodup := fun l hl => absurd hl (Pool.not_live_empty l)
  dbLive := fun _ hl => absurd hl not_mem_nil
  dbShared := fun _ hl => absurd hl not_mem_nil
  hashes := nodup_nil

theorem copyAndPathAdd_built (hi : Inv env s) (hl : s.lists.Live orig) (flags : FibPathListFlags)
    (rpath : FibRoutePath) (hm : (matching env (s.givenConf orig flags rpath) (s.confs orig)).length ≤ 1) :
    ∃ s' l v, Built s s' l v ((copyAndPathAdd orig flags rpath).wanted env s) ∧
      (s'.lists.eltAt l).fplFlags = fibPathListFlagsFixup flags ∧
      s.fibPathListCopyAndPathAdd env orig flags rpath = s'.share env l := by
  obtain ⟨s₁, new, js, v, hc, hv, hop⟩ := copyAndPathAdd_copied hi hl flags rpath
  rw [Nat.sub_eq_zero_of_le hm, List.replicate_zero, append_nil] at hv
  have hb := built_of_copied hc (hv.trans (perm_append_singleton new js)) (fibPathListFlagsFixup flags)
    (s.lists.eltAt orig).fplNhProto
  refine ⟨_, _, v, hb, ?_, hop⟩
  have hlive : s₁.lists.Live s.fibPathListAlloc.2 := Pool.live_set.mp hb.live
  rw [setList, Pool.eltAt_set_self hlive]

theorem copyAndPathRemove_built (hi : Inv env s) (hl : s.lists.Live orig) (flags : FibPathListFlags)
    (rpath : FibRoutePath) (hm : (matching env (s.givenConf orig flags rpath) (s.confs orig)).length ≤ 1) :
    ∃ s' l v, Built s s' l v ((copyAndPathRemove orig flags rpath).wanted env s) ∧
      (s'.lists.eltAt l).fplFlags = fibPathListFlagsFixup flags ∧
      s.fibPathListCopyAndPathRemove env orig flags rpath =
        if (copyAndPathRemove orig flags rpath).wanted env s = [] then (s'.fibPathListDestroy l, none)
        else ((s'.share env l).1, some (s'.share env l).2) := by
  obtain ⟨s₁, js, v, hc, hv, hop⟩ := copyAndPathRemove_copied hi hl flags rpath
  rw [Nat.sub_eq_zero_of_le hm, List.replicate_zero, append_nil] at hv
  have hb := built_of_copied hc hv (fibPathListFlagsFixup flags) (s.lists.eltAt orig).fplNhProto
  refine ⟨_, _, v, hb, ?_, ?_⟩
  · have hlive : s₁.lists.Live s.fibPathListAlloc.2 := Pool.live_set.mp hb.live
    rw [setList, Pool.eltAt_set_self hlive]
  · have hnil : v = [] ↔ (copyAndPathRemove orig flags rpath).wanted env s = [] := by
      rw [wanted, ← hc.confs, map_eq_nil_iff]
      constructor
      · intro h0
        exact perm_nil.mp (h0 ▸ hv).symm
      · intro h0
        exact perm_nil.mp (h0 ▸ hv)
    rw [hop]
    by_cases h0 : v = []
    · rw [if_pos h0, if_pos (hnil.mp h0), h0]
    · rw [if_neg h0, if_neg (fun hw => h0 (hnil.mpr hw))]

theorem Inv.exec {op : PathListOp} (hi : Inv env s) (hr : op.Ready s) (hs : op.Single env s) :
    Inv env (op.exec env s) := by
  cases op with
  | create flags rpath rpaths =>
    obtain ⟨s', l, v, cs, hb, hop⟩ := fibPathListCreate_built env s flags rpath rpaths
    rw [PathListOp.exec, hop]
    exact hb.share_inv hi
  | copyAndPathAdd orig flags rpath =>
    obtain ⟨s', l, v, hb, -, hop⟩ := copyAndPathAdd_built hi hr flags rpath hs.1
    rw [PathListOp.exec, hop]
    exact hb.share_inv hi
  | copyAndPathRemove orig flags rpath =>
    obtain ⟨s', l, v, hb, -, hop⟩ := copyAndPathRemove_built hi hr flags rpath hs.1
    rw [PathListOp.exec, hop]
    split
    · exact (hb.inv hi).destroy hb.live (hb.not_mem_db hi)
    · exact hb.share_inv hi
  | lastLockGone l =>
    rw [PathListOp.exec, fibPathListLastLockGone]
    split
    · exact (hi.remove l).destroy hr (hi.not_mem_remove l)
    · next hns =>
      apply hi.destroy hr
      intro hm
      exact hns (hi.dbShared l hm)

theorem Run.inv (h : Run env (fun s op => op.Single env s) s) : Inv env s := by
  induction h with
  | empty => exact inv_empty env
  | step _ hr hs ih => exact ih.exec hr hs

/-- The vector of a copy is sized for one path that is the same. With more, slots stay at the index 0; where every
operation meets that expectation, each copy has just the wanted paths. -/
theorem Run.copies_exact {op : PathListOp} (h : Run env (fun s op => op.Single env s) s) (hr : op.Ready s)
    (hs : op.Single env s) :
    op.Exact env s := by
  have hi := h.inv
  cases op with
  | create flags rpath rpaths => trivial
  | lastLockGone l => trivial
  | copyAndPathAdd orig flags rpath =>
    obtain ⟨s', l, v, hb, hflags, hop⟩ := copyAndPathAdd_built hi hr flags rpath hs.1
    rw [Exact, hop]
    exact hb.share_holds hi (hflags ▸ hs.2)
  | copyAndPathRemove orig flags rpath =>
    obtain ⟨s', l, v, hb, hflags, hop⟩ := copyAndPathRemove_built hi hr flags rpath hs.1
    rw [Exact, hop]
    split
    · rfl
    · exact ⟨_, rfl, hb.share_holds hi (hflags ▸ hs.2)⟩

def sortByCmp (cmp : Nat → Nat → Int) (v : List Nat) : List Nat := v.insertionSort fun a b => cmp a b ≤ 0

theorem sortByCmp_perm (cmp : Nat → Nat → Int) (v : List Nat) : (sortByCmp cmp v).Perm v :=
  perm_insertionSort _ v

/-- Interfaces are compared by their index, and a sort by insertion. -/
def plainEnv : FibPathEnv where
  swInterfaceCompare := fun a b => a.toInt - b.toInt
  pathHash := fun c => c.fpWeight.setWidth 64
  hashMix64 := fun a b c => (b, a + b + c)
  vecSort := sortByCmp
  vecSort_perm := sortByCmp_perm

def noFlags : FibPathListFlags := ⟨false, false, false, false⟩

/-- Attached to the interface 7. -/
def attachedPath : FibRoutePath := ⟨.ip4, 0, 7, 0, 1, false, false, false, false⟩

def twice : FibPathLists := (create noFlags attachedPath [attachedPath]).exec plainEnv empty

/-- Adding that path again leaves a slot at index 0, a path of the old path-list. -/
theorem copyAndPathAdd_unfilled : ∃ (s : FibPathLists) (op : PathListOp), Run plainEnv (fun _ _ => True) s ∧
    op.Ready s ∧ ¬ op.Exact plainEnv s := by
  refine ⟨twice, copyAndPathAdd 0 noFlags attachedPath, .step .empty trivial trivial, ?_, ?_⟩
  · rw [Ready]
    decide
  · intro hx
    have hown := hx.own 0 (by decide)
    exact absurd hown.2 (by decide)

/-- Adding another path to a path-list that was created of one gives both. -/
theorem copyAndPathAdd_both :
    (copyAndPathAdd 0 noFlags { attachedPath with frpSwIfIndex := 8 }).Exact plainEnv
      ((create noFlags attachedPath []).exec plainEnv empty) := by
  have hsingle : (copyAndPathAdd 0 noFlags { attachedPath with frpSwIfIndex := 8 }).Single plainEnv
      ((create noFlags attachedPath []).exec plainEnv empty) := by
    refine ⟨by decide, ?_⟩
    intro hs
    cases hs
  exact Run.copies_exact (.step .empty trivial trivial) (by rw [Ready]; decide) hsingle

end FibPathLists

end Vpp.Fib
