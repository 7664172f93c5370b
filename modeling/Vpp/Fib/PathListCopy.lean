import Vpp.Fib.PathList

namespace Vpp.Fib
open Vpp.Lib List

namespace FibPathLists

/-- The paths `is` of the path-list `l` are new, with what `cs` says; all else is as before. -/
structure Copied (s s' : FibPathLists) (l : Nat) (is : List Nat) (cs : List FibPathConf) : Prop where
  lists : s'.lists = s.lists
  db : s'.db = s.db
  live : ∀ j, s'.paths.Live j ↔ s.paths.Live j ∨ j ∈ is
  fresh : ∀ i ∈ is, ¬ s.paths.Live i
  old : ∀ j, s.paths.Live j → s'.paths.eltAt j = s.paths.eltAt j
  own : ∀ i ∈ is, (s'.paths.eltAt i).fpPlIndex = l
  confs : is.map s'.conf = cs
  nodup : is.Nodup

theorem Copied.refl (s : FibPathLists) (l : Nat) : Copied s s l [] [] where
  lists := rfl
  db := rfl
  live := by simp
  fresh := by simp
  old := fun _ _ => rfl
  own := by simp
  confs := rfl
  nodup := nodup_nil

theorem Copied.trans (h : Copied s s₁ l is cs) (h' : Copied s₁ s₂ l js ds) : Copied s s₂ l (is ++ js) (cs ++ ds) where
  lists := h'.lists.trans h.lists
  db := h'.db.trans h.db
  live := by
    intro j
    rw [h'.live, h.live, mem_append, or_assoc]
  fresh := by
    intro i hi
    cases mem_append.mp hi with
    | inl hi => exact h.fresh i hi
    | inr hi => exact fun hl => h'.fresh i hi ((h.live i).mpr (.inl hl))
  old := by
    intro j hj
    rw [h'.old j ((h.live j).mpr (.inl hj)), h.old j hj]
  own := by
    intro i hi
    cases mem_append.mp hi with
    | inl hi =>
      rw [h'.old i ((h.live i).mpr (.inr hi))]
      exact h.own i hi
    | inr hi => exact h'.own i hi
  confs := by
    have hkeep : is.map s₂.conf = is.map s₁.conf := by
      apply map_congr_left
      intro i hi
      rw [conf, conf, h'.old i ((h.live i).mpr (.inr hi))]
    rw [map_append, hkeep, h.confs, h'.confs]
  nodup := by
    apply List.Nodup.append h.nodup h'.nodup
    intro i hi hj
    exact h'.fresh i hj ((h.live i).mpr (.inr hi))

theorem newPath_copied (s : FibPathLists) (path : FibPathElt) :
    Copied s (s.newPath path).1 path.fpPlIndex [(s.newPath path).2] [path.conf] := by
  have hlive : s.paths.get.1.Live s.paths.get.2 := Pool.live_get.mpr (.inr rfl)
  have hself : (s.newPath path).1.paths.eltAt (s.newPath path).2 = path := Pool.eltAt_set_self hlive
  refine ⟨rfl, rfl, ?_, ?_, ?_, ?_, ?_, nodup_singleton _⟩
  · intro j
    rw [mem_singleton]
    exact Pool.live_set.trans Pool.live_get
  · intro i hi
    rw [mem_singleton.mp hi]
    exact s.paths.not_live_get
  · intro j hj
    have hne : j ≠ s.paths.get.2 := fun heq => s.paths.not_live_get (heq ▸ hj)
    exact (Pool.eltAt_set_ne hne).trans (s.paths.eltAt_get j)
  · intro i hi
    rw [mem_singleton.mp hi, hself]
  · rw [map_singleton, conf, hself]

theorem fibPathCreate_copied (s : FibPathLists) (l : Nat) (nhProto : FibProtocol) (flags : FibPathCfgFlags)
    (rpath : FibRoutePath) :
    Copied s (s.fibPathCreate l nhProto flags rpath).1 l [(s.fibPathCreate l nhProto flags rpath).2]
      [fibPathConf nhProto flags rpath] := newPath_copied s ⟨l, fibPathConf nhProto flags rpath⟩

theorem fibPathCopy_copied (s : FibPathLists) (i l : Nat) :
    Copied s (s.fibPathCopy i l).1 l [(s.fibPathCopy i l).2] [s.conf i] := newPath_copied s ⟨l, s.conf i⟩

/-- The path that was only made for comparing goes away again. -/
theorem Copied.destroy_head (h : Copied s s' l (t :: is) (c :: cs)) : Copied s (s'.fibPathDestroy t) l is cs where
  lists := h.lists
  db := h.db
  live := by
    intro j
    have ht := h.fresh t mem_cons_self
    have hnot := (nodup_cons.mp h.nodup).1
    rw [fibPathDestroy, Pool.live_put, h.live, mem_cons]
    constructor
    · rintro ⟨hl | heq | hj, hne⟩
      · exact .inl hl
      · exact absurd heq hne
      · exact .inr hj
    · rintro (hl | hj)
      · exact ⟨.inl hl, fun heq => ht (heq ▸ hl)⟩
      · exact ⟨.inr (.inr hj), fun heq => hnot (heq ▸ hj)⟩
  fresh := fun i hi => h.fresh i (mem_cons_of_mem t hi)
  old := by
    intro j hj
    rw [fibPathDestroy, Pool.eltAt_put]
    exact h.old j hj
  own := by
    intro i hi
    rw [fibPathDestroy, Pool.eltAt_put]
    exact h.own i (mem_cons_of_mem t hi)
  confs := by
    have hmap := (List.cons.inj h.confs).2
    rw [← hmap]
    apply map_congr_left
    intro i _
    rw [conf, conf, fibPathDestroy, Pool.eltAt_put]
  nodup := (nodup_cons.mp h.nodup).2

theorem createPaths_copied (l : Nat) (nhProto : FibProtocol) (flags : FibPathCfgFlags) (rpaths : List FibRoutePath)
    (s : FibPathLists) (v : List Nat) :
    ∃ is, Copied s (createPaths l nhProto flags rpaths s v).1 l is (rpaths.map (fibPathConf nhProto flags)) ∧
      (createPaths l nhProto flags rpaths s v).2 = v ++ is := by
  induction rpaths generalizing s v with
  | nil => exact ⟨[], .refl s l, (append_nil v).symm⟩
  | cons rpath rpaths ih =>
    obtain ⟨is, hc, hv⟩ := ih (s.fibPathCreate l nhProto flags rpath).1
        (v ++ [(s.fibPathCreate l nhProto flags rpath).2])
    refine ⟨[(s.fibPathCreate l nhProto flags rpath).2] ++ is, ?_, ?_⟩
    · exact (fibPathCreate_copied s l nhProto flags rpath).trans hc
    · rw [createPaths, hv, List.append_assoc]

def differing (env : FibPathEnv) (c : FibPathConf) (cs : List FibPathConf) : List FibPathConf :=
  cs.filter fun d => decide (fibPathCmpI env c d ≠ 0)

def matching (env : FibPathEnv) (c : FibPathConf) (cs : List FibPathConf) : List FibPathConf :=
  cs.filter fun d => decide (fibPathCmpI env c d = 0)

variable {env : FibPathEnv} {c d : FibPathConf}

theorem differing_cons_of_eq (h : fibPathCmpI env c d = 0) (cs : List FibPathConf) :
    differing env c (d :: cs) = differing env c cs := by
  rw [differing, filter_cons_of_neg (by simp [h]), differing]

theorem differing_cons_of_ne (h : fibPathCmpI env c d ≠ 0) (cs : List FibPathConf) :
    differing env c (d :: cs) = d :: differing env c cs := by
  rw [differing, filter_cons_of_pos (by simp [h]), differing]

theorem matching_cons_of_eq (h : fibPathCmpI env c d = 0) (cs : List FibPathConf) :
    matching env c (d :: cs) = d :: matching env c cs := by
  rw [matching, filter_cons_of_pos (by simp [h]), matching]

theorem matching_cons_of_ne (h : fibPathCmpI env c d ≠ 0) (cs : List FibPathConf) :
    matching env c (d :: cs) = matching env c cs := by
  rw [matching, filter_cons_of_neg (by simp [h]), matching]

theorem length_differing (env : FibPathEnv) (c : FibPathConf) (cs : List FibPathConf) :
    (differing env c cs).length + (matching env c cs).length = cs.length := by
  induction cs with
  | nil => rfl
  | cons d cs ih =>
    by_cases h : fibPathCmpI env c d = 0
    · rw [differing_cons_of_eq h, matching_cons_of_eq h, length_cons, length_cons, ← ih, Nat.add_assoc]
    · rw [differing_cons_of_ne h, matching_cons_of_ne h, length_cons, length_cons, ← ih, Nat.add_right_comm]

theorem set_fill (ks : List Nat) (m i : Nat) :
    (ks ++ List.replicate (m + 1) 0).set ks.length i = (ks ++ [i]) ++ List.replicate m 0 := by
  rw [set_append_right _ _ (le_refl _), Nat.sub_self, List.replicate_succ, set_cons_zero,
    List.append_assoc, singleton_append]

theorem take_fill (hks : ks.length ≤ n) (hn : n ≤ ks.length + m) :
    (ks ++ List.replicate m 0).take n = ks ++ List.replicate (n - ks.length) 0 := by
  have hmin : min (n - ks.length) m = n - ks.length := by omega
  rw [take_append, take_of_length_le hks, take_replicate, hmin]

theorem Copied.conf_eq (h : Copied s s' l is cs) (hj : s.paths.Live j) : s'.conf j = s.conf j := by
  rw [conf, conf, h.old j hj]

theorem Copied.map_conf (h : Copied s s' l is cs) {js : List Nat} (hjs : ∀ j ∈ js, s.paths.Live j) :
    js.map s'.conf = js.map s.conf :=
  map_congr_left fun j hj => h.conf_eq (hjs j hj)

theorem Copied.stay (h : Copied s s' l is cs) (hj : s.paths.Live j) : s'.paths.Live j := (h.live j).mpr (.inl hj)

/-- The copies stand in front, in the order of the originals; the rest of the vector is not filled. -/
theorem copyForAdd_copied (env : FibPathEnv) (l n : Nat) (ks : List Nat) (m : Nat) (hnew : s.paths.Live new)
    (his : ∀ i ∈ is, s.paths.Live i) (hroom : ks.length + is.length ≤ n)
    (hlen : ks.length + m = n ∨ ks.length + m = n + 1) :
    ∃ js, Copied s (copyForAdd env new l n is s (ks ++ List.replicate m 0) ks.length).1 l js
        (differing env (s.conf new) (is.map s.conf)) ∧
      (copyForAdd env new l n is s (ks ++ List.replicate m 0) ks.length).2.2 = (ks ++ js).length ∧
      ∃ m', (copyForAdd env new l n is s (ks ++ List.replicate m 0) ks.length).2.1 =
          (ks ++ js) ++ List.replicate m' 0 ∧
        (ks ++ js).length + m' =
          if matching env (s.conf new) (is.map s.conf) = [] then ks.length + m else n := by
  induction is generalizing s ks m with
  | nil =>
    refine ⟨[], .refl s l, ?_, m, ?_, ?_⟩
    · rw [append_nil, copyForAdd]
    · rw [append_nil, copyForAdd]
    · simp [matching]
  | cons i is ih =>
    have hi := his i mem_cons_self
    have hrest (j : Nat) (hj : j ∈ is) : s.paths.Live j := his j (mem_cons_of_mem i hj)
    rw [length_cons] at hroom
    by_cases hcmp : s.fibPathCmp env new i = 0
    · have hsame : fibPathCmpI env (s.conf new) (s.conf i) = 0 := hcmp
      have htake : (ks ++ List.replicate m 0).take n = ks ++ List.replicate (n - ks.length) 0 :=
        take_fill (by omega) (by omega)
      obtain ⟨js, hc, hpi, m', hv, hl⟩ := ih ks (n - ks.length) hnew hrest (by omega) (by omega)
      have hloop : copyForAdd env new l n (i :: is) s (ks ++ List.replicate m 0) ks.length =
          copyForAdd env new l n is s (ks ++ List.replicate (n - ks.length) 0) ks.length := by
        rw [copyForAdd, if_neg (not_not.mpr hcmp), htake]
      rw [hloop]
      refine ⟨js, ?_, hpi, m', hv, ?_⟩
      · rw [map_cons, differing_cons_of_eq hsame]
        exact hc
      · have hsum : ks.length + (n - ks.length) = n := by omega
        rw [hl, map_cons, matching_cons_of_eq hsame, hsum, ite_self, if_neg (cons_ne_nil _ _)]
    · have hdiff : ¬ fibPathCmpI env (s.conf new) (s.conf i) = 0 := hcmp
      obtain ⟨m, rfl⟩ : ∃ m₀, m = m₀ + 1 := ⟨m - 1, by omega⟩
      have hone := fibPathCopy_copied s i l
      obtain ⟨js, hc, hpi, m', hv, hl⟩ := ih (ks ++ [(s.fibPathCopy i l).2]) m
        (hone.stay hnew) (fun j hj => hone.stay (hrest j hj))
        (by rw [length_append, length_singleton]; omega)
        (by rw [length_append, length_singleton]; omega)
      have hloop : copyForAdd env new l n (i :: is) s (ks ++ List.replicate (m + 1) 0) ks.length =
          copyForAdd env new l n is (s.fibPathCopy i l).1 ((ks ++ [(s.fibPathCopy i l).2]) ++ List.replicate m 0)
            (ks ++ [(s.fibPathCopy i l).2]).length := by
        rw [copyForAdd, if_pos hcmp, set_fill, length_append, length_singleton]
      rw [hone.conf_eq hnew, hone.map_conf hrest] at hc hl
      rw [hloop]
      refine ⟨[(s.fibPathCopy i l).2] ++ js, ?_, ?_, m', ?_, ?_⟩
      · rw [map_cons, differing_cons_of_ne hdiff]
        exact hone.trans hc
      · rw [hpi, List.append_assoc]
      · rw [hv, ← List.append_assoc ks]
      · have hsum : (ks ++ [(s.fibPathCopy i l).2]).length + m = ks.length + (m + 1) := by
          rw [length_append, length_singleton]
          omega
        rw [← List.append_assoc, hl, map_cons, matching_cons_of_ne hdiff, hsum]

/-- The copies stand in front; a copy that finds no room is appended. -/
theorem copyForRemove_copied (env : FibPathEnv) (l m : Nat) (ks : List Nat) (htmp : s.paths.Live tmp)
    (his : ∀ i ∈ is, s.paths.Live i) (hroom : ks.length + is.length ≤ m + 1) :
    ∃ js, Copied s
        (copyForRemove env tmp l is s (ks ++ List.replicate (m - ks.length) 0) (min ks.length m)).1 l js
        (differing env (s.conf tmp) (is.map s.conf)) ∧
      (copyForRemove env tmp l is s (ks ++ List.replicate (m - ks.length) 0) (min ks.length m)).2 =
        (ks ++ js) ++ List.replicate (m - (ks ++ js).length) 0 := by
  induction is generalizing s ks with
  | nil =>
    refine ⟨[], .refl s l, ?_⟩
    rw [append_nil, copyForRemove]
  | cons i is ih =>
    have hi := his i mem_cons_self
    have hrest (j : Nat) (hj : j ∈ is) : s.paths.Live j := his j (mem_cons_of_mem i hj)
    rw [length_cons] at hroom
    by_cases hcmp : s.fibPathCmp env tmp i = 0
    · have hsame : fibPathCmpI env (s.conf tmp) (s.conf i) = 0 := hcmp
      rw [copyForRemove, if_neg (not_not.mpr hcmp), map_cons, differing_cons_of_eq hsame]
      exact ih ks htmp hrest (by omega)
    · have hdiff : ¬ fibPathCmpI env (s.conf tmp) (s.conf i) = 0 := hcmp
      have hone := fibPathCopy_copied s i l
      have hlen : (ks ++ [(s.fibPathCopy i l).2]).length = ks.length + 1 := by
        rw [length_append, length_singleton]
      obtain ⟨js, hc, hv⟩ := ih (ks ++ [(s.fibPathCopy i l).2])
        (hone.stay htmp) (fun j hj => hone.stay (hrest j hj)) (by omega)
      have hloop : copyForRemove env tmp l (i :: is) s (ks ++ List.replicate (m - ks.length) 0) (min ks.length m) =
          copyForRemove env tmp l is (s.fibPathCopy i l).1 ((ks ++ [(s.fibPathCopy i l).2]) ++
            List.replicate (m - (ks ++ [(s.fibPathCopy i l).2]).length) 0)
            (min (ks ++ [(s.fibPathCopy i l).2]).length m) := by
        rw [copyForRemove, if_pos hcmp, hlen]
        by_cases hfit : ks.length < m
        · obtain ⟨k, hk⟩ : ∃ k, m - ks.length = k + 1 := ⟨m - ks.length - 1, by omega⟩
          have hpi : min ks.length m = ks.length := by omega
          have hpi' : min (ks.length + 1) m = ks.length + 1 := by omega
          have hk' : m - (ks.length + 1) = k := by omega
          have hin : ks.length < (ks ++ List.replicate (k + 1) 0).length := by
            rw [length_append, length_replicate]
            omega
          rw [hk, hpi, hpi', hk', if_pos hin, set_fill]
        · have hk : m - ks.length = 0 := by omega
          have hk' : m - (ks.length + 1) = 0 := by omega
          have hpi : min ks.length m = m := by omega
          have hpi' : min (ks.length + 1) m = m := by omega
          have hout : ¬ m < (ks ++ List.replicate 0 0).length := by
            rw [length_append, length_replicate]
            omega
          rw [hk, hk', hpi, hpi', if_neg hout, List.replicate_zero, append_nil, append_nil]
      rw [hone.conf_eq htmp, hone.map_conf hrest] at hc
      rw [hloop, map_cons, differing_cons_of_ne hdiff]
      refine ⟨[(s.fibPathCopy i l).2] ++ js, hone.trans hc, ?_⟩
      rw [← List.append_assoc]
      exact hv

/-- The path-list `l` is new, and so are its paths `v`, which are `cs` in some order. -/
structure Built (s s' : FibPathLists) (l : Nat) (v : List Nat) (cs : List FibPathConf) : Prop where
  db : s'.db = s.db
  fresh : ¬ s.lists.Live l
  lists : ∀ j, s'.lists.Live j ↔ s.lists.Live j ∨ j = l
  oldLists : ∀ j, s.lists.Live j → s'.lists.eltAt j = s.lists.eltAt j
  vec : s'.fplPaths l = v
  nodup : v.Nodup
  paths : ∀ j, s'.paths.Live j ↔ s.paths.Live j ∨ j ∈ v
  freshPaths : ∀ i ∈ v, ¬ s.paths.Live i
  oldPaths : ∀ j, s.paths.Live j → s'.paths.eltAt j = s.paths.eltAt j
  own : ∀ i ∈ v, (s'.paths.eltAt i).fpPlIndex = l
  confs : (s'.confs l).Perm cs

theorem built_of_copied (hc : Copied s.fibPathListAlloc.1 s' s.fibPathListAlloc.2 is cs) (hv : v.Perm is)
    (flags : FibPathListFlags) (nhProto : FibProtocol) :
    Built s (s'.setList s.fibPathListAlloc.2 ⟨flags, nhProto, v⟩) s.fibPathListAlloc.2 v cs := by
  have hlive : s.fibPathListAlloc.1.lists.Live s.fibPathListAlloc.2 := by
    apply Pool.live_set.mpr
    exact Pool.live_get.mpr (.inr rfl)
  have hlive' : s'.lists.Live s.fibPathListAlloc.2 := by
    rw [hc.lists]
    exact hlive
  have hself : (s'.setList s.fibPathListAlloc.2 ⟨flags, nhProto, v⟩).fplPaths s.fibPathListAlloc.2 = v := by
    rw [fplPaths, setList, Pool.eltAt_set_self hlive']
  have hmem (i : Nat) : i ∈ v ↔ i ∈ is := hv.mem_iff
  refine ⟨hc.db, s.lists.not_live_get, ?_, ?_, hself, hv.nodup_iff.mpr hc.nodup, ?_, ?_, hc.old, ?_, ?_⟩
  · intro j
    rw [setList, Pool.live_set, hc.lists]
    exact Pool.live_set.trans Pool.live_get
  · intro j hj
    have hne : j ≠ s.fibPathListAlloc.2 := fun heq => s.lists.not_live_get (heq ▸ hj)
    rw [setList, Pool.eltAt_set_ne hne, hc.lists]
    exact (Pool.eltAt_set_ne hne).trans (s.lists.eltAt_get j)
  · intro j
    rw [hmem]
    exact hc.live j
  · intro i hi
    exact hc.fresh i ((hmem i).mp hi)
  · intro i hi
    exact hc.own i ((hmem i).mp hi)
  · rw [confs, hself, ← hc.confs]
    exact hv.map s'.conf

/-- The path-lists own what they list, no path twice; the data-base has live shared path-lists of different hashes. -/
structure Inv (env : FibPathEnv) (s : FibPathLists) : Prop where
  own : ∀ l, s.lists.Live l → ∀ i ∈ s.fplPaths l, s.paths.Live i ∧ (s.paths.eltAt i).fpPlIndex = l
  nodup : ∀ l, s.lists.Live l → (s.fplPaths l).Nodup
  dbLive : ∀ l ∈ s.db, s.lists.Live l
  dbShared : ∀ l ∈ s.db, (s.lists.eltAt l).fplFlags.shared = true
  hashes : (s.db.map (s.fibPathListHash env)).Nodup

theorem confs_congr {s s' : FibPathLists} (hl : s'.lists.eltAt l = s.lists.eltAt l)
    (hp : ∀ i ∈ s.fplPaths l, s'.paths.eltAt i = s.paths.eltAt i) : s'.confs l = s.confs l := by
  have hv : s'.fplPaths l = s.fplPaths l := by rw [fplPaths, fplPaths, hl]
  rw [confs, confs, hv]
  apply map_congr_left
  intro i hi
  rw [conf, conf, hp i hi]

theorem Built.confs_eq (h : Built s s' l v cs) (hi : Inv env s) (hj : s.lists.Live j) : s'.confs j = s.confs j :=
  confs_congr (h.oldLists j hj) fun i hm => h.oldPaths i (hi.own j hj i hm).1

theorem Built.inv (h : Built s s' l v cs) (hi : Inv env s) : Inv env s' where
  own := by
    intro j hj i hm
    cases (h.lists j).mp hj with
    | inl hj =>
      rw [fplPaths, h.oldLists j hj] at hm
      have hown := hi.own j hj i hm
      refine ⟨(h.paths i).mpr (.inl hown.1), ?_⟩
      rw [h.oldPaths i hown.1, hown.2]
    | inr heq =>
      subst heq
      rw [h.vec] at hm
      exact ⟨(h.paths i).mpr (.inr hm), h.own i hm⟩
  nodup := by
    intro j hj
    cases (h.lists j).mp hj with
    | inl hj =>
      rw [fplPaths, h.oldLists j hj]
      exact hi.nodup j hj
    | inr heq =>
      subst heq
      rw [h.vec]
      exact h.nodup
  dbLive := by
    intro j hj
    rw [h.db] at hj
    exact (h.lists j).mpr (.inl (hi.dbLive j hj))
  dbShared := by
    intro j hj
    rw [h.db] at hj
    rw [h.oldLists j (hi.dbLive j hj)]
    exact hi.dbShared j hj
  hashes := by
    have hsame : s'.db.map (s'.fibPathListHash env) = s.db.map (s.fibPathListHash env) := by
      rw [h.db]
      apply map_congr_left
      intro j hj
      rw [fibPathListHash, fibPathListHash, h.confs_eq hi (hi.dbLive j hj)]
    rw [hsame]
    exact hi.hashes

theorem live_foldl_put (is : List Nat) (p : Pool α) : (is.foldl Pool.put p).Live j ↔ p.Live j ∧ j ∉ is := by
  induction is generalizing p with
  | nil => simp
  | cons i is ih => rw [foldl_cons, ih, Pool.live_put, mem_cons, not_or, and_assoc]

theorem eltAt_foldl_put [Inhabited α] (is : List Nat) (p : Pool α) : (is.foldl Pool.put p).eltAt j = p.eltAt j := by
  induction is generalizing p with
  | nil => rfl
  | cons i is ih => rw [foldl_cons, ih, Pool.eltAt_put]

@[simp] theorem destroy_list (s : FibPathLists) (l j : Nat) :
    (s.fibPathListDestroy l).lists.eltAt j = s.lists.eltAt j := s.lists.eltAt_put l j

@[simp] theorem destroy_fplPaths (s : FibPathLists) (l j : Nat) :
    (s.fibPathListDestroy l).fplPaths j = s.fplPaths j := by
  rw [fplPaths, fplPaths, destroy_list]

@[simp] theorem destroy_confs (s : FibPathLists) (l j : Nat) : (s.fibPathListDestroy l).confs j = s.confs j :=
  confs_congr (destroy_list s l j) fun _ _ => eltAt_foldl_put (s.fplPaths l) s.paths

theorem destroy_path (s : FibPathLists) (l i : Nat) :
    (s.fibPathListDestroy l).paths.eltAt i = s.paths.eltAt i := eltAt_foldl_put (s.fplPaths l) s.paths

theorem destroy_live_list {s : FibPathLists} :
    (s.fibPathListDestroy l).lists.Live j ↔ s.lists.Live j ∧ j ≠ l := Pool.live_put

theorem destroy_live_path {s : FibPathLists} :
    (s.fibPathListDestroy l).paths.Live i ↔ s.paths.Live i ∧ i ∉ s.fplPaths l :=
  live_foldl_put (s.fplPaths l) s.paths

/-- A path-list takes only its own paths with it. -/
theorem Inv.destroy (hi : Inv env s) (hl : s.lists.Live l) (hdb : l ∉ s.db) : Inv env (s.fibPathListDestroy l) where
  own := by
    intro j hj i hm
    rw [destroy_fplPaths] at hm
    have hj := destroy_live_list.mp hj
    have hown := hi.own j hj.1 i hm
    refine ⟨destroy_live_path.mpr ⟨hown.1, ?_⟩, ?_⟩
    · intro hin
      exact hj.2 (hown.2.symm.trans (hi.own l hl i hin).2)
    · rw [destroy_path, hown.2]
  nodup := by
    intro j hj
    rw [destroy_fplPaths]
    exact hi.nodup j (destroy_live_list.mp hj).1
  dbLive := by
    intro j hj
    exact destroy_live_list.mpr ⟨hi.dbLive j hj, fun heq => hdb (heq ▸ hj)⟩
  dbShared := by
    intro j hj
    rw [destroy_list]
    exact hi.dbShared j hj
  hashes := by
    have hsame : (s.fibPathListDestroy l).db.map ((s.fibPathListDestroy l).fibPathListHash env) =
        s.db.map (s.fibPathListHash env) := by
      apply map_congr_left
      intro j _
      rw [fibPathListHash, fibPathListHash, destroy_confs]
    rw [hsame]
    exact hi.hashes

theorem Inv.insert (hi : Inv env s) (hl : s.lists.Live l) (hs : (s.lists.eltAt l).fplFlags.shared = true)
    (hfind : s.fibPathListDbFind env l = none) : Inv env (s.fibPathListDbInsert l) where
  own := hi.own
  nodup := hi.nodup
  dbLive := by
    intro j hj
    cases mem_cons.mp hj with
    | inl heq =>
      rw [heq]
      exact hl
    | inr hj => exact hi.dbLive j hj
  dbShared := by
    intro j hj
    cases mem_cons.mp hj with
    | inl heq =>
      rw [heq]
      exact hs
    | inr hj => exact hi.dbShared j hj
  hashes := by
    apply nodup_cons.mpr
    refine ⟨?_, hi.hashes⟩
    intro hm
    obtain ⟨e, he, heq⟩ := List.mem_map.mp hm
    have hno := find?_eq_none.mp hfind e he
    exact hno (decide_eq_true heq)

theorem Inv.not_mem_remove (hi : Inv env s) (l : Nat) : l ∉ (s.fibPathListDbRemove env l).db := by
  have hnd := hi.hashes
  rw [fibPathListDbRemove]
  generalize s.db = db at hnd
  induction db with
  | nil => simp
  | cons e db ih =>
    have hnd' := nodup_cons.mp hnd
    by_cases heq : s.fibPathListHash env e = s.fibPathListHash env l
    · rw [eraseP_cons_of_pos (by simp [heq])]
      intro hm
      exact hnd'.1 (List.mem_map.mpr ⟨l, hm, heq.symm⟩)
    · rw [eraseP_cons_of_neg (by simp [heq])]
      intro hm
      cases mem_cons.mp hm with
      | inl he => exact heq (congrArg _ he.symm)
      | inr hm => exact ih hnd'.2 hm

theorem Inv.remove (hi : Inv env s) (l : Nat) : Inv env (s.fibPathListDbRemove env l) where
  own := hi.own
  nodup := hi.nodup
  dbLive := fun j hj => hi.dbLive j (mem_of_mem_eraseP hj)
  dbShared := fun j hj => hi.dbShared j (mem_of_mem_eraseP hj)
  hashes := by
    have hsub : (s.fibPathListDbRemove env l).db.Sublist s.db := eraseP_sublist
    exact hi.hashes.sublist (hsub.map _)

end FibPathLists

end Vpp.Fib
