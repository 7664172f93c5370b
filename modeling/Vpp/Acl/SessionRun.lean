import Mathlib.Algebra.BigOperators.Group.Finset.Piecewise
import Vpp.Acl.Sessions

namespace Vpp.Acl
open Vpp.Lib List

variable {am am' : SessionMain} {nodes : TimeoutType → List Nat} {off : List Nat} {sw : BitVec 32} {i : Nat}

def sessionsOn (p : Pool FaSession) (sw : BitVec 32) : Nat := (p.live.filter fun i => (p.eltAt i).swIfIndex = sw).card

structure Store (am : SessionMain) : Prop where
  hash : ∀ sw k i, am.faSessionsBySwIfIndex sw k = some i ↔ am.faSessionsPool.Live i ∧
    (am.faSessionsPool.eltAt i).info = k ∧ (am.faSessionsPool.eltAt i).swIfIndex = sw
  on : ∀ sw, am.faSessionsOnSwIfIndex sw = false → ∀ k, am.faSessionsBySwIfIndex sw k = none
  counts : ∀ sw, am.faSessionAddsBySwIfIndex sw - am.faSessionDelsBySwIfIndex sw =
    BitVec.ofNat 64 (sessionsOn am.faSessionsPool sw)

def onIf (sw : BitVec 32) (s : FaSession) : Nat := if s.swIfIndex = sw then 1 else 0

theorem sessionsOn_eq (p : Pool FaSession) (sw : BitVec 32) : sessionsOn p sw = p.total (onIf sw) :=
  Finset.card_filter _ _

theorem sessionsOn_relinked {p p' : Pool FaSession} (h : Relinked p p') (sw : BitVec 32) :
    sessionsOn p' sw = sessionsOn p sw := by
  have hlive : p'.live = p.live := by
    ext i
    rw [Pool.mem_live, Pool.mem_live, h.live]
  simp only [sessionsOn, hlive, h.swIf]

theorem sessionsOn_put {p : Pool FaSession} (hi : p.Live i) (sw : BitVec 32) :
    sessionsOn (p.put i) sw + onIf sw (p.eltAt i) = sessionsOn p sw := by
  rw [sessionsOn_eq, sessionsOn_eq, Pool.total_put hi]

theorem sessionsOn_get (p : Pool FaSession) (f : FaSession → FaSession) (sw : BitVec 32) :
    sessionsOn (p.get.1.modify p.get.2 f) sw = sessionsOn p sw + onIf sw (f (p.eltAt p.get.2)) := by
  have hlive : p.get.1.Live p.get.2 := Pool.live_get.mpr (.inr rfl)
  have hset := Pool.total_set hlive (f (p.get.1.eltAt p.get.2)) (onIf sw)
  rw [Pool.total_get, Pool.eltAt_get] at hset
  rw [sessionsOn_eq, sessionsOn_eq, Pool.modify, Pool.eltAt_get]
  omega

theorem hash_update {hash : BitVec 32 → FaKey → Option Nat} (sw : BitVec 32) (k : FaKey) (v : Option Nat)
    (sw' : BitVec 32) (k' : FaKey) :
    Function.update hash sw (Function.update (hash sw) k v) sw' k' = if sw' = sw ∧ k' = k then v else hash sw' k' := by
  by_cases hsw : sw' = sw
  · subst hsw
    rw [Function.update_self, Function.update_apply]
    simp
  · rw [Function.update_of_ne hsw, if_neg fun h => hsw h.1]

/-- The same hash tables and counters, over sessions that differ in their links only. -/
structure SameStore (am am' : SessionMain) : Prop where
  pool : Relinked am.faSessionsPool am'.faSessionsPool
  hash : am'.faSessionsBySwIfIndex = am.faSessionsBySwIfIndex
  on : am'.faSessionsOnSwIfIndex = am.faSessionsOnSwIfIndex
  adds : am'.faSessionAddsBySwIfIndex = am.faSessionAddsBySwIfIndex
  dels : am'.faSessionDelsBySwIfIndex = am.faSessionDelsBySwIfIndex

theorem Store.same (h : Store am) (he : SameStore am am') : Store am' := by
  constructor
  case hash =>
    intro sw k i
    rw [he.hash, he.pool.live, he.pool.info, he.pool.swIf]
    exact h.hash sw k i
  case on =>
    rw [he.on, he.hash]
    exact h.on
  case counts =>
    intro sw
    rw [he.adds, he.dels, sessionsOn_relinked he.pool]
    exact h.counts sw

/-- A session is deleted under its own interface. -/
theorem Store.deleteSession (h : Store am) (hi : am.faSessionsPool.Live i)
    (hsw : (am.faSessionsPool.eltAt i).swIfIndex = sw) : Store (aclFaDeleteSession am sw i) := by
  have hself := (h.hash sw _ i).mpr ⟨hi, rfl, hsw⟩
  constructor
  case hash =>
    intro sw' k j
    show Function.update am.faSessionsBySwIfIndex sw (Function.update _ _ none) sw' k = some j ↔
      (am.faSessionsPool.put i).Live j ∧ ((am.faSessionsPool.put i).eltAt j).info = k ∧
        ((am.faSessionsPool.put i).eltAt j).swIfIndex = sw'
    rw [hash_update, Pool.live_put, Pool.eltAt_put]
    by_cases hk : sw' = sw ∧ k = (am.faSessionsPool.eltAt i).info
    · obtain ⟨rfl, rfl⟩ := hk
      rw [if_pos ⟨rfl, rfl⟩]
      refine iff_of_false nofun ?_
      intro ⟨⟨hj, hne⟩, hinfo, hif⟩
      exact hne (Option.some.inj (((h.hash _ _ j).mpr ⟨hj, hinfo, hif⟩).symm.trans hself))
    · rw [if_neg hk, h.hash]
      constructor
      · intro ⟨hj, hinfo, hif⟩
        refine ⟨⟨hj, ?_⟩, hinfo, hif⟩
        rintro rfl
        exact hk ⟨hif.symm.trans hsw, hinfo.symm⟩
      · intro ⟨⟨hj, _⟩, hinfo, hif⟩
        exact ⟨hj, hinfo, hif⟩
  case on =>
    intro sw' hon k
    show Function.update am.faSessionsBySwIfIndex sw (Function.update _ _ none) sw' k = none
    rw [hash_update, h.on sw' hon k, ite_self]
  case counts =>
    intro sw'
    have hput := sessionsOn_put hi sw'
    have hold := h.counts sw'
    show am.faSessionAddsBySwIfIndex sw' - Function.update am.faSessionDelsBySwIfIndex sw _ sw' = _
    rw [← hput, onIf, hsw, BitVec.ofNat_add] at hold
    by_cases he : sw' = sw
    · subst he
      rw [if_pos rfl] at hold
      rw [Function.update_self, ← sub_sub, hold]
      exact add_sub_cancel_right _ _
    · rw [if_neg (Ne.symm he)] at hold
      rw [Function.update_of_ne he, hold]
      exact add_zero _

theorem Store.ifcInit (h : Store am) (sw : BitVec 32) :
    Store (if am.faSessionsOnSwIfIndex sw then am else aclFaIfcInitSessions am sw) := by
  split
  · exact h
  · next hoff =>
    have hnone : Function.update am.faSessionsBySwIfIndex sw (fun _ => none) = am.faSessionsBySwIfIndex := by
      rw [Function.update_eq_iff]
      exact ⟨(funext (h.on sw (by simpa using hoff))).symm, fun _ _ => rfl⟩
    constructor
    case hash =>
      show ∀ sw' k i, Function.update am.faSessionsBySwIfIndex sw (fun _ => none) sw' k = some i ↔ _
      rw [hnone]
      exact h.hash
    case on =>
      intro sw' hon k
      show Function.update am.faSessionsBySwIfIndex sw (fun _ => none) sw' k = none
      rw [hnone]
      apply h.on
      by_cases he : sw' = sw
      · subst he
        simpa using hoff
      · have hon : Function.update am.faSessionsOnSwIfIndex sw true sw' = false := hon
        rwa [Function.update_of_ne he] at hon
    case counts => exact h.counts

def registered (am : SessionMain) (sw : BitVec 32) (now : BitVec 64) (key : FaKey) : SessionMain :=
  { am with
    faSessionsPool := am.faSessionsPool.get.1.modify am.faSessionsPool.get.2 (newSession sw now key)
    faSessionsBySwIfIndex := Function.update am.faSessionsBySwIfIndex sw
      (Function.update (am.faSessionsBySwIfIndex sw) key (some am.faSessionsPool.get.2))
    faSessionAddsBySwIfIndex := Function.update am.faSessionAddsBySwIfIndex sw
      (am.faSessionAddsBySwIfIndex sw + 1) }

theorem aclFaAddSession_eq (am : SessionMain) (sw : BitVec 32) (now : BitVec 64) (key : FaKey) :
    aclFaAddSession am sw now key = aclFaConnListAddSession
      (registered (if am.faSessionsOnSwIfIndex sw then am else aclFaIfcInitSessions am sw) sw now key)
      am.faSessionsPool.get.2 now := by
  by_cases hon : am.faSessionsOnSwIfIndex sw
  · simp only [aclFaAddSession, hon, if_true]
    rfl
  · simp only [aclFaAddSession, hon]
    rfl

theorem Store.registered (h : Store am) (hon : am.faSessionsOnSwIfIndex sw = true)
    (hnew : am.faSessionsBySwIfIndex sw key = none) (now : BitVec 64) : Store (registered am sw now key) := by
  have hfree := am.faSessionsPool.not_live_get
  have hlive : am.faSessionsPool.get.1.Live am.faSessionsPool.get.2 := Pool.live_get.mpr (.inr rfl)
  constructor
  case hash =>
    intro sw' k j
    show Function.update am.faSessionsBySwIfIndex sw (Function.update _ key _) sw' k = some j ↔
      (am.faSessionsPool.get.1.modify am.faSessionsPool.get.2 _).Live j ∧
        ((am.faSessionsPool.get.1.modify am.faSessionsPool.get.2 _).eltAt j).info = k ∧
        ((am.faSessionsPool.get.1.modify am.faSessionsPool.get.2 _).eltAt j).swIfIndex = sw'
    rw [hash_update, Pool.live_modify, Pool.live_get, Pool.eltAt_modify hlive, Pool.eltAt_get, Pool.eltAt_get]
    by_cases hj : j = am.faSessionsPool.get.2
    · rw [if_pos hj, ← hj]
      by_cases hk : sw' = sw ∧ k = key
      · rw [if_pos hk]
        exact iff_of_true rfl ⟨.inr rfl, hk.2.symm, hk.1.symm⟩
      · rw [if_neg hk]
        apply iff_of_false
        · intro hold
          exact hfree (hj ▸ ((h.hash _ _ _).mp hold).1)
        · exact fun hc => hk ⟨hc.2.2.symm, hc.2.1.symm⟩
    · rw [if_neg hj, or_iff_left hj, ← h.hash]
      by_cases hk : sw' = sw ∧ k = key
      · rw [if_pos hk, hk.1, hk.2, hnew]
        exact iff_of_false (fun he => hj (Option.some.inj he).symm) nofun
      · rw [if_neg hk]
  case on =>
    intro sw' hoff k
    have hoff : am.faSessionsOnSwIfIndex sw' = false := hoff
    have hne : sw' ≠ sw := by
      rintro rfl
      exact absurd (hon.symm.trans hoff) nofun
    show Function.update am.faSessionsBySwIfIndex sw _ sw' k = none
    rw [Function.update_of_ne hne]
    exact h.on sw' hoff k
  case counts =>
    intro sw'
    have hget := sessionsOn_get am.faSessionsPool (newSession sw now key) sw'
    have hold := h.counts sw'
    show Function.update am.faSessionAddsBySwIfIndex sw _ sw' - am.faSessionDelsBySwIfIndex sw' =
      BitVec.ofNat 64 (sessionsOn (am.faSessionsPool.get.1.modify am.faSessionsPool.get.2 _) sw')
    rw [hget, onIf, BitVec.ofNat_add, ← hold]
    by_cases he : sw' = sw
    · subst he
      rw [Function.update_self, add_sub_right_comm]
      exact congrArg (_ + BitVec.ofNat 64 ·) (if_pos rfl).symm
    · rw [Function.update_of_ne he]
      refine (add_zero _).symm.trans (congrArg (_ + BitVec.ofNat 64 ·) (if_neg ?_).symm)
      exact fun hc => he hc.symm

/-- The invariant, while the sessions `off` are on no list. -/
structure SessionInv (am : SessionMain) (off : List Nat) : Prop where
  lists : ∃ nodes, Lists am.faSessionsPool am.faConnListHead am.faConnListTail nodes off
  store : Store am

theorem ite_update {f : TimeoutType → Option Nat} {c : Prop} [Decidable c] (t : TimeoutType) (v : Option Nat) :
    (if c then Function.update f t v else f) = Function.update f t (if c then v else f t) := by
  split
  · rfl
  · exact (Function.update_eq_self t f).symm

theorem sameStore_delete (am : SessionMain) (i : Nat) : SameStore am (aclFaConnListDeleteSession am i) := by
  have hre := (relinked_setNextIdx am.faSessionsPool (am.faSessionsPool.eltAt i).linkPrevIdx
    (am.faSessionsPool.eltAt i).linkNextIdx).trans
    (relinked_setPrevIdx _ (am.faSessionsPool.eltAt i).linkNextIdx (am.faSessionsPool.eltAt i).linkPrevIdx)
  cases ht : (am.faSessionsPool.eltAt i).linkListId with
  | none =>
    rw [aclFaConnListDeleteSession, ht]
    exact ⟨hre, rfl, rfl, rfl, rfl⟩
  | some t =>
    rw [aclFaConnListDeleteSession, ht]
    exact ⟨hre, rfl, rfl, rfl, rfl⟩

theorem SessionInv.delete (h : SessionInv am off) (hi : am.faSessionsPool.Live i) (hoff : i ∉ off) :
    SessionInv (aclFaConnListDeleteSession am i) (off ++ [i]) := by
  obtain ⟨⟨nodes, hl⟩, hs⟩ := h
  obtain ⟨t, ht⟩ := Option.ne_none_iff_exists'.mp (hl.listed i hi hoff)
  obtain ⟨xs, ys, hsplit⟩ := append_of_mem ((hl.mem t i).mpr ⟨hi, ht, hoff⟩)
  obtain ⟨hnl, hpl⟩ := hl.neighbours hsplit
  have hsame := sameStore_delete am i
  refine ⟨⟨Function.update nodes t (xs ++ ys), ?_⟩, hs.same hsame⟩
  have hpool : (aclFaConnListDeleteSession am i).faSessionsPool = setPrevIdx
      (setNextIdx am.faSessionsPool (prevs am.faSessionsPool i) (nexts am.faSessionsPool i))
      (nexts am.faSessionsPool i) (prevs am.faSessionsPool i) := by
    rw [aclFaConnListDeleteSession, ht]
    rfl
  have hhead : (aclFaConnListDeleteSession am i).faConnListHead = Function.update am.faConnListHead t
      (if am.faConnListHead t = some i then nexts am.faSessionsPool i else am.faConnListHead t) := by
    rw [aclFaConnListDeleteSession, ht]
    exact ite_update t _
  have htail : (aclFaConnListDeleteSession am i).faConnListTail = Function.update am.faConnListTail t
      (if am.faConnListTail t = some i then prevs am.faSessionsPool i else am.faConnListTail t) := by
    rw [aclFaConnListDeleteSession, ht]
    exact ite_update t _
  rw [hhead, htail]
  apply hl.delete hsplit hsame.pool
  · intro j
    rw [hpool, proj_setPrevIdx (f := FaSession.linkListId) (fun _ _ => rfl),
      proj_setNextIdx (f := FaSession.linkListId) (fun _ _ => rfl)]
  · intro j
    rw [hpool, nexts_setPrevIdx, nexts_setNextIdx fun x hx => (hpl x hx).1]
  · intro j
    rw [hpool, prevs_setPrevIdx, prevs_setNextIdx]
    intro x hx
    exact (relinked_setNextIdx _ _ _).live x |>.mpr (hnl x hx).1

theorem SessionInv.add (h : SessionInv am (i :: off)) (now : BitVec 64) :
    SessionInv (aclFaConnListAddSession am i now) off := by
  obtain ⟨⟨nodes, hl⟩, hs⟩ := h
  have hi := hl.off_live i mem_cons_self
  let t := faSessionGetTimeoutType (am.faSessionsPool.eltAt i)
  let enqueue (s : FaSession) : FaSession :=
    { s with linkEnqueueTime := now, linkListId := some t, linkNextIdx := none, linkPrevIdx := am.faConnListTail t }
  have htail (x : Nat) (hx : am.faConnListTail t = some x) : (am.faSessionsPool.modify i enqueue).Live x := by
    rw [(hl.list t).tail_eq] at hx
    exact Pool.live_modify.mpr ((hl.mem t x).mp (mem_of_getLast? hx)).1
  have hre : Relinked am.faSessionsPool (aclFaConnListAddSession am i now).faSessionsPool :=
    (relinked_modify (f := enqueue) (fun _ => rfl) (fun _ => rfl) _ i).trans (relinked_setNextIdx _ _ _)
  have hhead : (aclFaConnListAddSession am i now).faConnListHead =
      Function.update am.faConnListHead t ((am.faConnListHead t).or (some i)) := by
    unfold aclFaConnListAddSession
    dsimp only
    cases he : am.faConnListHead t with
    | none => rfl
    | some x => exact (Function.update_eq_iff.mpr ⟨he.symm, fun _ _ => rfl⟩).symm
  refine ⟨⟨Function.update nodes t (nodes t ++ [i]), ?_⟩, hs.same ⟨hre, rfl, rfl, rfl, rfl⟩⟩
  rw [hhead]
  apply hl.add hre
  · intro j
    show ((setNextIdx (am.faSessionsPool.modify i enqueue) (am.faConnListTail t) (some i)).eltAt j).linkListId = _
    rw [proj_setNextIdx (f := FaSession.linkListId) (fun _ _ => rfl), Pool.eltAt_modify hi]
    split <;> rfl
  · intro j
    show nexts (setNextIdx (am.faSessionsPool.modify i enqueue) (am.faConnListTail t) (some i)) j = _
    rw [nexts_setNextIdx htail, nexts, Pool.eltAt_modify hi]
    by_cases hj : j = i
    · rw [if_pos hj, if_pos hj, if_neg]
      intro hlast
      rw [(hl.list t).tail_eq, hj] at hlast
      exact ((hl.mem t i).mp (mem_of_getLast? hlast)).2.2 mem_cons_self
    · rw [if_neg hj, if_neg hj]
      rfl
  · intro j
    show prevs (setNextIdx (am.faSessionsPool.modify i enqueue) (am.faConnListTail t) (some i)) j = _
    rw [prevs_setNextIdx, prevs, Pool.eltAt_modify hi]
    split <;> rfl

theorem SessionInv.drop (h : SessionInv am (i :: off)) (hsw : (am.faSessionsPool.eltAt i).swIfIndex = sw) :
    SessionInv (aclFaDeleteSession am sw i) off := by
  obtain ⟨⟨nodes, hl⟩, hs⟩ := h
  exact ⟨⟨nodes, hl.put⟩, hs.deleteSession (hl.off_live i mem_cons_self) hsw⟩

theorem SessionInv.addSession (h : SessionInv am []) (hnew : am.faSessionsBySwIfIndex sw key = none) (now : BitVec 64) :
    SessionInv (aclFaAddSession am sw now key) [] := by
  obtain ⟨⟨nodes, hl⟩, hs⟩ := h
  rw [aclFaAddSession_eq]
  apply SessionInv.add
  have hinit := hs.ifcInit sw
  by_cases hon : am.faSessionsOnSwIfIndex sw
  · rw [if_pos hon] at hinit ⊢
    exact ⟨⟨nodes, hl.get _⟩, hinit.registered hon hnew now⟩
  · rw [if_neg hon] at hinit ⊢
    have hset : Function.update am.faSessionsOnSwIfIndex sw true sw = true := Function.update_self ..
    have hnone : Function.update am.faSessionsBySwIfIndex sw (fun _ => none) sw = fun _ => none :=
      Function.update_self ..
    exact ⟨⟨nodes, hl.get _⟩, hinit.registered hset (congrFun hnone key) now⟩

theorem SessionInv.restart (h : SessionInv am []) (hi : am.faSessionsPool.Live i) (now : BitVec 64) :
    SessionInv (aclFaRestartTimerForSession am now i) [] :=
  (h.delete hi (by simp)).add now

theorem SessionInv.track (h : SessionInv am []) (isInput : Bool) (now : BitVec 64) (i : Nat)
    (flags : Option (BitVec 8)) : SessionInv (aclFaTrackSession am isInput now i flags) [] := by
  obtain ⟨⟨nodes, hl⟩, hs⟩ := h
  obtain ⟨track, htracked, htrack⟩ : ∃ track : FaSession → FaSession,
      aclFaTrackSession am isInput now i flags = { am with faSessionsPool := am.faSessionsPool.modify i track } ∧
        ∀ s, ∃ seen, track s = { s with lastActiveTime := now, tcpFlagsSeen := seen } := by
    cases flags with
    | none => exact ⟨_, rfl, fun s => ⟨s.tcpFlagsSeen, rfl⟩⟩
    | some flags => exact ⟨_, rfl, fun s => ⟨_, rfl⟩⟩
  have hkeeps {β : Type} (f : FaSession → β) (hf : ∀ s time seen,
      f { s with lastActiveTime := time, tcpFlagsSeen := seen } = f s) (j : Nat) :
      f ((am.faSessionsPool.modify i track).eltAt j) = f (am.faSessionsPool.eltAt j) := by
    apply Pool.proj_modify
    intro s
    obtain ⟨seen, he⟩ := htrack s
    rw [he]
    exact hf s now seen
  have hre : Relinked am.faSessionsPool (am.faSessionsPool.modify i track) :=
    ⟨fun _ => Pool.live_modify, hkeeps FaSession.info fun _ _ _ => rfl, hkeeps FaSession.swIfIndex fun _ _ _ => rfl⟩
  rw [htracked]
  refine ⟨⟨nodes, ?_⟩, hs.same ⟨hre, rfl, rfl, rfl, rfl⟩⟩
  apply hl.congr hre
  · exact hkeeps FaSession.linkListId fun _ _ _ => rfl
  · exact hkeeps FaSession.linkNextIdx fun _ _ _ => rfl
  · exact hkeeps FaSession.linkPrevIdx fun _ _ _ => rfl

theorem SessionInv.head_live (h : SessionInv am off) (hh : am.faConnListHead t = some i) :
    am.faSessionsPool.Live i ∧ i ∉ off := by
  obtain ⟨⟨nodes, hl⟩, -⟩ := h
  rw [(hl.list t).head_eq] at hh
  obtain ⟨hlive, -, hoff⟩ := (hl.mem t i).mp (mem_of_mem_head? hh)
  exact ⟨hlive, hoff⟩

theorem SessionInv.collect (h : SessionInv am off) (now : BitVec 64) (tt : TimeoutType) (n : Nat) :
    SessionInv (collectExpired now tt n am off).1 (collectExpired now tt n am off).2 := by
  induction n generalizing am off with
  | zero => exact h
  | succ n ih =>
    rw [collectExpired]
    split
    · exact h
    · next i hh =>
      obtain ⟨hlive, hoff⟩ := h.head_live hh
      split
      · exact ih (h.delete hlive hoff)
      · exact h

theorem SessionInv.process (h : SessionInv am (i :: off)) (now : BitVec 64) :
    SessionInv (processExpired now am i) off := by
  obtain ⟨nodes, hl⟩ := h.lists
  rw [processExpired, if_pos (hl.off_live i mem_cons_self)]
  dsimp only
  split
  · exact h.add now
  · exact h.drop rfl

theorem SessionInv.processAll (h : SessionInv am off) (now : BitVec 64) :
    SessionInv (off.foldl (processExpired now) am) [] := by
  induction off generalizing am with
  | nil => exact h
  | cons i off ih => exact ih (h.process now)

theorem SessionInv.cleaner (h : SessionInv am []) (now : BitVec 64) : SessionInv (aclFaSessionCleaner am now) [] := by
  have hcollect (tts : List TimeoutType) (limit : Nat) (s : SessionMain × List Nat) (hs : SessionInv s.1 s.2) :
      let r := tts.foldl (fun s tt => collectExpired now tt (limit - s.2.length) s.1 s.2) s
      SessionInv r.1 r.2 := by
    induction tts generalizing s with
    | nil => exact hs
    | cons tt tts ih => exact ih _ (hs.collect now tt _)
  exact (hcollect [.udpIdle, .tcpIdle, .tcpTransient] (2 * am.faMaxDeletedSessionsPerInterval)
      (am, []) h).processAll now

inductive SessionOp where
  | addSession (swIfIndex : BitVec 32) (now : BitVec 64) (key : FaKey)
  | restartTimer (now : BitVec 64) (sessId : Nat)
  | trackSession (isInput : Bool) (now : BitVec 64) (sessId : Nat) (tcpFlags : Option (BitVec 8))
  | tryRecycle (swIfIndex : BitVec 32)
  | cleaner (now : BitVec 64)
  | cleanSessions (swIfIndex : BitVec 32)

def SessionOp.apply (am : SessionMain) : SessionOp → SessionMain
  | addSession swIfIndex now key => aclFaAddSession am swIfIndex now key
  | restartTimer now sessId => aclFaRestartTimerForSession am now sessId
  | trackSession isInput now sessId tcpFlags => aclFaTrackSession am isInput now sessId tcpFlags
  | tryRecycle swIfIndex => aclFaTryRecycleSession am swIfIndex
  | cleaner now => aclFaSessionCleaner am now
  | cleanSessions swIfIndex => (aclFaCleanSessionsBySwIfIndex am swIfIndex).1

/-- A session is added under a key that its interface does not have, and one that is in use is looked at. -/
def SessionOp.Called (am : SessionMain) : SessionOp → Prop
  | addSession swIfIndex _ key => am.faSessionsBySwIfIndex swIfIndex key = none
  | restartTimer _ sessId => am.faSessionsPool.Live sessId
  | trackSession _ _ sessId _ => am.faSessionsPool.Live sessId
  | _ => True

/-- The session to recycle is on the interface of the caller, and no session is in use on an interface that is
cleaned. -/
def SessionOp.Safe (am : SessionMain) : SessionOp → Prop
  | tryRecycle swIfIndex => ∀ i, am.faConnListHead .tcpTransient = some i →
      (am.faSessionsPool.eltAt i).swIfIndex = swIfIndex
  | cleanSessions swIfIndex => ∀ i, am.faSessionsPool.Live i →
      swIfIndex ≠ ~~~0 ∧ swIfIndex ≠ (am.faSessionsPool.eltAt i).swIfIndex
  | _ => True

def aclInit (timeouts : TimeoutType → BitVec 32) (clocks : BitVec 64) (limit : Nat) : SessionMain :=
  ⟨fun _ => false, fun _ _ => none, .empty, timeouts, clocks, fun _ => 0, fun _ => 0, limit, fun _ => none,
    fun _ => none⟩

inductive Reached (Ok : SessionMain → SessionOp → Prop) (s : SessionMain) : SessionMain → Prop
  | start : Reached Ok s s
  | step (op : SessionOp) : Reached Ok s s' → Ok s' op → Reached Ok s (op.apply s')

theorem sessionInv_init : SessionInv (aclInit timeouts clocks limit) [] := by
  refine ⟨⟨fun _ => [], fun _ => endedList_nil, ?_, ?_, ?_, .nil⟩, ?_, ?_, ?_⟩
  · exact fun t i => iff_of_false (by simp) fun h => Pool.not_live_empty i h.1
  · exact fun i hi => absurd hi (Pool.not_live_empty i)
  · exact fun i hi => absurd hi (by simp)
  · exact fun sw k i => iff_of_false nofun fun h => Pool.not_live_empty i h.1
  · exact fun sw _ k => rfl
  · intro sw
    have hnone : sessionsOn (aclInit timeouts clocks limit).faSessionsPool sw = 0 := sessionsOn_eq .empty sw
    rw [hnone]
    exact sub_self (0 : BitVec 64)

theorem SessionInv.recycle (h : SessionInv am []) (hsafe : (SessionOp.tryRecycle sw).Safe am) :
    SessionInv (aclFaTryRecycleSession am sw) [] := by
  unfold aclFaTryRecycleSession
  split
  · next i hh =>
    apply (h.delete (h.head_live hh).1 (by simp)).drop
    rw [(sameStore_delete am i).pool.swIf]
    exact hsafe i hh
  · exact h

theorem cleanSessions_eq (hsafe : (SessionOp.cleanSessions sw).Safe am) :
    (aclFaCleanSessionsBySwIfIndex am sw).1 = am := by
  have hnone : ((List.range am.faSessionsPool.elts.length).filter fun i => am.faSessionsPool.Live i ∧
      (sw = ~~~0 ∨ sw = (am.faSessionsPool.eltAt i).swIfIndex)) = [] := by
    rw [filter_eq_nil_iff]
    intro i _ hc
    obtain ⟨hlive, hif⟩ := of_decide_eq_true hc
    obtain ⟨hall, hown⟩ := hsafe i hlive
    exact hif.elim hall hown
  rw [aclFaCleanSessionsBySwIfIndex]
  dsimp only
  rw [hnone]
  rfl

theorem SessionInv.apply {op : SessionOp} (h : SessionInv am []) (hcall : op.Called am) (hsafe : op.Safe am) :
    SessionInv (op.apply am) [] := by
  cases op with
  | addSession sw now key => exact h.addSession hcall now
  | restartTimer now i => exact h.restart hcall now
  | trackSession isInput now i flags => exact h.track isInput now i flags
  | tryRecycle sw => exact h.recycle hsafe
  | cleaner now => exact h.cleaner now
  | cleanSessions sw =>
    rw [SessionOp.apply, cleanSessions_eq hsafe]
    exact h

/-- The lists, the hash tables and the counters agree with the sessions in use, as long as every step is safe. -/
theorem acl_session_store_invariant (timeouts : TimeoutType → BitVec 32) (clocks : BitVec 64) (limit : Nat)
    (am : SessionMain)
    (h : Reached (fun am op => op.Called am ∧ op.Safe am) (aclInit timeouts clocks limit) am) : SessionInv am [] := by
  induction h with
  | start => exact sessionInv_init
  | step op _ hop ih => exact ih.apply hop.1 hop.2

def tcpKey : FaKey := ⟨(0x0a000001, 0x0a000002), (1024, 80), ipProtoTcp, 0⟩

/-- One TCP session, on interface 1. -/
def oneSession : SessionMain := aclFaAddSession (aclInit (fun _ => 10) 1 100) 1 0 tcpKey

theorem acl_session_store_recycled :
    Reached (fun am op => op.Called am ∧ op.Safe am) (aclInit (fun _ => 10) 1 100)
      (aclFaTryRecycleSession oneSession 1) ∧ SessionInv (aclFaTryRecycleSession oneSession 1) [] := by
  have hhead : oneSession.faConnListHead .tcpTransient = some 0 := by decide
  have hadd : Reached (fun am op => op.Called am ∧ op.Safe am) (aclInit (fun _ => 10) 1 100) oneSession :=
    .step (.addSession 1 0 tcpKey) .start ⟨rfl, trivial⟩
  have hrecycle : Reached (fun am op => op.Called am ∧ op.Safe am) (aclInit (fun _ => 10) 1 100)
      (aclFaTryRecycleSession oneSession 1) := by
    refine .step (.tryRecycle 1) hadd ⟨trivial, ?_⟩
    intro i hi
    obtain rfl := Option.some.inj (hhead.symm.trans hi)
    decide
  exact ⟨hrecycle, acl_session_store_invariant _ _ _ _ hrecycle⟩

def otherKey : FaKey := ⟨(0x0a000003, 0x0a000002), (1024, 80), ipProtoTcp, 0⟩

/-- A later TCP session, on interface 2. -/
def twoSessions : SessionMain := aclFaAddSession oneSession 2 0 otherKey

/-- A session recycled for interface 2 stays in the hash table of interface 1, and one that is cleaned stays on
its list. -/
theorem acl_session_store_fails :
    (Reached (fun am op => op.Called am) (aclInit (fun _ => 10) 1 100) (aclFaTryRecycleSession twoSessions 2) ∧
      ¬ SessionInv (aclFaTryRecycleSession twoSessions 2) []) ∧
    (Reached (fun am op => op.Called am) (aclInit (fun _ => 10) 1 100) (aclFaCleanSessionsBySwIfIndex oneSession 1).1 ∧
      ¬ SessionInv (aclFaCleanSessionsBySwIfIndex oneSession 1).1 []) := by
  have hadd : Reached (fun am op => op.Called am) (aclInit (fun _ => 10) 1 100) oneSession :=
    .step (.addSession 1 0 tcpKey) .start rfl
  have hother : Reached (fun am op => op.Called am) (aclInit (fun _ => 10) 1 100) twoSessions :=
    .step (.addSession 2 0 otherKey) hadd rfl
  refine ⟨⟨.step (.tryRecycle 2) hother trivial, ?_⟩, .step (.cleanSessions 1) hadd trivial, ?_⟩
  · intro h
    have hhash : (aclFaTryRecycleSession twoSessions 2).faSessionsBySwIfIndex 1 tcpKey = some 0 := by decide
    exact absurd ((h.store.hash 1 tcpKey 0).mp hhash).1 (by decide)
  · intro h
    have hhead : (aclFaCleanSessionsBySwIfIndex oneSession 1).1.faConnListHead .tcpTransient = some 0 := by decide
    exact absurd (h.head_live hhead).1 (by decide)

end Vpp.Acl
