import Mathlib.Data.BitVec
import Vpp.Lib.EndedList
import Vpp.Lib.Pool

namespace Vpp.Acl
open Vpp.Lib Function List

inductive TimeoutType where
  | udpIdle
  | tcpIdle
  | tcpTransient
deriving DecidableEq

/-- The part of a 5-tuple that is the key of a session. -/
structure FaKey where
  addr : BitVec 128 × BitVec 128
  port : BitVec 16 × BitVec 16
  proto : BitVec 16
  rsvd : BitVec 16
deriving DecidableEq, Inhabited

/-- An index of a session is nothing where the source has `~0`, and so is the id of a list. -/
structure FaSession where
  info : FaKey
  lastActiveTime : BitVec 64
  swIfIndex : BitVec 32
  tcpFlagsSeen : BitVec 8 × BitVec 8
  linkListId : Option TimeoutType
  linkPrevIdx : Option Nat
  linkNextIdx : Option Nat
  linkEnqueueTime : BitVec 64
deriving DecidableEq, Inhabited

/-- The part of `acl_main_t` for sessions. The hash tables are finite maps, and a vector has zeroes past its end. -/
structure SessionMain where
  faSessionsOnSwIfIndex : BitVec 32 → Bool
  faSessionsBySwIfIndex : BitVec 32 → FaKey → Option Nat
  faSessionsPool : Pool FaSession
  sessionTimeoutSec : TimeoutType → BitVec 32
  clocksPerSecond : BitVec 64
  faSessionAddsBySwIfIndex : BitVec 32 → BitVec 64
  faSessionDelsBySwIfIndex : BitVec 32 → BitVec 64
  faMaxDeletedSessionsPerInterval : Nat
  faConnListHead : TimeoutType → Option Nat
  faConnListTail : TimeoutType → Option Nat

def tcpFlagsRstFinAckSyn : BitVec 8 := 0x17
def tcpFlagsAckSyn : BitVec 8 := 0x12
def ipProtoTcp : BitVec 16 := 6

def faSessionGetTimeoutType (sess : FaSession) : TimeoutType :=
  if sess.info.proto = ipProtoTcp then
    if sess.tcpFlagsSeen.1 &&& tcpFlagsRstFinAckSyn = tcpFlagsAckSyn ∧
      sess.tcpFlagsSeen.2 &&& tcpFlagsRstFinAckSyn = tcpFlagsAckSyn then .tcpIdle
    else .tcpTransient
  else .udpIdle

def faSessionGetTimeout (am : SessionMain) (sess : FaSession) : BitVec 64 :=
  am.clocksPerSecond * (am.sessionTimeoutSec (faSessionGetTimeoutType sess)).setWidth 64

/-- Where the source checks that the neighbour is not `~0`. -/
def setNextIdx (pool : Pool FaSession) (i n : Option Nat) : Pool FaSession :=
  match i with
  | some i => pool.modify i fun s => { s with linkNextIdx := n }
  | none => pool

def setPrevIdx (pool : Pool FaSession) (i n : Option Nat) : Pool FaSession :=
  match i with
  | some i => pool.modify i fun s => { s with linkPrevIdx := n }
  | none => pool

def aclFaConnListAddSession (am : SessionMain) (sessId : Nat) (now : BitVec 64) : SessionMain :=
  let listId := faSessionGetTimeoutType (am.faSessionsPool.eltAt sessId)
  let tail := am.faConnListTail listId
  let pool := am.faSessionsPool.modify sessId fun s =>
    { s with linkEnqueueTime := now, linkListId := some listId, linkNextIdx := none, linkPrevIdx := tail }
  { am with
    faSessionsPool := setNextIdx pool tail (some sessId)
    faConnListTail := update am.faConnListTail listId (some sessId)
    faConnListHead := match am.faConnListHead listId with
      | some _ => am.faConnListHead
      | none => update am.faConnListHead listId (some sessId) }

/-- Without a list the source reads past the heads. -/
def aclFaConnListDeleteSession (am : SessionMain) (sessId : Nat) : SessionMain :=
  let sess := am.faSessionsPool.eltAt sessId
  let pool := setNextIdx am.faSessionsPool sess.linkPrevIdx sess.linkNextIdx
  let pool := setPrevIdx pool sess.linkNextIdx sess.linkPrevIdx
  match sess.linkListId with
  | none => { am with faSessionsPool := pool }
  | some listId =>
    { am with
      faSessionsPool := pool
      faConnListHead := if am.faConnListHead listId = some sessId
        then update am.faConnListHead listId sess.linkNextIdx else am.faConnListHead
      faConnListTail := if am.faConnListTail listId = some sessId
        then update am.faConnListTail listId sess.linkPrevIdx else am.faConnListTail }

def aclFaRestartTimerForSession (am : SessionMain) (now : BitVec 64) (sessId : Nat) : SessionMain :=
  aclFaConnListAddSession (aclFaConnListDeleteSession am sessId) sessId now

/-- The flags of the packet are nothing where they are not valid. -/
def aclFaTrackSession (am : SessionMain) (isInput : Bool) (now : BitVec 64) (sessId : Nat)
    (tcpFlags : Option (BitVec 8)) : SessionMain :=
  let track (s : FaSession) : FaSession :=
    let s := { s with lastActiveTime := now }
    match tcpFlags with
    | none => s
    | some flags =>
      let seen := s.tcpFlagsSeen
      { s with tcpFlagsSeen := if isInput then (seen.1, seen.2 ||| flags) else (seen.1 ||| flags, seen.2) }
  { am with faSessionsPool := am.faSessionsPool.modify sessId track }

def aclFaDeleteSession (am : SessionMain) (swIfIndex : BitVec 32) (sessId : Nat) : SessionMain :=
  let key := (am.faSessionsPool.eltAt sessId).info
  { am with
    faSessionsBySwIfIndex := update am.faSessionsBySwIfIndex swIfIndex
      (update (am.faSessionsBySwIfIndex swIfIndex) key none)
    faSessionsPool := am.faSessionsPool.put sessId
    faSessionDelsBySwIfIndex := update am.faSessionDelsBySwIfIndex swIfIndex
      (am.faSessionDelsBySwIfIndex swIfIndex + 1) }

def aclFaTryRecycleSession (am : SessionMain) (swIfIndex : BitVec 32) : SessionMain :=
  match am.faConnListHead .tcpTransient with
  | some sessId => aclFaDeleteSession (aclFaConnListDeleteSession am sessId) swIfIndex sessId
  | none => am

def aclFaIfcInitSessions (am : SessionMain) (swIfIndex : BitVec 32) : SessionMain :=
  { am with
    faSessionsBySwIfIndex := update am.faSessionsBySwIfIndex swIfIndex fun _ => none
    faSessionsOnSwIfIndex := update am.faSessionsOnSwIfIndex swIfIndex true }

def newSession (swIfIndex : BitVec 32) (now : BitVec 64) (key : FaKey) (old : FaSession) : FaSession :=
  { old with info := key, lastActiveTime := now, swIfIndex := swIfIndex, tcpFlagsSeen := (0, 0), linkListId := none,
             linkPrevIdx := none, linkNextIdx := none }

def aclFaAddSession (am : SessionMain) (swIfIndex : BitVec 32) (now : BitVec 64) (key : FaKey) : SessionMain :=
  let (pool, sessId) := am.faSessionsPool.get
  let am := { am with faSessionsPool := pool.modify sessId (newSession swIfIndex now key) }
  let am := if am.faSessionsOnSwIfIndex swIfIndex then am else aclFaIfcInitSessions am swIfIndex
  let am := { am with
    faSessionsBySwIfIndex := update am.faSessionsBySwIfIndex swIfIndex
      (update (am.faSessionsBySwIfIndex swIfIndex) key (some sessId)) }
  let am := aclFaConnListAddSession am sessId now
  { am with
    faSessionAddsBySwIfIndex := update am.faSessionAddsBySwIfIndex swIfIndex
      (am.faSessionAddsBySwIfIndex swIfIndex + 1) }

/-- The number of sessions deleted, and whether none is left. All ones stand for every interface. -/
def aclFaCleanSessionsBySwIfIndex (am : SessionMain) (swIfIndex : BitVec 32) : SessionMain × Nat × Bool :=
  let concerns (am : SessionMain) := (List.range am.faSessionsPool.elts.length).filter fun i =>
    am.faSessionsPool.Live i ∧ (swIfIndex = ~~~0 ∨ swIfIndex = (am.faSessionsPool.eltAt i).swIfIndex)
  let dv := concerns am
  let am := dv.foldl (fun am i => aclFaDeleteSession am (am.faSessionsPool.eltAt i).swIfIndex i) am
  (am, dv.length, (concerns am).length = 0)

def aclFaConnTimeToCheck (am : SessionMain) (now : BitVec 64) (sessionIndex : Nat) : Bool :=
  let sess := am.faSessionsPool.eltAt sessionIndex
  (sess.linkEnqueueTime + faSessionGetTimeout am sess).ult now

/-- At most `n` more sessions are taken from the front of a list. -/
def collectExpired (now : BitVec 64) (tt : TimeoutType) : Nat → SessionMain → List Nat → SessionMain × List Nat
  | 0, am, expired => (am, expired)
  | n + 1, am, expired =>
    match am.faConnListHead tt with
    | none => (am, expired)
    | some sessId =>
      if aclFaConnTimeToCheck am now sessId then
        collectExpired now tt n (aclFaConnListDeleteSession am sessId) (expired ++ [sessId])
      else (am, expired)

def processExpired (now : BitVec 64) (am : SessionMain) (sessionIndex : Nat) : SessionMain :=
  if am.faSessionsPool.Live sessionIndex then
    let sess := am.faSessionsPool.eltAt sessionIndex
    if now.ult (sess.lastActiveTime + faSessionGetTimeout am sess) then aclFaConnListAddSession am sessionIndex now
    else aclFaDeleteSession am sess.swIfIndex sessionIndex
  else am

def aclFaSessionCleaner (am : SessionMain) (now : BitVec 64) : SessionMain :=
  let limit := 2 * am.faMaxDeletedSessionsPerInterval
  let (am, expired) := [TimeoutType.udpIdle, .tcpIdle, .tcpTransient].foldl
    (fun (am, expired) tt => collectExpired now tt (limit - expired.length) am expired) (am, [])
  expired.foldl (processExpired now) am

variable {p p' p'' : Pool FaSession} {nodes : TimeoutType → List Nat} {off : List Nat}

def nexts (p : Pool FaSession) (i : Nat) : Option Nat := (p.eltAt i).linkNextIdx

def prevs (p : Pool FaSession) (i : Nat) : Option Nat := (p.eltAt i).linkPrevIdx

/-- The same sessions are in use, and at most their links, lists and times have changed. -/
structure Relinked (p p' : Pool FaSession) : Prop where
  live : ∀ i, p'.Live i ↔ p.Live i
  info : ∀ i, (p'.eltAt i).info = (p.eltAt i).info
  swIf : ∀ i, (p'.eltAt i).swIfIndex = (p.eltAt i).swIfIndex

theorem Relinked.refl (p : Pool FaSession) : Relinked p p := ⟨fun _ => .rfl, fun _ => rfl, fun _ => rfl⟩

theorem Relinked.trans (h : Relinked p p') (h' : Relinked p' p'') : Relinked p p'' :=
  ⟨fun i => (h'.live i).trans (h.live i), fun i => (h'.info i).trans (h.info i),
    fun i => (h'.swIf i).trans (h.swIf i)⟩

theorem relinked_modify {f : FaSession → FaSession} (hinfo : ∀ s, (f s).info = s.info)
    (hsw : ∀ s, (f s).swIfIndex = s.swIfIndex) (p : Pool FaSession) (i : Nat) : Relinked p (p.modify i f) :=
  ⟨fun _ => Pool.live_modify, Pool.proj_modify hinfo p i, Pool.proj_modify hsw p i⟩

theorem relinked_setNextIdx (p : Pool FaSession) (i n : Option Nat) : Relinked p (setNextIdx p i n) := by
  cases i with
  | none => exact .refl p
  | some i => exact relinked_modify (f := fun s => { s with linkNextIdx := n }) (fun _ => rfl) (fun _ => rfl) p i

theorem relinked_setPrevIdx (p : Pool FaSession) (i n : Option Nat) : Relinked p (setPrevIdx p i n) := by
  cases i with
  | none => exact .refl p
  | some i => exact relinked_modify (f := fun s => { s with linkPrevIdx := n }) (fun _ => rfl) (fun _ => rfl) p i

theorem nexts_setNextIdx (hi : ∀ x, i = some x → p.Live x) (n : Option Nat) (j : Nat) :
    nexts (setNextIdx p i n) j = if i = some j then n else nexts p j := by
  cases i with
  | none => exact (if_neg (by simp)).symm
  | some i =>
    rw [nexts, setNextIdx, Pool.eltAt_modify (hi i rfl)]
    by_cases hj : j = i
    · rw [if_pos hj, if_pos (by rw [hj])]
    · rw [if_neg hj, if_neg (by simpa using Ne.symm hj)]
      rfl

theorem prevs_setPrevIdx (hi : ∀ x, i = some x → p.Live x) (n : Option Nat) (j : Nat) :
    prevs (setPrevIdx p i n) j = if i = some j then n else prevs p j := by
  cases i with
  | none => exact (if_neg (by simp)).symm
  | some i =>
    rw [prevs, setPrevIdx, Pool.eltAt_modify (hi i rfl)]
    by_cases hj : j = i
    · rw [if_pos hj, if_pos (by rw [hj])]
    · rw [if_neg hj, if_neg (by simpa using Ne.symm hj)]
      rfl

theorem proj_setNextIdx {f : FaSession → β} (hf : ∀ s n, f { s with linkNextIdx := n } = f s) (p : Pool FaSession)
    (i n : Option Nat) (j : Nat) : f ((setNextIdx p i n).eltAt j) = f (p.eltAt j) := by
  cases i with
  | none => rfl
  | some i => exact Pool.proj_modify (fun s => hf s n) p i j

theorem proj_setPrevIdx {f : FaSession → β} (hf : ∀ s n, f { s with linkPrevIdx := n } = f s) (p : Pool FaSession)
    (i n : Option Nat) (j : Nat) : f ((setPrevIdx p i n).eltAt j) = f (p.eltAt j) := by
  cases i with
  | none => rfl
  | some i => exact Pool.proj_modify (fun s => hf s n) p i j

theorem prevs_setNextIdx (p : Pool FaSession) (i n : Option Nat) (j : Nat) : prevs (setNextIdx p i n) j = prevs p j :=
  proj_setNextIdx (f := FaSession.linkPrevIdx) (fun _ _ => rfl) p i n j

theorem nexts_setPrevIdx (p : Pool FaSession) (i n : Option Nat) (j : Nat) : nexts (setPrevIdx p i n) j = nexts p j :=
  proj_setPrevIdx (f := FaSession.linkNextIdx) (fun _ _ => rfl) p i n j

/-- Every session in use that is not in `off` is on the list it names, and on no other. -/
structure Lists (p : Pool FaSession) (head tail : TimeoutType → Option Nat) (nodes : TimeoutType → List Nat)
    (off : List Nat) : Prop where
  list : ∀ t, EndedList (nexts p) (prevs p) (head t) (tail t) (nodes t)
  mem : ∀ t i, i ∈ nodes t ↔ p.Live i ∧ (p.eltAt i).linkListId = some t ∧ i ∉ off
  listed : ∀ i, p.Live i → i ∉ off → (p.eltAt i).linkListId ≠ none
  off_live : ∀ i ∈ off, p.Live i
  off_nodup : off.Nodup

variable {head tail : TimeoutType → Option Nat}

theorem Lists.not_mem_other (h : Lists p head tail nodes off) (hi : i ∈ nodes t) (hne : t' ≠ t) : i ∉ nodes t' := by
  intro hi'
  have ht := ((h.mem t i).mp hi).2.1
  have ht' := ((h.mem t' i).mp hi').2.1
  exact hne (Option.some.inj (ht'.symm.trans ht))

theorem Lists.congr (h : Lists p head tail nodes off) (hre : Relinked p p')
    (hid : ∀ j, (p'.eltAt j).linkListId = (p.eltAt j).linkListId) (hnext : ∀ j, nexts p' j = nexts p j)
    (hprev : ∀ j, prevs p' j = prevs p j) : Lists p' head tail nodes off := by
  refine ⟨?_, ?_, ?_, ?_, h.off_nodup⟩
  · exact fun t => (h.list t).congr (fun j _ => hnext j) fun j _ => hprev j
  · intro t j
    rw [hre.live, hid]
    exact h.mem t j
  · intro j hj hnot
    rw [hid]
    exact h.listed j ((hre.live j).mp hj) hnot
  · exact fun j hj => (hre.live j).mpr (h.off_live j hj)

theorem Lists.replace (h : Lists p head tail nodes off)
    (hlist : EndedList (nexts p') (prevs p') newHead newTail l)
    (hother : ∀ t', t' ≠ t → ∀ j ∈ nodes t', nexts p' j = nexts p j ∧ prevs p' j = prevs p j)
    (hmem : ∀ t' i, i ∈ update nodes t l t' ↔
      p'.Live i ∧ (p'.eltAt i).linkListId = some t' ∧ i ∉ off')
    (hlisted : ∀ i, p'.Live i → i ∉ off' → (p'.eltAt i).linkListId ≠ none) (hlive : ∀ i ∈ off', p'.Live i)
    (hnd : off'.Nodup) :
    Lists p' (update head t newHead) (update tail t newTail) (update nodes t l) off' := by
  refine ⟨?_, hmem, hlisted, hlive, hnd⟩
  intro t'
  by_cases ht : t' = t
  · subst ht
    rw [update_self, update_self, update_self]
    exact hlist
  · rw [update_of_ne ht, update_of_ne ht, update_of_ne ht]
    exact (h.list t').congr (fun j hj => (hother t' ht j hj).1) fun j hj => (hother t' ht j hj).2

section Delete
variable (h : Lists p head tail nodes off) (hl : nodes t = xs ++ i :: ys)
include h hl

theorem Lists.neighbours :
    (∀ x, nexts p i = some x → p.Live x ∧ x ∈ nodes t) ∧ ∀ x, prevs p i = some x → p.Live x ∧ x ∈ nodes t := by
  have hlive (j : Nat) (hj : j ∈ nodes t) : p.Live j ∧ j ∈ nodes t := ⟨((h.mem t j).mp hj).1, hj⟩
  constructor
  · intro x hx
    rw [(h.list t).next_eq xs i ys hl] at hx
    apply hlive
    rw [hl]
    exact mem_append_right xs (mem_cons_of_mem i (mem_of_mem_head? hx))
  · intro x hx
    rw [(h.list t).prev_eq xs i ys hl] at hx
    apply hlive
    rw [hl]
    exact mem_append_left _ (mem_of_getLast? hx)

theorem Lists.delete (hre : Relinked p p') (hid : ∀ j, (p'.eltAt j).linkListId = (p.eltAt j).linkListId)
    (hnext : ∀ j, nexts p' j = if prevs p i = some j then nexts p i else nexts p j)
    (hprev : ∀ j, prevs p' j = if nexts p i = some j then prevs p i else prevs p j) :
    Lists p' (update head t (if head t = some i then nexts p i else head t))
      (update tail t (if tail t = some i then prevs p i else tail t))
      (update nodes t (xs ++ ys)) (off ++ [i]) := by
  obtain ⟨hnl, hpl⟩ := h.neighbours hl
  have hlist := h.list t
  rw [hl] at hlist
  obtain ⟨hlive, hlisti, hoff⟩ := (h.mem t i).mp (hl ▸ mem_append_right xs mem_cons_self)
  apply h.replace
  · exact hlist.remove (fun j _ => hnext j) fun j _ => hprev j
  · intro t' ht j hj
    constructor
    · rw [hnext, if_neg fun hx => h.not_mem_other (hpl j hx).2 ht hj]
    · rw [hprev, if_neg fun hx => h.not_mem_other (hnl j hx).2 ht hj]
  · intro t' j
    rw [hre.live, hid, mem_append, mem_singleton, not_or]
    by_cases ht : t' = t
    · subst ht
      have hnd := hlist.nodup
      have hmem := h.mem t' j
      rw [hl] at hmem
      rw [update_self]
      constructor
      · intro hj
        have hji : j ≠ i := by
          rintro rfl
          obtain ⟨_, hnd₂, hdisj⟩ := nodup_append.mp hnd
          rcases mem_append.mp hj with hx | hy
          · exact hdisj j hx j mem_cons_self rfl
          · exact (nodup_cons.mp hnd₂).1 hy
        have hold : j ∈ xs ++ i :: ys := by
          rcases mem_append.mp hj with hx | hy
          · exact mem_append_left _ hx
          · exact mem_append_right _ (mem_cons_of_mem i hy)
        obtain ⟨h₁, h₂, h₃⟩ := hmem.mp hold
        exact ⟨h₁, h₂, h₃, hji⟩
      · intro ⟨h₁, h₂, h₃, hji⟩
        rcases mem_append.mp (hmem.mpr ⟨h₁, h₂, h₃⟩) with hx | hy
        · exact mem_append_left _ hx
        · exact mem_append_right _ ((mem_cons.mp hy).resolve_left hji)
    · rw [update_of_ne ht, h.mem]
      constructor
      · intro ⟨h₁, h₂, h₃⟩
        refine ⟨h₁, h₂, h₃, ?_⟩
        rintro rfl
        exact ht (Option.some.inj (h₂.symm.trans hlisti))
      · intro ⟨h₁, h₂, h₃, _⟩
        exact ⟨h₁, h₂, h₃⟩
  · intro j hj hnot
    rw [hid]
    exact h.listed j ((hre.live j).mp hj) fun hm => hnot (mem_append_left _ hm)
  · intro j hj
    rw [hre.live]
    rcases mem_append.mp hj with hm | hm
    · exact h.off_live j hm
    · exact mem_singleton.mp hm ▸ hlive
  · exact nodup_append.mpr ⟨h.off_nodup, nodup_singleton i, fun a ha b hb he =>
      hoff (mem_singleton.mp hb ▸ he ▸ ha)⟩

end Delete

theorem Lists.add (h : Lists p head tail nodes (i :: off)) (hre : Relinked p p')
    (hid : ∀ j, (p'.eltAt j).linkListId = if j = i then some t else (p.eltAt j).linkListId)
    (hnext : ∀ j, nexts p' j = if j = i then none else if tail t = some j then some i else nexts p j)
    (hprev : ∀ j, prevs p' j = if j = i then tail t else prevs p j) :
    Lists p' (update head t ((head t).or (some i))) (update tail t (some i))
      (update nodes t (nodes t ++ [i])) off := by
  have hnot (t' : TimeoutType) : i ∉ nodes t' := fun hm => ((h.mem t' i).mp hm).2.2 mem_cons_self
  have hlive : p.Live i := h.off_live i mem_cons_self
  obtain ⟨hoff, hnd⟩ := nodup_cons.mp h.off_nodup
  have hne {t' j} (hj : j ∈ nodes t') : j ≠ i := fun he => hnot t' (he ▸ hj)
  apply h.replace
  · exact (h.list t).append (hnot t) hnext hprev
  · intro t' ht j hj
    have htail : tail t ≠ some j := by
      intro he
      rw [(h.list t).tail_eq] at he
      exact h.not_mem_other (mem_of_getLast? he) ht hj
    rw [hnext, hprev, if_neg (hne hj), if_neg (hne hj), if_neg htail]
    exact ⟨rfl, rfl⟩
  · intro t' j
    rw [hre.live, hid]
    by_cases hj : j = i
    · subst hj
      rw [if_pos rfl]
      by_cases ht : t' = t
      · subst ht
        rw [update_self]
        exact iff_of_true (mem_append_right _ (mem_singleton.mpr rfl)) ⟨hlive, rfl, hoff⟩
      · rw [update_of_ne ht]
        exact iff_of_false (hnot t') fun hc => ht (Option.some.inj hc.2.1).symm
    · rw [if_neg hj]
      have hmem := h.mem t' j
      rw [mem_cons, not_or, and_iff_right hj] at hmem
      rw [← hmem]
      by_cases ht : t' = t
      · subst ht
        rw [update_self, mem_append, mem_singleton, or_iff_left hj]
      · rw [update_of_ne ht]
  · intro j hj hnot'
    rw [hid]
    split
    · exact nofun
    · next hji => exact h.listed j ((hre.live j).mp hj) fun hm => (mem_cons.mp hm).elim hji hnot'
  · exact fun j hj => (hre.live j).mpr (h.off_live j (mem_cons_of_mem i hj))
  · exact hnd

theorem Lists.put (h : Lists p head tail nodes (i :: off)) : Lists (p.put i) head tail nodes off := by
  obtain ⟨hoff, hnd⟩ := nodup_cons.mp h.off_nodup
  refine ⟨?_, ?_, ?_, ?_, hnd⟩
  · intro t
    apply (h.list t).congr
    · intro j _
      rw [nexts, Pool.eltAt_put]
      rfl
    · intro j _
      rw [prevs, Pool.eltAt_put]
      rfl
  · intro t j
    rw [h.mem, Pool.live_put, Pool.eltAt_put, mem_cons, not_or]
    exact ⟨fun ⟨h₁, h₂, h₃, h₄⟩ => ⟨⟨h₁, h₃⟩, h₂, h₄⟩, fun ⟨⟨h₁, h₃⟩, h₂, h₄⟩ => ⟨h₁, h₂, h₃, h₄⟩⟩
  · intro j hj hnot
    rw [Pool.eltAt_put]
    have hj := Pool.live_put.mp hj
    exact h.listed j hj.1 fun hm => (mem_cons.mp hm).elim hj.2 hnot
  · intro j hj
    exact Pool.live_put.mpr ⟨h.off_live j (mem_cons_of_mem i hj), fun he => hoff (he ▸ hj)⟩

theorem Lists.get (h : Lists p head tail nodes []) (f : FaSession → FaSession) :
    Lists (p.get.1.modify p.get.2 f) head tail nodes [p.get.2] := by
  have hnew := p.not_live_get
  have hget : p.get.1.Live p.get.2 := Pool.live_get.mpr (.inr rfl)
  have hold (j : Nat) (hj : j ≠ p.get.2) : (p.get.1.modify p.get.2 f).eltAt j = p.eltAt j := by
    rw [Pool.eltAt_modify_ne hj, Pool.eltAt_get]
  have hne {t j} (hj : j ∈ nodes t) : j ≠ p.get.2 := fun he => hnew (he ▸ ((h.mem t j).mp hj).1)
  refine ⟨?_, ?_, ?_, ?_, nodup_singleton _⟩
  · intro t
    apply (h.list t).congr
    · intro j hj
      rw [nexts, hold j (hne hj)]
      rfl
    · intro j hj
      rw [prevs, hold j (hne hj)]
      rfl
  · intro t j
    rw [h.mem, Pool.live_modify, Pool.live_get, mem_singleton]
    by_cases hj : j = p.get.2
    · exact iff_of_false (fun hc => hnew (hj ▸ hc.1)) fun hc => hc.2.2 hj
    · rw [hold j hj, or_iff_left hj]
      simp [hj]
  · intro j hj hnot
    rw [mem_singleton] at hnot
    rw [Pool.live_modify, Pool.live_get, or_iff_left hnot] at hj
    rw [hold j hnot]
    exact h.listed j hj (by simp)
  · intro j hj
    rw [mem_singleton.mp hj]
    exact Pool.live_modify.mpr hget

end Vpp.Acl
