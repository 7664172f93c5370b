import Vpp.Lib.EndedList
import Vpp.Snat.Nat44

namespace Vpp.Snat
open Vpp.Lib Vpp.Infra Function

/-- A mapping of an interface that has no address yet. -/
structure SnatStaticMapResolve where
  lAddr : Ip4Address
  lPort : BitVec 16
  swIfIndex : BitVec 32
  ePort : BitVec 16
  vrfId : BitVec 32
  proto : SnatProtocol
  addrOnly : Bool
  isAdd : Bool
deriving DecidableEq

structure StaticMain extends SnatMain where
  staticMappingByExternal : SnatSessionKey → Option Nat
  staticMappingOnly : Bool
  staticMappingConnectionTracking : Bool
  outsideFibIndex : BitVec 32
  interfaceFirstAddress : BitVec 32 → Option Ip4Address
  toResolve : List SnatStaticMapResolve

structure MappingCall where
  lAddr : Ip4Address
  eAddr : Ip4Address
  lPort : BitVec 16
  ePort : BitVec 16
  vrfId : BitVec 32
  addrOnly : Bool
  swIfIndex : BitVec 32
  proto : SnatProtocol
deriving DecidableEq

def sesIndexAt (m : SnatMain) (e : Nat) : Nat := (m.listPool.eltAt e).value

def sessionAt (m : SnatMain) (e : Nat) : SnatSession := m.sessions.eltAt (sesIndexAt m e)

def delSession (u : Nat) (m : SnatMain) (e : Nat) : SnatMain :=
  let s := sessionAt m e
  { m with in2out := update m.in2out s.in2out none
           out2in := update m.out2in s.out2in none
           sessions := m.sessions.put (sesIndexAt m e)
           listPool := (clibDlistRemove m.listPool e).put e
           users := m.users.modify u fun u => { u with nstaticsessions := pred32 u.nstaticsessions } }

def SnatSession.touches (s : SnatSession) (eAddr : Ip4Address) (ePort : BitVec 16) : Bool :=
  !(s.out2in.addr != eAddr && s.out2in.port != ePort)

/-- Along the list of the user, from an element on. Nothing when the passes are not enough. -/
def delMappingLoop (u : Nat) (addrOnly : Bool) (eAddr : Ip4Address) (ePort : BitVec 16) :
    (passes : Nat) → SnatMain → Nat → Option SnatMain
  | 0, _, _ => none
  | passes + 1, m, e =>
    if sesIndexAt m e = noIndex then some m
    else
      let next := (m.listPool.eltAt e).next
      if !addrOnly && !(sessionAt m e).touches eAddr ePort then delMappingLoop u addrOnly eAddr ePort passes m next
      else if addrOnly then delMappingLoop u addrOnly eAddr ePort passes (delSession u m e) next
      else some (delSession u m e)

def delUser (k : SnatUserKey) (u : Nat) (m : SnatMain) : SnatMain :=
  { m with users := m.users.put u, userHash := update m.userHash k none }

def delMappingSessions (m : SnatMain) (k : SnatUserKey) (addrOnly : Bool) (eAddr : Ip4Address) (ePort : BitVec 16) :
    Option SnatMain :=
  match m.userHash k with
  | none => some m
  | some u =>
    let user := m.users.eltAt u
    if user.nstaticsessions = 0 then some m
    else
      let first := (m.listPool.eltAt user.sessionsPerUserListHeadIndex).next
      (delMappingLoop u addrOnly eAddr ePort (m.listPool.elts.length + 1) m first).map fun m =>
        if addrOnly then delUser k u m else m

def SnatAddress.freePort (a : SnatAddress) (q : SnatProtocol) (port : BitVec 16) : SnatAddress :=
  { a with busyPortBitmap := update a.busyPortBitmap q (update (a.busyPortBitmap q) port false)
           busyPorts := if 1024 < port.toNat then update a.busyPorts q (pred32 (a.busyPorts q)) else a.busyPorts }

def freeMappingPort (addresses : List SnatAddress) (eAddr : Ip4Address) (q : SnatProtocol) (port : BitVec 16) :
    List SnatAddress :=
  addresses.modify (addresses.findIdx fun a => a.addr == eAddr) fun a => a.freePort q port

def MappingCall.externalAddr (m : StaticMain) (c : MappingCall) : Option Ip4Address :=
  if c.swIfIndex ≠ none32 then m.interfaceFirstAddress c.swIfIndex else some c.eAddr

def MappingCall.externalKey (m : StaticMain) (c : MappingCall) (eAddr : Ip4Address) : SnatSessionKey :=
  ⟨eAddr, if c.addrOnly then 0 else c.ePort, if c.addrOnly then .udp else c.proto, m.outsideFibIndex.setWidth 13⟩

def SnatStaticMapping.localKey (mapping : SnatStaticMapping) : SnatSessionKey :=
  ⟨mapping.localAddr, mapping.localPort, mapping.proto, mapping.fibIndex.setWidth 13⟩

def SnatStaticMapping.userKey (mapping : SnatStaticMapping) : SnatUserKey := ⟨mapping.localAddr, mapping.fibIndex⟩

def unlinkMapping (m : StaticMain) (c : MappingCall) (eAddr : Ip4Address) (mapping : SnatStaticMapping) : StaticMain :=
  let externalKey : SnatSessionKey :=
    ⟨mapping.externalAddr, mapping.externalPort, mapping.proto, m.outsideFibIndex.setWidth 13⟩
  { m with addresses := if !c.addrOnly && !m.staticMappingOnly then freeMappingPort m.addresses eAddr c.proto c.ePort
             else m.addresses
           staticMappingByLocal := update m.staticMappingByLocal mapping.localKey none
           staticMappingByExternal := update m.staticMappingByExternal externalKey none }

/-- Sessions are there but with static mappings only and no tracking of connections. -/
def StaticMain.hasSessions (m : StaticMain) : Bool := !m.staticMappingOnly || m.staticMappingConnectionTracking

/-- The branch of `snat_add_static_mapping` without `is_add`, but for the route to the address in the FIB. Nothing
when the call does not return. -/
def snatDelStaticMapping (m : StaticMain) (c : MappingCall) : Option (Int × StaticMain) :=
  match c.externalAddr m with
  | none =>
    let rp := ⟨c.lAddr, c.lPort, c.swIfIndex, c.ePort, c.vrfId, c.proto, c.addrOnly, false⟩
    some (0, { m with toResolve := m.toResolve ++ [rp] })
  | some eAddr =>
    match m.staticMappingByExternal (c.externalKey m eAddr) with
    | none => some (noSuchEntry, m)
    | some i =>
      let mapping := m.staticMappings.eltAt i
      let m := unlinkMapping m c eAddr mapping
      let after :=
        if m.hasSessions then delMappingSessions m.toSnatMain mapping.userKey c.addrOnly eAddr c.ePort
        else some m.toSnatMain
      after.map fun main => (0, { m with toSnatMain := { main with staticMappings := main.staticMappings.put i } })

def userHead (m : SnatMain) (u : Nat) : Nat := (m.users.eltAt u).sessionsPerUserListHeadIndex

/-- The list of a user: an element for each session, which is in both tables. -/
structure UserSessions (m : SnatMain) (u : Nat) (l : List Nat) : Prop where
  user : m.users.Live u
  list : IsDlist m.listPool (userHead m u) l
  live : ∀ e ∈ userHead m u :: l, m.listPool.Live e
  head : sesIndexAt m (userHead m u) = noIndex
  session : ∀ e ∈ l, m.sessions.Live (sesIndexAt m e) ∧ sesIndexAt m e ≠ noIndex
  distinct : (l.map (sesIndexAt m)).Nodup
  tables : ∀ e ∈ l, m.in2out (sessionAt m e).in2out = some (sesIndexAt m e) ∧
    m.out2in (sessionAt m e).out2in = some (sesIndexAt m e)
  count : (m.users.eltAt u).nstaticsessions = (l.filter fun e => (sessionAt m e).isStatic).length

def clear (t : SnatSessionKey → Option Nat) (keys : List SnatSessionKey) : SnatSessionKey → Option Nat :=
  fun k => if k ∈ keys then none else t k

def inKeys (m : SnatMain) (d : List Nat) : List SnatSessionKey := d.map fun e => (sessionAt m e).in2out

def outKeys (m : SnatMain) (d : List Nat) : List SnatSessionKey := d.map fun e => (sessionAt m e).out2in

def decStatic (n : Nat) (u : SnatUser) : SnatUser := { u with nstaticsessions := pred32^[n] u.nstaticsessions }

/-- Of the list of a user, the elements `d` are gone with their sessions. -/
structure Removed (m m' : SnatMain) (u : Nat) (l d : List Nat) : Prop where
  sub : d ⊆ l
  in2out : m'.in2out = clear m.in2out (inKeys m d)
  out2in : m'.out2in = clear m.out2in (outKeys m d)
  session : ∀ s, m'.sessions.eltAt s = m.sessions.eltAt s
  sessionLive : ∀ s, m'.sessions.Live s ↔ m.sessions.Live s ∧ s ∉ d.map (sesIndexAt m)
  list : IsDlist m'.listPool (userHead m u) (l.filter (· ∉ d))
  value : ∀ e, sesIndexAt m' e = sesIndexAt m e
  listLive : ∀ e, m'.listPool.Live e ↔ m.listPool.Live e ∧ e ∉ d
  userLive : ∀ v, m'.users.Live v ↔ m.users.Live v
  user : ∀ v, m'.users.eltAt v = if v = u then decStatic d.length (m.users.eltAt u) else m.users.eltAt v
  userHash : m'.userHash = m.userHash

theorem update_clear (t : SnatSessionKey → Option Nat) (keys : List SnatSessionKey) (k : SnatSessionKey) :
    update (clear t keys) k none = clear t (keys ++ [k]) := by
  funext k'
  by_cases he : k' = k
  · rw [he, update_self, clear, if_pos (List.mem_append_right keys (List.mem_singleton_self k))]
  · rw [update_of_ne he]
    simp only [clear, List.mem_append, List.mem_singleton, he, or_false]

section
variable {m m' : SnatMain} {u : Nat} {l d : List Nat}

theorem UserSessions.head_notMem (hs : UserSessions m u l) : userHead m u ∉ l := by
  intro hmem
  exact (hs.session _ hmem).2 hs.head

theorem Removed.refl (hs : UserSessions m u l) : Removed m m u l [] where
  sub := List.nil_subset l
  in2out := by
    funext k
    exact (if_neg List.not_mem_nil).symm
  out2in := by
    funext k
    exact (if_neg List.not_mem_nil).symm
  session _ := rfl
  sessionLive s := (and_iff_left List.not_mem_nil).symm
  list := by
    have hall : l.filter (· ∉ ([] : List Nat)) = l := List.filter_eq_self.mpr fun e _ => by simp
    rw [hall]
    exact hs.list
  value _ := rfl
  listLive e := (and_iff_left List.not_mem_nil).symm
  userLive _ := Iff.rfl
  user v := by
    split_ifs with he
    · rw [he]
      rfl
    · rfl
  userHash := rfl

theorem Removed.sessionAt (h : Removed m m' u l d) (e : Nat) : Vpp.Snat.sessionAt m' e = Vpp.Snat.sessionAt m e := by
  rw [Vpp.Snat.sessionAt, Vpp.Snat.sessionAt, h.value, h.session]

theorem filter_concat (hnd : l.Nodup) (h : l.filter (· ∉ d) = l₁ ++ e :: l₂) : l.filter (· ∉ d ++ [e]) = l₁ ++ l₂ := by
  have hnd := hnd.filter (· ∉ d)
  rw [h, List.nodup_middle, List.nodup_cons] at hnd
  calc l.filter (· ∉ d ++ [e]) = (l.filter (· ∉ d)).filter (· ≠ e) := by
        rw [List.filter_filter]
        apply List.filter_congr
        intro x _
        simp [not_or, and_comm]
    _ = l₁ ++ l₂ := by
        rw [h, List.filter_append, List.filter_cons_of_neg (by simp), ← List.filter_append]
        apply List.filter_eq_self.mpr
        intro x hx
        have hne : x ≠ e := ne_of_mem_of_not_mem hx hnd.1
        simpa using hne

theorem Removed.step (hs : UserSessions m u l) (h : Removed m m' u l d) (he : e ∈ l) (hd : e ∉ d) :
    Removed m (delSession u m' e) u l (d ++ [e]) := by
  have hmem : e ∈ l.filter (· ∉ d) := by
    rw [List.mem_filter]
    exact ⟨he, by simpa using hd⟩
  obtain ⟨l₁, l₂, hsplit⟩ := List.append_of_mem hmem
  have hlive : ∀ j ∈ userHead m u :: (l₁ ++ e :: l₂), m'.listPool.Live j := by
    intro j hj
    rw [← hsplit] at hj
    rw [h.listLive]
    cases List.mem_cons.mp hj with
    | inl hj =>
      rw [hj]
      exact ⟨hs.live _ List.mem_cons_self, fun hm => hs.head_notMem (h.sub hm)⟩
    | inr hj =>
      rw [List.mem_filter] at hj
      exact ⟨hs.live j (List.mem_cons_of_mem _ hj.1), by simpa using hj.2⟩
  have hlist := h.list
  rw [hsplit] at hlist
  obtain ⟨hring, hrel⟩ := hlist.remove hlive
  have hput (i : Nat) : (delSession u m' e).listPool.eltAt i = (clibDlistRemove m'.listPool e).eltAt i :=
    Pool.eltAt_put _ _ _
  constructor
  case sub => exact List.append_subset.mpr ⟨h.sub, List.cons_subset.mpr ⟨he, List.nil_subset l⟩⟩
  case in2out =>
    simp only [delSession, h.sessionAt, h.in2out, update_clear, inKeys, List.map_append, List.map_cons, List.map_nil]
  case out2in =>
    simp only [delSession, h.sessionAt, h.out2in, update_clear, outKeys, List.map_append, List.map_cons, List.map_nil]
  case session =>
    intro s
    exact (Pool.eltAt_put _ _ _).trans (h.session s)
  case sessionLive =>
    intro s
    simp only [delSession, Pool.live_put, h.sessionLive, h.value, List.map_append, List.map_cons, List.map_nil,
      List.mem_append, List.mem_singleton, not_or, and_assoc]
  case list =>
    rw [filter_concat hs.list.nodup hsplit]
    exact hring.congr fun i _ => hput i
  case value =>
    intro i
    exact ((congrArg DlistElt.value (hput i)).trans (hrel.value i)).trans (h.value i)
  case listLive =>
    intro i
    simp only [delSession, Pool.live_put, hrel.live, h.listLive, List.mem_append, List.mem_singleton, not_or, and_assoc]
  case userLive =>
    intro v
    simp only [delSession, Pool.live_modify, h.userLive]
  case user =>
    intro v
    have hu : m'.users.Live u := (h.userLive u).mpr hs.user
    simp only [delSession, Pool.eltAt_modify hu, h.user, if_true]
    split_ifs with hv
    · simp only [decStatic, List.length_append, List.length_singleton, Function.iterate_succ_apply']
    · rfl
  case userHash => exact h.userHash

theorem Removed.run (hs : UserSessions m u l) (h : Removed m m' u l d) (hsub : d' ⊆ l) (hnd : (d ++ d').Nodup) :
    Removed m (d'.foldl (delSession u) m') u l (d ++ d') := by
  induction d' generalizing m' d with
  | nil =>
    rw [List.append_nil]
    exact h
  | cons e d' ih =>
    rw [List.append_cons] at hnd ⊢
    have he : e ∉ d := by
      have hnd := hnd.of_append_left
      rw [List.nodup_append] at hnd
      intro hm
      exact hnd.2.2 e hm e (List.mem_singleton_self e) rfl
    exact ih (h.step hs (hsub List.mem_cons_self) he) (List.subset_of_cons_subset hsub) hnd

def doomed (m : SnatMain) (addrOnly : Bool) (eAddr : Ip4Address) (ePort : BitVec 16) (l : List Nat) : List Nat :=
  if addrOnly then l else (l.find? fun e => (sessionAt m e).touches eAddr ePort).toList

theorem doomed_cons (m : SnatMain) (eAddr : Ip4Address) (ePort : BitVec 16) (e : Nat) (l : List Nat) :
    doomed m false eAddr ePort (e :: l) =
      if (sessionAt m e).touches eAddr ePort then [e] else doomed m false eAddr ePort l := by
  simp only [doomed, Bool.false_eq_true, if_false, List.find?_cons]
  cases (sessionAt m e).touches eAddr ePort with
  | true => rfl
  | false => rfl

theorem next_eq (h : IsDlist p head (pre ++ e :: rest)) : (p.eltAt e).next = rest.headD head := by
  have hring : (dlinks p).IsRing head (pre ++ e :: rest) := by
    apply h.resolve_left
    intro he
    exact absurd he.1 (List.append_ne_nil_of_right_ne_nil pre (List.cons_ne_nil e rest))
  have hseg := hring.seg.split.2
  cases rest with
  | nil => exact hseg.1
  | cons x rest => exact hseg.1

theorem delMappingLoop_eq {addrOnly : Bool} {eAddr : Ip4Address} {ePort : BitVec 16} (hs : UserSessions m u l)
    (h : Removed m m' u l d) (hcur : l.filter (· ∉ d) = pre ++ rest) (hfuel : rest.length < passes) :
    delMappingLoop u addrOnly eAddr ePort passes m' (rest.headD (userHead m u)) =
      some ((doomed m addrOnly eAddr ePort rest).foldl (delSession u) m') := by
  induction rest generalizing m' d pre passes with
  | nil =>
    cases passes with
    | zero => exact absurd hfuel (Nat.not_lt_zero _)
    | succ passes =>
      have hend : sesIndexAt m' (userHead m u) = noIndex := (h.value _).trans hs.head
      have hnone : doomed m addrOnly eAddr ePort [] = [] := by
        cases addrOnly with
        | false => rfl
        | true => rfl
      rw [hnone, List.headD_nil, delMappingLoop, if_pos hend, List.foldl_nil]
  | cons e rest ih =>
    cases passes with
    | zero => exact absurd hfuel (Nat.not_lt_zero _)
    | succ passes =>
      have hfuel : rest.length < passes := Nat.lt_of_succ_lt_succ hfuel
      have hmem : e ∈ l.filter (· ∉ d) := by
        rw [hcur]
        exact List.mem_append_right pre List.mem_cons_self
      rw [List.mem_filter] at hmem
      have hgo : sesIndexAt m' e ≠ noIndex := ne_of_eq_of_ne (h.value e) (hs.session e hmem.1).2
      have hnext : (m'.listPool.eltAt e).next = rest.headD (userHead m u) := next_eq (hcur ▸ h.list)
      rw [List.headD_cons, delMappingLoop, if_neg hgo, hnext, h.sessionAt]
      cases addrOnly with
      | true =>
        have hstep := h.step hs hmem.1 (by simpa using hmem.2)
        have hrest := ih hstep (filter_concat hs.list.nodup hcur) hfuel
        simp only [Bool.not_true, Bool.false_and, Bool.false_eq_true, if_false, if_true, hrest]
        rfl
      | false =>
        rw [doomed_cons]
        cases (sessionAt m e).touches eAddr ePort with
        | true => rfl
        | false => exact ih h (hcur.trans (List.append_cons pre e rest)) hfuel

theorem doomed_sublist (m : SnatMain) (addrOnly : Bool) (eAddr : Ip4Address) (ePort : BitVec 16) (l : List Nat) :
    (doomed m addrOnly eAddr ePort l).Sublist l := by
  rw [doomed]
  split_ifs with ha
  · exact List.Sublist.refl l
  · cases hfind : l.find? fun e => (sessionAt m e).touches eAddr ePort with
    | none => exact List.nil_sublist l
    | some e => exact List.singleton_sublist.mpr (List.mem_of_find?_eq_some hfind)

/-- What the call deletes of the list of the user, and if the user goes with it. -/
theorem delMappingSessions_eq (hs : UserSessions m u l) (hk : m.userHash k = some u)
    (hstatic : (m.users.eltAt u).nstaticsessions ≠ 0) (addrOnly : Bool) (eAddr : Ip4Address) (ePort : BitVec 16) :
    ∃ m', Removed m m' u l (doomed m addrOnly eAddr ePort l) ∧
      delMappingSessions m k addrOnly eAddr ePort = some (if addrOnly then delUser k u m' else m') := by
  have hsub := doomed_sublist m addrOnly eAddr ePort l
  have hrun := (Removed.refl hs).run hs hsub.subset (hsub.nodup hs.list.nodup)
  have hlen : l.length < m.listPool.elts.length + 1 := by
    apply Nat.lt_succ_of_le
    apply length_le_of_lt hs.list.nodup
    intro e he
    exact (hs.live e (List.mem_cons_of_mem _ he)).1
  have hcur : l.filter (· ∉ ([] : List Nat)) = [] ++ l := List.filter_eq_self.mpr fun e _ => by simp
  have hloop : delMappingLoop u addrOnly eAddr ePort (m.listPool.elts.length + 1) m (l.headD (userHead m u)) = _ :=
    delMappingLoop_eq hs (Removed.refl hs) hcur hlen
  have hfirst : (m.listPool.eltAt (userHead m u)).next = l.headD (userHead m u) := by
    have hne : l ≠ [] := by
      intro hnil
      rw [hs.count, hnil] at hstatic
      exact hstatic rfl
    have hring := hs.list.resolve_left fun he => hne he.1
    cases l with
    | nil => exact absurd rfl hne
    | cons e l => exact hring.seg.1
  use (doomed m addrOnly eAddr ePort l).foldl (delSession u) m, hrun
  rw [userHead] at hfirst hloop
  simp only [delMappingSessions, hk, if_neg hstatic, hfirst, hloop, Option.map_some]

def createdOf (m : SnatMain) (created : Nat → Bool) (l : List Nat) :
    List Nat := l.filter fun e => created (sesIndexAt m e)

/-- The sessions that were created are gone from the tables, the pool and the list of the user, their number is
taken from the user, and all else of the user stays. -/
structure DeletesExactly (m m' : SnatMain) (k : SnatUserKey) (u : Nat) (l : List Nat) (created : Nat → Bool) :
    Prop where
  in2out : m'.in2out = clear m.in2out (inKeys m (createdOf m created l))
  out2in : m'.out2in = clear m.out2in (outKeys m (createdOf m created l))
  sessionLive : ∀ s, m'.sessions.Live s ↔ m.sessions.Live s ∧ s ∉ (createdOf m created l).map (sesIndexAt m)
  session : ∀ s, m'.sessions.eltAt s = m.sessions.eltAt s
  list : IsDlist m'.listPool (userHead m u) (l.filter fun e => !created (sesIndexAt m e))
  value : ∀ e, sesIndexAt m' e = sesIndexAt m e
  kept : ∀ e ∈ l, created (sesIndexAt m e) = false →
    m'.in2out (sessionAt m e).in2out = some (sesIndexAt m e) ∧ m'.out2in (sessionAt m e).out2in = some (sesIndexAt m e)
  user : (∃ e ∈ l, created (sesIndexAt m e) = false) → m'.userHash k = some u ∧ m'.users.Live u
  count : m'.users.eltAt u = decStatic (createdOf m created l).length (m.users.eltAt u)

/-- The elements that go are those of the sessions that were created. -/
theorem Removed.exactly (hs : UserSessions m u l) (hk : m.userHash k = some u) (h : Removed m m' u l d)
    (hd : d = createdOf m created l) : DeletesExactly m m' k u l created := by
  subst hd
  have hlist : l.filter (· ∉ createdOf m created l) = l.filter fun e => !created (sesIndexAt m e) := by
    apply List.filter_congr
    intro e he
    simp [createdOf, he]
  have hout : ∀ e ∈ l, created (sesIndexAt m e) = false → ∀ e' ∈ createdOf m created l,
      sesIndexAt m e' ≠ sesIndexAt m e := by
    intro e _ hnot e' he' hsame
    rw [createdOf, List.mem_filter, hsame, hnot] at he'
    exact Bool.false_ne_true he'.2
  constructor
  case in2out => exact h.in2out
  case out2in => exact h.out2in
  case sessionLive => exact h.sessionLive
  case session => exact h.session
  case list => exact hlist ▸ h.list
  case value => exact h.value
  case kept =>
    intro e he hnot
    have ht := hs.tables e he
    rw [h.in2out, h.out2in, clear, clear, if_neg, if_neg]
    · exact ht
    · intro hmem
      obtain ⟨e', he', hkey⟩ := List.mem_map.mp hmem
      have ht' := (hs.tables e' (List.mem_of_mem_filter he')).2
      rw [hkey, ht.2] at ht'
      exact hout e he hnot e' he' (Option.some.inj ht').symm
    · intro hmem
      obtain ⟨e', he', hkey⟩ := List.mem_map.mp hmem
      have ht' := (hs.tables e' (List.mem_of_mem_filter he')).1
      rw [hkey, ht.1] at ht'
      exact hout e he hnot e' he' (Option.some.inj ht').symm
  case user =>
    intro _
    exact ⟨h.userHash ▸ hk, (h.userLive u).mpr hs.user⟩
  case count => rw [h.user, if_pos rfl]

theorem eq_createdOf (hnd : l.Nodup) (hd : d.Sublist l) (h : ∀ e ∈ l, e ∈ d ↔ created (sesIndexAt m e) = true) :
    d = createdOf m created l := by
  have hself : d.filter (fun e => created (sesIndexAt m e)) = d :=
    List.filter_eq_self.mpr fun e he => (h e (hd.subset he)).mp he
  have hsub : d.Sublist (createdOf m created l) := hself ▸ hd.filter _
  have hback : createdOf m created l ⊆ d := by
    intro e he
    rw [createdOf, List.mem_filter] at he
    exact (h e he.1).mpr he.2
  exact hsub.eq_of_length_le (List.subperm_of_subset (hnd.filter _) hback).length_le

/-- The sessions tell which elements went. -/
theorem DeletesExactly.eq (hs : UserSessions m u l) (h : DeletesExactly m m' k u l created)
    (hlive : ∀ s, m'.sessions.Live s ↔ m.sessions.Live s ∧ s ∉ d.map (sesIndexAt m)) (hd : d.Sublist l) :
    d = createdOf m created l := by
  apply eq_createdOf hs.list.nodup hd
  intro e he
  have hinj {e' : Nat} (he' : e' ∈ l) (hsame : sesIndexAt m e' = sesIndexAt m e) : e' = e :=
    List.inj_on_of_nodup_map hs.distinct he' he hsame
  have hiff := (hlive (sesIndexAt m e)).symm.trans (h.sessionLive _)
  have hsame : sesIndexAt m e ∈ d.map (sesIndexAt m) ↔ sesIndexAt m e ∈ (createdOf m created l).map (sesIndexAt m) := by
    have hl := (hs.session e he).1
    simp only [hl, true_and] at hiff
    exact not_iff_not.mp hiff
  have hleft : sesIndexAt m e ∈ d.map (sesIndexAt m) ↔ e ∈ d := by
    constructor
    · intro hmem
      obtain ⟨e', he', heq⟩ := List.mem_map.mp hmem
      exact hinj (hd.subset he') heq ▸ he'
    · exact List.mem_map_of_mem
  have hright : sesIndexAt m e ∈ (createdOf m created l).map (sesIndexAt m) ↔ created (sesIndexAt m e) = true := by
    constructor
    · intro hmem
      obtain ⟨e', he', heq⟩ := List.mem_map.mp hmem
      rw [createdOf, List.mem_filter] at he'
      exact heq ▸ he'.2
    · intro hc
      exact List.mem_map_of_mem (List.mem_filter.mpr ⟨he, hc⟩)
  exact hleft.symm.trans (hsame.trans hright)

/-- The first session that has the address or the port of the mapping is the one of the mapping. -/
def FirstTouched (m : SnatMain) (eAddr : Ip4Address) (ePort : BitVec 16) (l : List Nat) (created : Nat → Bool) : Prop :=
  (∀ e, (l.find? fun e => (sessionAt m e).touches eAddr ePort) = some e → created (sesIndexAt m e) = true) ∧
    ∀ e ∈ l, ∀ e' ∈ l, created (sesIndexAt m e) = true → created (sesIndexAt m e') = true → e = e'

/-- No session of the mapping is left where the loop is not entered, no other is there for a mapping of an address, and
none with the address or the port comes first for a mapping of a port. -/
def DeletesRight (m : SnatMain) (hasSessions : Bool) (addrOnly : Bool) (eAddr : Ip4Address) (ePort : BitVec 16)
    (u : Nat)
    (l : List Nat) (created : Nat → Bool) : Prop :=
  if hasSessions = true ∧ (m.users.eltAt u).nstaticsessions ≠ 0 then
    if addrOnly then ∀ e ∈ l, created (sesIndexAt m e) = true else FirstTouched m eAddr ePort l created
  else ∀ e ∈ l, created (sesIndexAt m e) = false

def SnatSession.hasOutside (s : SnatSession) (eAddr : Ip4Address) (ePort : BitVec 16) (proto : SnatProtocol) : Prop :=
  s.out2in.addr = eAddr ∧ s.out2in.port = ePort ∧ s.out2in.protocol = proto

instance (s : SnatSession) (eAddr : Ip4Address) (ePort : BitVec 16) (proto : SnatProtocol) :
    Decidable (s.hasOutside eAddr ePort proto) := inferInstanceAs (Decidable (_ ∧ _ ∧ _))

theorem touches_of_hasOutside {s : SnatSession} (h : s.hasOutside eAddr ePort proto) :
    s.touches eAddr ePort = true := by
  simp [SnatSession.touches, h.1]

theorem createdOf_eq_nil_iff : createdOf m created l = [] ↔ ∀ e ∈ l, created (sesIndexAt m e) = false := by
  simp [createdOf, List.filter_eq_nil_iff]

/-- A mapping of a port deletes its own session. -/
theorem doomed_port_iff (hs : UserSessions m u l)
    (hport : ∀ e ∈ l, created (sesIndexAt m e) = true ↔ (sessionAt m e).hasOutside eAddr ePort proto) :
    doomed m false eAddr ePort l = createdOf m created l ↔ FirstTouched m eAddr ePort l created := by
  rw [doomed, if_neg Bool.false_ne_true]
  cases hfind : l.find? fun e => (sessionAt m e).touches eAddr ePort with
  | none =>
    have hnone : ∀ e ∈ l, created (sesIndexAt m e) = false := by
      intro e he
      rw [← Bool.not_eq_true, hport e he]
      intro hout
      exact List.find?_eq_none.mp hfind e he (touches_of_hasOutside hout)
    apply iff_of_true (createdOf_eq_nil_iff.mpr hnone).symm
    apply And.intro
    · intro e he
      rw [hfind] at he
      cases he
    · intro e he e' _ hc
      exact absurd ((hnone e he).symm.trans hc) Bool.false_ne_true
  | some e₀ =>
    have hmem₀ : e₀ ∈ l := List.mem_of_find?_eq_some hfind
    constructor
    · intro heq
      have hiff {e : Nat} (he : e ∈ l) (hc : created (sesIndexAt m e) = true) : e = e₀ := by
        have hm : e ∈ createdOf m created l := List.mem_filter.mpr ⟨he, hc⟩
        rw [← heq] at hm
        exact List.mem_singleton.mp hm
      have hc₀ : created (sesIndexAt m e₀) = true := by
        have hm : e₀ ∈ createdOf m created l := heq ▸ List.mem_singleton_self e₀
        exact (List.mem_filter.mp hm).2
      apply And.intro
      · intro e he
        rw [hfind] at he
        cases he
        exact hc₀
      · intro e he e' he' hc hc'
        exact (hiff he hc).trans (hiff he' hc').symm
    · intro ⟨hfirst, hone⟩
      have hc₀ := hfirst e₀ hfind
      apply Eq.symm
      apply List.perm_singleton.mp
      apply (List.perm_ext_iff_of_nodup (hs.list.nodup.filter _) (List.nodup_singleton e₀)).mpr
      intro e
      rw [List.mem_filter, List.mem_singleton]
      constructor
      · intro he
        exact hone e he.1 e₀ hmem₀ he.2 hc₀
      · intro he
        rw [he]
        exact ⟨hmem₀, hc₀⟩

theorem DeletesExactly.delUser (h : DeletesExactly m m' k u l created)
    (hall : ∀ e ∈ l, created (sesIndexAt m e) = true) :
    DeletesExactly m (Vpp.Snat.delUser k u m') k u l created := by
  constructor
  case in2out => exact h.in2out
  case out2in => exact h.out2in
  case sessionLive => exact h.sessionLive
  case session => exact h.session
  case list => exact h.list
  case value => exact h.value
  case kept => exact h.kept
  case user =>
    intro ⟨e, he, hnot⟩
    exact absurd ((hall e he).symm.trans hnot) Bool.noConfusion
  case count => exact (Pool.eltAt_put _ _ _).trans h.count

theorem Removed.exactly_iff (hs : UserSessions m u l) (hk : m.userHash k = some u) (h : Removed m m' u l d)
    (hd : d.Sublist l) : DeletesExactly m m' k u l created ↔ d = createdOf m created l := by
  constructor
  · intro hexact
    exact hexact.eq hs h.sessionLive hd
  · exact h.exactly hs hk

theorem delMappingSessions_idle {addrOnly : Bool} (hk : m.userHash k = some u)
    (hidle : ¬ (hasSessions = true ∧ (m.users.eltAt u).nstaticsessions ≠ 0)) :
    (if hasSessions then delMappingSessions m k addrOnly eAddr ePort else some m) = some m := by
  split_ifs with hses
  · have hzero : (m.users.eltAt u).nstaticsessions = 0 := by
      by_contra hne
      exact hidle ⟨hses, hne⟩
    simp only [delMappingSessions, hk, hzero, if_true]
  · rfl

/-- The sessions of a user after the deletion of a mapping. -/
theorem delMappingSessions_exactly_iff (hasSessions : Bool) {addrOnly : Bool} (hs : UserSessions m u l)
    (hk : m.userHash k = some u) (hport : addrOnly = false → ∀ e ∈ l,
      created (sesIndexAt m e) = true ↔ (sessionAt m e).hasOutside eAddr ePort proto) :
    (∃ m', (if hasSessions then delMappingSessions m k addrOnly eAddr ePort else some m) = some m' ∧
      DeletesExactly m m' k u l created) ↔ DeletesRight m hasSessions addrOnly eAddr ePort u l created := by
  rw [DeletesRight]
  by_cases hgo : hasSessions = true ∧ (m.users.eltAt u).nstaticsessions ≠ 0
  · obtain ⟨m', hr, hrun⟩ := delMappingSessions_eq hs hk hgo.2 addrOnly eAddr ePort
    rw [if_pos hgo, if_pos hgo.1, hrun]
    simp only [Option.some_inj, exists_eq_left']
    cases addrOnly with
    | false =>
      rw [if_neg Bool.false_ne_true, if_neg Bool.false_ne_true]
      exact (hr.exactly_iff hs hk (doomed_sublist _ _ _ _ _)).trans (doomed_port_iff hs (hport rfl))
    | true =>
      rw [if_pos rfl, if_pos rfl]
      have hall : l = createdOf m created l ↔ ∀ e ∈ l, created (sesIndexAt m e) = true :=
        eq_comm.trans List.filter_eq_self
      constructor
      · intro h
        exact hall.mp (h.eq hs hr.sessionLive (List.Sublist.refl l))
      · intro h
        exact (hr.exactly hs hk (hall.mpr h)).delUser h
  · rw [if_neg hgo, delMappingSessions_idle hk hgo]
    simp only [Option.some_inj, exists_eq_left']
    rw [(Removed.refl hs).exactly_iff hs hk (List.nil_sublist l), eq_comm, createdOf_eq_nil_iff]

/-- A static mapping that is deleted takes exactly its sessions with it when, of the sessions with its outside
address or its port, its own comes first. -/
theorem snat_del_static_mapping (m : StaticMain) (c : MappingCall) (heAddr : c.externalAddr m = some eAddr)
    (hfound : m.staticMappingByExternal (c.externalKey m eAddr) = some i)
    (hk : m.userHash (m.staticMappings.eltAt i).userKey = some u) (hs : UserSessions m.toSnatMain u l)
    (created : Nat → Bool) (hport : c.addrOnly = false → ∀ e ∈ l, created (sesIndexAt m.toSnatMain e) = true ↔
      (sessionAt m.toSnatMain e).hasOutside eAddr c.ePort c.proto) :
    (∃ m', snatDelStaticMapping m c = some (0, m') ∧
      DeletesExactly m.toSnatMain m'.toSnatMain (m.staticMappings.eltAt i).userKey u l created) ↔
      DeletesRight m.toSnatMain m.hasSessions c.addrOnly eAddr c.ePort u l created := by
  let m₁ := unlinkMapping m c eAddr (m.staticMappings.eltAt i)
  have hs₁ : UserSessions m₁.toSnatMain u l :=
    ⟨hs.user, hs.list, hs.live, hs.head, hs.session, hs.distinct, hs.tables, hs.count⟩
  have hrun : snatDelStaticMapping m c =
      (if m.hasSessions then
        delMappingSessions m₁.toSnatMain (m.staticMappings.eltAt i).userKey c.addrOnly eAddr c.ePort
      else some m₁.toSnatMain).map fun main =>
        (0, { m₁ with toSnatMain := { main with staticMappings := main.staticMappings.put i } }) := by
    simp only [snatDelStaticMapping, heAddr, hfound]
    rfl
  apply Iff.trans _ (delMappingSessions_exactly_iff m.hasSessions hs₁ hk hport)
  rw [hrun]
  constructor
  · intro ⟨m', hmap, h⟩
    obtain ⟨main, hafter, hret⟩ := Option.map_eq_some_iff.mp hmap
    rw [← (Prod.mk.inj hret).2] at h
    exact ⟨main, hafter, h.in2out, h.out2in, h.sessionLive, h.session, h.list, h.value, h.kept, h.user, h.count⟩
  · intro ⟨main, hafter, h⟩
    rw [hafter]
    exact ⟨_, rfl, h.in2out, h.out2in, h.sessionLive, h.session, h.list, h.value, h.kept, h.user, h.count⟩

end

def outsideAddr : Ip4Address := 0xc0a80001

/-- A session of the inside address 10.0.0.1 behind the one outside address. -/
def sessionOn (inPort outPort : BitVec 16) (proto : SnatProtocol) (isStatic : Bool) (e : Nat) : SnatSession :=
  ⟨⟨outsideAddr, outPort, proto, 0⟩, ⟨0x0a000001, inPort, proto, 0⟩, isStatic, e, 0, 0⟩

/-- A dynamic session of UDP before one of the mapping of the port 80 of TCP to 8080. -/
def behindDynamic (first : SnatSession) : StaticMain where
  out2in k := if k = first.out2in then some 0 else if k = ⟨outsideAddr, 8080, .tcp, 0⟩ then some 1 else none
  in2out k := if k = first.in2out then some 0 else if k = ⟨0x0a000001, 80, .tcp, 0⟩ then some 1 else none
  userHash k := if k = ⟨0x0a000001, 0⟩ then some 0 else none
  users := .ofElts [⟨0x0a000001, 0, 0, 1, 1⟩]
  sessions := .ofElts [first, sessionOn 80 8080 .tcp true 2]
  listPool := .ofElts [⟨1, 2, noIndex⟩, ⟨2, 0, 0⟩, ⟨0, 1, 1⟩]
  staticMappingByLocal k := if k = ⟨0x0a000001, 80, .tcp, 0⟩ then some 0 else none
  staticMappings := .ofElts [⟨0x0a000001, outsideAddr, 80, 8080, false, 0, .tcp⟩]
  addresses := [⟨outsideAddr, none32, fun _ => 1, fun _ _ => true⟩]
  maxTranslationsPerUser := 100
  outsideVrfId := 0
  fibIndexByTableId _ := some 0
  vrfMode := false
  staticMappingByExternal k := if k = ⟨outsideAddr, 8080, .tcp, 0⟩ then some 0 else none
  staticMappingOnly := false
  staticMappingConnectionTracking := false
  outsideFibIndex := 0
  interfaceFirstAddress _ := none
  toResolve := []

theorem behindDynamic_sessions (first : SnatSession) (hin : first.in2out ≠ ⟨0x0a000001, 80, .tcp, 0⟩)
    (hout : first.out2in ≠ ⟨outsideAddr, 8080, .tcp, 0⟩) (hdyn : first.isStatic = false) :
    UserSessions (behindDynamic first).toSnatMain 0 [1, 2] := by
  have hcases {e : Nat} (he : e ∈ [1, 2]) : e = 1 ∨ e = 2 := by simpa using he
  constructor
  case user => exact ⟨Nat.zero_lt_one, List.not_mem_nil⟩
  case list =>
    have hnd : [0, 1, 2].Nodup := by decide
    exact .inr ⟨⟨rfl, rfl, rfl, rfl, rfl, rfl⟩, hnd⟩
  case live =>
    intro e he
    cases List.mem_cons.mp he with
    | inl he =>
      rw [he]
      exact ⟨Nat.zero_lt_succ 2, List.not_mem_nil⟩
    | inr he =>
      obtain rfl | rfl := hcases he
      · exact ⟨Nat.lt_of_sub_eq_succ rfl, List.not_mem_nil⟩
      · exact ⟨Nat.lt_of_sub_eq_succ rfl, List.not_mem_nil⟩
  case head => rfl
  case session =>
    intro e he
    have hone : 1 ≠ noIndex := by decide
    obtain rfl | rfl := hcases he
    · exact ⟨⟨Nat.zero_lt_two, List.not_mem_nil⟩, Nat.zero_ne_add_one _⟩
    · exact ⟨⟨Nat.one_lt_two, List.not_mem_nil⟩, hone⟩
  case distinct =>
    have hnd : [0, 1].Nodup := by decide
    exact hnd
  case tables =>
    intro e he
    obtain rfl | rfl := hcases he
    · exact ⟨if_pos rfl, if_pos rfl⟩
    · exact ⟨(if_neg hin.symm).trans (if_pos rfl), (if_neg hout.symm).trans (if_pos rfl)⟩
  case count =>
    have hfirst : (sessionAt (behindDynamic first).toSnatMain 1).isStatic = false := hdyn
    have hsecond : (sessionAt (behindDynamic first).toSnatMain 2).isStatic = true := rfl
    simp only [List.filter_cons, hfirst, hsecond]
    rfl

def mapping8080 : MappingCall := ⟨0x0a000001, outsideAddr, 80, 8080, 0, false, none32, .tcp⟩

def isSession1 (s : Nat) : Bool := s == 1

def otherAddrSession : SnatSession := ⟨⟨0xc0a80002, 2000, .udp, 0⟩, ⟨0x0a000001, 5000, .udp, 0⟩, false, 1, 0, 0⟩

theorem snat_del_static_mapping_other :
    ∃ m', snatDelStaticMapping (behindDynamic otherAddrSession) mapping8080 = some (0, m') ∧
      DeletesExactly (behindDynamic otherAddrSession).toSnatMain m'.toSnatMain ⟨0x0a000001, 0⟩ 0 [1, 2] isSession1 := by
  have hs := behindDynamic_sessions otherAddrSession (by decide) (by decide) rfl
  apply (snat_del_static_mapping (behindDynamic otherAddrSession) mapping8080 rfl rfl rfl hs isSession1 _).mpr
  · rw [DeletesRight, if_pos ⟨rfl, Nat.one_ne_zero⟩,
        if_neg (show ¬ mapping8080.addrOnly = true from Bool.false_ne_true)]
    apply And.intro
    · intro e he
      cases he
      rfl
    · decide
  · intro _
    decide

/-- A dynamic session behind the outside address of the mapping. -/
def sameAddrSession : SnatSession := sessionOn 5000 2000 .udp false 1

theorem snat_del_static_mapping_fails :
    ¬ ∀ (m : StaticMain) (c : MappingCall) (eAddr : Ip4Address) (i u : Nat) (l : List Nat) (created : Nat → Bool),
      c.externalAddr m = some eAddr → m.staticMappingByExternal (c.externalKey m eAddr) = some i →
      m.userHash (m.staticMappings.eltAt i).userKey = some u → UserSessions m.toSnatMain u l →
      (c.addrOnly = false → ∀ e ∈ l, created (sesIndexAt m.toSnatMain e) = true ↔
        (sessionAt m.toSnatMain e).hasOutside eAddr c.ePort c.proto) →
      ∃ m', snatDelStaticMapping m c = some (0, m') ∧
        DeletesExactly m.toSnatMain m'.toSnatMain (m.staticMappings.eltAt i).userKey u l created := by
  intro hall
  have hs := behindDynamic_sessions sameAddrSession (by decide) (by decide) rfl
  obtain ⟨m', hrun, hexact⟩ :=
    hall (behindDynamic sameAddrSession) mapping8080 outsideAddr 0 0 [1, 2] isSession1 rfl rfl rfl hs
        (fun _ => by decide)
  have hgone : (snatDelStaticMapping (behindDynamic sameAddrSession) mapping8080).map
      (fun r => decide (r.2.sessions.Live 0)) = some false := by
    decide
  have hkept : m'.sessions.Live 0 := (hexact.sessionLive 0).mpr ⟨⟨Nat.zero_lt_two, List.not_mem_nil⟩, by decide⟩
  rw [hrun, Option.map_some, Option.some_inj] at hgone
  exact of_decide_eq_false hgone hkept

end Vpp.Snat
