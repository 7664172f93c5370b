import Vpp.Bfd.StateChange

namespace Vpp.Bfd
open Vpp.Lib Function List

inductive Side where
  | a
  | b
  deriving DecidableEq, Repr

def Side.other : Side → Side
  | .a => .b
  | .b => .a

@[simp] theorem Side.other_other (x : Side) : x.other.other = x := by cases x <;> rfl

/-- Two sessions and the channel between them. Nothing ever leaves the channel: a packet that has
been sent may arrive at any later time, any number of times, or never. -/
structure Link where
  session : Side → BfdSession
  sent : Side → List BfdPkt
  received : Side → List BfdPkt

inductive Event where
  | deliver (x : Side) (i : Nat) (tick stateTick : Tick)
  | timeout (x : Side) (w : Wakeup)
  | periodic (x : Side) (w : Wakeup)
  | answerPoll (x : Side) (keys : PoolAt BfdAuthKey) (now : BitVec 64)
  | setFlags (x : Side) (adminUpDown : Bool) (tick stateTick : Tick)

def Event.side : Event → Side
  | .deliver x .. => x
  | .timeout x _ => x
  | .periodic x _ => x
  | .answerPoll x .. => x
  | .setFlags x .. => x

def Event.isSetFlags : Event → Bool
  | .setFlags .. => true
  | _ => false

def Link.setSession (s : Link) (x : Side) (bs : BfdSession) : Link :=
  { s with session := update s.session x bs }

def Link.send (s : Link) (x : Side) (pkts : List BfdPkt) : Link :=
  { s with sent := update s.sent x (s.sent x ++ pkts) }

def Link.step (bm : Side → BfdMain) (s : Link) : Event → Link
  | .deliver x i tick stateTick =>
    match (s.sent x.other)[i]? with
    | some pkt =>
      { s.setSession x (bfdConsumePkt (bm x) pkt (s.session x) tick stateTick) with
        received := update s.received x (pkt :: s.received x) }
    | none => s
  | .timeout x w =>
    let r := bfdOnTimeout (bm x) (s.session x) w
    (s.setSession x (bfdSetTimer (bm x) r.2 w.tick.now)).send x r.1.toList
  | .periodic x w =>
    let r := bfdSendPeriodic (bm x) w.keys (s.session x) w.tick w.txBuffer w.tick.now
    (s.setSession x (bfdSetTimer (bm x) r.2 w.tick.now)).send x r.1.toList
  | .answerPoll x keys now =>
    let r := bfdInitFinalControlFrame (bm x) keys (s.session x) now
    (s.setSession x r.2).send x [r.1]
  | .setFlags x adminUpDown tick stateTick =>
    s.setSession x (bfdSessionSetFlags (bm x) (s.session x) adminUpDown tick stateTick)

def Link.run (bm : Side → BfdMain) (start : Side → BfdSession) (events : List Event) : Link :=
  events.foldl (Link.step bm) ⟨start, fun _ => [], fun _ => []⟩

theorem Link.run_concat (bm : Side → BfdMain) (start : Side → BfdSession) (events : List Event)
    (e : Event) : Link.run bm start (events ++ [e]) = (Link.run bm start events).step bm e := by
  simp [Link.run]

theorem Link.step_session_ne (bm : Side → BfdMain) (s : Link) (h : x ≠ e.side) :
    (s.step bm e).session x = s.session x := by
  cases e with
  | deliver y i tick stateTick =>
    simp only [Link.step]
    split
    · exact update_of_ne h _ _
    · rfl
  | timeout y w => exact update_of_ne h _ _
  | periodic y w => exact update_of_ne h _ _
  | answerPoll y keys now => exact update_of_ne h _ _
  | setFlags y up tick stateTick => exact update_of_ne h _ _

/-- Everything one step can do to the state of a session. -/
theorem Link.step_localState (bm : Side → BfdMain) (s : Link) (e : Event) :
    let x := e.side
    let old := (s.session x).localState
    let new := ((s.step bm e).session x).localState
    new = old ∨ (e.isSetFlags = true ∨ old ≠ .adminDown) ∧ (new = .down ∨ new = .adminDown) ∨
      old ≠ .adminDown ∧ ∃ pkt ∈ s.sent x.other, pkt ∈ (s.step bm e).received x ∧
        (new = .init ∨ new = .up ∧ (pkt.state = .init ∨ pkt.state = .up)) := by
  cases e with
  | deliver x i tick stateTick =>
    simp only [Event.side, Link.step]
    split
    · next pkt hi =>
      have hm := mem_of_getElem? hi
      simp only [Link.setSession, update_self]
      rcases bfdConsumePkt_spec (bm x) pkt (s.session x) tick stateTick with h | ⟨ha, h | h⟩
      · exact .inl h
      · exact .inr (.inl ⟨.inr ha, .inl h⟩)
      · exact .inr (.inr ⟨ha, pkt, hm, .head _, h⟩)
    · exact .inl rfl
  | timeout x w =>
    simp only [Event.side, Link.step, Link.send, Link.setSession, update_self,
      bfdSetTimer_localState]
    rcases (bfdOnTimeout_spec (bm x) (s.session x) w).1 with h | ⟨h, ha⟩
    · exact .inl h
    · exact .inr (.inl ⟨.inr ha, .inl h⟩)
  | periodic x w =>
    simp only [Event.side, Link.step, Link.send, Link.setSession, update_self,
      bfdSetTimer_localState]
    exact .inl (bfdSendPeriodic_spec ..).1
  | answerPoll x keys now =>
    simp only [Event.side, Link.step, Link.send, Link.setSession, update_self]
    exact .inl (bfdInitFinalControlFrame_spec ..).1
  | setFlags x up tick stateTick =>
    simp only [Event.side, Link.step, Link.setSession, update_self,
      bfdSessionSetFlags_localState]
    cases up with
    | true => exact .inr (.inl ⟨.inl rfl, .inl rfl⟩)
    | false => exact .inr (.inl ⟨.inl rfl, .inr rfl⟩)

theorem Link.mem_send {s : Link} (h : pkt ∈ (s.send y pkts).sent x) :
    pkt ∈ s.sent x ∨ x = y ∧ pkt ∈ pkts := by
  by_cases he : x = y
  · subst he
    simp only [Link.send, update_self, mem_append] at h
    rcases h with h | h
    · exact .inl h
    · exact .inr ⟨rfl, h⟩
  · simp only [Link.send, update_of_ne he] at h
    exact .inl h

/-- A packet on the channel is old or reports the state its sender is in after the step. -/
theorem Link.step_sent (bm : Side → BfdMain) (s : Link) (e : Event)
    (h : pkt ∈ (s.step bm e).sent x) :
    pkt ∈ s.sent x ∨ pkt.state = ((s.step bm e).session x).localState := by
  cases e with
  | deliver y i tick stateTick =>
    simp only [Link.step] at h
    split at h
    · exact .inl h
    · exact .inl h
  | timeout y w =>
    rcases Link.mem_send h with h | ⟨he, hp⟩
    · exact .inl h
    · subst he
      have hs := (bfdOnTimeout_spec (bm x) (s.session x) w).2 pkt (Option.mem_toList.mp hp)
      simp [Link.step, Link.send, Link.setSession, hs]
  | periodic y w =>
    rcases Link.mem_send h with h | ⟨he, hp⟩
    · exact .inl h
    · subst he
      obtain ⟨hl, hs⟩ := bfdSendPeriodic_spec (bm x) w.keys (s.session x) w.tick w.txBuffer w.tick.now
      simp [Link.step, Link.send, Link.setSession, hs pkt (Option.mem_toList.mp hp), hl]
  | answerPoll y keys now =>
    rcases Link.mem_send h with h | ⟨he, hp⟩
    · exact .inl h
    · subst he
      obtain ⟨hl, hs⟩ := bfdInitFinalControlFrame_spec (bm x) keys (s.session x) now
      rw [mem_singleton.mp hp]
      simp [Link.step, Link.send, Link.setSession, hl, hs]
  | setFlags y up tick stateTick => exact .inl h

theorem Link.step_sent_mono (bm : Side → BfdMain) (s : Link) (e : Event) (x : Side) :
    s.sent x ⊆ (s.step bm e).sent x := by
  have hsend (s : Link) (y : Side) (pkts : List BfdPkt) : s.sent x ⊆ (s.send y pkts).sent x := by
    by_cases he : x = y
    · subst he
      simp [Link.send]
    · simp [Link.send, update_of_ne he]
  cases e with
  | deliver y i tick stateTick =>
    simp only [Link.step]
    split
    · exact List.Subset.refl _
    · exact List.Subset.refl _
  | timeout y w => exact hsend (s.setSession y _) y _
  | periodic y w => exact hsend (s.setSession y _) y _
  | answerPoll y keys now => exact hsend (s.setSession y _) y _
  | setFlags y up tick stateTick => exact List.Subset.refl _

theorem Link.step_received_mono (bm : Side → BfdMain) (s : Link) (e : Event) (x : Side) :
    s.received x ⊆ (s.step bm e).received x := by
  cases e with
  | deliver y i tick stateTick =>
    simp only [Link.step]
    split
    · by_cases he : x = y
      · subst he
        simp
      · simp [update_of_ne he]
    · exact List.Subset.refl _
  | timeout y w => exact List.Subset.refl _
  | periodic y w => exact List.Subset.refl _
  | answerPoll y keys now => exact List.Subset.refl _
  | setFlags y up tick stateTick => exact List.Subset.refl _

def BfdState.Engaged (s : BfdState) : Prop := s = .init ∨ s = .up

instance (s : BfdState) : Decidable s.Engaged := inferInstanceAs (Decidable (_ ∨ _))

/-- The run so far: packets report past states of their sender, a session in Init or Up has heard
from its peer, and one in Up has a peer that was in Init or Up before. -/
structure HandshakeInv (bm : Side → BfdMain) (start : Side → BfdSession) (events : List Event) :
    Prop where
  sent : ∀ x, ∀ pkt ∈ (Link.run bm start events).sent x, ∃ earlier, earlier <+: events ∧
    pkt.state = ((Link.run bm start earlier).session x).localState
  heard : ∀ x, ((Link.run bm start events).session x).localState.Engaged →
    ∃ pkt ∈ (Link.run bm start events).received x, pkt ∈ (Link.run bm start events).sent x.other
  up : ∀ x, ((Link.run bm start events).session x).localState = .up → ∃ earlier,
    earlier <+: events ∧ earlier ≠ events ∧
      ((Link.run bm start earlier).session x.other).localState.Engaged

theorem HandshakeInv.nil (hd : ∀ x, (start x).localState = .down) : HandshakeInv bm start [] := by
  constructor
  case sent =>
    intro x pkt hp
    exact absurd hp not_mem_nil
  case heard =>
    intro x h
    rcases h with h | h
    · exact absurd (h.symm.trans (hd x)) (by decide)
    · exact absurd (h.symm.trans (hd x)) (by decide)
  case up =>
    intro x h
    exact absurd (h.symm.trans (hd x)) (by decide)

theorem HandshakeInv.concat (h : HandshakeInv bm start events) (e : Event) :
    HandshakeInv bm start (events ++ [e]) := by
  have hpre : events <+: events ++ [e] := prefix_append _ _
  have hstrict (earlier : List Event) (hp : earlier <+: events) : earlier ≠ events ++ [e] := by
    intro heq
    have hle := hp.length_le
    rw [heq, length_append, length_singleton] at hle
    omega
  have hstep := Link.step_localState bm (Link.run bm start events) e
  have hsame (x : Side) (hx : x ≠ e.side) :=
    congrArg BfdSession.localState (Link.step_session_ne bm (Link.run bm start events) hx)
  -- what the invariant says of a session whose state the step does not change
  have hheard (x : Side) (hx : ((Link.run bm start events).session x).localState.Engaged) :
      ∃ pkt ∈ (Link.run bm start (events ++ [e])).received x,
        pkt ∈ (Link.run bm start (events ++ [e])).sent x.other := by
    obtain ⟨pkt, hr, hs⟩ := h.heard x hx
    rw [Link.run_concat]
    exact ⟨pkt, Link.step_received_mono bm _ e x hr, Link.step_sent_mono bm _ e _ hs⟩
  have hup (x : Side) (hx : ((Link.run bm start events).session x).localState = .up) :
      ∃ earlier, earlier <+: events ++ [e] ∧ earlier ≠ events ++ [e] ∧
        ((Link.run bm start earlier).session x.other).localState.Engaged := by
    obtain ⟨earlier, hp, _, he⟩ := h.up x hx
    exact ⟨earlier, hp.trans hpre, hstrict earlier hp, he⟩
  constructor
  case sent =>
    intro x pkt hp
    rw [Link.run_concat] at hp
    rcases Link.step_sent bm _ e hp with hold | hnew
    · obtain ⟨earlier, hpre', hst⟩ := h.sent x pkt hold
      exact ⟨earlier, hpre'.trans hpre, hst⟩
    · rw [← Link.run_concat] at hnew
      exact ⟨_, prefix_refl _, hnew⟩
  case heard =>
    intro x hx
    by_cases hs : x = e.side
    · subst hs
      rw [← Link.run_concat] at hstep
      rcases hstep with hold | ⟨_, hdown | hadmin⟩ | ⟨_, pkt, hsent, hrec, _⟩
      · exact hheard _ (hold ▸ hx)
      · exact absurd (hdown ▸ hx) (by decide)
      · exact absurd (hadmin ▸ hx) (by decide)
      · refine ⟨pkt, hrec, ?_⟩
        rw [Link.run_concat]
        exact Link.step_sent_mono bm _ e _ hsent
    · apply hheard
      rw [Link.run_concat, hsame x hs] at hx
      exact hx
  case up =>
    intro x hx
    by_cases hs : x = e.side
    · subst hs
      rw [← Link.run_concat] at hstep
      rcases hstep with hold | ⟨_, hdown | hadmin⟩ | ⟨_, pkt, hsent, _, hinit | ⟨_, hst⟩⟩
      · exact hup _ (hold.symm.trans hx)
      · exact absurd (hdown.symm.trans hx) (by decide)
      · exact absurd (hadmin.symm.trans hx) (by decide)
      · exact absurd (hinit.symm.trans hx) (by decide)
      · -- the packet that brought the session up reports an earlier state of the peer
        obtain ⟨earlier, hp, he⟩ := h.sent _ pkt hsent
        exact ⟨earlier, hp.trans hpre, hstrict earlier hp, he ▸ hst⟩
    · apply hup
      rw [Link.run_concat, hsame x hs] at hx
      exact hx

theorem handshakeInv (hd : ∀ x, (start x).localState = .down) (events : List Event) :
    HandshakeInv bm start events := by
  induction events using List.reverseRecOn with
  | nil => exact .nil hd
  | append_singleton events e ih => exact ih.concat e

/-- A session in Up has a peer that was in Init or Up at an earlier point, where that peer had
received a packet of this side; and a session in AdminDown stays there until its flags are set. -/
theorem bfd_handshake_safety (bm : Side → BfdMain) (start : Side → BfdSession)
    (hd : ∀ x, (start x).localState = .down) (events : List Event) (x : Side) :
    (((Link.run bm start events).session x).localState = .up →
      ∃ earlier later, events = earlier ++ later ∧ later ≠ [] ∧
        (((Link.run bm start earlier).session x.other).localState = .init ∨
          ((Link.run bm start earlier).session x.other).localState = .up) ∧
        ∃ pkt ∈ (Link.run bm start earlier).received x.other,
          pkt ∈ (Link.run bm start earlier).sent x) ∧
    (((Link.run bm start events).session x).localState = .adminDown →
      ∀ e : Event, e.side ≠ x ∨ e.isSetFlags = false →
        ((Link.run bm start (events ++ [e])).session x).localState = .adminDown) := by
  constructor
  · intro hup
    obtain ⟨earlier, ⟨later, he⟩, hne, hen⟩ := (handshakeInv hd events).up x hup
    refine ⟨earlier, later, he.symm, ?_, hen, ?_⟩
    · rintro rfl
      exact hne (by simpa using he)
    · simpa using (handshakeInv hd earlier).heard x.other hen
  · intro hadmin e hflags
    rw [Link.run_concat]
    by_cases hs : x = e.side
    · subst hs
      rcases Link.step_localState bm (Link.run bm start events) e with hold | ⟨hf, _⟩ | ⟨hna, _⟩
      · exact hold.trans hadmin
      · rcases hflags with hne | hff
        · exact absurd rfl hne
        · rcases hf with hf | hna
          · exact absurd (hf.symm.trans hff) (by decide)
          · exact absurd hadmin hna
      · exact absurd hadmin hna
    · rw [Link.step_session_ne bm _ hs]
      exact hadmin

def idleTick : Tick := ⟨0, fun _ _ _ => 0⟩

def idleMain : BfdMain := ⟨0, 1, 1, fun us => us, fun _ => 1, fun _ => false, fun _ _ => []⟩

def freshPair (x : Side) : BfdSession :=
  { bfdSetDefaults idleMain 0 0 default with
    localDiscr := if x = .a then 1 else 2
    remoteDiscr := if x = .a then 2 else 1
    configRequiredMinRxUsec := 1 }

/-- Side `a` reports Down, `b` answers with Init, and `a` comes up. -/
def handshakeEvents : List Event :=
  let w : Wakeup := ⟨.empty, idleTick, idleTick, true, true, true⟩
  [.periodic .a w, .deliver .b 0 idleTick idleTick, .periodic .b w, .deliver .a 0 idleTick idleTick]

theorem bfd_handshake_comes_up :
    ((Link.run (fun _ => idleMain) freshPair handshakeEvents).session .a).localState = .up ∧
      ∃ earlier later, handshakeEvents = earlier ++ later ∧ later ≠ [] ∧
        (((Link.run (fun _ => idleMain) freshPair earlier).session .b).localState = .init ∨
          ((Link.run (fun _ => idleMain) freshPair earlier).session .b).localState = .up) ∧
        ∃ pkt ∈ (Link.run (fun _ => idleMain) freshPair earlier).received .b,
          pkt ∈ (Link.run (fun _ => idleMain) freshPair earlier).sent .a := by
  have hup : ((Link.run (fun _ => idleMain) freshPair handshakeEvents).session .a).localState = .up := by
    decide
  have hd (x : Side) : (freshPair x).localState = .down := rfl
  exact ⟨hup, (bfd_handshake_safety (fun _ => idleMain) freshPair hd handshakeEvents .a).1 hup⟩

end Vpp.Bfd
