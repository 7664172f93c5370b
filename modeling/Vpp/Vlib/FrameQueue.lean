import Mathlib.Data.Int.ModEq

namespace Vpp.Vlib.FrameQueue
open Function

def vlibFrameSize : Nat := 256

def dispatchFrame : BitVec 32 := 0

structure Elt where
  valid : Bool
  msgType : BitVec 32
  nVectors : Nat
  bufferIndex : Nat → BitVec 32

/-- Where the thread is that took a ticket, the new tail. It has filled the element up to `frame`. -/
inductive Sender
  | untaken
  | waiting
  | checking
  | filling (frame : List (BitVec 32))
  | sent (frame : List (BitVec 32))

/-- Where the owner of the queue is in `vlib_frame_queue_dequeue`. -/
inductive Receiver
  | idle
  | top
  | nonempty
  | copying (dst : List (BitVec 32))
  | clearing
  | cleared

/-- A queue with its threads, by their tickets. What went to the node is its history. -/
structure Handoff where
  tail : Nat
  head : Nat
  headHint : Nat
  elts : Nat → Elt
  sender : Nat → Sender
  receiver : Receiver
  vectors : Nat
  processed : Nat
  delivered : List (List (BitVec 32))

def vlibFrameQueueAlloc : Handoff where
  tail := 0
  head := 0
  headHint := 0
  elts _ := ⟨false, 0, 0, fun _ => 0⟩
  sender _ := .untaken
  receiver := .idle
  vectors := 0
  processed := 0
  delivered := []

def slot (k ticket : Nat) : Nat := ticket &&& (2 ^ k - 1)

def Handoff.setSender (s : Handoff) (t : Nat) (pc : Sender) : Handoff :=
  { s with sender := update s.sender t pc }

def Handoff.setElt (s : Handoff) (c : Nat) (e : Elt) : Handoff := { s with elts := update s.elts c e }

def takeTail (s : Handoff) : Handoff := { s with tail := s.tail + 1 }.setSender (s.tail + 1) .waiting

def waitForSlot (k : Nat) (s : Handoff) (newTail : Nat) : Handoff :=
  if s.headHint + 2 ^ k ≤ newTail then s else s.setSender newTail .checking

def waitForInvalid (k : Nat) (s : Handoff) (newTail : Nat) : Handoff :=
  let elt := s.elts (slot k newTail)
  if elt.valid then s
  else (s.setElt (slot k newTail) { elt with msgType := dispatchFrame, nVectors := 0 }).setSender newTail (.filling [])

def toNextWorker (k : Nat) (s : Handoff) (newTail : Nat) (frame : List (BitVec 32)) (bi : BitVec 32) : Handoff :=
  let elt := s.elts (slot k newTail)
  (s.setElt (slot k newTail) { elt with bufferIndex := update elt.bufferIndex frame.length bi }).setSender
    newTail (.filling (frame ++ [bi]))

def vlibPutFrameQueueElt (k : Nat) (s : Handoff) (newTail : Nat) (frame : List (BitVec 32)) : Handoff :=
  (s.setElt (slot k newTail) { s.elts (slot k newTail) with nVectors := frame.length, valid := true }).setSender
    newTail (.sent frame)

def dequeueReturn (s : Handoff) : Handoff := { s with headHint := s.head, receiver := .idle }

def readTail (s : Handoff) : Handoff :=
  if s.head = s.tail then dequeueReturn s else { s with receiver := .nonempty }

def readValid (k : Nat) (s : Handoff) : Handoff :=
  if (s.elts (slot k (s.head + 1))).valid = false then dequeueReturn s else { s with receiver := .copying [] }

/-- The next buffer; behind the last one the frame goes to the node and the element is no longer valid. -/
def copyBuffer (k : Nat) (s : Handoff) (dst : List (BitVec 32)) : Handoff :=
  let elt := s.elts (slot k (s.head + 1))
  if dst.length < elt.nVectors then { s with receiver := .copying (dst ++ [elt.bufferIndex dst.length]) }
  else
    { s.setElt (slot k (s.head + 1)) { elt with valid := false } with
      vectors := s.vectors + elt.nVectors, delivered := s.delivered ++ [dst], receiver := .clearing }

def clearElt (k : Nat) (s : Handoff) : Handoff :=
  let elt := s.elts (slot k (s.head + 1))
  { s.setElt (slot k (s.head + 1)) { elt with nVectors := 0, msgType := 0xfefefefe } with receiver := .cleared }

def advanceHead (threshold : Nat) (s : Handoff) : Handoff :=
  let s := { s with head := s.head + 1, processed := s.processed + 1, receiver := .top }
  if threshold ≤ s.vectors then dequeueReturn s else s

inductive Step (k threshold : Nat) : Handoff → Handoff → Prop
  | takeTail : Step k threshold s (takeTail s)
  | waitForSlot (h : s.sender t = .waiting) : Step k threshold s (waitForSlot k s t)
  | waitForInvalid (h : s.sender t = .checking) : Step k threshold s (waitForInvalid k s t)
  | toNextWorker (bi : BitVec 32) (h : s.sender t = .filling frame) (hroom : frame.length < vlibFrameSize) :
      Step k threshold s (toNextWorker k s t frame bi)
  | put (h : s.sender t = .filling frame) : Step k threshold s (vlibPutFrameQueueElt k s t frame)
  | dequeue (h : s.receiver = .idle) :
      Step k threshold s { s with vectors := 0, processed := 0, receiver := .top }
  | readTail (h : s.receiver = .top) : Step k threshold s (readTail s)
  | readValid (h : s.receiver = .nonempty) : Step k threshold s (readValid k s)
  | copyBuffer (h : s.receiver = .copying dst) : Step k threshold s (copyBuffer k s dst)
  | clearElt (h : s.receiver = .clearing) : Step k threshold s (clearElt k s)
  | advanceHead (h : s.receiver = .cleared) : Step k threshold s (advanceHead threshold s)

variable {k threshold : Nat} {s s' : Handoff}

structure Elt.Filled (e : Elt) (frame : List (BitVec 32)) : Prop where
  msgType : e.msgType = dispatchFrame
  size : frame.length ≤ vlibFrameSize
  buffers : ∀ j (h : j < frame.length), e.bufferIndex j = frame[j]

structure Elt.Ready (e : Elt) (frame : List (BitVec 32)) : Prop extends e.Filled frame where
  valid : e.valid = true
  nVectors : e.nVectors = frame.length

/-- The ticket has its element: its thread may write to it, or its frame is in it. -/
def Handoff.Uses (s : Handoff) (t : Nat) : Prop :=
  match s.sender t with
  | .checking => True
  | .filling _ => True
  | .sent _ => s.delivered.length < t
  | _ => False

def ReceiverOk (s : Handoff) : Prop :=
  match s.receiver with
  | .copying dst => s.delivered.length = s.head ∧ ∃ frame, s.sender (s.head + 1) = .sent frame ∧ dst <+: frame
  | .clearing => s.delivered.length = s.head + 1
  | .cleared => s.delivered.length = s.head + 1
  | _ => s.delivered.length = s.head

structure Inv (k : Nat) (s : Handoff) : Prop where
  hint : s.headHint ≤ s.head
  receiver : ReceiverOk s
  taken : ∀ t, s.sender t ≠ .untaken ↔ 0 < t ∧ t ≤ s.tail
  room : ∀ t, s.Uses t → t < s.headHint + 2 ^ k
  filling : ∀ t frame, s.sender t = .filling frame →
    (s.elts (slot k t)).valid = false ∧ (s.elts (slot k t)).Filled frame
  ring : ∀ t frame, s.sender t = .sent frame → s.delivered.length < t → (s.elts (slot k t)).Ready frame
  valid : ∀ c, (s.elts c).valid = true → ∃ t frame, s.delivered.length < t ∧ slot k t = c ∧ s.sender t = .sent frame
  delivered : ∀ j frame, s.delivered[j]? = some frame → s.sender (j + 1) = .sent frame

theorem inv_alloc : Inv k vlibFrameQueueAlloc where
  hint := Nat.le_refl 0
  receiver := rfl
  taken t := by
    simp only [vlibFrameQueueAlloc]
    grind
  room _ h := h.elim
  filling _ _ h := by cases h
  ring _ _ h := by cases h
  valid _ h := by cases h
  delivered _ _ h := by cases h

theorem slot_inj (ht : n < t) (htn : t < n + 2 ^ k) (hu : n < u) (hun : u < n + 2 ^ k) (h : slot k t = slot k u) :
    t = u := by
  rw [slot, slot, Nat.and_two_pow_sub_one_eq_mod, Nat.and_two_pow_sub_one_eq_mod] at h
  generalize 2 ^ k = m at *
  apply Nat.ModEq.eq_of_abs_lt h
  rw [abs_lt]
  omega

theorem Inv.head_le (h : Inv k s) : s.head ≤ s.delivered.length := by
  have hr := h.receiver
  unfold ReceiverOk at hr
  split at hr <;> omega

theorem uses_of_sent (ht : s.sender t = .sent frame) (hd : s.delivered.length < t) : s.Uses t := by
  simpa only [Handoff.Uses, ht] using hd

theorem Inv.ahead (h : Inv k s) (ht : s.Uses t) : s.delivered.length < t := by
  by_contra hle
  have htaken : s.sender t ≠ .untaken := fun hu => by simp only [Handoff.Uses, hu] at ht
  have hpos := ((h.taken t).1 htaken).1
  have hsent := h.delivered (t - 1) _ (List.getElem?_eq_getElem (by omega))
  rw [Nat.sub_add_cancel hpos] at hsent
  simp only [Handoff.Uses, hsent] at ht
  exact hle ht

theorem Inv.slot_ne (h : Inv k s) (ht : s.Uses t) (hu : s.Uses u) (htu : t ≠ u) : slot k t ≠ slot k u := by
  intro hslot
  have hhead := h.head_le
  have hhint := h.hint
  have hta := h.ahead ht
  have hua := h.ahead hu
  have htr := h.room t ht
  have hur := h.room u hu
  exact htu (slot_inj (n := s.head) (by omega) (by omega) (by omega) (by omega) hslot)

theorem Inv.free (h : Inv k s) (ht : s.Uses t) (hs : ∀ frame, s.sender t ≠ .sent frame) :
    (s.elts (slot k t)).valid = false := by
  cases hv : (s.elts (slot k t)).valid with
  | false => rfl
  | true =>
    obtain ⟨u, frame, hu, hslot, hsent⟩ := h.valid _ hv
    by_cases hut : u = t
    · exact absurd (hut ▸ hsent) (hs frame)
    · exact absurd hslot (h.slot_ne (uses_of_sent hsent hu) ht hut)

theorem Inv.taken_ne (h : Inv k s) (hu : s.Uses u) (hhead : s.head + 1 < u) : slot k u ≠ slot k (s.head + 1) := by
  intro hslot
  have hhint := h.hint
  have hroom := h.room u hu
  have heq := slot_inj (n := s.head) (by omega) (by omega) (by omega) (by omega) hslot
  omega

/-- What a thread changes: what it says of its ticket, and its element. -/
theorem Inv.turn (h : Inv k s) (hold : ∀ frame, s.sender t ≠ .sent frame) (hpc : pc ≠ .untaken)
    (htail : ∀ u, 0 < u ∧ u ≤ tail ↔ u = t ∨ 0 < u ∧ u ≤ s.tail) (hroom : pc ≠ .waiting → t < s.headHint + 2 ^ k)
    (helts : ∀ c, elts c = s.elts c ∨ c = slot k t ∧ s.Uses t ∧ ((elts c).valid = true → ∃ frame, pc = .sent frame))
    (hfill : ∀ frame, pc = .filling frame → (elts (slot k t)).valid = false ∧ (elts (slot k t)).Filled frame)
    (hsent : ∀ frame, pc = .sent frame → s.Uses t ∧ (elts (slot k t)).Ready frame) :
    Inv k { s with tail := tail, elts := elts, sender := update s.sender t pc } := by
  have hkeep : ∀ u frame, s.sender u = .sent frame → update s.sender t pc u = .sent frame := by
    intro u frame hu
    have hut : u ≠ t := fun hut => hold frame (by rw [← hut, hu])
    rw [update_of_ne hut, hu]
  have hother : ∀ u, u ≠ t → s.Uses u → elts (slot k u) = s.elts (slot k u) := by
    intro u hut hu
    cases helts (slot k u) with
    | inl heq => exact heq
    | inr hslot => exact absurd hslot.1 (h.slot_ne hu hslot.2.1 hut)
  apply Inv.mk
  · exact h.hint
  · have hr := h.receiver
    simp only [ReceiverOk] at hr ⊢
    split at hr
    · obtain ⟨hd, frame, hframe, hdst⟩ := hr
      exact ⟨hd, frame, hkeep _ frame hframe, hdst⟩
    all_goals exact hr
  · intro u
    have htaken := h.taken u
    grind [update_apply]
  · intro u hu
    by_cases hut : u = t
    · apply hut ▸ hroom
      rintro rfl
      simp only [Handoff.Uses, hut, update_self] at hu
    · simp only [Handoff.Uses, update_of_ne hut] at hu
      exact h.room u hu
  · intro u frame (hu : update s.sender t pc u = .filling frame)
    by_cases hut : u = t
    · subst hut
      exact hfill frame (by rwa [update_self] at hu)
    · rw [update_of_ne hut] at hu
      simp only [hother u hut (by simp only [Handoff.Uses, hu])]
      exact h.filling u frame hu
  · intro u frame (hu : update s.sender t pc u = .sent frame) hd
    by_cases hut : u = t
    · subst hut
      exact (hsent frame (by rwa [update_self] at hu)).2
    · rw [update_of_ne hut] at hu
      simp only [hother u hut (uses_of_sent hu hd)]
      exact h.ring u frame hu hd
  · intro c hc
    cases helts c with
    | inl heq =>
      obtain ⟨u, frame, hu, huc, hs⟩ := h.valid c (heq ▸ hc)
      exact ⟨u, frame, hu, huc, hkeep u frame hs⟩
    | inr hslot =>
      obtain ⟨frame, hframe⟩ := hslot.2.2 hc
      exact ⟨t, frame, h.ahead hslot.2.1, hslot.1.symm, by simp only [update_self, hframe]⟩
  · exact fun j frame hj => hkeep _ frame (h.delivered j frame hj)

theorem Inv.write (h : Inv k s) (hu : s.Uses t) (hold : ∀ frame, s.sender t ≠ .sent frame) (hpc : pc ≠ .untaken)
    (hv : e.valid = true → ∃ frame, pc = .sent frame)
    (hfill : ∀ frame, pc = .filling frame → e.valid = false ∧ e.Filled frame)
    (hsent : ∀ frame, pc = .sent frame → e.Ready frame) : Inv k ((s.setElt (slot k t) e).setSender t pc) := by
  have htaken := (h.taken t).1 fun ht => by simp only [Handoff.Uses, ht] at hu
  apply h.turn hold hpc (fun u => (by omega : 0 < u ∧ u ≤ s.tail ↔ u = t ∨ 0 < u ∧ u ≤ s.tail)) fun _ => h.room t hu
  · intro c
    by_cases hc : c = slot k t
    · exact .inr ⟨hc, hu, by simpa [Handoff.setElt, hc] using hv⟩
    · exact .inl (update_of_ne hc _ _)
  · simpa [Handoff.setElt] using hfill
  · simpa [Handoff.setElt, hu] using hsent

theorem Inv.receive (h : Inv k s) (hr : ReceiverOk { s with vectors := v, processed := p, receiver := r }) :
    Inv k { s with vectors := v, processed := p, receiver := r } :=
  ⟨h.hint, hr, h.taken, h.room, h.filling, h.ring, h.valid, h.delivered⟩

theorem Inv.dequeueReturn (h : Inv k s) (hd : s.delivered.length = s.head) : Inv k (dequeueReturn s) where
  hint := Nat.le_refl s.head
  receiver := hd
  taken := h.taken
  room t ht := Nat.lt_of_lt_of_le (h.room t ht) (Nat.add_le_add_right h.hint _)
  filling := h.filling
  ring := h.ring
  valid := h.valid
  delivered := h.delivered

theorem Inv.next (h : Inv k s) (hv : (s.elts (slot k (s.head + 1))).valid = true) :
    s.delivered.length = s.head ∧ ∃ frame, s.sender (s.head + 1) = .sent frame := by
  obtain ⟨t, frame, ht, hslot, hsent⟩ := h.valid _ hv
  have hhead := h.head_le
  by_cases htn : s.head + 1 < t
  · exact absurd hslot (h.taken_ne (uses_of_sent hsent ht) htn)
  · have heq : t = s.head + 1 := by omega
    exact ⟨by omega, frame, heq ▸ hsent⟩

/-- What the owner does to the element that it has taken. -/
theorem Inv.clear {delivered : List (List (BitVec 32))} (h : Inv k s) (hlen : delivered.length = s.head + 1)
    (hle : s.delivered.length ≤ delivered.length) (hv : e.valid = false)
    (hdel : ∀ j frame, delivered[j]? = some frame → s.sender (j + 1) = .sent frame)
    (hr : r = .clearing ∨ r = .cleared) :
    Inv k { s.setElt (slot k (s.head + 1)) e with delivered := delivered, vectors := v, receiver := r } := by
  have hhead := h.head_le
  have hnext := hdel s.head _ (List.getElem?_eq_getElem (by omega))
  have hother : ∀ u, s.Uses u → u ≠ s.head + 1 →
      update s.elts (slot k (s.head + 1)) e (slot k u) = s.elts (slot k u) := by
    intro u hu hne
    have hahead := h.ahead hu
    exact update_of_ne (h.taken_ne hu (by omega)) _ _
  apply Inv.mk
  · exact h.hint
  · cases hr with
    | inl hr => subst hr; exact hlen
    | inr hr => subst hr; exact hlen
  · exact h.taken
  · intro u hu
    apply h.room u
    simp only [Handoff.Uses, Handoff.setElt] at hu ⊢
    grind
  · intro u frame (hu : s.sender u = .filling frame)
    have hne : u ≠ s.head + 1 := fun heq => by rw [← heq, hu] at hnext; cases hnext
    simp only [Handoff.setElt, hother u (by simp only [Handoff.Uses, hu]) hne]
    exact h.filling u frame hu
  · intro u frame (hu : s.sender u = .sent frame) (hd : delivered.length < u)
    have hold : s.delivered.length < u := by omega
    simp only [Handoff.setElt, hother u (uses_of_sent hu hold) (by omega)]
    exact h.ring u frame hu hold
  · intro c hc
    by_cases hslot : c = slot k (s.head + 1)
    · simp only [Handoff.setElt, hslot, update_self, hv] at hc
      cases hc
    · simp only [Handoff.setElt, update_of_ne hslot] at hc
      obtain ⟨u, frame, hu, huc, hsent⟩ := h.valid c hc
      have hne : u ≠ s.head + 1 := fun heq => hslot (by rw [← huc, heq])
      exact ⟨u, frame, by simp only [hlen]; omega, huc, hsent⟩
  · exact hdel

theorem Inv.copyBuffer (h : Inv k s) (hc : s.receiver = .copying dst) : Inv k (copyBuffer k s dst) := by
  have hr := h.receiver
  simp only [ReceiverOk, hc] at hr
  obtain ⟨hd, frame, hsent, hdst⟩ := hr
  have hready := h.ring _ frame hsent (by omega)
  simp only [FrameQueue.copyBuffer, hready.nVectors]
  split
  case isTrue hlt =>
    obtain ⟨rest, rfl⟩ := hdst
    cases rest with
    | nil => simp at hlt
    | cons x rest =>
      have hx := hready.buffers dst.length hlt
      rw [List.getElem_append_right (Nat.le_refl _)] at hx
      simp only [Nat.sub_self, List.getElem_cons_zero] at hx
      exact h.receive ⟨hd, _, hsent, rest, by rw [hx, List.append_assoc]; rfl⟩
  case isFalse hlt =>
    have heq := hdst.eq_of_length_le (Nat.le_of_not_lt hlt)
    subst heq
    apply h.clear (by simp [hd]) (by simp) rfl _ (.inl rfl)
    intro j f hj
    have hold := h.delivered j f
    grind

theorem Inv.step (h : Inv k s) (hstep : Step k threshold s s') : Inv k s' := by
  have hr := h.receiver
  cases hstep with
  | takeTail =>
    have htaken := h.taken (s.tail + 1)
    exact h.turn (by grind) (by simp) (by grind) (by simp) (fun _ => .inl rfl) (by simp) (by simp)
  | waitForSlot ht =>
    rename_i t
    have htaken := (h.taken t).1 (by simp [ht])
    simp only [waitForSlot]
    split
    · exact h
    · exact h.turn (by simp [ht]) (by simp) (by omega) (by omega) (fun _ => .inl rfl) (by simp) (by simp)
  | waitForInvalid ht =>
    rename_i t
    have hu : s.Uses t := by simp only [Handoff.Uses, ht]
    have hfree := h.free hu (by simp [ht])
    simp only [waitForInvalid, hfree, Bool.false_eq_true, if_false]
    apply h.write hu (by simp [ht]) (by simp) (by simp) _ (by simp)
    rintro frame ⟨⟩
    exact ⟨rfl, rfl, Nat.zero_le _, fun _ hj => absurd hj (Nat.not_lt_zero _)⟩
  | toNextWorker bi ht hsize =>
    rename_i t frame
    obtain ⟨hfree, hfill⟩ := h.filling t frame ht
    apply h.write (by simp only [Handoff.Uses, ht]) (by simp [ht]) (by simp) (by simp [hfree]) _ (by simp)
    rintro _ ⟨⟩
    refine ⟨hfree, hfill.msgType, by rwa [List.length_append], fun n hn => ?_⟩
    have hold := hfill.buffers n
    grind [update_apply]
  | put ht =>
    rename_i t frame
    have hfill := (h.filling t frame ht).2
    apply h.write (by simp only [Handoff.Uses, ht]) (by simp [ht]) (by simp) (fun _ => ⟨frame, rfl⟩) (by simp)
    rintro _ ⟨⟩
    exact ⟨⟨hfill.msgType, hfill.size, hfill.buffers⟩, rfl, rfl⟩
  | dequeue hq =>
    simp only [ReceiverOk, hq] at hr
    exact h.receive hr
  | readTail hq =>
    simp only [ReceiverOk, hq] at hr
    simp only [readTail]
    split
    · exact h.dequeueReturn hr
    · exact h.receive hr
  | readValid hq =>
    simp only [ReceiverOk, hq] at hr
    simp only [readValid]
    split
    · exact h.dequeueReturn hr
    · rename_i hv
      obtain ⟨frame, hframe⟩ := (h.next (Bool.not_eq_false _ ▸ hv)).2
      exact h.receive ⟨hr, frame, hframe, List.nil_prefix⟩
  | copyBuffer hq => exact h.copyBuffer hq
  | clearElt hq =>
    simp only [ReceiverOk, hq] at hr
    have hfree : (s.elts (slot k (s.head + 1))).valid = false := by
      by_contra hv
      have hlen := (h.next (Bool.not_eq_false _ ▸ hv)).1
      omega
    exact h.clear hr (Nat.le_refl _) hfree h.delivered (.inr rfl)
  | advanceHead hq =>
    simp only [ReceiverOk, hq] at hr
    have hnext : Inv k { s with head := s.head + 1, processed := s.processed + 1, receiver := .top } :=
      ⟨Nat.le_succ_of_le h.hint, hr, h.taken, h.room, h.filling, h.ring, h.valid, h.delivered⟩
    simp only [advanceHead]
    split
    · exact hnext.dequeueReturn hr
    · exact hnext

theorem Inv.run (h : Inv k s) (hrun : Relation.ReflTransGen (Step k threshold) s s') : Inv k s' := by
  induction hrun with
  | refl => exact h
  | tail _ hstep ih => exact ih.step hstep

/-- **Handing frames off**: what goes to the node are the frames that were put, in the order of their tickets and
each once; a frame that has not gone there is in the ring, or its thread is still at it; the element that comes up
is free, and the assertions of the owner hold. -/
theorem handoff_delivers (hrun : Relation.ReflTransGen (Step k threshold) vlibFrameQueueAlloc s) :
    s.delivered.map .sent = (List.range s.delivered.length).map (fun j => s.sender (j + 1)) ∧
    (∀ t, s.delivered.length < t → t ≤ s.tail → s.sender t = .waiting ∨ s.Uses t) ∧
    (∀ t frame, s.sender t = .sent frame → s.delivered.length < t → (s.elts (slot k t)).Ready frame) ∧
    (∀ t, s.Uses t → t < s.head + 2 ^ k ∧ ∀ u, s.Uses u → slot k t = slot k u → t = u) ∧
    (∀ t, s.sender t = .checking → (s.elts (slot k t)).valid = false) ∧
    (∀ dst, s.receiver = .copying dst → (s.elts (slot k (s.head + 1))).msgType = dispatchFrame ∧
      (s.elts (slot k (s.head + 1))).nVectors ≤ vlibFrameSize) := by
  have h := inv_alloc.run hrun
  refine ⟨?_, fun t ht hle => ?_, h.ring, fun t ht => ⟨?_, fun u hu hslot => ?_⟩, fun t ht => ?_, fun dst hc => ?_⟩
  · apply List.ext_getElem (by simp)
    intro j hj _
    simp only [List.length_map] at hj
    simpa using (h.delivered j _ (List.getElem?_eq_getElem hj)).symm
  · have htaken := (h.taken t).2 ⟨by omega, hle⟩
    cases hs : s.sender t with
    | untaken => exact absurd hs htaken
    | waiting => exact .inl rfl
    | checking => simp [Handoff.Uses, hs]
    | filling => simp [Handoff.Uses, hs]
    | sent => exact .inr (uses_of_sent hs ht)
  · exact Nat.lt_of_lt_of_le (h.room t ht) (Nat.add_le_add_right h.hint _)
  · by_contra htu
    exact h.slot_ne ht hu htu hslot
  · exact h.free (by simp only [Handoff.Uses, ht]) (by simp [ht])
  · have hr := h.receiver
    simp only [ReceiverOk, hc] at hr
    obtain ⟨hd, frame, hframe, -⟩ := hr
    have hready := h.ring _ frame hframe (by omega)
    exact ⟨hready.msgType, by rw [hready.nVectors]; exact hready.size⟩

/-- The first ticket after a frame of one buffer was put under it. -/
def firstPut : Handoff :=
  vlibPutFrameQueueElt 1
    (toNextWorker 1 (waitForInvalid 1 (waitForSlot 1 (takeTail vlibFrameQueueAlloc) 1) 1) 1 [] 9) 1 [9]

/-- The owner of the queue has taken that frame out. -/
def firstDelivered : Handoff :=
  copyBuffer 1 (copyBuffer 1
      (readValid 1 (readTail { firstPut with vectors := 0, processed := 0, receiver := .top })) [])
    [9]

theorem firstPut_run : Relation.ReflTransGen (Step 1 128) vlibFrameQueueAlloc firstPut :=
  .tail (.tail (.tail (.tail (.tail .refl .takeTail) (.waitForSlot rfl)) (.waitForInvalid rfl))
    (.toNextWorker 9 rfl (by decide))) (.put rfl)

theorem firstDelivered_run : Relation.ReflTransGen (Step 1 128) vlibFrameQueueAlloc firstDelivered :=
  .tail (.tail (.tail (.tail (.tail firstPut_run (.dequeue rfl)) (.readTail rfl)) (.readValid rfl)) (.copyBuffer rfl))
    (.copyBuffer rfl)

theorem handoff_delivers_first :
    ((firstPut.elts (slot 1 1)).Ready [9]) ∧
      firstDelivered.delivered.length = 1 ∧ [Sender.sent [9]] = [firstDelivered.sender 1] :=
  ⟨(handoff_delivers firstPut_run).2.2.1 1 [9] rfl (by decide), rfl, (handoff_delivers firstDelivered_run).1⟩

end Vpp.Vlib.FrameQueue
