import Vpp.Lib.SlidingWindow

namespace Vpp.Ipsec
open Vpp.Lib List BitVec

structure IpsecSa where
  useEsn : Bool
  useAntiReplay : Bool
  seqHi : BitVec 32
  lastSeq : BitVec 32
  lastSeqHi : BitVec 32
  replayWindow : BitVec 64
  deriving DecidableEq, Repr

def espWindowSize : BitVec 32 := 64#32

def IpsecSa.windowBit (sa : IpsecSa) (diff : BitVec 32) : Nat :=
  if sa.replayWindow &&& (1#64 <<< diff.toNat) ≠ 0#64 then 1 else 0

def espReplayCheck (sa : IpsecSa) (seq : BitVec 32) : Nat :=
  if sa.lastSeq < seq then 0
  else
    let diff := sa.lastSeq - seq
    if diff < espWindowSize then sa.windowBit diff else 1

/-- Besides the answer, the check leaves the inferred high word in `seqHi`. -/
def espReplayCheckEsn (sa : IpsecSa) (seq : BitVec 32) : IpsecSa × Nat :=
  let tl := sa.lastSeq
  let th := sa.lastSeqHi
  let diff := tl - seq
  if espWindowSize - 1 ≤ tl then
    if tl - espWindowSize + 1 ≤ seq then
      ({ sa with seqHi := th }, if seq ≤ tl then sa.windowBit diff else 0)
    else ({ sa with seqHi := th + 1 }, 0)
  else
    if tl - espWindowSize + 1 ≤ seq then ({ sa with seqHi := th - 1 }, sa.windowBit diff)
    else ({ sa with seqHi := th }, if seq ≤ tl then sa.windowBit diff else 0)

def espReplayAdvance (sa : IpsecSa) (seq : BitVec 32) : IpsecSa :=
  if sa.lastSeq < seq then
    let pos := seq - sa.lastSeq
    { sa with
      replayWindow :=
        if pos < espWindowSize then (sa.replayWindow <<< pos.toNat) ||| 1#64 else 1#64
      lastSeq := seq }
  else
    let pos := sa.lastSeq - seq
    { sa with replayWindow := sa.replayWindow ||| (1#64 <<< pos.toNat) }

def espReplayAdvanceEsn (sa : IpsecSa) (seq : BitVec 32) : IpsecSa :=
  let wrap := (sa.seqHi - sa.lastSeqHi).toInt
  if wrap = 0 ∧ sa.lastSeq < seq then
    let pos := seq - sa.lastSeq
    { sa with
      replayWindow :=
        if pos < espWindowSize then (sa.replayWindow <<< pos.toNat) ||| 1#64 else 1#64
      lastSeq := seq }
  else if 0 < wrap then
    let pos := ~~~seq + sa.lastSeq + 1
    { sa with
      replayWindow :=
        if pos < espWindowSize then (sa.replayWindow <<< pos.toNat) ||| 1#64 else 1#64
      lastSeq := seq
      lastSeqHi := sa.seqHi }
  else if wrap < 0 then
    let pos := ~~~seq + sa.lastSeq + 1
    { sa with replayWindow := sa.replayWindow ||| (1#64 <<< pos.toNat) }
  else
    let pos := sa.lastSeq - seq
    { sa with replayWindow := sa.replayWindow ||| (1#64 <<< pos.toNat) }

structure EspPacket where
  seq : BitVec 32
  icvOk : Bool
  deriving DecidableEq, Repr

inductive EspDecryptResult where
  | replay
  | integError
  | ok
  deriving DecidableEq, Repr

/-- The part of `esp_decrypt_node_fn` between the header and the cipher. -/
def espDecrypt (sa : IpsecSa) (pkt : EspPacket) : IpsecSa × EspDecryptResult :=
  let checked :=
    if sa.useAntiReplay then
      if sa.useEsn then espReplayCheckEsn sa pkt.seq else (sa, espReplayCheck sa pkt.seq)
    else (sa, 0)
  if checked.2 ≠ 0 then (checked.1, .replay)
  else if pkt.icvOk = false then (checked.1, .integError)
  else
    (if sa.useAntiReplay then
      if sa.useEsn then espReplayAdvanceEsn checked.1 pkt.seq
      else espReplayAdvance checked.1 pkt.seq
    else checked.1, .ok)

/-- The 64-bit number with the given high and low words. -/
def esnNumber (hi lo : BitVec 32) : Nat := hi.toNat * 2 ^ 32 + lo.toNat

/-- The number a packet is taken to carry: with extended numbers the inferred high word counts. -/
def espNumber (sa : IpsecSa) (seq : BitVec 32) : Nat :=
  if sa.useEsn then esnNumber sa.seqHi seq else seq.toNat

structure EspRun where
  sa : IpsecSa
  accepted : List Nat
  deriving DecidableEq, Repr

def EspRun.receive (r : EspRun) (pkt : EspPacket) : EspRun :=
  let out := espDecrypt r.sa pkt
  { sa := out.1
    accepted := if out.2 = .ok then espNumber out.1 pkt.seq :: r.accepted else r.accepted }

def freshSa (useEsn : Bool) : IpsecSa :=
  { useEsn := useEsn, useAntiReplay := true, seqHi := 0, lastSeq := 0, lastSeqHi := 0,
    replayWindow := 0 }

def espRun (useEsn : Bool) (pkts : List EspPacket) : EspRun :=
  pkts.foldl EspRun.receive ⟨freshSa useEsn, []⟩

/-- What ties the highest number and the bitmap to the history of accepted numbers. -/
structure ReplayInv (top : Nat) (w : BitVec 64) (accepted : List Nat) : Prop where
  window : WindowOf 64 top w {x | x ∈ accepted}
  top_mem : accepted ≠ [] → top ∈ accepted
  start : accepted = [] → top = 0
  nodup : accepted.Nodup

theorem ReplayInv.fresh : ReplayInv 0 0#64 [] where
  window := by simpa using WindowOf.empty 64 0
  top_mem := fun h => absurd rfl h
  start := fun _ => rfl
  nodup := nodup_nil

theorem ReplayInv.accept (hw : WindowOf 64 top w (insert x {x | x ∈ acc}))
    (hx : x ∉ acc) (ht : top ∈ x :: acc) (hn : acc.Nodup) : ReplayInv top w (x :: acc) where
  window := by simpa [Set.insert_def] using hw
  top_mem := fun _ => ht
  start := fun h => by cases h
  nodup := nodup_cons.mpr ⟨hx, hn⟩

theorem ReplayInv.above (h : ReplayInv top w acc) (hx : top < x) : x ∉ acc := by
  intro hm
  have := h.window.le_top x hm
  omega

theorem ReplayInv.advance (h : ReplayInv top w acc) (hx : top < x) :
    ReplayInv x (if x - top < 64 then (w <<< (x - top)) ||| 1#64 else 1#64) (x :: acc) := by
  split
  · next hd =>
    exact .accept (h.window.slide hx hd) (h.above hx) mem_cons_self h.nodup
  · next hd =>
    exact .accept (h.window.jump (by omega) (by omega)) (h.above hx) mem_cons_self h.nodup

theorem ReplayInv.unseen (h : ReplayInv top w acc) (hx : x ≤ top) (hd : top - x < 64) :
    w &&& (1#64 <<< (top - x)) ≠ 0#64 ↔ x ∈ acc := h.window.mem_iff hx hd

theorem ReplayInv.late (h : ReplayInv top w acc) (hx : x ≤ top) (hd : top - x < 64)
    (hn : x ∉ acc) : ReplayInv top (w ||| (1#64 <<< (top - x))) (x :: acc) := by
  apply ReplayInv.accept (h.window.mark hx hd) hn ?_ h.nodup
  by_cases ha : acc = []
  · have := h.start ha
    have he : x = top := by omega
    rw [he]
    exact mem_cons_self
  · exact mem_cons_of_mem _ (h.top_mem ha)

theorem windowBit_ne_zero (sa : IpsecSa) (diff : BitVec 32) :
    sa.windowBit diff ≠ 0 ↔ sa.replayWindow &&& (1#64 <<< diff.toNat) ≠ 0#64 := by
  unfold IpsecSa.windowBit
  split <;> simp_all

theorem sub_lt_windowSize {a b : BitVec 32} (h : b ≤ a) :
    a - b < espWindowSize ↔ a.toNat - b.toNat < 64 := by
  rw [lt_def, toNat_sub_of_le h]
  rfl

/-- The check lets through the numbers above the highest accepted one and those of the window
that were not accepted. -/
theorem espReplayCheck_eq_zero (h : ReplayInv sa.lastSeq.toNat sa.replayWindow acc) :
    espReplayCheck sa seq = 0 ↔ sa.lastSeq.toNat < seq.toNat ∨
      seq.toNat ≤ sa.lastSeq.toNat ∧ sa.lastSeq.toNat - seq.toNat < 64 ∧ seq.toNat ∉ acc := by
  unfold espReplayCheck
  by_cases hlt : sa.lastSeq < seq
  · simp only [hlt, ↓reduceIte, true_iff]
    exact .inl hlt
  · have hle : seq ≤ sa.lastSeq := BitVec.not_lt.mp hlt
    have hle' : seq.toNat ≤ sa.lastSeq.toNat := hle
    simp only [hlt, ↓reduceIte, sub_lt_windowSize hle]
    split
    · next hd =>
      have hb := windowBit_ne_zero sa (sa.lastSeq - seq)
      rw [toNat_sub_of_le hle, h.unseen hle' hd] at hb
      constructor
      · intro hz
        exact .inr ⟨hle', hd, fun hm => hb.mpr hm hz⟩
      · rintro (hn | ⟨_, _, hm⟩)
        · omega
        · exact Decidable.not_not.mp (fun hz => hm (hb.mp hz))
    · next hd =>
      constructor
      · intro hz
        cases hz
      · rintro (hn | ⟨_, hn, _⟩) <;> omega

theorem espReplayAdvance_inv (h : ReplayInv sa.lastSeq.toNat sa.replayWindow acc)
    (hc : espReplayCheck sa seq = 0) :
    ReplayInv (espReplayAdvance sa seq).lastSeq.toNat (espReplayAdvance sa seq).replayWindow
      (seq.toNat :: acc) := by
  unfold espReplayAdvance
  rcases (espReplayCheck_eq_zero h).mp hc with hlt | ⟨hle, hd, hm⟩
  · have hlt' : sa.lastSeq < seq := hlt
    have hle : sa.lastSeq ≤ seq := BitVec.le_of_lt hlt'
    simp only [hlt', ↓reduceIte, sub_lt_windowSize hle, toNat_sub_of_le hle]
    exact h.advance hlt
  · have hle' : seq ≤ sa.lastSeq := hle
    simp only [BitVec.not_lt.mpr hle', ↓reduceIte, toNat_sub_of_le hle']
    exact h.late hle hd hm

theorem espReplayAdvance_flags (sa : IpsecSa) (seq : BitVec 32) :
    (espReplayAdvance sa seq).useEsn = sa.useEsn ∧
      (espReplayAdvance sa seq).useAntiReplay = sa.useAntiReplay := by
  unfold espReplayAdvance
  split <;> exact ⟨rfl, rfl⟩

structure EspRun.PlainInv (r : EspRun) : Prop where
  plain : r.sa.useEsn = false
  active : r.sa.useAntiReplay = true
  inv : ReplayInv r.sa.lastSeq.toNat r.sa.replayWindow r.accepted

theorem EspRun.PlainInv.receive (h : EspRun.PlainInv r) (pkt : EspPacket) :
    EspRun.PlainInv (r.receive pkt) := by
  have hf := espReplayAdvance_flags r.sa pkt.seq
  unfold EspRun.receive espDecrypt
  simp only [h.plain, h.active, ↓reduceIte, Bool.false_eq_true]
  by_cases hc : espReplayCheck r.sa pkt.seq = 0
  · cases hi : pkt.icvOk with
    | false => simpa [hc, hi] using h
    | true =>
      simp only [hc, ne_eq, not_true_eq_false, Bool.true_eq_false, ↓reduceIte]
      refine ⟨hf.1.trans h.plain, hf.2.trans h.active, ?_⟩
      simpa only [espNumber, hf.1, h.plain, Bool.false_eq_true, ↓reduceIte] using
        espReplayAdvance_inv h.inv hc
  · simpa [hc] using h

theorem EspRun.PlainInv.replay_iff (h : EspRun.PlainInv r) (pkt : EspPacket) :
    (espDecrypt r.sa pkt).2 = .replay ↔ espReplayCheck r.sa pkt.seq ≠ 0 := by
  unfold espDecrypt
  simp only [h.plain, h.active, ↓reduceIte, Bool.false_eq_true]
  by_cases hc : espReplayCheck r.sa pkt.seq = 0
  · cases pkt.icvOk <;> simp [hc]
  · simp [hc]

theorem EspRun.PlainInv.foldl (h : EspRun.PlainInv r) (pkts : List EspPacket) :
    EspRun.PlainInv (pkts.foldl EspRun.receive r) := by
  induction pkts generalizing r with
  | nil => exact h
  | cons pkt pkts ih => exact ih (h.receive pkt)

theorem espRun_plainInv (pkts : List EspPacket) : EspRun.PlainInv (espRun false pkts) :=
  EspRun.PlainInv.foldl (r := ⟨freshSa false, []⟩) ⟨rfl, rfl, ReplayInv.fresh⟩ pkts

/-- Without extended numbers no sequence number is accepted twice, the decryption turns away what the check does, and
the check turns a new number away only when it lies at least a window below the highest accepted one. -/
theorem esp_replay_exact (pkts : List EspPacket) :
    (espRun false pkts).accepted.Nodup ∧
      (∀ pkt : EspPacket, (espDecrypt (espRun false pkts).sa pkt).2 = .replay ↔
        espReplayCheck (espRun false pkts).sa pkt.seq ≠ 0) ∧
      ∀ seq : BitVec 32, espReplayCheck (espRun false pkts).sa seq ≠ 0 →
        seq.toNat ∉ (espRun false pkts).accepted →
          ∃ top ∈ (espRun false pkts).accepted,
            (∀ x ∈ (espRun false pkts).accepted, x ≤ top) ∧ seq.toNat + 64 ≤ top := by
  have h := espRun_plainInv pkts
  refine ⟨h.inv.nodup, h.replay_iff, ?_⟩
  intro seq hc hn
  have hz : ¬ _ := mt (espReplayCheck_eq_zero h.inv).mpr hc
  push Not at hz
  obtain ⟨hle, hd⟩ := hz
  have hfar : 64 ≤ (espRun false pkts).sa.lastSeq.toNat - seq.toNat := by
    by_contra hlt
    exact hn (hd hle (by omega))
  refine ⟨_, h.inv.top_mem ?_, fun x hx => h.inv.window.le_top x hx, by omega⟩
  intro he
  have := h.inv.start he
  omega

end Vpp.Ipsec
