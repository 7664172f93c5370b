import Vpp.Ip.Frag6

namespace Vpp.Ip
open Vpp.Lib Function

def bufferSpace : Nat := 256 + 2048

structure FragPacket where
  bytes : List Byte
  fits : bytes.length ≤ bufferSpace

/-- The index of the buffer to fragment, and the buffers that can be allocated: the next one fails after the last. -/
structure FragPool where
  pi : Nat
  free : List Nat
  nodup : (pi :: free).Nodup

/-- The indices and the lengths of the buffers, without what is in them. -/
structure FragRun where
  free : List Nat
  buffer : List Nat
  allocated : List Nat
  currentLength : Nat → Nat
  ptr : Nat
  rem : Nat

/-- The vector is `buffer`, and the buffer to fragment has its length. -/
def FragPool.start (v : FragPool) (buffer : List Nat) (length rem : Nat) : FragRun :=
  { free := v.free, buffer := buffer, allocated := [], currentLength := update (fun _ => 0) v.pi length, ptr := 0
    rem := rem }

@[simp] theorem FragPool.start_currentLength (v : FragPool) (buffer : List Nat) (length rem : Nat) :
    (v.start buffer length rem).currentLength v.pi = length := by
  simp [FragPool.start]

def cutLen (room max rem : Nat) : Nat := if room < rem then max else rem

/-- The fragment of a turn is in the buffer `bi`. -/
def FragRun.emit (h len bi : Nat) (s : FragRun) : FragRun :=
  { s with
    currentLength := update s.currentLength bi (u16 (h + len))
    ptr := u16 (s.ptr + len)
    rem := u16 (s.rem + 2 ^ 16 - len) }

/-- A turn of both loops. The first one adds `first` to the vector, the others the buffer that they allocate. -/
def FragRun.turn (pi h len : Nat) (first : List Nat) (s : FragRun) : Option FragRun :=
  if s.ptr = 0 then some ({ s with buffer := s.buffer ++ first }.emit h len pi)
  else
    match s.free with
    | [] => none
    | bi :: free =>
      some ({ s with free := free, buffer := s.buffer ++ [bi], allocated := s.allocated ++ [bi] }.emit h len bi)

/-- Nothing when the turns are not enough. -/
def fragRunLoop (pi h room max : Nat) (first : List Nat) : Nat → FragRun → Option (Option IpFragError × FragRun)
  | 0, s => if s.rem = 0 then some (none, s) else none
  | n + 1, s =>
    if s.rem = 0 then some (none, s)
    else
      match s.turn pi h (cutLen room max s.rem) first with
      | none => some (some .memory, s)
      | some s' => fragRunLoop pi h room max first n s'

def ip4Rem (o : Nat) (packet : List Byte) : Nat := u16 (sub64 (ip4Length o packet) 20)

def ip4Malformed (o : Nat) (packet : List Byte) : Prop := ip4Rem o packet < sub64 (sub64 packet.length o) 20

instance (o : Nat) (packet : List Byte) : Decidable (ip4Malformed o packet) := Nat.decLt _ _

def ip4Room (o mtu : Nat) : Nat := sub64 (sub64 mtu 20) o

def ip4FragRun (turns : Nat) (v : FragPool) (o mtu : Nat) (packet : List Byte) :
    Option (Option IpFragError × FragRun) :=
  let start := v.start [v.pi] packet.length (ip4Rem o packet)
  if ip4Malformed o packet then some (some .malformed, start)
  else if mtu < 20 then some (some .cantFragmentHeader, start)
  else if dontFragment o packet then some (some .dontFragmentSet, start)
  else fragRunLoop v.pi (o + 20) (ip4Room o mtu) (u16 (ip4Room o mtu / 8 * 8)) [] turns start

def ip6Malformed (past : Nat → Byte) (o : Nat) (packet : List Byte) : Prop :=
  packet.length ≤ (walkHeaders (readFrom past packet) o).payload

instance (past : Nat → Byte) (o : Nat) (packet : List Byte) : Decidable (ip6Malformed past o packet) := Nat.decLe _ _

/-- The length of the buffer when its fragment header is there. -/
def ip6CurrentLength (past : Nat → Byte) (o : Nat) (packet : List Byte) : Nat :=
  let read := readFrom past packet
  if read (walkHeaders read o).nextHeader = protocolFragmentation then packet.length
  else u16 (packet.length + fragHdrSize)

def ip6HeadersLen (past : Nat → Byte) (o : Nat) (packet : List Byte) : Nat :=
  u16 ((walkHeaders (readFrom past packet) o).payload + fragHdrSize)

def ip6MaxPayload (past : Nat → Byte) (o mtu : Nat) (packet : List Byte) : Nat :=
  u16 (mtu + 2 ^ 16 - ip6HeadersLen past o packet)

def ip6Rem (past : Nat → Byte) (o : Nat) (packet : List Byte) : Nat :=
  u16 (ip6CurrentLength past o packet + 2 ^ 16 - ip6HeadersLen past o packet)

/-- The buffer to fragment is added to the vector with the first fragment. -/
def ip6FragRun (turns : Nat) (v : FragPool) (past : Nat → Byte) (o mtu : Nat) (packet : List Byte) :
    Option (Option IpFragError × FragRun) :=
  let start := v.start [] (ip6CurrentLength past o packet) (ip6Rem past o packet)
  let maxPayload := ip6MaxPayload past o mtu packet
  if ip6Malformed past o packet then some (some .malformed, v.start [] packet.length (ip6Rem past o packet))
  else if maxPayload < 8 then some (some .cantFragmentHeader, start)
  else fragRunLoop v.pi (ip6HeadersLen past o packet) maxPayload (maxPayload / 8 * 8) [v.pi] turns start

@[simp] theorem FragRun.emit_currentLength (h len bi : Nat) (s : FragRun) :
    (s.emit h len bi).currentLength bi = u16 (h + len) := by
  exact update_self bi _ _

theorem FragRun.emit_currentLength_of_ne (hne : bi ≠ bi') (h len : Nat) (s : FragRun) :
    (s.emit h len bi').currentLength bi = s.currentLength bi := by
  exact update_of_ne hne _ _

theorem FragRun.emit_rem (h bi : Nat) (s : FragRun) : (FragRun.emit h s.rem bi s).rem = 0 := by
  rw [FragRun.emit, Nat.add_sub_cancel_left]
  rfl

theorem FragRun.turn_eq_some (ht : FragRun.turn pi h len first s = some s') :
    (s.ptr = 0 ∧ s' = { s with buffer := s.buffer ++ first }.emit h len pi) ∨
    (s.ptr ≠ 0 ∧ ∃ bi free, s.free = bi :: free ∧
      s' = { s with free := free, buffer := s.buffer ++ [bi], allocated := s.allocated ++ [bi] }.emit h len bi) := by
  rw [FragRun.turn] at ht
  by_cases hptr : s.ptr = 0
  · rw [if_pos hptr, Option.some.injEq] at ht
    exact .inl ⟨hptr, ht.symm⟩
  · rw [if_neg hptr] at ht
    cases hfree : s.free with
    | nil =>
      rw [hfree] at ht
      cases ht
    | cons bi free =>
      rw [hfree] at ht
      exact .inr ⟨hptr, bi, free, rfl, (Option.some.inj ht).symm⟩

theorem FragRun.turn_eq_none (ht : FragRun.turn pi h len first s = none) : s.ptr ≠ 0 ∧ s.free = [] := by
  rw [FragRun.turn] at ht
  by_cases hptr : s.ptr = 0
  · rw [if_pos hptr] at ht
    cases ht
  · rw [if_neg hptr] at ht
    cases hfree : s.free with
    | nil => exact ⟨hptr, rfl⟩
    | cons bi free =>
      rw [hfree] at ht
      cases ht

theorem FragRun.turn_ptr (ht : FragRun.turn pi h len first s = some s') : s'.ptr = u16 (s.ptr + len) := by
  obtain ⟨_, rfl⟩ | ⟨_, _, _, _, rfl⟩ := FragRun.turn_eq_some ht
  · rfl
  · rfl

theorem FragRun.turn_rem (ht : FragRun.turn pi h len first s = some s') : s'.rem = u16 (s.rem + 2 ^ 16 - len) := by
  obtain ⟨_, rfl⟩ | ⟨_, _, _, _, rfl⟩ := FragRun.turn_eq_some ht
  · rfl
  · rfl

theorem FragRun.turn_progress (ht : FragRun.turn pi h len first s = some s') (hle : len ≤ s.rem)
    (hsum : s.ptr + s.rem < 2 ^ 16) : s'.ptr = s.ptr + len ∧ s'.rem = s.rem - len := by
  rw [FragRun.turn_ptr ht, FragRun.turn_rem ht, u16, u16]
  omega

variable {max : Nat}

theorem fragRunLoop_done (hrem : s.rem = 0) : fragRunLoop pi h room max first n s = some (none, s) := by
  cases n with
  | zero => exact if_pos hrem
  | succ n => exact if_pos hrem

theorem fragRunLoop_zero (hrem : s.rem ≠ 0) : fragRunLoop pi h room max first 0 s = none := by
  exact if_neg hrem

theorem fragRunLoop_induct {I : FragRun → Prop}
    (hstep : ∀ s s', I s → s.rem ≠ 0 → s.turn pi h (cutLen room max s.rem) first = some s' → I s')
    (hs : I s) (hr : fragRunLoop pi h room max first n s = some r) : I r.2 := by
  induction n generalizing s with
  | zero =>
    rw [fragRunLoop] at hr
    split at hr
    · cases hr
      exact hs
    · cases hr
  | succ n ih =>
    rw [fragRunLoop] at hr
    split at hr
    · cases hr
      exact hs
    · rename_i hrem
      cases ht : s.turn pi h (cutLen room max s.rem) first with
      | none =>
        rw [ht] at hr
        cases hr
        exact hs
      | some s' =>
        rw [ht] at hr
        exact ih (hstep s s' hs hrem ht) hr

/-- The loop ends with nothing left, or when no buffer can be allocated for a fragment after the first. -/
theorem fragRunLoop_end (hr : fragRunLoop pi h room max first n s = some r) :
    (r.1 = none ∧ r.2.rem = 0) ∨ (r.1 = some .memory ∧ r.2.ptr ≠ 0) := by
  induction n generalizing s with
  | zero =>
    rw [fragRunLoop] at hr
    split at hr
    · rename_i hrem
      cases hr
      exact .inl ⟨rfl, hrem⟩
    · cases hr
  | succ n ih =>
    rw [fragRunLoop] at hr
    split at hr
    · rename_i hrem
      cases hr
      exact .inl ⟨rfl, hrem⟩
    · cases ht : s.turn pi h (cutLen room max s.rem) first with
      | none =>
        rw [ht] at hr
        cases hr
        exact .inr ⟨rfl, (FragRun.turn_eq_none ht).1⟩
      | some s' =>
        rw [ht] at hr
        exact ih hr

theorem cutLen_le (hmax : max ≤ room) : cutLen room max rem ≤ rem := by
  rw [cutLen]
  split
  · omega
  · exact Nat.le_refl _

theorem cutLen_pos (hroom : 8 ≤ room) (hrem : rem ≠ 0) : 0 < cutLen room (room / 8 * 8) rem :=
  (cutLen_spec hroom hrem).1

theorem fragRunLoop_ends (hroom : 8 ≤ room) (hsum : s.ptr + s.rem < 2 ^ 16) (hn : s.rem ≤ n) :
    ∃ r, fragRunLoop pi h room (room / 8 * 8) first n s = some r := by
  induction n generalizing s with
  | zero => exact ⟨_, fragRunLoop_done (Nat.le_zero.mp hn)⟩
  | succ n ih =>
    by_cases hrem : s.rem = 0
    · exact ⟨_, fragRunLoop_done hrem⟩
    · rw [fragRunLoop, if_neg hrem]
      cases ht : s.turn pi h (cutLen room (room / 8 * 8) s.rem) first with
      | none => exact ⟨_, rfl⟩
      | some s' =>
        have hpos := cutLen_pos hroom hrem
        have hle : cutLen room (room / 8 * 8) s.rem ≤ s.rem := cutLen_le (Nat.div_mul_le_self room 8)
        obtain ⟨hptr, hrem'⟩ := FragRun.turn_progress ht hle hsum
        apply ih
        · rw [hptr, hrem']
          omega
        · rw [hrem']
          omega

theorem fragRunLoop_stuck (hptr : s.ptr = 0) (hrem : room < s.rem) (hsize : s.rem < 2 ^ 16) (n : Nat) :
    fragRunLoop pi h room 0 [] n s = none := by
  induction n generalizing s with
  | zero => exact if_neg (Nat.ne_of_gt (Nat.zero_lt_of_lt hrem))
  | succ n ih =>
    have hlen : cutLen room 0 s.rem = 0 := if_pos hrem
    have hkeep : u16 (s.rem + 2 ^ 16 - 0) = s.rem := by
      rw [u16]
      omega
    rw [fragRunLoop, if_neg (Nat.ne_of_gt (Nat.zero_lt_of_lt hrem)), hlen, FragRun.turn, if_pos hptr]
    apply ih
    · simp only [FragRun.emit, hptr]
      rfl
    · simpa only [FragRun.emit, hkeep] using hrem
    · simpa only [FragRun.emit, hkeep] using hsize

theorem fragRunLoop_single (hptr : s.ptr = 0) (hrem : s.rem ≠ 0) (hfit : s.rem ≤ room) (n : Nat) :
    fragRunLoop pi h room max first (n + 1) s =
      some (none, { s with buffer := s.buffer ++ first }.emit h s.rem pi) := by
  have hlen : cutLen room max s.rem = s.rem := if_neg (Nat.not_lt.mpr hfit)
  rw [fragRunLoop, if_neg hrem, hlen, FragRun.turn, if_pos hptr]
  exact fragRunLoop_done (FragRun.emit_rem h pi { s with buffer := s.buffer ++ first })

theorem fragRunLoop_last (hptr : s.ptr ≠ 0) (hrem : s.rem ≠ 0) (hfit : s.rem ≤ room) (hfree : s.free = bi :: free)
    (n : Nat) :
    fragRunLoop pi h room max first (n + 1) s =
      some (none, { s with free := free, buffer := s.buffer ++ [bi], allocated := s.allocated ++ [bi] }.emit h s.rem
          bi) := by
  have hlen : cutLen room max s.rem = s.rem := if_neg (Nat.not_lt.mpr hfit)
  rw [fragRunLoop, if_neg hrem, hlen, FragRun.turn, if_neg hptr, hfree]
  exact fragRunLoop_done (FragRun.emit_rem h bi
    { s with free := free, buffer := s.buffer ++ [bi], allocated := s.allocated ++ [bi] })

theorem fragRunLoop_sum (hmax : max ≤ room) (hsum : s.ptr + s.rem < 2 ^ 16)
    (hr : fragRunLoop pi h room max first n s = some r) : r.2.ptr + r.2.rem = s.ptr + s.rem := by
  apply fragRunLoop_induct (I := fun t => t.ptr + t.rem = s.ptr + s.rem) _ rfl hr
  intro t t' hI _ ht
  have hle : cutLen room max t.rem ≤ t.rem := cutLen_le hmax
  obtain ⟨hptr, hrem⟩ := FragRun.turn_progress ht hle (by rw [hI]; exact hsum)
  rw [hptr, hrem]
  omega

theorem fragRunLoop_ptr (hmax : max ≤ room) (hsum : s.ptr + s.rem < 2 ^ 16) (hrem : s.rem ≠ 0)
    (hr : fragRunLoop pi h room max first n s = some r) : r.2.ptr ≠ 0 := by
  have hkeep := fragRunLoop_sum hmax hsum hr
  obtain ⟨_, hdone⟩ | ⟨_, hptr⟩ := fragRunLoop_end hr
  · omega
  · exact hptr

theorem u16_lt (n : Nat) : u16 n < 2 ^ 16 := Nat.mod_lt _ (by decide)

theorem ip4FragRun_loop (hmal : ¬ ip4Malformed o packet) (h20 : ¬ mtu < 20) (hdf : ¬ dontFragment o packet)
    (v : FragPool) (n : Nat) :
    ip4FragRun n v o mtu packet =
      fragRunLoop v.pi (o + 20) (ip4Room o mtu) (u16 (ip4Room o mtu / 8 * 8)) [] n
        (v.start [v.pi] packet.length (ip4Rem o packet)) := by
  rw [ip4FragRun]
  simp only [if_neg hmal, if_neg h20, if_neg hdf]

theorem ip6FragRun_loop (hmal : ¬ ip6Malformed past o packet) (h8 : ¬ ip6MaxPayload past o mtu packet < 8)
    (v : FragPool) (n : Nat) :
    ip6FragRun n v past o mtu packet =
      fragRunLoop v.pi (ip6HeadersLen past o packet) (ip6MaxPayload past o mtu packet)
        (ip6MaxPayload past o mtu packet / 8 * 8) [v.pi] n
        (v.start [] (ip6CurrentLength past o packet) (ip6Rem past o packet)) := by
  rw [ip6FragRun]
  simp only [if_neg hmal, if_neg h8]

end Vpp.Ip
