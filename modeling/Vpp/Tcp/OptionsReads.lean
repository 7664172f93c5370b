import Vpp.Lib.Reading
import Vpp.Tcp.Options

namespace Vpp.Tcp
open Vpp.Lib List BitVec

def sizeofTcpHeader : Nat := 20

/-- The header of a segment that lies at address 0. -/
def tcpHeaderAt (seg : Memory) : TcpHeader := ⟨seg 12, seg 13⟩

def sackBlockRead (seg : Memory) (data j : Nat) : Reading SackBlock := do
  let start ← seg.readWord 4 (data + 2 + 4 * j)
  let stop ← seg.readWord 4 (data + 6 + 4 * j)
  pure ⟨start, stop⟩

def tcpOptionRead (seg : Memory) (kind optLen : BitVec 8) (data : Nat) (opt : TcpOptions) : Reading TcpOptions :=
  if kind = tcpOptionMss then
    if optLen.toNat = tcpOptionLenMss ∧ tcpSyn (tcpHeaderAt seg) then do
      let mss ← seg.readWord 2 (data + 2)
      pure { opt.set tcpOptsFlagMss with mss := mss }
    else pure opt
  else if kind = tcpOptionWindowScale then
    if optLen.toNat = tcpOptionLenWindowScale ∧ tcpSyn (tcpHeaderAt seg) then do
      let wscale ← seg.read (data + 2)
      pure { opt.set tcpOptsFlagWscale with
        wscale := if tcpMaxWndScale < wscale then tcpMaxWndScale else wscale }
    else pure opt
  else if kind = tcpOptionTimestamp then
    if optLen.toNat = tcpOptionLenTimestamp then do
      let tsval ← seg.readWord 4 (data + 2)
      let tsecr ← seg.readWord 4 (data + 6)
      pure { opt.set tcpOptsFlagTstamp with tsval := tsval, tsecr := tsecr }
    else pure opt
  else if kind = tcpOptionSackPermitted then
    if optLen.toNat = tcpOptionLenSackPermitted ∧ tcpSyn (tcpHeaderAt seg) then
      pure (opt.set tcpOptsFlagSackPermitted)
    else pure opt
  else if kind = tcpOptionSackBlock then
    if opt.has tcpOptsFlagSackPermitted = false ∨ tcpSyn (tcpHeaderAt seg) then pure opt
    else if optLen.toNat < 10 ∨ (optLen.toNat - 2) % tcpOptionLenSackBlock ≠ 0 then pure opt
    else do
      let nSackBlocks := (optLen.toNat - 2) / tcpOptionLenSackBlock
      let sacks ← Reading.each (sackBlockRead seg data) (List.range nSackBlocks)
      pure { opt.set tcpOptsFlagSack with nSackBlocks := BitVec.ofNat 8 nSackBlocks, sacks := sacks }
  else pure opt

/-- The parsing loop with its reads; no result when `n` rounds are not enough. -/
def tcpOptionsReadLoop (seg : Memory) : Nat → BitVec 8 → Nat → TcpOptions → Reading (Option TcpOptions)
  | 0, _, _, _ => pure none
  | n + 1, optsLen, data, opt =>
    if optsLen = 0 then pure (some opt)
    else do
      let kind ← seg.read data
      if kind = tcpOptionEol then pure (some opt)
      else if kind = tcpOptionNoop then do
        let opt' ← tcpOptionRead seg kind 1 data opt
        tcpOptionsReadLoop seg n (optsLen - 1) (data + 1) opt'
      else if optsLen < 2 then pure (some opt)
      else do
        let optLen ← seg.read (data + 1)
        if optLen < 2 ∨ optsLen < optLen then pure (some opt)
        else do
          let opt' ← tcpOptionRead seg kind optLen data opt
          tcpOptionsReadLoop seg n (optsLen - optLen) (data + optLen.toNat) opt'

def tcpOptsLen (th : TcpHeader) : BitVec 8 := (tcpDoff th <<< 2) - 20

def tcpOptionsRead (n : Nat) (seg : Memory) (opt : TcpOptions) : Reading (Option TcpOptions) :=
  tcpOptionsReadLoop seg n (tcpOptsLen (tcpHeaderAt seg)) sizeofTcpHeader
    { opt with flags := opt.flags &&& tcpOptsKept }

theorem sackBlockRead_within (hj : 8 * (j + 1) + 2 ≤ len) : (sackBlockRead seg data j).Within data (data + len) := by
  have hstart : (seg.readWord 4 (data + 2 + 4 * j)).Within data (data + len) :=
    seg.readWord_within (by omega) (by omega)
  have hstop : (seg.readWord 4 (data + 6 + 4 * j)).Within data (data + len) :=
    seg.readWord_within (by omega) (by omega)
  apply hstart.bind
  intro start
  apply hstop.bind
  intro stop
  exact Reading.within_pure data (data + len) (SackBlock.mk start stop)

/-- Whatever the option says, its case reads inside of the option. -/
theorem tcpOptionRead_within (seg : Memory) (kind optLen : BitVec 8) (data : Nat) (opt : TcpOptions) :
    (tcpOptionRead seg kind optLen data opt).Within data (data + optLen.toNat) := by
  have hpure (opt : TcpOptions) : (pure opt : Reading TcpOptions).Within data (data + optLen.toNat) :=
    Reading.within_pure data _ opt
  unfold tcpOptionRead
  split
  · split
    · next hlen =>
      have hlen := hlen.1
      rw [tcpOptionLenMss] at hlen
      have hread : (seg.readWord 2 (data + 2)).Within data (data + optLen.toNat) :=
        seg.readWord_within (by omega) (by omega)
      exact hread.bind fun mss => hpure _
    · exact hpure opt
  · split
    · split
      · next hlen =>
        have hlen := hlen.1
        rw [tcpOptionLenWindowScale] at hlen
        have hread : (seg.read (data + 2)).Within data (data + optLen.toNat) :=
          seg.read_within.mpr (by omega)
        exact hread.bind fun wscale => hpure _
      · exact hpure opt
    · split
      · split
        · next hlen =>
          rw [tcpOptionLenTimestamp] at hlen
          have htsval : (seg.readWord 4 (data + 2)).Within data (data + optLen.toNat) :=
            seg.readWord_within (by omega) (by omega)
          have htsecr : (seg.readWord 4 (data + 6)).Within data (data + optLen.toNat) :=
            seg.readWord_within (by omega) (by omega)
          exact htsval.bind fun tsval => htsecr.bind fun tsecr => hpure _
        · exact hpure opt
      · split
        · split
          · exact hpure _
          · exact hpure opt
        · split
          · split
            · exact hpure opt
            · split
              · exact hpure opt
              · next hlen =>
                push Not at hlen
                have hsacks : (Reading.each (sackBlockRead seg data)
                    (List.range ((optLen.toNat - 2) / tcpOptionLenSackBlock))).Within data (data + optLen.toNat) := by
                  apply Reading.Within.each
                  intro j hj
                  have hlt := mem_range.mp hj
                  apply sackBlockRead_within
                  rw [tcpOptionLenSackBlock] at hlt
                  omega
                exact hsacks.bind fun sacks => hpure _
          · exact hpure opt

/-- The bytes of the option area decide the result. -/
theorem tcpOptionRead_value (h : seg.Holds p data) (hlen : optLen.toNat ≤ data.length) :
    (tcpOptionRead seg kind optLen p opt).value = tcpOptionParse (tcpHeaderAt seg) kind optLen data opt := by
  have hword (w off : Nat) (hw : off + w ≤ optLen.toNat) : seg.word w (p + off) = netWord w data off :=
    h.netWord (hw.trans hlen)
  unfold tcpOptionRead tcpOptionParse
  split
  · split
    · next hl =>
      have hl := hl.1
      rw [tcpOptionLenMss] at hl
      have hmss := hword 2 2 (by omega)
      simp only [Reading.bind_value, Memory.readWord_value, Reading.pure_value, hmss]
    · rfl
  · split
    · split
      · next hl =>
        have hl := hl.1
        rw [tcpOptionLenWindowScale] at hl
        have hscale : seg (p + 2) = data.getD 2 0 := h.getD (by omega)
        simp only [Reading.bind_value, Memory.read_value, Reading.pure_value, hscale]
      · rfl
    · split
      · split
        · next hl =>
          rw [tcpOptionLenTimestamp] at hl
          have htsval := hword 4 2 (by omega)
          have htsecr := hword 4 6 (by omega)
          simp only [Reading.bind_value, Memory.readWord_value, Reading.pure_value, htsval, htsecr]
        · rfl
      · split
        · split
          · rfl
          · rfl
        · split
          · split
            · rfl
            · split
              · rfl
              · next hl =>
                push Not at hl
                have hsacks : (List.range ((optLen.toNat - 2) / tcpOptionLenSackBlock)).map
                    (fun j => (sackBlockRead seg p j).value) =
                    (List.range ((optLen.toNat - 2) / tcpOptionLenSackBlock)).map (readSackBlock data) := by
                  apply map_congr_left
                  intro j hj
                  have hlt := mem_range.mp hj
                  rw [tcpOptionLenSackBlock] at hlt
                  have hstart := hword 4 (2 + 4 * j) (by omega)
                  have hstop := hword 4 (6 + 4 * j) (by omega)
                  simp only [sackBlockRead, Reading.bind_value, Memory.readWord_value, Reading.pure_value,
                    Nat.add_assoc, readSackBlock, hstart, hstop]
                simp only [Reading.bind_value, Reading.each_value, Reading.pure_value, hsacks]
          · rfl

/-- With the remaining length no longer than what is left, every round reads inside. -/
theorem tcpOptionsReadLoop_within (hlo : lo ≤ data) (hhi : data + optsLen.toNat ≤ hi) :
    (tcpOptionsReadLoop seg n optsLen data opt).Within lo hi := by
  induction n generalizing optsLen data opt with
  | zero => exact Reading.within_pure lo hi none
  | succ n ih =>
    have hend : (pure (some opt) : Reading (Option TcpOptions)).Within lo hi := Reading.within_pure lo hi _
    -- an accepted option lies in the area, and the rest of the area stays behind it
    have hnext {optLen : BitVec 8} (kind : BitVec 8) (hle : optLen ≤ optsLen) :
        (tcpOptionRead seg kind optLen data opt >>= fun opt' =>
          tcpOptionsReadLoop seg n (optsLen - optLen) (data + optLen.toNat) opt').Within lo hi := by
      have hlen := le_def.mp hle
      have hsub := toNat_sub_of_le hle
      have hopt := (tcpOptionRead_within seg kind optLen data opt).mono hlo
        (Nat.le_trans (Nat.add_le_add_left hlen data) hhi)
      apply hopt.bind
      intro opt'
      apply ih
      · omega
      · omega
    rw [tcpOptionsReadLoop]
    split
    · exact hend
    · next hne =>
      have hpos : 0 < optsLen.toNat := toNat_pos_of_ne_zero hne
      have hkind : (seg.read data).Within lo hi := seg.read_within.mpr (by omega)
      apply hkind.bind
      intro kind
      split
      · exact hend
      · split
        · exact hnext kind (show (1 : BitVec 8) ≤ optsLen by bv_omega)
        · split
          · exact hend
          · next h2 =>
            have hlen : (seg.read (data + 1)).Within lo hi := seg.read_within.mpr (by bv_omega)
            apply hlen.bind
            intro optLen
            split
            · exact hend
            · next hl =>
              push Not at hl
              exact hnext kind (BitVec.not_lt.mp hl.2)

theorem tcpOptionsReadLoop_stops (hn : optsLen.toNat < n) :
    (tcpOptionsReadLoop seg n optsLen data opt).value.isSome := by
  induction n generalizing optsLen data opt with
  | zero => exact absurd hn (Nat.not_lt_zero _)
  | succ n ih =>
    rw [tcpOptionsReadLoop]
    split
    · rfl
    · next hne =>
      rw [Reading.bind_value, Memory.read_value]
      split
      · rfl
      · split
        · exact ih (by bv_omega)
        · split
          · rfl
          · rw [Reading.bind_value, Memory.read_value]
            split
            · rfl
            · exact ih (by bv_omega)

theorem tcpOptionsReadLoop_value (h : seg.Holds p data) (hlen : optsLen.toNat ≤ data.length)
    (hn : optsLen.toNat < n) :
    (tcpOptionsReadLoop seg n optsLen p opt).value =
      some (tcpOptionsParseLoop (tcpHeaderAt seg) n optsLen data opt) := by
  induction n generalizing optsLen p data opt with
  | zero => exact absurd hn (Nat.not_lt_zero _)
  | succ n ih =>
    rw [tcpOptionsReadLoop, tcpOptionsParseLoop]
    split
    · rfl
    · next hne =>
      have hpos : 0 < optsLen.toNat := toNat_pos_of_ne_zero hne
      have hkind : seg p = data.getD 0 0 := h.getD (i := 0) (hpos.trans_le hlen)
      have hnext {optLen : BitVec 8} (kind : BitVec 8) (hle : optLen ≤ optsLen) (hpos : 0 < optLen.toNat) :
          (tcpOptionsReadLoop seg n (optsLen - optLen) (p + optLen.toNat)
            (tcpOptionRead seg kind optLen p opt).value).value =
          some (tcpOptionsParseLoop (tcpHeaderAt seg) n (optsLen - optLen) (data.drop optLen.toNat)
            (tcpOptionParse (tcpHeaderAt seg) kind optLen data opt)) := by
        have hsub := toNat_sub_of_le hle
        have hfits := le_def.mp hle
        rw [tcpOptionRead_value h (hfits.trans hlen)]
        apply ih (h.drop optLen.toNat)
        · rw [length_drop]
          omega
        · omega
      rw [Reading.bind_value, Memory.read_value, hkind]
      dsimp only
      split
      · rfl
      · split
        · exact hnext _ (show (1 : BitVec 8) ≤ optsLen by bv_omega) (by decide)
        · split
          · rfl
          · next h2 =>
            have hbyte : seg (p + 1) = data.getD 1 0 := h.getD (by bv_omega)
            rw [Reading.bind_value, Memory.read_value, hbyte]
            split
            · rfl
            · next hl =>
              push Not at hl
              exact hnext _ (BitVec.not_lt.mp hl.2) (by bv_omega)

theorem tcpOptionsRead_stops (seg : Memory) (opt : TcpOptions) :
    (tcpOptionsRead 256 seg opt).value.isSome := by
  apply tcpOptionsReadLoop_stops
  exact (tcpOptsLen (tcpHeaderAt seg)).isLt

theorem tcpOptionsRead_value (h : seg.Holds sizeofTcpHeader data)
    (hlen : (tcpOptsLen (tcpHeaderAt seg)).toNat ≤ data.length) :
    (tcpOptionsRead 256 seg opt).value = some (tcpOptionsParse (tcpHeaderAt seg) data opt) := by
  have hlt : (tcpOptsLen (tcpHeaderAt seg)).toNat < 256 := (tcpOptsLen (tcpHeaderAt seg)).isLt
  rw [tcpOptionsRead, tcpOptionsReadLoop_value h hlen hlt, tcpOptionsParse,
    parseLoop_fuel (tcpHeaderAt seg) hlt.le (le_refl _)]
  rfl

theorem tcpDoff_lt (th : TcpHeader) : (tcpDoff th).toNat < 16 := by
  rw [tcpDoff, toNat_ushiftRight, Nat.shiftRight_eq_div_pow]
  omega

theorem tcpOptsLen_toNat (th : TcpHeader) :
    (tcpOptsLen th).toNat = (4 * (tcpDoff th).toNat + 236) % 256 := by
  have hlt := tcpDoff_lt th
  rw [tcpOptsLen]
  bv_omega

/-- The parse comes to an end and reads option bytes of the header only. -/
def OptionsStay (seg : Memory) (opt : TcpOptions) : Prop :=
  ∃ n, (tcpOptionsRead n seg opt).value.isSome ∧
    (tcpOptionsRead n seg opt).Within sizeofTcpHeader (4 * (tcpDoff (tcpHeaderAt seg)).toNat)

theorem tcpOptionsRead_first (hlen : tcpOptsLen (tcpHeaderAt seg) ≠ 0) (n : Nat) (opt : TcpOptions) :
    sizeofTcpHeader ∈ (tcpOptionsRead (n + 1) seg opt).reads := by
  rw [tcpOptionsRead, tcpOptionsReadLoop, if_neg hlen, Reading.bind_reads]
  exact mem_append_left _ (mem_singleton_self sizeofTcpHeader)

/-- Nothing rejects a data offset below 5: the eight-bit length wraps around and the parser reads beyond the
header, up to 256 bytes. From 5 on it stays inside, whatever the option bytes are. -/
theorem optionsStay_iff (seg : Memory) (opt : TcpOptions) :
    OptionsStay seg opt ↔ 5 ≤ (tcpDoff (tcpHeaderAt seg)).toNat := by
  have hlt := tcpDoff_lt (tcpHeaderAt seg)
  have hlen := tcpOptsLen_toNat (tcpHeaderAt seg)
  constructor
  · rintro ⟨n, hsome, hin⟩
    cases n with
    | zero => cases hsome
    | succ n =>
      by_contra hsmall
      have hne : tcpOptsLen (tcpHeaderAt seg) ≠ 0 := by
        intro h0
        rw [h0] at hlen
        simp at hlen
        omega
      have hbound := hin _ (tcpOptionsRead_first hne n opt)
      rw [sizeofTcpHeader] at hbound
      omega
  · intro hdoff
    refine ⟨256, tcpOptionsRead_stops seg opt, ?_⟩
    apply tcpOptionsReadLoop_within (le_refl _)
    rw [sizeofTcpHeader]
    omega

/-- A segment with the given data offset byte and nothing else but zeros. -/
def zeroSegment (dataOffset : BitVec 8) : Memory := fun i => if i = 12 then dataOffset else 0

def noOptions : TcpOptions := ⟨0, 0, 0, 0, 0, [], 0⟩

theorem optionsStay_fails : ¬ OptionsStay (zeroSegment 0x40) noOptions := by
  rintro ⟨n, hsome, hin⟩
  cases n with
  | zero => cases hsome
  | succ n =>
    have hne : tcpOptsLen (tcpHeaderAt (zeroSegment 0x40)) ≠ 0 := by decide
    have hbound := hin _ (tcpOptionsRead_first hne n noOptions)
    exact absurd hbound (by decide)

end Vpp.Tcp
