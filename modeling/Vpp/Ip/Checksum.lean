import Vpp.Lib.OnesComplement

namespace Vpp.Ip
open Vpp.Lib

abbrev Byte := BitVec 8

abbrev IpCsum := BitVec 64

def ipCsumWithCarry (sum x : IpCsum) : IpCsum :=
  let t := sum + x
  t + if t < x then 1 else 0

def ipCsumAddEven (c x : IpCsum) : IpCsum :=
  let d := c - x
  d - if c < d then 1 else 0

def ipCsumSubEven (c x : IpCsum) : IpCsum := ipCsumWithCarry c x

def ipCsumUpdateInline (sum old new : IpCsum) (fieldByteOffset fieldNBytes : Nat) : IpCsum :=
  let shift := fieldNBytes % 2 ≠ 0 ∧ fieldByteOffset % 2 = 1
  let old := if shift then old <<< 8 else old
  let new := if shift then new <<< 8 else new
  ipCsumAddEven (ipCsumSubEven sum old) new

def ipCsumFold (c : IpCsum) : BitVec 16 :=
  let c := (c &&& 0xffffffff#64) + (c >>> 32)
  let c := (c &&& 0xffff#64) + (c >>> 16)
  let c := (c &&& 0xffff#64) + (c >>> 16)
  let c := (c &&& 0xffff#64) + (c >>> 16)
  c.setWidth 16

structure Summing where
  sum0 : IpCsum
  sum1 : IpCsum
  data : Nat
  bytes : List Byte

def load (n : Nat) (bytes : List Byte) : IpCsum := BitVec.ofNat 64 (leValue (bytes.take n))

def Summing.align (n : Nat) (s : Summing) : Summing :=
  if n ≤ s.bytes.length ∧ s.data % (2 * n) ≠ 0 then
    { s with sum0 := s.sum0 + load n s.bytes, data := s.data + n, bytes := s.bytes.drop n }
  else s

def Summing.pairs : Nat → Summing → Summing
  | 0, s => s
  | n + 1, s =>
    Summing.pairs n { sum0 := ipCsumWithCarry s.sum0 (load 8 s.bytes),
                      sum1 := ipCsumWithCarry s.sum1 (load 8 (s.bytes.drop 8)),
                      data := s.data + 16, bytes := s.bytes.drop 16 }

def Summing.tail (n : Nat) (s : Summing) : Summing :=
  if n ≤ s.bytes.length then
    { s with sum0 := ipCsumWithCarry s.sum0 (load n s.bytes), data := s.data + n, bytes := s.bytes.drop n }
  else s

def ipIncrementalChecksum (sum : IpCsum) (data : Nat) (bytes : List Byte) : IpCsum :=
  let s := (((⟨0, sum, data, bytes⟩ : Summing).align 1).align 2).align 4
  let s := s.pairs (s.bytes.length / 16)
  let s := (((s.tail 8).tail 4).tail 2).tail 1
  ipCsumWithCarry s.sum0 s.sum1

/-- The bytes of a header, where its address and the offsets of its fields are as in memory. -/
abbrev Ip4Header := List Byte

def checksumOffset : Nat := 10

def ttlOffset : Nat := 8

def ip4HeaderBytes (i : Ip4Header) : Nat := 4 * (i.headD 0 &&& 0xf).toNat

def checksum (i : Ip4Header) : BitVec 16 := BitVec.ofNat 16 (leValue ((i.drop checksumOffset).take 2))

def setChecksum (i : Ip4Header) (c : BitVec 16) : Ip4Header := splice i checksumOffset (leBytes 2 c.toNat)

def ip4HeaderChecksum (data : Nat) (i : Ip4Header) : BitVec 16 :=
  let save := checksum i
  let sum := ipIncrementalChecksum 0 data ((setChecksum i 0).take (ip4HeaderBytes i))
  let csum := ~~~ipCsumFold sum
  if csum = 0 ∧ save = 0xffff then save else csum

def ip4HeaderChecksumIsValid (data : Nat) (i : Ip4Header) : Prop := checksum i = ip4HeaderChecksum data i

instance : Decidable (ip4HeaderChecksumIsValid data i) := inferInstanceAs (Decidable (_ = _))

structure FieldChange where
  offset : Nat
  bytes : List Byte

def FieldChange.apply (f : FieldChange) (i : Ip4Header) : Ip4Header := splice i f.offset f.bytes

def FieldChange.old (f : FieldChange) (i : Ip4Header) : IpCsum := load f.bytes.length (i.drop f.offset)

def ipCsumUpdate (sum : IpCsum) (i : Ip4Header) (f : FieldChange) : IpCsum :=
  ipCsumUpdateInline sum (f.old i) (load f.bytes.length f.bytes) f.offset f.bytes.length

def changeFields (i : Ip4Header) (sum : IpCsum) (fs : List FieldChange) : Ip4Header × IpCsum :=
  fs.foldl (fun s f => (f.apply s.1, ipCsumUpdate s.2 s.1 f)) (i, sum)

/-- Change fields, then store the sum that was kept up to date. -/
def updateHeader (i : Ip4Header) (fs : List FieldChange) : Ip4Header :=
  let s := changeFields i ((checksum i).setWidth 64) fs
  setChecksum s.1 (ipCsumFold s.2)

def ttl (i : Ip4Header) : Byte := i.getD ttlOffset 0

def ttlChecksum (c : BitVec 16) : BitVec 16 :=
  let checksum0 : BitVec 32 := c.setWidth 32 + 0x0001
  let checksum0 := checksum0 + if 0xffff ≤ checksum0 then 1 else 0
  checksum0.setWidth 16

/-- What the rewrite node does to the header of a packet that it forwards. -/
def decrementTtl (i : Ip4Header) : Ip4Header :=
  (setChecksum i (ttlChecksum (checksum i))).set ttlOffset (ttl i - 1)

abbrev Z := ZMod 65535

theorem two_pow_word : (2 ^ 64 : Z) = 1 := by
  decide

theorem two_bytes : (256 * 256 : Z) = 1 := by
  decide

theorem cast_withCarry (sum x : IpCsum) : ((ipCsumWithCarry sum x).toNat : Z) = sum.toNat + x.toNat :=
  cast_carryAdd two_pow_word sum x (by decide)

theorem withCarry_eq_zero : ipCsumWithCarry sum x = 0 ↔ sum = 0 ∧ x = 0 :=
  carryAdd_eq_zero sum x (by decide)

theorem cast_addEven (c x : IpCsum) : ((ipCsumAddEven c x).toNat : Z) = c.toNat - x.toNat :=
  cast_borrowSub two_pow_word c x (by decide)

def foldStep (n c : Nat) : Nat := c % 2 ^ n + c / 2 ^ n

theorem foldStep_eq_zero : foldStep n c = 0 ↔ c = 0 := by
  rw [foldStep]
  constructor
  · intro h
    have hm := Nat.mod_add_div c (2 ^ n)
    obtain ⟨h1, h2⟩ := Nat.add_eq_zero_iff.mp h
    rw [h1, h2, Nat.mul_zero] at hm
    exact hm.symm
  · intro h
    rw [h, Nat.zero_mod, Nat.zero_div]

theorem cast_foldStep (hn : (2 ^ n : Z) = 1) (c : Nat) : (foldStep n c : Z) = c := by
  have hm := congrArg (Nat.cast (R := Z)) (Nat.mod_add_div c (2 ^ n))
  push_cast at hm
  rw [hn] at hm
  rw [foldStep]
  push_cast
  linear_combination hm

theorem toNat_ipCsumFold (c : IpCsum) :
    (ipCsumFold c).toNat = foldStep 16 (foldStep 16 (foldStep 16 (foldStep 32 c.toNat))) := by
  have hc := c.isLt
  have hmask : ∀ (x : IpCsum), (x &&& 0xffff#64).toNat = x.toNat % 2 ^ 16 := by
    intro x
    exact Nat.and_two_pow_sub_one_eq_mod x.toNat 16
  have hmask' : (c &&& 0xffffffff#64).toNat = c.toNat % 2 ^ 32 := Nat.and_two_pow_sub_one_eq_mod c.toNat 32
  have hstep : ∀ x : IpCsum, x.toNat < 2 ^ 34 → ((x &&& 0xffff#64) + (x >>> 16)).toNat = foldStep 16 x.toNat := by
    intro x hx
    rw [BitVec.toNat_add, hmask, BitVec.toNat_ushiftRight, Nat.shiftRight_eq_div_pow, foldStep, Nat.mod_eq_of_lt]
    omega
  have hfirst : ((c &&& 0xffffffff#64) + (c >>> 32)).toNat = foldStep 32 c.toNat := by
    rw [BitVec.toNat_add, hmask', BitVec.toNat_ushiftRight, Nat.shiftRight_eq_div_pow, foldStep, Nat.mod_eq_of_lt]
    omega
  have h1 : foldStep 32 c.toNat < 2 ^ 33 := by
    rw [foldStep]
    omega
  have h2 : foldStep 16 (foldStep 32 c.toNat) < 2 ^ 18 := by
    generalize foldStep 32 c.toNat = a at h1
    rw [foldStep]
    omega
  have h3 : foldStep 16 (foldStep 16 (foldStep 32 c.toNat)) < 2 ^ 16 + 4 := by
    generalize foldStep 16 (foldStep 32 c.toNat) = a at h2
    rw [foldStep]
    omega
  have h4 : foldStep 16 (foldStep 16 (foldStep 16 (foldStep 32 c.toNat))) < 2 ^ 16 := by
    generalize foldStep 16 (foldStep 16 (foldStep 32 c.toNat)) = a at h3
    rw [foldStep]
    omega
  simp only [ipCsumFold]
  rw [BitVec.toNat_setWidth, hstep, hstep, hstep, hfirst, Nat.mod_eq_of_lt h4]
  · rw [hfirst]
    omega
  · rw [hstep, hfirst]
    · omega
    · rw [hfirst]
      omega
  · rw [hstep, hstep, hfirst]
    · omega
    · rw [hfirst]
      omega
    · rw [hstep, hfirst]
      · omega
      · rw [hfirst]
        omega

theorem cast_ipCsumFold (c : IpCsum) : ((ipCsumFold c).toNat : Z) = c.toNat := by
  have h16 : (2 ^ 16 : Z) = 1 := by decide
  have h32 : (2 ^ 32 : Z) = 1 := by decide
  rw [toNat_ipCsumFold, cast_foldStep h16, cast_foldStep h16, cast_foldStep h16, cast_foldStep h32]

theorem word_eq_zero_iff {w : Nat} (x : BitVec w) : x = 0 ↔ x.toNat = 0 := by
  rw [← BitVec.toNat_inj]
  simp

theorem ipCsumFold_eq_zero : ipCsumFold c = 0 ↔ c = 0 := by
  rw [word_eq_zero_iff, toNat_ipCsumFold, foldStep_eq_zero, foldStep_eq_zero, foldStep_eq_zero, foldStep_eq_zero,
    ← word_eq_zero_iff]

theorem toNat_load (h : n ≤ 8) (bytes : List Byte) : (load n bytes).toNat = leValue (bytes.take n) := by
  have hlt := leValue_lt (bytes.take n)
  have hle : (256 : Nat) ^ (bytes.take n).length ≤ 256 ^ 8 :=
    Nat.pow_le_pow_right (by decide) ((List.length_take_le n bytes).trans h)
  rw [load, BitVec.toNat_ofNat, Nat.mod_eq_of_lt (by omega)]

def Summing.total (s : Summing) : Z := s.sum0.toNat + s.sum1.toNat + leValue s.bytes

def Summing.IsZero (s : Summing) : Prop := s.sum0 = 0 ∧ s.sum1 = 0 ∧ leValue s.bytes = 0

/-- The steps of the sum keep what is summed up and what is left together, and whether all of it is zero. -/
structure Keeps (s s' : Summing) : Prop where
  total : s'.total = s.total
  zero : s'.IsZero ↔ s.IsZero

theorem Keeps.refl (s : Summing) : Keeps s s := ⟨rfl, Iff.rfl⟩

theorem Keeps.trans (h : Keeps s s') (h' : Keeps s' s'') : Keeps s s'' :=
  ⟨h'.total.trans h.total, h'.zero.trans h.zero⟩

theorem cast_take_drop (he : n % 2 = 0) (hn : n ≤ bytes.length) :
    (leValue bytes : Z) = leValue (bytes.take n) + leValue (bytes.drop n) := by
  have hlen : (bytes.take n).length % 2 = 0 := by rwa [List.length_take, Nat.min_eq_left hn]
  have h := cast_leValue_append two_bytes hlen (bytes.drop n)
  rwa [List.take_append_drop] at h

theorem take_drop_eq_zero (n : Nat) (bytes : List Byte) :
    leValue bytes = 0 ↔ leValue (bytes.take n) = 0 ∧ leValue (bytes.drop n) = 0 := by
  rw [← leValue_append_eq_zero, List.take_append_drop]

theorem load_eq_zero (h : n ≤ 8) : load n bytes = 0 ↔ leValue (bytes.take n) = 0 := by
  rw [word_eq_zero_iff, toNat_load h]

theorem keeps_align (he : n % 2 = 0) (h4 : n ≤ 4) (hs : s.sum0.toNat < 2 ^ 32) : Keeps s (s.align n) := by
  rw [Summing.align]
  split
  · rename_i hcond
    have hload := toNat_load (Nat.le_trans h4 (by decide)) s.bytes
    have hlt := leValue_lt (s.bytes.take n)
    have hpow : (256 : Nat) ^ (s.bytes.take n).length ≤ 256 ^ 4 :=
      Nat.pow_le_pow_right (by decide) ((List.length_take_le n s.bytes).trans h4)
    have hsum : (s.sum0 + load n s.bytes).toNat = s.sum0.toNat + leValue (s.bytes.take n) := by
      rw [BitVec.toNat_add, hload, Nat.mod_eq_of_lt (by omega)]
    constructor
    · simp only [Summing.total]
      rw [hsum, cast_take_drop he hcond.1]
      push_cast
      ring
    · simp only [Summing.IsZero]
      rw [take_drop_eq_zero n s.bytes, word_eq_zero_iff, hsum, Nat.add_eq_zero_iff, ← word_eq_zero_iff]
      tauto
  · exact Keeps.refl s

theorem keeps_tail (he : n % 2 = 0) (h8 : n ≤ 8) (s : Summing) : Keeps s (s.tail n) := by
  rw [Summing.tail]
  split
  · rename_i hn
    constructor
    · simp only [Summing.total]
      rw [cast_withCarry, toNat_load h8, cast_take_drop he hn]
      ring
    · simp only [Summing.IsZero]
      rw [take_drop_eq_zero n s.bytes, withCarry_eq_zero, load_eq_zero h8]
      tauto
  · exact Keeps.refl s

theorem length_tail (n : Nat) (s : Summing) :
    (s.tail n).bytes.length = if n ≤ s.bytes.length then s.bytes.length - n else s.bytes.length := by
  rw [Summing.tail]
  split
  · exact List.length_drop
  · rfl

theorem keeps_tail_one (h : s.bytes.length ≤ 1) : Keeps s (s.tail 1) ∧ (s.tail 1).bytes = [] := by
  obtain ⟨sum0, sum1, data, bytes⟩ := s
  match bytes with
  | [] => exact ⟨Keeps.refl _, rfl⟩
  | [b] =>
    have hload : (load 1 [b]).toNat = leValue [b] := toNat_load (by decide) [b]
    refine ⟨⟨?_, ?_⟩, rfl⟩
    · simp only [Summing.total, Summing.tail, List.length_cons, List.length_nil, Nat.le_refl, if_true]
      rw [cast_withCarry, hload]
      simp only [List.drop_succ_cons, List.drop_zero, leValue]
      push_cast
      ring
    · simp only [Summing.IsZero, Summing.tail, List.length_cons, List.length_nil, Nat.le_refl, if_true]
      rw [withCarry_eq_zero, word_eq_zero_iff (load 1 [b]), hload]
      simp only [List.drop_succ_cons, List.drop_zero, leValue]
      tauto

theorem keeps_pairs (h : 16 * n ≤ s.bytes.length) :
    Keeps s (s.pairs n) ∧ (s.pairs n).bytes.length = s.bytes.length - 16 * n := by
  induction n generalizing s with
  | zero => exact ⟨Keeps.refl s, rfl⟩
  | succ n ih =>
    have hlen : (s.bytes.drop 16).length = s.bytes.length - 16 := List.length_drop
    obtain ⟨hkeeps, hrest⟩ := ih (s := ⟨ipCsumWithCarry s.sum0 (load 8 s.bytes),
      ipCsumWithCarry s.sum1 (load 8 (s.bytes.drop 8)), s.data + 16, s.bytes.drop 16⟩) (by simp only [hlen]; omega)
    have hdrop : s.bytes.drop 16 = (s.bytes.drop 8).drop 8 := by rw [List.drop_drop]
    have hle : 8 ≤ (s.bytes.drop 8).length := by
      rw [List.length_drop]
      omega
    refine ⟨Keeps.trans ⟨?_, ?_⟩ hkeeps, ?_⟩
    · simp only [Summing.total]
      rw [cast_withCarry, cast_withCarry, toNat_load (by decide), toNat_load (by decide), hdrop,
        cast_take_drop (n := 8) (by decide) (by omega : 8 ≤ s.bytes.length),
        cast_take_drop (n := 8) (by decide) hle]
      ring
    · simp only [Summing.IsZero]
      rw [withCarry_eq_zero, withCarry_eq_zero, load_eq_zero (by decide), load_eq_zero (by decide), hdrop,
        take_drop_eq_zero 8 s.bytes, take_drop_eq_zero 8 (s.bytes.drop 8)]
      tauto
    · rw [Summing.pairs, hrest]
      simp only [hlen]
      omega

/-- A byte string at an even address sums to the number that it spells. -/
theorem ipIncrementalChecksum_spec (sum : IpCsum) (he : data % 2 = 0) (bytes : List Byte) :
    ((ipIncrementalChecksum sum data bytes).toNat : Z) = sum.toNat + leValue bytes ∧
      (ipIncrementalChecksum sum data bytes = 0 ↔ sum = 0 ∧ leValue bytes = 0) := by
  let s0 : Summing := ⟨0, sum, data, bytes⟩
  have h1 : s0.align 1 = s0 := by
    rw [Summing.align, if_neg]
    intro hcond
    exact hcond.2 he
  have hstart : s0.sum0.toNat < 2 ^ 32 := Nat.two_pow_pos 32
  have h2 : Keeps s0 (s0.align 2) := keeps_align (by decide) (by decide) hstart
  have hsmall : (s0.align 2).sum0.toNat < 2 ^ 32 := by
    rw [Summing.align]
    split
    · have hlt := leValue_lt (bytes.take 2)
      have hpow : (256 : Nat) ^ (bytes.take 2).length ≤ 256 ^ 2 :=
        Nat.pow_le_pow_right (by decide) (List.length_take_le 2 bytes)
      have hload : (load 2 bytes).toNat = leValue (bytes.take 2) := toNat_load (by decide) bytes
      simp only [s0, zero_add, hload]
      omega
    · exact hstart
  have h4 : Keeps (s0.align 2) ((s0.align 2).align 4) := keeps_align (by decide) (by decide) hsmall
  generalize hs : (s0.align 2).align 4 = s at h4
  obtain ⟨hp, hplen⟩ := keeps_pairs (s := s) (n := s.bytes.length / 16) (by omega)
  generalize hs' : s.pairs (s.bytes.length / 16) = s' at hp hplen
  have ht8 := keeps_tail (n := 8) (by decide) (by decide) s'
  have ht4 := keeps_tail (n := 4) (by decide) (by decide) (s'.tail 8)
  have ht2 := keeps_tail (n := 2) (by decide) (by decide) ((s'.tail 8).tail 4)
  have hlen : (((s'.tail 8).tail 4).tail 2).bytes.length ≤ 1 := by
    rw [length_tail, length_tail, length_tail]
    split_ifs
    all_goals omega
  obtain ⟨ht1, hnil⟩ := keeps_tail_one hlen
  have hall := ((((((h2.trans h4).trans hp).trans ht8).trans ht4).trans ht2).trans ht1)
  have hdef : ipIncrementalChecksum sum data bytes =
      ipCsumWithCarry ((((s'.tail 8).tail 4).tail 2).tail 1).sum0 ((((s'.tail 8).tail 4).tail 2).tail 1).sum1 := by
    rw [← hs', ← hs, ← h1]
    rfl
  have htotal := hall.total
  have hzero := hall.zero
  rw [Summing.total, Summing.total, hnil] at htotal
  rw [Summing.IsZero, Summing.IsZero, hnil] at hzero
  simp only [leValue, s0, and_true, true_and] at htotal hzero
  constructor
  · rw [hdef, cast_withCarry]
    simpa using htotal
  · rw [hdef, withCarry_eq_zero]
    exact hzero

/-- A header is as long as its first byte says, with no less than the fixed fields. -/
structure IsHeader (i : Ip4Header) : Prop where
  length : i.length = ip4HeaderBytes i
  fixed : 20 ≤ i.length

theorem leValue_checksum (i : Ip4Header) : leValue ((i.drop checksumOffset).take 2) = (checksum i).toNat := by
  have hlt := leValue_lt ((i.drop checksumOffset).take 2)
  have hpow : (256 : Nat) ^ ((i.drop checksumOffset).take 2).length ≤ 256 ^ 2 :=
    Nat.pow_le_pow_right (by decide) (List.length_take_le 2 _)
  rw [checksum, BitVec.toNat_ofNat, Nat.mod_eq_of_lt (by omega)]

theorem length_setChecksum (h : 12 ≤ i.length) (c : BitVec 16) : (setChecksum i c).length = i.length := by
  apply length_splice
  rw [length_leBytes]
  exact h

theorem leValue_setChecksum (h : 12 ≤ i.length) (c : BitVec 16) :
    (leValue (setChecksum i c) : Z) = leValue i + (c.toNat - (checksum i).toNat) := by
  have hinside : checksumOffset + (leBytes 2 c.toNat).length ≤ i.length := by
    rw [length_leBytes]
    exact h
  have heven : (256 ^ checksumOffset : Z) = 1 := pow_even_eq_one two_bytes rfl
  rw [setChecksum, leValue_splice hinside, heven, length_leBytes, leValue_checksum, leValue_leBytes,
    Nat.mod_eq_of_lt (show c.toNat < 256 ^ 2 from c.isLt), one_mul]

theorem headD_splice (hi : 0 < i) (hv : 0 < v.length) (xs : List Byte) : (splice v i xs).headD 0 = v.headD 0 := by
  cases v with
  | nil => exact absurd hv (by decide)
  | cons b bs =>
    cases i with
    | zero => exact absurd hi (by decide)
    | succ i => rfl

theorem ip4HeaderBytes_setChecksum (h : 12 ≤ i.length) (c : BitVec 16) :
    ip4HeaderBytes (setChecksum i c) = ip4HeaderBytes i := by
  rw [ip4HeaderBytes, setChecksum, headD_splice (by decide) (by omega), ip4HeaderBytes]

theorem leValue_ne_zero (h : IsHeader i) : leValue i ≠ 0 := by
  have hfixed := h.fixed
  rw [h.length, ip4HeaderBytes] at hfixed
  cases i with
  | nil => exact absurd hfixed (by decide)
  | cons b bs =>
    intro hz
    rw [leValue] at hz
    have hb : b = 0 := by
      rw [word_eq_zero_iff]
      omega
    rw [hb] at hfixed
    exact absurd hfixed (show ¬ 20 ≤ 4 * (0 &&& 0xf : Byte).toNat by decide)

/-- The complement of the sum, with both spellings of zero. -/
theorem complement_iff (hf : f ≠ 0) (c : BitVec 16) :
    c = (if ~~~f = 0 ∧ c = 0xffff then c else ~~~f) ↔ ((f.toNat : Z) + c.toNat) = 0 := by
  have hflt := f.isLt
  have hclt := c.isLt
  have hfpos : f.toNat ≠ 0 := fun hz => hf ((word_eq_zero_iff f).mpr hz)
  have hnot : (~~~f).toNat = 65535 - f.toNat := by
    rw [BitVec.toNat_not]
  rw [← Nat.cast_add, ZMod.natCast_eq_zero_iff]
  split
  · rename_i hcond
    have hff : f.toNat = 65535 := by
      have hz := (word_eq_zero_iff _).mp hcond.1
      omega
    rw [hff, hcond.2]
    exact iff_of_true rfl (by decide)
  · rename_i hcond
    rw [← BitVec.toNat_inj, hnot]
    constructor
    · intro hc
      have hsum : f.toNat + c.toNat = 65535 := by omega
      rw [hsum]
    · intro ⟨k, hk⟩
      by_contra hne
      apply hcond
      have hk2 : k = 2 := by omega
      rw [word_eq_zero_iff, hnot, ← BitVec.toNat_inj]
      constructor
      · omega
      · show c.toNat = 65535
        omega

theorem ip4HeaderChecksumIsValid_iff (h : IsHeader i) (he : data % 2 = 0) :
    ip4HeaderChecksumIsValid data i ↔ (leValue i : Z) = 0 := by
  have hfixed := h.fixed
  have h12 : 12 ≤ i.length := by omega
  have hlen := length_setChecksum h12 0
  have htake : (setChecksum i 0).take (ip4HeaderBytes i) = setChecksum i 0 := by
    apply List.take_of_length_le
    rw [hlen, h.length]
  have hheader : IsHeader (setChecksum i 0) := by
    constructor
    · rw [hlen, ip4HeaderBytes_setChecksum h12, h.length]
    · rwa [hlen]
  obtain ⟨hcast, hzero⟩ := ipIncrementalChecksum_spec 0 he (setChecksum i 0)
  have hf : ipCsumFold (ipIncrementalChecksum 0 data (setChecksum i 0)) ≠ 0 := by
    rw [Ne, ipCsumFold_eq_zero, hzero]
    exact fun hbad => leValue_ne_zero hheader hbad.2
  have hsum : ((ipCsumFold (ipIncrementalChecksum 0 data (setChecksum i 0))).toNat : Z) + (checksum i).toNat =
      leValue i := by
    rw [cast_ipCsumFold, hcast, leValue_setChecksum h12]
    simp
  rw [ip4HeaderChecksumIsValid, ip4HeaderChecksum, htake, ← hsum]
  exact complement_iff hf (checksum i)

/-- A field of one, two or four bytes inside the header. One of more than a byte is at an even offset, and none is over
the checksum. -/
structure FieldChange.Fits (f : FieldChange) (n : Nat) : Prop where
  size : f.bytes.length = 1 ∨ f.bytes.length = 2 ∨ f.bytes.length = 4
  inside : f.offset + f.bytes.length ≤ n
  even : f.bytes.length ≠ 1 → f.offset % 2 = 0
  away : f.offset + f.bytes.length ≤ checksumOffset ∨ checksumOffset + 2 ≤ f.offset

theorem FieldChange.Fits.checksum_apply {f : FieldChange} (h : f.Fits i.length) :
    checksum (f.apply i) = checksum i := by
  have hinside := h.inside
  have hbytes : ((f.apply i).drop checksumOffset).take 2 = (i.drop checksumOffset).take 2 := by
    rw [FieldChange.apply]
    obtain hbefore | hafter := h.away
    · have hn : checksumOffset = f.offset + f.bytes.length + (checksumOffset - (f.offset + f.bytes.length)) := by omega
      rw [hn, drop_splice (by omega)]
    · exact take_drop_splice_of_le hafter (by omega) f.bytes
  rw [checksum, hbytes, checksum]

theorem toNat_shiftLeft_eight {x : IpCsum} (h : x.toNat < 2 ^ 32) : (x <<< 8).toNat = 256 * x.toNat := by
  rw [BitVec.toNat_shiftLeft, Nat.shiftLeft_eq, Nat.mod_eq_of_lt (by omega), Nat.mul_comm]

theorem FieldChange.Fits.cast_update (h : f.Fits n) (sum : IpCsum) (i : Ip4Header) :
    ((ipCsumUpdate sum i f).toNat : Z) =
      sum.toNat - 256 ^ f.offset * (leValue f.bytes - leValue ((i.drop f.offset).take f.bytes.length)) := by
  have h4 : f.bytes.length ≤ 4 := by
    obtain h1 | h2 | h4 := h.size
    all_goals omega
  have hold : (f.old i).toNat = leValue ((i.drop f.offset).take f.bytes.length) := toNat_load (by omega) _
  have hnew : (load f.bytes.length f.bytes).toNat = leValue f.bytes := by
    rw [toNat_load (by omega), List.take_length]
  have hbound : ∀ bs : List Byte, leValue (bs.take f.bytes.length) < 2 ^ 32 := by
    intro bs
    have hlt := leValue_lt (bs.take f.bytes.length)
    have hpow : (256 : Nat) ^ (bs.take f.bytes.length).length ≤ 256 ^ 4 :=
      Nat.pow_le_pow_right (by decide) ((List.length_take_le _ bs).trans h4)
    omega
  rw [ipCsumUpdate, ipCsumUpdateInline]
  by_cases hshift : f.bytes.length % 2 ≠ 0 ∧ f.offset % 2 = 1
  · have hodd : (256 ^ f.offset : Z) = 256 := by
      have hoff : f.offset = f.offset - 1 + 1 := by omega
      rw [hoff, pow_succ, pow_even_eq_one two_bytes (by omega), one_mul]
    have hold' : (f.old i <<< 8).toNat = 256 * leValue ((i.drop f.offset).take f.bytes.length) := by
      rw [toNat_shiftLeft_eight (by rw [hold]; exact hbound _), hold]
    have hnew' : (load f.bytes.length f.bytes <<< 8).toNat = 256 * leValue f.bytes := by
      rw [toNat_shiftLeft_eight (by rw [toNat_load (by omega)]; exact hbound _), hnew]
    simp only [if_pos hshift]
    rw [cast_addEven, ipCsumSubEven, cast_withCarry, hold', hnew', hodd]
    push_cast
    ring
  · have heven : f.offset % 2 = 0 := by
      obtain h1 | hsize := h.size
      · omega
      · apply h.even
        omega
    simp only [if_neg hshift]
    rw [cast_addEven, ipCsumSubEven, cast_withCarry, hold, hnew, pow_even_eq_one two_bytes heven]
    ring

theorem changeFields_spec (hfs : ∀ f ∈ fs, f.Fits i.length) (sum : IpCsum) :
    let s := changeFields i sum fs
    s.1.length = i.length ∧ checksum s.1 = checksum i ∧ (s.2.toNat : Z) + leValue s.1 = sum.toNat + leValue i := by
  induction fs generalizing i sum with
  | nil => exact ⟨rfl, rfl, rfl⟩
  | cons f fs ih =>
    have hf := hfs f List.mem_cons_self
    have hlen : (f.apply i).length = i.length := length_splice hf.inside
    obtain ⟨hlen', hcsum, hsum⟩ := ih (i := f.apply i) (fun g hg => hlen ▸ hfs g (List.mem_cons_of_mem f hg))
      (ipCsumUpdate sum i f)
    refine ⟨hlen'.trans hlen, hcsum.trans hf.checksum_apply, hsum.trans ?_⟩
    rw [hf.cast_update, FieldChange.apply, leValue_splice hf.inside]
    ring

theorem updateHeader_valid (h : IsHeader i) (he : data % 2 = 0) (hvalid : ip4HeaderChecksumIsValid data i)
    (hfs : ∀ f ∈ fs, f.Fits i.length) (hkeep : ip4HeaderBytes (updateHeader i fs) = ip4HeaderBytes i) :
    ip4HeaderChecksumIsValid data (updateHeader i fs) := by
  have hfixed := h.fixed
  obtain ⟨hlen, hcsum, hsum⟩ := changeFields_spec hfs ((checksum i).setWidth 64)
  have h12 : 12 ≤ (changeFields i ((checksum i).setWidth 64) fs).1.length := by omega
  have hlen' : (updateHeader i fs).length = i.length := (length_setChecksum h12 _).trans hlen
  have hheader : IsHeader (updateHeader i fs) := by
    constructor
    · rw [hlen', hkeep, h.length]
    · rwa [hlen']
  have hc : (((checksum i).setWidth 64).toNat : Z) = (checksum i).toNat := by
    rw [BitVec.toNat_setWidth_of_le (by decide)]
  rw [ip4HeaderChecksumIsValid_iff h he] at hvalid
  rw [ip4HeaderChecksumIsValid_iff hheader he, updateHeader, leValue_setChecksum h12, cast_ipCsumFold, hcsum]
  rw [hc, hvalid] at hsum
  linear_combination hsum

theorem cast_ttlChecksum (c : BitVec 16) : ((ttlChecksum c).toNat : Z) = c.toNat + 1 := by
  have hc := c.isLt
  have hword : (1 : BitVec 32).toNat = 1 := rfl
  have hone : (c.setWidth 32 + 0x0001).toNat = c.toNat + 1 := by
    rw [BitVec.toNat_add, BitVec.toNat_setWidth_of_le (by decide), hword, Nat.mod_eq_of_lt (by omega)]
  rw [ttlChecksum]
  by_cases hge : 0xffff ≤ c.setWidth 32 + 0x0001
  · have hge' : 65535 ≤ c.toNat + 1 := by
      rw [← hone]
      exact hge
    have htwo : (c.setWidth 32 + 0x0001 + 1).toNat = c.toNat + 2 := by
      rw [BitVec.toNat_add, hone, hword, Nat.mod_eq_of_lt (by omega)]
    have hwrap : (c.toNat + 2) % 2 ^ 16 + 65535 = c.toNat + 1 := by omega
    have hcast := congrArg (Nat.cast (R := Z)) hwrap
    have hmod : (65535 : Z) = 0 := by decide
    simp only [if_pos hge]
    rw [BitVec.toNat_setWidth, htwo]
    push_cast at hcast
    rw [hmod, add_zero] at hcast
    exact hcast
  · have hlt : c.toNat + 1 < 65535 := by
      rw [← hone]
      exact BitVec.not_le.mp hge
    have hzero : (c.setWidth 32 + 0x0001 + 0).toNat = c.toNat + 1 := by
      rw [add_zero, hone]
    simp only [if_neg hge]
    rw [BitVec.toNat_setWidth, hzero, Nat.mod_eq_of_lt (by omega)]
    push_cast
    rfl

theorem decrementTtl_valid (h : IsHeader i) (he : data % 2 = 0) (hvalid : ip4HeaderChecksumIsValid data i)
    (httl : ttl i ≠ 0) : ip4HeaderChecksumIsValid data (decrementTtl i) := by
  have hfixed := h.fixed
  have h12 : 12 ≤ i.length := by omega
  generalize hc : ttlChecksum (checksum i) = c
  have hcast : (c.toNat : Z) = (checksum i).toNat + 1 := hc ▸ cast_ttlChecksum (checksum i)
  have hlen := length_setChecksum h12 c
  have hset : decrementTtl i = splice (setChecksum i c) ttlOffset [ttl i - 1] := by
    have hlt : ttlOffset < (setChecksum i c).length := by
      rw [hlen, ttlOffset]
      omega
    rw [← set_eq_splice hlt, ← hc]
    rfl
  have hinside : ttlOffset + [ttl i - 1].length ≤ (setChecksum i c).length := by
    rw [hlen, List.length_singleton, ttlOffset]
    omega
  have hold : leValue (((setChecksum i c).drop ttlOffset).take 1) = (ttl i).toNat := by
    have hlt : ttlOffset < i.length := by
      rw [ttlOffset]
      omega
    have hinside' : checksumOffset ≤ i.length := by
      rw [checksumOffset]
      omega
    rw [setChecksum, take_drop_splice_of_le (by decide) hinside', List.take_one_drop_eq_of_lt_length hlt, ttl,
      List.getD_eq_getElem?_getD, List.getElem?_eq_getElem hlt]
    rfl
  have hnew : ((leValue [ttl i - 1] : Nat) : Z) = (ttl i).toNat - 1 := by
    have hpos : 1 ≤ (ttl i).toNat := Nat.one_le_iff_ne_zero.mpr fun hz => httl ((word_eq_zero_iff _).mpr hz)
    have hsub : (ttl i - 1).toNat = (ttl i).toNat - 1 := BitVec.toNat_sub_of_le hpos
    rw [leValue, leValue, Nat.mul_zero, Nat.add_zero, hsub, Nat.cast_sub hpos, Nat.cast_one]
  have heven : (256 ^ ttlOffset : Z) = 1 := pow_even_eq_one two_bytes rfl
  have hlen' : (decrementTtl i).length = i.length := by
    rw [hset, length_splice hinside, hlen]
  have hheader : IsHeader (decrementTtl i) := by
    constructor
    · rw [hlen', hset, ip4HeaderBytes, headD_splice (by decide) (by rw [hlen]; omega), setChecksum,
        headD_splice (by decide) (by omega), h.length]
      rfl
    · rwa [hlen']
  rw [ip4HeaderChecksumIsValid_iff h he] at hvalid
  rw [ip4HeaderChecksumIsValid_iff hheader he, hset, leValue_splice hinside, List.length_singleton, hold, hnew, heven,
    leValue_setChecksum h12, hvalid, hcast]
  ring

/-- Field changes with the sum along, and the decrement of the TTL, keep a header accepted; the fold is the remainder
modulo 65535, and zero for zero only. -/
theorem incrementalChecksum_exact :
    (∀ data i, data % 2 = 0 → IsHeader i → ip4HeaderChecksumIsValid data i →
      (∀ fs : List FieldChange, (∀ f ∈ fs, f.Fits i.length) →
        ip4HeaderBytes (updateHeader i fs) = ip4HeaderBytes i → ip4HeaderChecksumIsValid data (updateHeader i fs)) ∧
      (ttl i ≠ 0 → ip4HeaderChecksumIsValid data (decrementTtl i))) ∧
    ∀ c, (ipCsumFold c).toNat % 65535 = c.toNat % 65535 ∧ (ipCsumFold c = 0 ↔ c = 0) := by
  refine ⟨?_, ?_⟩
  · intro data i he h hvalid
    exact ⟨fun fs hfs hkeep => updateHeader_valid h he hvalid hfs hkeep, decrementTtl_valid h he hvalid⟩
  · intro c
    exact ⟨(ZMod.natCast_eq_natCast_iff' _ _ _).mp (cast_ipCsumFold c), ipCsumFold_eq_zero⟩

/-- A header of twenty bytes with nothing set but its first byte, the TTL and the checksum. -/
def plainHeader : Ip4Header := [0x45, 0, 0, 0, 0, 0, 0, 0, 64, 0, 0x7a, 0xff, 0, 0, 0, 0, 0, 0, 0, 0]

theorem incrementalChecksum_exact_plain :
    ip4HeaderChecksumIsValid 0 (updateHeader plainHeader [⟨1, [0xb8]⟩, ⟨12, [10, 0, 0, 1]⟩]) ∧
      ip4HeaderChecksumIsValid 0 (decrementTtl plainHeader) := by
  have hheader : IsHeader plainHeader := ⟨by decide, by decide⟩
  obtain ⟨hfields, httl⟩ := incrementalChecksum_exact.1 0 plainHeader rfl hheader (by decide)
  refine ⟨hfields _ ?_ (by decide), httl (by decide)⟩
  intro f hf
  simp only [List.mem_cons, List.not_mem_nil, or_false] at hf
  obtain rfl | rfl := hf
  · exact ⟨by decide, by decide, by decide, by decide⟩
  · exact ⟨by decide, by decide, by decide, by decide⟩

/-- A field of two bytes at an odd offset is not put into place. -/
theorem incrementalChecksum_odd :
    ip4HeaderChecksumIsValid 0 plainHeader ∧ ¬ ip4HeaderChecksumIsValid 0 (updateHeader plainHeader [⟨5, [1, 0]⟩]) := by
  decide

end Vpp.Ip
