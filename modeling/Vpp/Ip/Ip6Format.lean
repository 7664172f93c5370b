import Vpp.Infra.Format
import Mathlib.Data.List.OfFn

namespace Vpp.Ip
open Vpp.Lib Vpp.Infra Function List BitVec

def clibNetToHostU16 (x : BitVec 16) : BitVec 16 := x.rotateLeft 8

def clibHostToNetU16 (x : BitVec 16) : BitVec 16 := clibNetToHostU16 x

@[ext] structure Ip6Address where
  asU16 : Fin 8 → BitVec 16

def colon : UInt8 := 58

/-- The run of zeros being read and the longest one before it, of two or more. -/
structure ZeroRuns where
  maxZeroRun : Nat
  maxZeroRunIndex : Option Nat
  thisZeroRun : Nat
  thisZeroRunIndex : Nat
  inZeroRun : Bool

def ZeroRuns.start : ZeroRuns := ⟨0, none, 0, 0, false⟩

def ZeroRuns.close (z : ZeroRuns) : ZeroRuns :=
  if z.inZeroRun ∧ z.maxZeroRun < z.thisZeroRun ∧ 1 < z.thisZeroRun then
    { z with maxZeroRunIndex := some z.thisZeroRunIndex, maxZeroRun := z.thisZeroRun }
  else z

def ZeroRuns.scan (z : ZeroRuns) (i : Nat) (quad : BitVec 16) : ZeroRuns :=
  if quad = 0 then
    if z.inZeroRun then { z with thisZeroRun := z.thisZeroRun + 1 }
    else { z with inZeroRun := true, thisZeroRun := 1, thisZeroRunIndex := i }
  else { z.close with inZeroRun := false, thisZeroRun := 0 }

def ZeroRuns.scanAll (z : ZeroRuns) (i : Nat) : List (BitVec 16) → ZeroRuns
  | [] => z
  | quad :: quads => (z.scan i quad).scanAll (i + 1) quads

def Ip6Address.zeroRuns (a : Ip6Address) : ZeroRuns :=
  (ZeroRuns.start.scanAll 0 (List.ofFn a.asU16)).close

/-- `%x` of a group in host order. -/
def hexText (quad : BitVec 16) : List UInt8 := formatInteger [] (quad.setWidth 64) percentX

def printQuads (a : Ip6Address) (z : ZeroRuns) (i : Nat) (lastDoubleColon : Bool) : List UInt8 :=
  if h : i < 8 then
    if z.maxZeroRunIndex = some i then colon :: colon :: printQuads a z (i + (z.maxZeroRun - 1) + 1) true
    else
      (if lastDoubleColon ∨ i = 0 then [] else [colon]) ++ hexText (clibNetToHostU16 (a.asU16 ⟨i, h⟩)) ++
        printQuads a z (i + 1) false
  else []
termination_by 8 - i

def formatIp6Address (s : List UInt8) (a : Ip6Address) : List UInt8 := s ++ printQuads a a.zeroRuns 0 false

/-- The state of the reader: the array with its fill, the group being read, and the place of `::`, or 8. -/
structure Ip6Scan where
  hexQuads : Nat → BitVec 16
  nHexQuads : Nat
  hexQuad : Nat
  nHexDigits : Nat
  nColon : Nat
  doubleColonIndex : Nat

/-- The digit that a character stands for, or 16. -/
def hexDigitOf (c : UInt8) : Nat :=
  if 48 ≤ c.toNat ∧ c.toNat ≤ 57 then c.toNat - 48
  else if 97 ≤ c.toNat ∧ c.toNat ≤ 102 then c.toNat + 10 - 97
  else if 65 ≤ c.toNat ∧ c.toNat ≤ 70 then c.toNat + 10 - 65
  else 16

inductive ScanStep
  | next (s : Ip6Scan)
  | putBack
  | reject

def Ip6Scan.addDigit (s : Ip6Scan) (digit : Nat) : Ip6Scan :=
  { s with hexQuad := s.hexQuad <<< 4 ||| digit, nColon := 0, nHexDigits := s.nHexDigits + 1 }

def Ip6Scan.store (s : Ip6Scan) : Ip6Scan :=
  { s with
    hexQuads := update s.hexQuads s.nHexQuads (BitVec.ofNat 16 s.hexQuad)
    nHexQuads := s.nHexQuads + 1, hexQuad := 0, nHexDigits := 0 }

def Ip6Scan.colons (s : Ip6Scan) : ScanStep :=
  if s.nColon = 2 ∧ s.doubleColonIndex < 8 then .reject
  else
    let s := if s.nColon = 2 then { s with doubleColonIndex := s.nHexQuads } else s
    .next (if 0 < s.nColon ∧ 0 < s.nHexDigits then s.store else s)

def Ip6Scan.step (s : Ip6Scan) (c : UInt8) : ScanStep :=
  let hexDigit := hexDigitOf c
  if hexDigit < 16 then
    if 8 ≤ s.nHexQuads then .reject
    else if 4 ≤ s.nHexDigits then .reject
    else (s.addDigit hexDigit).colons
  else if c = colon ∧ s.nColon < 2 then
    if 8 ≤ s.nHexQuads then .reject
    else { s with nColon := s.nColon + 1 }.colons
  else .putBack

/-- The state at the end with the input left, unless a check fails. -/
def Ip6Scan.run (s : Ip6Scan) : List UInt8 → Option (Ip6Scan × List UInt8)
  | [] => some (s, [])
  | c :: input =>
    match s.step c with
    | .next s => s.run input
    | .putBack => some (s, c :: input)
    | .reject => none

/-- Moves `count` groups up by `nZero`, the last one first. -/
def moveUp (hexQuads : Nat → BitVec 16) (nZero from_ : Nat) : Nat → (Nat → BitVec 16)
  | 0 => hexQuads
  | count + 1 =>
    moveUp (update hexQuads (nZero + (from_ + count)) (hexQuads (from_ + count))) nZero from_ count

def zeroFill (hexQuads : Nat → BitVec 16) (from_ : Nat) : Nat → (Nat → BitVec 16)
  | 0 => hexQuads
  | count + 1 => update (zeroFill hexQuads from_ count) (from_ + count) 0

def Ip6Scan.settled (s : Ip6Scan) : Ip6Scan := if 0 < s.nHexDigits then s.store else s

def Ip6Scan.expand (s : Ip6Scan) : Ip6Scan :=
  if s.doubleColonIndex < 8 then
    let nZero := 8 - s.nHexQuads
    let moved := moveUp s.hexQuads nZero s.doubleColonIndex (s.nHexQuads - s.doubleColonIndex)
    { s with hexQuads := zeroFill moved s.doubleColonIndex nZero, nHexQuads := 8 }
  else s

def Ip6Scan.result (s : Ip6Scan) : Option Ip6Address :=
  let s := s.settled.expand
  if s.nHexQuads < 8 then none else some ⟨fun i => clibHostToNetU16 (s.hexQuads i)⟩

def Ip6Scan.start (stack : Nat → BitVec 16) : Ip6Scan := ⟨stack, 0, 0, 0, 0, 8⟩

/-- The address and the input left; `stack` is what the array holds before it is written. -/
def unformatIp6Address (stack : Nat → BitVec 16) (input : List UInt8) : Option (Ip6Address × List UInt8) := do
  let (s, rest) ← (Ip6Scan.start stack).run input
  let a ← s.result
  return (a, rest)

theorem clibNetToHostU16_involutive (x : BitVec 16) : clibNetToHostU16 (clibNetToHostU16 x) = x := by
  simp only [clibNetToHostU16, rotateLeft_def]
  ext i
  simp
  grind

theorem hexDigitOf_digitChar : ∀ d < 16, hexDigitOf (digitChar percentX d) = d := by decide

theorem digitChar_ne_colon : ∀ d < 16, digitChar percentX d ≠ colon := by decide

theorem hexText_eq (quad : BitVec 16) :
    hexText quad = (numeral 16 (by decide) quad.toNat []).map (digitChar percentX) := by
  have h := formatInteger_eq [] percentX quad.toNat (by omega) rfl
  rwa [nil_append, ofNat_toNat] at h

variable (s : Ip6Scan)

theorem colons_none (hc : s.nColon = 0) : s.colons = .next s := by
  simp [Ip6Scan.colons, hc]

theorem colons_store (hc : s.nColon = 1) (hd : 0 < s.nHexDigits) : s.colons = .next s.store := by
  simp [Ip6Scan.colons, hc, hd]

theorem colons_first (hc : s.nColon = 1) (hd : s.nHexDigits = 0) : s.colons = .next s := by
  simp [Ip6Scan.colons, hc, hd]

theorem colons_second (hc : s.nColon = 2) (hd : s.nHexDigits = 0) (h8 : 8 ≤ s.doubleColonIndex) :
    s.colons = .next { s with doubleColonIndex := s.nHexQuads } := by
  simp [Ip6Scan.colons, hc, hd, Nat.not_lt.2 h8]

/-- The state after the digits `ds` of a group. -/
def Ip6Scan.reading (s : Ip6Scan) (ds : List Nat) : Ip6Scan :=
  { s with hexQuad := ofNumeral 16 s.hexQuad ds, nColon := 0, nHexDigits := s.nHexDigits + ds.length }

theorem reading_cons (d : Nat) (ds : List Nat) :
    s.reading (d :: ds) = (s.reading [d]).reading ds := by
  simp only [Ip6Scan.reading, ofNumeral_cons, ofNumeral_nil, length_cons, length_nil]
  rw [Nat.add_assoc, Nat.zero_add, Nat.add_comm 1]

theorem step_digit (hd : d < 16) (hn : s.nHexQuads < 8) (h4 : s.nHexDigits < 4) :
    s.step (digitChar percentX d) = .next (s.reading [d]) := by
  simp only [Ip6Scan.step, hexDigitOf_digitChar d hd, if_pos hd]
  rw [if_neg (by omega), if_neg (by omega), colons_none _ rfl, Ip6Scan.addDigit,
    ← Nat.shiftLeft_add_eq_or_of_lt hd, Nat.shiftLeft_eq]
  rfl

theorem step_colon (hc : s.nColon < 2) (hn : s.nHexQuads < 8) :
    s.step colon = { s with nColon := s.nColon + 1 }.colons := by
  have h16 : ¬hexDigitOf colon < 16 := by decide
  simp only [Ip6Scan.step, if_neg h16]
  rw [if_pos ⟨trivial, hc⟩, if_neg (by omega)]

theorem run_next {s t : Ip6Scan} (h : s.step c = .next t) (input : List UInt8) :
    s.run (c :: input) = t.run input := by
  rw [Ip6Scan.run, h]

theorem run_digits (ds : List Nat) (hd : ∀ d ∈ ds, d < 16) (hn : s.nHexQuads < 8)
    (h4 : s.nHexDigits + ds.length ≤ 4) (hne : ds ≠ []) (rest : List UInt8) :
    s.run (ds.map (digitChar percentX) ++ rest) = (s.reading ds).run rest := by
  induction ds generalizing s with
  | nil => exact absurd rfl hne
  | cons d ds ih =>
    rw [length_cons] at h4
    obtain ⟨hd, hds⟩ := forall_mem_cons.1 hd
    rw [map_cons, List.cons_append, run_next (step_digit s hd hn (by omega))]
    cases ds with
    | nil => rfl
    | cons e ds =>
      have hlen : (s.reading [d]).nHexDigits + (e :: ds).length ≤ 4 := by
        simp only [Ip6Scan.reading, length_singleton]
        omega
      rw [ih (s.reading [d]) hds hn hlen (cons_ne_nil _ _), ← reading_cons]

/-- The first entries of the array are `qs`. -/
structure Ip6Scan.Holds (s : Ip6Scan) (qs : List (BitVec 16)) : Prop where
  count : s.nHexQuads = qs.length
  quads : ∀ i q, qs[i]? = some q → s.hexQuads i = q

structure Ip6Scan.Ready (s : Ip6Scan) (qs : List (BitVec 16)) (place : Nat) : Prop extends s.Holds qs where
  noDigits : s.nHexDigits = 0
  noQuad : s.hexQuad = 0
  place_eq : s.doubleColonIndex = place

/-- Behind the digits of `q`. -/
structure Ip6Scan.Pending (s : Ip6Scan) (qs : List (BitVec 16)) (q : BitVec 16) (place : Nat) : Prop
    extends s.Holds qs where
  digits : 0 < s.nHexDigits
  quad : s.hexQuad = q.toNat
  noColon : s.nColon = 0
  place_eq : s.doubleColonIndex = place

theorem ready_start (stack : Nat → BitVec 16) : (Ip6Scan.start stack).Ready [] 8 where
  count := rfl
  quads := by simp
  noDigits := rfl
  noQuad := rfl
  place_eq := rfl

theorem Ip6Scan.Pending.store {s : Ip6Scan} (h : s.Pending qs q place) : s.store.Ready (qs ++ [q]) place where
  count := by simp [Ip6Scan.store, h.count]
  quads i r hr := by
    simp only [Ip6Scan.store, h.count, h.quad, ofNat_toNat, setWidth_eq]
    cases Nat.lt_or_ge i qs.length with
    | inl hi =>
      rw [update_of_ne (by omega)]
      rw [getElem?_append_left hi] at hr
      exact h.quads i r hr
    | inr hi =>
      rw [getElem?_append_right hi, getElem?_singleton] at hr
      split at hr
      · rw [show i = qs.length by omega, update_self]
        exact Option.some.inj hr
      · cases hr
  noDigits := rfl
  noQuad := rfl
  place_eq := h.place_eq

theorem run_hexText {s : Ip6Scan} (h : s.Ready qs place) (h8 : qs.length < 8) (q : BitVec 16) :
    ∃ t : Ip6Scan, t.Pending qs q place ∧ ∀ rest, s.run (hexText q ++ rest) = t.run rest := by
  have hq : q.toNat < 16 ^ (3 + 1) := q.isLt
  have hlt := numeral_lt (b := 16) (by decide) q.toNat [] (by simp)
  have hlen := length_numeral_le (b := 16) (by decide) q.toNat [] 3 hq
  have hne := numeral_ne_nil (b := 16) (by decide) q.toNat []
  refine ⟨s.reading (numeral 16 (by decide) q.toNat []), ⟨⟨h.count, h.quads⟩, ?_, ?_, rfl, h.place_eq⟩, fun rest => ?_⟩
  · exact Nat.add_pos_right _ (length_pos_iff.2 hne)
  · simp only [Ip6Scan.reading, h.noQuad]
    exact ofNumeral_numeral (by decide) q.toNat
  · rw [hexText_eq]
    have hn := h.count
    have hd := h.noDigits
    rw [length_nil] at hlen
    exact run_digits s _ hlt (by omega) (by omega) hne rest

theorem run_separator {s : Ip6Scan} (h : s.Pending qs q place) (h8 : qs.length < 8) :
    ∃ t : Ip6Scan, t.Ready (qs ++ [q]) place ∧ t.nColon = 1 ∧ ∀ rest, s.run (colon :: rest) = t.run rest := by
  have hstep := step_colon s (by rw [h.noColon]; decide) (by rw [h.count]; exact h8)
  rw [h.noColon] at hstep
  rw [colons_store { s with nColon := 0 + 1 } rfl h.digits] at hstep
  exact ⟨{ s with nColon := 0 + 1 }.store, ⟨⟨h.store.count, h.store.quads⟩, rfl, rfl, h.place_eq⟩, rfl, run_next hstep⟩

end Vpp.Ip
