import Vpp.Ip.Ip6ZeroRuns
import Mathlib.Data.Fin.VecNotation
import Mathlib.Data.List.Induction

namespace Vpp.Ip
open Vpp.Lib Vpp.Infra Function List

def joined : List (BitVec 16) → List UInt8
  | [] => []
  | [q] => hexText q
  | q :: r :: quads => hexText q ++ colon :: joined (r :: quads)

theorem joined_cons (q : BitVec 16) (h : quads ≠ []) : joined (q :: quads) = hexText q ++ colon :: joined quads := by
  cases quads with
  | nil => exact absurd rfl h
  | cons r quads => rfl

def Ip6Address.hosts (a : Ip6Address) : List (BitVec 16) := List.ofFn fun i => clibNetToHostU16 (a.asU16 i)

@[simp] theorem length_hosts (a : Ip6Address) : a.hosts.length = 8 := length_ofFn

theorem drop_hosts (a : Ip6Address) (h : i < 8) :
    a.hosts.drop i = clibNetToHostU16 (a.asU16 ⟨i, h⟩) :: a.hosts.drop (i + 1) := by
  rw [drop_eq_getElem_cons (by rwa [length_hosts])]
  simp only [Ip6Address.hosts, List.getElem_ofFn]

def separator (lastDoubleColon : Bool) (i : Nat) : List UInt8 := if lastDoubleColon ∨ i = 0 then [] else [colon]

theorem printQuads_end (a : Ip6Address) (z : ZeroRuns) (h : 8 ≤ i) : printQuads a z i last = [] := by
  rw [printQuads.eq_def, dif_neg (by omega)]

theorem printQuads_run (a : Ip6Address) (z : ZeroRuns) (h : i < 8) (hi : z.maxZeroRunIndex = some i) :
    printQuads a z i last = colon :: colon :: printQuads a z (i + (z.maxZeroRun - 1) + 1) true := by
  rw [printQuads.eq_def, dif_pos h, if_pos hi]

theorem printQuads_group (a : Ip6Address) (z : ZeroRuns) (h : i < 8) (hi : z.maxZeroRunIndex ≠ some i) :
    printQuads a z i last =
      separator last i ++ hexText (clibNetToHostU16 (a.asU16 ⟨i, h⟩)) ++ printQuads a z (i + 1) false := by
  rw [printQuads.eq_def, dif_pos h, if_neg hi]
  rfl

theorem printQuads_upTo (a : Ip6Address) (z : ZeroRuns) (k n : Nat) (hk : i + (n + 1) = k) (h8 : k ≤ 8)
    (hrun : ∀ j, i ≤ j → j < k → z.maxZeroRunIndex ≠ some j) :
    printQuads a z i last =
      separator last i ++ joined ((a.hosts.drop i).take (n + 1)) ++ printQuads a z k false := by
  induction n generalizing i last with
  | zero =>
    subst hk
    rw [printQuads_group a z (by omega) (hrun i (Nat.le_refl i) (by omega)), drop_hosts a (by omega)]
    rfl
  | succ n ih =>
    have hne : (a.hosts.drop (i + 1)).take (n + 1) ≠ [] := by
      rw [drop_hosts a (by omega)]
      exact cons_ne_nil _ _
    rw [printQuads_group a z (by omega) (hrun i (Nat.le_refl i) (by omega)), drop_hosts a (show i < 8 by omega),
      take_succ_cons, joined_cons _ hne, ih (by omega) fun j hj => hrun j (by omega)]
    simp [separator]

theorem printQuads_rest (a : Ip6Address) (z : ZeroRuns) (hi : i ≤ 8)
    (hlead : last = true ∨ i = 0) (hrun : ∀ j, i ≤ j → j < 8 → z.maxZeroRunIndex ≠ some j) :
    printQuads a z i last = joined (a.hosts.drop i) := by
  cases Nat.lt_or_eq_of_le hi with
  | inl hlt =>
    have hsep : separator last i = [] := if_pos hlead
    have htake : (a.hosts.drop i).take (7 - i + 1) = a.hosts.drop i :=
      take_of_length_le (by rw [length_drop, length_hosts]; omega)
    rw [printQuads_upTo a z 8 (7 - i) (by omega) (Nat.le_refl 8) hrun, hsep, htake,
      printQuads_end a z (Nat.le_refl 8), nil_append, append_nil]
  | inr heq =>
    rw [printQuads_end a z (by omega), drop_eq_nil_of_le (by rw [length_hosts]; omega)]
    rfl

theorem format_plain (a : Ip6Address) (h : a.zeroRuns.maxZeroRunIndex = none) :
    formatIp6Address [] a = joined a.hosts := by
  rw [formatIp6Address, nil_append, printQuads_rest a _ (Nat.zero_le 8) (.inr rfl) (by simp [h])]
  rfl

theorem format_run (a : Ip6Address) (h : a.zeroRuns.maxZeroRunIndex = some k) (hr : 1 < a.zeroRuns.maxZeroRun)
    (h8 : k + a.zeroRuns.maxZeroRun ≤ 8) :
    formatIp6Address [] a =
      joined (a.hosts.take k) ++ colon :: colon :: joined (a.hosts.drop (k + a.zeroRuns.maxZeroRun)) := by
  have hrun : printQuads a a.zeroRuns k false =
      colon :: colon :: joined (a.hosts.drop (k + a.zeroRuns.maxZeroRun)) := by
    rw [printQuads_run a _ (by omega) h, show k + (a.zeroRuns.maxZeroRun - 1) + 1 = k + a.zeroRuns.maxZeroRun by omega,
      printQuads_rest a _ h8 (.inl rfl) fun j hj _ he => by
        rw [h] at he
        cases he
        omega]
  rw [formatIp6Address, nil_append]
  cases k with
  | zero =>
    rw [hrun]
    rfl
  | succ k =>
    rw [printQuads_upTo a _ (k + 1) k (Nat.zero_add _) (by omega) fun j _ hj he => by
        rw [h] at he
        cases he
        omega, hrun]
    rfl

/-- **Compression**: the text leaves out the first of the longest runs of two zeros or more, and nothing else. -/
theorem formatIp6Address_longest (a : Ip6Address) :
    ∃ index run, LongestRun (List.ofFn a.asU16) index run ∧
      formatIp6Address [] a =
        match index with
        | none => joined a.hosts
        | some k => joined (a.hosts.take k) ++ colon :: colon :: joined (a.hosts.drop (k + run)) := by
  have hlong := longestRun_zeroRuns a
  refine ⟨a.zeroRuns.maxZeroRunIndex, a.zeroRuns.maxZeroRun, hlong, ?_⟩
  cases h : a.zeroRuns.maxZeroRunIndex with
  | none => exact format_plain a h
  | some k =>
    obtain ⟨hr, hz⟩ := hlong.isRun k h
    have h8 := hz.le_length (by omega)
    rw [length_ofFn] at h8
    exact format_run a h hr h8

variable {s : Ip6Scan}

theorem run_joined (h : s.Ready qs place) (more : List (BitVec 16)) (q : BitVec 16)
    (h8 : qs.length + more.length < 8) :
    ∃ t : Ip6Scan, t.Pending (qs ++ more) q place ∧ ∀ rest, s.run (joined (more ++ [q]) ++ rest) = t.run rest := by
  induction more generalizing s qs with
  | nil =>
    obtain ⟨t, ht, hrun⟩ := run_hexText h h8 q
    rw [append_nil]
    exact ⟨t, ht, hrun⟩
  | cons m more ih =>
    rw [length_cons] at h8
    obtain ⟨t, ht, hrun⟩ := run_hexText h (by omega) m
    obtain ⟨u, hu, -, hcolon⟩ := run_separator ht (by omega)
    obtain ⟨v, hv, hmore⟩ := ih hu (by rw [length_append, length_singleton]; omega)
    rw [List.append_assoc] at hv
    refine ⟨v, hv, fun rest => ?_⟩
    rw [List.cons_append, joined_cons m (by simp), List.append_assoc, hrun, List.cons_append, hcolon, hmore]

theorem run_secondColon (h : s.Ready qs 8) (hc : s.nColon = 1) (h8 : qs.length < 8) :
    ∃ t : Ip6Scan, t.Ready qs qs.length ∧ ∀ rest, s.run (colon :: rest) = t.run rest := by
  have hstep := step_colon s (by rw [hc]; decide) (by rw [h.count]; exact h8)
  rw [hc] at hstep
  rw [colons_second { s with nColon := 1 + 1 } rfl h.noDigits (Nat.le_of_eq h.place_eq.symm)] at hstep
  exact ⟨{ s with nColon := 1 + 1, doubleColonIndex := s.nHexQuads },
    ⟨⟨h.count, h.quads⟩, h.noDigits, h.noQuad, h.count⟩, run_next hstep⟩

theorem run_doubleColon (stack : Nat → BitVec 16) (qs : List (BitVec 16)) (h8 : qs.length < 8) :
    ∃ t : Ip6Scan, t.Ready qs qs.length ∧
      ∀ rest, (Ip6Scan.start stack).run (joined qs ++ colon :: colon :: rest) = t.run rest := by
  induction qs using List.reverseRecOn with
  | nil =>
    have hstep := step_colon (Ip6Scan.start stack) (Nat.zero_lt_succ 1) (Nat.zero_lt_succ 7)
    rw [colons_first _ rfl rfl] at hstep
    have hready : Ip6Scan.Ready ⟨stack, 0, 0, 0, 1, 8⟩ [] 8 := ⟨⟨rfl, (ready_start stack).quads⟩, rfl, rfl, rfl⟩
    obtain ⟨t, ht, hrun⟩ := run_secondColon hready rfl h8
    exact ⟨t, ht, fun rest => (run_next hstep _).trans (hrun rest)⟩
  | append_singleton qs q _ =>
    rw [length_append, length_singleton] at h8
    obtain ⟨t, ht, hrun⟩ := run_joined (ready_start stack) qs q (by rw [length_nil]; omega)
    obtain ⟨u, hu, hc, hcolon⟩ := run_separator ht (by rw [nil_append]; omega)
    obtain ⟨v, hv, hsecond⟩ := run_secondColon hu hc (by simpa using h8)
    exact ⟨v, hv, fun rest => by rw [hrun, hcolon, hsecond]⟩

theorem moveUp_apply (hexQuads : Nat → BitVec 16) (nZero from_ count j : Nat) :
    moveUp hexQuads nZero from_ count j =
      if nZero + from_ ≤ j ∧ j < nZero + from_ + count then hexQuads (j - nZero) else hexQuads j := by
  induction count generalizing hexQuads with
  | zero => rw [moveUp, if_neg (by omega)]
  | succ count ih =>
    rw [moveUp, ih]
    cases Nat.lt_trichotomy j (nZero + (from_ + count)) with
    | inl hlt =>
      rw [update_of_ne (by omega), update_of_ne (by omega)]
      grind
    | inr h =>
      cases h with
      | inl heq =>
        rw [if_neg (by omega), if_pos (by omega), heq, update_self, Nat.add_sub_cancel_left]
      | inr hgt => rw [if_neg (by omega), if_neg (by omega), update_of_ne (by omega)]

theorem zeroFill_apply (hexQuads : Nat → BitVec 16) (from_ count j : Nat) :
    zeroFill hexQuads from_ count j = if from_ ≤ j ∧ j < from_ + count then 0 else hexQuads j := by
  induction count with
  | zero => rw [zeroFill, if_neg (by omega)]
  | succ count ih =>
    rw [zeroFill]
    by_cases hj : j = from_ + count
    · rw [hj, update_self, if_pos (by omega)]
    · rw [update_of_ne hj, ih]
      grind

/-- `::` at the place `k` stands for the groups that are missing. -/
def expanded (qs : List (BitVec 16)) (k : Nat) : List (BitVec 16) :=
  qs.take k ++ List.replicate (8 - qs.length) 0 ++ qs.drop k

theorem Ip6Scan.Holds.expand (h : s.Holds qs) (hk : k ≤ qs.length) (h8 : qs.length ≤ 8)
    (hj : (expanded qs k)[j]? = some q) :
    zeroFill (moveUp s.hexQuads (8 - qs.length) k (qs.length - k)) k (8 - qs.length) j = q := by
  have hlen : (expanded qs k).length = 8 := by
    simp only [expanded, length_append, length_take, length_replicate, length_drop]
    omega
  have hj8 := (List.getElem?_eq_some_iff.1 hj).1
  rw [hlen] at hj8
  rw [zeroFill_apply, moveUp_apply]
  simp only [expanded, List.append_assoc] at hj
  cases Nat.lt_or_ge j k with
  | inl hlt =>
    rw [getElem?_append_left (by rw [length_take]; omega), getElem?_take_of_lt hlt] at hj
    rw [if_neg (by omega), if_neg (by omega)]
    exact h.quads j q hj
  | inr hge =>
    rw [getElem?_append_right (by rw [length_take]; omega), length_take_of_le hk] at hj
    cases Nat.lt_or_ge (j - k) (8 - qs.length) with
    | inl hlt =>
      rw [getElem?_append_left (by rwa [length_replicate]), getElem?_replicate_of_lt hlt] at hj
      rw [if_pos (by omega)]
      exact Option.some.inj hj
    | inr hge' =>
      rw [getElem?_append_right (by rwa [length_replicate]), length_replicate, getElem?_drop] at hj
      rw [if_neg (by omega), if_pos (by omega)]
      apply h.quads
      rw [← hj]
      congr 1
      omega

theorem address_eq (a : Ip6Address) (quads : Nat → BitVec 16)
    (h : ∀ i q, a.hosts[i]? = some q → quads i = q) :
    (⟨fun i => clibHostToNetU16 (quads i)⟩ : Ip6Address) = a := by
  apply Ip6Address.ext
  funext i
  change clibHostToNetU16 (quads i) = a.asU16 i
  have hi : a.hosts[i.val]? = some (clibNetToHostU16 (a.asU16 i)) := by
    rw [List.getElem?_eq_getElem (by rw [length_hosts]; exact i.isLt)]
    simp only [Ip6Address.hosts, List.getElem_ofFn]
  rw [h i _ hi]
  exact clibNetToHostU16_involutive _

theorem Ip6Scan.Pending.settled (h : s.Pending qs q place) :
    s.settled.Ready (qs ++ [q]) place := by
  rw [Ip6Scan.settled, if_pos h.digits]
  exact h.store

theorem Ip6Scan.Ready.settled (h : s.Ready qs place) : s.settled.Ready qs place := by
  rw [Ip6Scan.settled, if_neg (by rw [h.noDigits]; decide)]
  exact h

theorem result_plain (a : Ip6Address) (h : s.settled.Ready a.hosts 8) : s.result = some a := by
  have hexp : s.settled.expand = s.settled := if_neg (by rw [h.place_eq]; decide)
  simp only [Ip6Scan.result, hexp]
  rw [if_neg (by rw [h.count, length_hosts]; decide)]
  exact congrArg some (address_eq a _ h.quads)

theorem result_run (a : Ip6Address) (h : s.settled.Ready qs k) (hk : k ≤ qs.length)
    (h8 : qs.length < 8) (ha : expanded qs k = a.hosts) : s.result = some a := by
  have hp : s.settled.doubleColonIndex < 8 := by rw [h.place_eq]; omega
  simp only [Ip6Scan.result, Ip6Scan.expand, if_pos hp]
  rw [if_neg (by decide)]
  apply congrArg some
  apply address_eq a
  intro i q hi
  rw [h.count, h.place_eq]
  exact h.expand hk (Nat.le_of_lt h8) (by rwa [ha])

theorem run_stop (s : Ip6Scan) (rest : List UInt8) (h : ∀ c ∈ rest.head?, ¬hexDigitOf c < 16 ∧ c ≠ colon) :
    s.run rest = some (s, rest) := by
  cases rest with
  | nil => rfl
  | cons c rest =>
    obtain ⟨hd, hc⟩ := h c rfl
    simp [Ip6Scan.run, Ip6Scan.step, hd, hc]

theorem clibNetToHostU16_zero : clibNetToHostU16 0 = 0 := by decide

theorem ZeroAt.hosts {a : Ip6Address} (h : ZeroAt (List.ofFn a.asU16) k r) (h8 : k + r ≤ 8) :
    a.hosts.take k ++ List.replicate r 0 ++ a.hosts.drop (k + r) = a.hosts := by
  have hr : (a.hosts.drop k).take r = List.replicate r 0 := by
    apply ext_getElem?
    intro j
    cases Nat.lt_or_ge j r with
    | inl hj =>
      have hz := h (k + j) (by omega) (by omega)
      rw [List.getElem?_eq_getElem (by rw [length_ofFn]; omega), List.getElem_ofFn] at hz
      rw [getElem?_take_of_lt hj, getElem?_drop, getElem?_replicate_of_lt hj,
        List.getElem?_eq_getElem (by rw [length_hosts]; omega)]
      simp only [Ip6Address.hosts, List.getElem_ofFn, Option.some.inj hz, clibNetToHostU16_zero]
    | inr hj =>
      rw [List.getElem?_eq_none (by rw [length_take]; omega),
        List.getElem?_eq_none (by rwa [length_replicate])]
  rw [← hr, List.append_assoc, ← drop_drop, take_append_drop, take_append_drop]

theorem read_plain (a : Ip6Address) (stack : Nat → BitVec 16) :
    ∃ t : Ip6Scan, t.result = some a ∧ ∀ rest, (Ip6Scan.start stack).run (joined a.hosts ++ rest) = t.run rest := by
  have hne : a.hosts ≠ [] := ne_nil_of_length_pos (by rw [length_hosts]; decide)
  have hsplit := dropLast_append_getLast hne
  obtain ⟨t, ht, hrun⟩ := run_joined (ready_start stack) a.hosts.dropLast (a.hosts.getLast hne)
    (by rw [length_dropLast, length_hosts]; decide)
  rw [hsplit] at hrun
  have hready := ht.settled
  rw [nil_append, hsplit] at hready
  exact ⟨t, result_plain a hready, hrun⟩

/-- The text of the groups before a run, `::`, and the groups behind it. -/
theorem read_run (a : Ip6Address) (stack : Nat → BitVec 16) (hz : ZeroAt (List.ofFn a.asU16) k r) (hr : 1 < r)
    (h8 : k + r ≤ 8) :
    ∃ t : Ip6Scan, t.result = some a ∧
      ∀ rest, (Ip6Scan.start stack).run
        (joined (a.hosts.take k) ++ colon :: colon :: (joined (a.hosts.drop (k + r)) ++ rest)) = t.run rest := by
  have htake : (a.hosts.take k).length = k := by rw [length_take, length_hosts]; omega
  have hdrop : (a.hosts.drop (k + r)).length = 8 - (k + r) := by rw [length_drop, length_hosts]
  have hexp : expanded (a.hosts.take k ++ a.hosts.drop (k + r)) k = a.hosts := by
    rw [expanded, take_left' htake, drop_left' htake, length_append, htake, hdrop,
      show 8 - (k + (8 - (k + r))) = r by omega]
    exact hz.hosts h8
  obtain ⟨t, ht, hrun⟩ := run_doubleColon stack (a.hosts.take k) (by omega)
  rw [htake] at ht
  have hlen : (a.hosts.take k ++ a.hosts.drop (k + r)).length = k + (8 - (k + r)) := by
    rw [length_append, htake, hdrop]
  cases hq : a.hosts.drop (k + r) using List.reverseRecOn with
  | nil =>
    rw [hq, append_nil] at hexp hlen
    exact ⟨t, result_run a ht.settled (by omega) (by omega) hexp, hrun⟩
  | append_singleton more q _ =>
    rw [hq] at hdrop hexp hlen
    rw [length_append, length_singleton] at hdrop
    obtain ⟨u, hu, hmore⟩ := run_joined ht more q (by omega)
    have hready := hu.settled
    rw [List.append_assoc] at hready
    exact ⟨u, result_run a hready (by omega) (by omega) hexp, fun rest => by rw [hrun, hmore]⟩

def doubleColons : List UInt8 → Nat
  | [] => 0
  | c :: text => (if c = colon ∧ text.head? = some colon then 1 else 0) + doubleColons text

theorem doubleColons_digits (ds : List Nat) (h : ∀ d ∈ ds, d < 16) (text : List UInt8) :
    doubleColons (ds.map (digitChar percentX) ++ text) = doubleColons text := by
  induction ds with
  | nil => rfl
  | cons d ds ih =>
    obtain ⟨hd, hds⟩ := forall_mem_cons.1 h
    rw [map_cons, List.cons_append, doubleColons, ih hds, if_neg fun hc => digitChar_ne_colon d hd hc.1,
      Nat.zero_add]

theorem doubleColons_hexText (q : BitVec 16) (text : List UInt8) :
    doubleColons (hexText q ++ text) = doubleColons text := by
  rw [hexText_eq]
  exact doubleColons_digits _ (numeral_lt (by decide) _ [] (by simp)) text

theorem head_hexText (q : BitVec 16) (text : List UInt8) : (hexText q ++ text).head? ≠ some colon := by
  rw [hexText_eq]
  have hlt := numeral_lt (b := 16) (by decide) q.toNat [] (by simp)
  cases h : numeral 16 (by decide) q.toNat [] with
  | nil => exact absurd h (numeral_ne_nil _ _ _)
  | cons d ds =>
    rw [h] at hlt
    rw [map_cons, List.cons_append, head?_cons]
    exact fun he => digitChar_ne_colon d (hlt d mem_cons_self) (Option.some.inj he)

theorem head_joined (quads : List (BitVec 16)) : (joined quads).head? ≠ some colon := by
  cases quads with
  | nil => exact fun h => by cases h
  | cons q quads =>
    cases quads with
    | nil =>
      have := head_hexText q []
      rwa [append_nil] at this
    | cons r quads => exact head_hexText q _

theorem doubleColons_single (quads : List (BitVec 16)) :
    doubleColons (colon :: joined quads) = doubleColons (joined quads) := by
  rw [doubleColons, if_neg fun h => head_joined quads h.2, Nat.zero_add]

theorem doubleColons_joined (quads : List (BitVec 16)) : doubleColons (joined quads) = 0 := by
  induction quads using joined.induct with
  | case1 => rfl
  | case2 q =>
    have := doubleColons_hexText q []
    rwa [append_nil] at this
  | case3 q r quads ih => rw [joined, doubleColons_hexText, doubleColons_single, ih]

theorem doubleColons_joined_append (quads : List (BitVec 16)) (text : List UInt8) :
    doubleColons (joined quads ++ colon :: text) = doubleColons (colon :: text) := by
  induction quads using joined.induct with
  | case1 => rfl
  | case2 q => exact doubleColons_hexText q _
  | case3 q r quads ih =>
    have hhead : (joined (r :: quads) ++ colon :: text).head? ≠ some colon := by
      cases quads with
      | nil => exact head_hexText r _
      | cons s quads =>
        rw [joined, List.append_assoc]
        exact head_hexText r _
    rw [joined, List.append_assoc, doubleColons_hexText, List.cons_append, doubleColons, if_neg fun h => hhead h.2,
      Nat.zero_add, ih]

def IsHexDigit (c : UInt8) : Prop :=
  (48 ≤ c.toNat ∧ c.toNat ≤ 57) ∨ (97 ≤ c.toNat ∧ c.toNat ≤ 102) ∨ (65 ≤ c.toNat ∧ c.toNat ≤ 70)

theorem isHexDigit_of_lt (h : hexDigitOf c < 16) : IsHexDigit c := by
  simp only [hexDigitOf] at h
  unfold IsHexDigit
  grind

theorem unformat_of_run {t : Ip6Scan} (h : t.result = some a)
    (hrun : (Ip6Scan.start stack).run text = some (t, rest)) : unformatIp6Address stack text = some (a, rest) := by
  simp [unformatIp6Address, hrun, h]

/-- What is printed is read back, whatever else follows it, and holds one `::` at most. -/
theorem ip6_roundTrip (a : Ip6Address) :
    (∀ stack rest, (∀ c ∈ rest.head?, ¬IsHexDigit c ∧ c ≠ colon) →
      unformatIp6Address stack (formatIp6Address [] a ++ rest) = some (a, rest)) ∧
    doubleColons (formatIp6Address [] a) ≤ 1 := by
  have hlong := longestRun_zeroRuns a
  cases h : a.zeroRuns.maxZeroRunIndex with
  | none =>
    rw [format_plain a h]
    constructor
    · intro stack rest hrest
      obtain ⟨t, ht, hrun⟩ := read_plain a stack
      apply unformat_of_run ht
      rw [hrun, run_stop t rest fun c hc => ⟨fun hd => (hrest c hc).1 (isHexDigit_of_lt hd), (hrest c hc).2⟩]
    · rw [doubleColons_joined]
      exact Nat.zero_le 1
  | some k =>
    obtain ⟨hr, hz⟩ := hlong.isRun k h
    have h8 := hz.le_length (by omega)
    rw [length_ofFn] at h8
    rw [format_run a h hr h8]
    constructor
    · intro stack rest hrest
      obtain ⟨t, ht, hrun⟩ := read_run a stack hz hr h8
      apply unformat_of_run ht
      rw [List.append_assoc, List.cons_append, List.cons_append, hrun,
        run_stop t rest fun c hc => ⟨fun hd => (hrest c hc).1 (isHexDigit_of_lt hd), (hrest c hc).2⟩]
    · rw [doubleColons_joined_append, doubleColons, if_pos ⟨rfl, rfl⟩, doubleColons_single, doubleColons_joined]

/-- `fe80::1` in front of `/64`. -/
theorem ip6_roundTrip_linkLocal :
    unformatIp6Address (fun _ => 7)
      (formatIp6Address [] ⟨![0x80fe, 0, 0, 0, 0, 0, 0, 0x0100]⟩ ++ [47, 54, 52]) =
        some (⟨![0x80fe, 0, 0, 0, 0, 0, 0, 0x0100]⟩, [47, 54, 52]) := by
  apply (ip6_roundTrip ⟨![0x80fe, 0, 0, 0, 0, 0, 0, 0x0100]⟩).1 (fun _ => 7) [47, 54, 52]
  intro c hc
  cases hc
  exact ⟨by unfold IsHexDigit; decide, by decide⟩

end Vpp.Ip
