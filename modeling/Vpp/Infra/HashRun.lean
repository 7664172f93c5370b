import Vpp.Infra.HashResize

namespace Vpp.Infra
open Vpp.Lib List Option

section

variable {h : Hash V} {hn : HashNext}

def Hash.restFrom (h : Hash V) (i j : Nat) : List (HashPair V) :=
  (h.bucket i).pairs.drop j ++ (h.buckets.drop (i + 1)).flatMap HashBucket.pairs

def HashNext.Placed (h : Hash V) (hn : HashNext) : Prop := ∀ p, h.bucket hn.i = .direct p → hn.j = 0

theorem bucket_of_ge (hi : h.buckets.length ≤ i) : h.bucket i = .empty := getD_eq_default _ _ hi

theorem restFrom_of_ge (hi : h.buckets.length ≤ i) (j : Nat) : h.restFrom i j = [] := by
  rw [Hash.restFrom, bucket_of_ge hi, drop_of_length_le (Nat.le_succ_of_le hi), HashBucket.pairs, drop_nil]
  rfl

theorem restFrom_succ (hj : (h.bucket i).pairs.length ≤ j) : h.restFrom i j = h.restFrom (i + 1) 0 := by
  rw [Hash.restFrom, Hash.restFrom, drop_of_length_le hj, drop_zero, nil_append]
  by_cases hi : i + 1 < h.buckets.length
  · rw [Hash.bucket, getD_eq_getElem _ _ hi, drop_eq_getElem_cons hi, flatMap_cons]
  · have hle := Nat.not_lt.mp hi
    rw [bucket_of_ge hle, drop_of_length_le hle, drop_of_length_le (Nat.le_succ_of_le hle)]
    rfl

theorem restFrom_start : h.restFrom 0 0 = h.pairs := by
  rw [Hash.pairs, Hash.restFrom, drop_zero]
  cases hb : h.buckets with
  | nil =>
    rw [bucket_of_ge (by rw [hb]; exact le_rfl)]
    rfl
  | cons b bs =>
    have hbucket : h.bucket 0 = b := by
      rw [Hash.bucket, hb]
      rfl
    rw [hbucket]
    rfl

theorem hashNextLoop_end (hend : h.buckets.length ≤ hn.i) :
    hashNextLoop h hn = ({ h with flags := hn.f }, .start, none) := by
  rw [hashNextLoop, dif_pos hend]

theorem hashNextLoop_direct (hi : hn.i < h.buckets.length) (hb : h.bucket hn.i = .direct p) :
    hashNextLoop h hn = (h, { hn with i := hn.i + 1 }, some p) := by
  rw [hashNextLoop, dif_neg (Nat.not_le.mpr hi), hb]

theorem hashNextLoop_empty (hi : hn.i < h.buckets.length) (hb : h.bucket hn.i = .empty) :
    hashNextLoop h hn = hashNextLoop h ⟨hn.i + 1, 0, hn.f⟩ := by
  rw [hashNextLoop, dif_neg (Nat.not_le.mpr hi), hb]
  exact if_pos (Nat.zero_le _)

theorem hashNextLoop_indirect (hi : hn.i < h.buckets.length) (hb : h.bucket hn.i = .indirect pairs log2Bytes) :
    hashNextLoop h hn =
      if hn.j ≥ pairs.length then hashNextLoop h ⟨hn.i + 1, 0, hn.f⟩
          else (h, { hn with j := hn.j + 1 }, pairs[hn.j]?) := by
  rw [hashNextLoop, dif_neg (Nat.not_le.mpr hi), hb]
  rfl

structure NextIs (h : Hash V) (hn : HashNext) : Prop where
  none : h.restFrom hn.i hn.j = [] → hashNextLoop h hn = ({ h with flags := hn.f }, .start, none)
  some : ∀ p ps, h.restFrom hn.i hn.j = p :: ps → ∃ hn', hashNextLoop h hn = (h, hn', some p) ∧ hn'.f = hn.f ∧
    hn'.Placed h ∧ h.restFrom hn'.i hn'.j = ps ∧ ¬ (hn'.i = 0 ∧ hn'.j = 0)

theorem NextIs.skip (hnext : NextIs h ⟨hn.i + 1, 0, hn.f⟩) (hj : (h.bucket hn.i).pairs.length ≤ hn.j)
    (hloop : hashNextLoop h hn = hashNextLoop h ⟨hn.i + 1, 0, hn.f⟩) : NextIs h hn := by
  apply NextIs.mk
  · rw [restFrom_succ hj, hloop]
    exact hnext.none
  · rw [restFrom_succ hj, hloop]
    exact hnext.some

theorem hashNextLoop_spec (hp : hn.Placed h) : NextIs h hn := by
  induction hm : h.buckets.length - hn.i generalizing hn with
  | zero =>
    have hge : h.buckets.length ≤ hn.i := Nat.sub_eq_zero_iff_le.mp hm
    apply NextIs.mk
    · intro _
      exact hashNextLoop_end hge
    · intro p ps hrest
      rw [restFrom_of_ge hge] at hrest
      cases hrest
  | succ m ih =>
    have hi : hn.i < h.buckets.length := by omega
    have hrest : h.buckets.length - (hn.i + 1) = m := by omega
    have hlater : NextIs h ⟨hn.i + 1, 0, hn.f⟩ := ih (fun _ _ => rfl) hrest
    cases hb : h.bucket hn.i with
    | empty =>
      apply hlater.skip _ (hashNextLoop_empty hi hb)
      rw [hb]
      exact Nat.zero_le _
    | direct p =>
      have hj := hp p hb
      have hpairs : h.restFrom hn.i hn.j = p :: h.restFrom (hn.i + 1) 0 := by
        have hone : (h.bucket hn.i).pairs.length ≤ 1 := by
          rw [hb]
          exact le_rfl
        rw [← restFrom_succ hone, hj, Hash.restFrom, Hash.restFrom, hb]
        rfl
      apply NextIs.mk
      · intro hnil
        rw [hpairs] at hnil
        cases hnil
      · intro q ps hcons
        rw [hpairs] at hcons
        obtain ⟨hq, hps⟩ := List.cons.inj hcons
        rw [← hq, ← hps]
        refine ⟨_, hashNextLoop_direct hi hb, rfl, fun _ _ => hj, ?_, fun hz => Nat.succ_ne_zero _ hz.1⟩
        dsimp only
        rw [hj]
    | indirect pairs log2Bytes =>
      have hloop := hashNextLoop_indirect hi hb
      by_cases hj : pairs.length ≤ hn.j
      · rw [if_pos hj] at hloop
        apply hlater.skip _ hloop
        rw [hb]
        exact hj
      · rw [if_neg hj] at hloop
        have hlt := Nat.not_le.mp hj
        have hpairs : h.restFrom hn.i hn.j = pairs[hn.j] :: h.restFrom hn.i (hn.j + 1) := by
          rw [Hash.restFrom, Hash.restFrom, hb, HashBucket.pairs, drop_eq_getElem_cons hlt]
          rfl
        apply NextIs.mk
        · intro hnil
          rw [hpairs] at hnil
          cases hnil
        · intro q ps hcons
          rw [hpairs] at hcons
          obtain ⟨hq, hps⟩ := List.cons.inj hcons
          rw [List.getElem?_eq_getElem hlt, hq] at hloop
          refine ⟨_, hloop, rfl, ?_, hps, fun hz => Nat.succ_ne_zero _ hz.2⟩
          intro p hdirect
          rw [hb] at hdirect
          cases hdirect

/-- The pairs of an iteration of at most `n` steps, with the table and the place after it. -/
def hashNextAll : Nat → Hash V → HashNext → List (HashPair V) × Hash V × HashNext
  | 0, h, hn => ([], h, hn)
  | n + 1, h, hn =>
    match hashNext h hn with
    | (h, hn, none) => ([], h, hn)
    | (h, hn, some p) =>
      let (ps, out) := hashNextAll n h hn
      (p :: ps, out)

theorem hashNextAll_within (hp : hn.Placed h) (hin : ¬ (hn.i = 0 ∧ hn.j = 0))
    (hlen : (h.restFrom hn.i hn.j).length < n) :
    hashNextAll n h hn = (h.restFrom hn.i hn.j, { h with flags := hn.f }, .start) := by
  induction n generalizing hn with
  | zero => exact absurd hlen (Nat.not_lt_zero _)
  | succ n ih =>
    have hloop : hashNext h hn = hashNextLoop h hn := if_neg hin
    have hnext := hashNextLoop_spec hp
    rw [hashNextAll, hloop]
    cases hrest : h.restFrom hn.i hn.j with
    | nil => rw [hnext.none hrest]
    | cons p ps =>
      obtain ⟨hn', hrun, hf, hp', hps, hin'⟩ := hnext.some p ps hrest
      rw [hrest, length_cons] at hlen
      rw [hrun]
      dsimp only
      rw [ih hp' hin' (by rw [hps]; omega), hps, hf]

theorem hashNextAll_eq (h : Hash V) (hlen : h.pairs.length < n) :
    hashNextAll n h .start = (h.pairs, h, .start) := by
  cases n with
  | zero => exact absurd hlen (Nat.not_lt_zero _)
  | succ n =>
    let g : Hash V := { h with flags := ⟨true, true, true⟩ }
    let hn : HashNext := ⟨0, 0, h.flags⟩
    have hfirst : hashNext h .start = hashNextLoop g hn := if_pos ⟨rfl, rfl⟩
    have hpairs : g.restFrom hn.i hn.j = h.pairs := restFrom_start (h := g)
    have hnext : NextIs g hn := hashNextLoop_spec fun _ _ => rfl
    rw [hashNextAll, hfirst]
    cases hrest : h.pairs with
    | nil => rw [hnext.none (hpairs.trans hrest)]
    | cons p ps =>
      obtain ⟨hn', hrun, hf, hp', hps, hin'⟩ := hnext.some p ps (hpairs.trans hrest)
      rw [hrest, length_cons] at hlen
      rw [hrun]
      dsimp only
      rw [hashNextAll_within hp' hin' (by rw [hps]; omega), hps, hf]

end

variable {V : Type} {hd : HashHeader} {h h' : Hash V} {f g : Uword → Option V}

/-- The value of the last set of a key that was not unset since. The newest operation comes first. -/
def lastSet (equal : Uword → Uword → Bool) : List (HashOp V) → Uword → Option V
  | [], _ => none
  | .set key value :: ops, k => if equal key k then some value else lastSet equal ops k
  | .unset key :: ops, k => if equal key k then none else lastSet equal ops k
  | .get _ :: ops, k => lastSet equal ops k
  | .resize _ :: ops, k => lastSet equal ops k
  | .setFlags _ :: ops, k => lastSet equal ops k

def hashRun (v : HashPtr V) : List (HashOp V) → Option (HashPtr V)
  | [] => some v
  | op :: ops => (hashStep v op).bind fun v => hashRun v ops

/-- A table has room for one more pair before a set, and a resize asks for a size that is not zero. -/
def HashOp.Sized (hd : HashHeader) (live : Nat) : HashOp V → Prop
  | .set _ _ => hd.Holds (live + 1)
  | .resize newSize => 0 < newSize ∧ newSize ≤ 2 ^ 30
  | .unset _ => True
  | .get _ => True
  | .setFlags _ => True

def Sized (hd : HashHeader) : HashPtr V → List (HashOp V) → Prop
  | _, [] => True
  | v, op :: ops => op.Sized hd (v.elim 0 Hash.elts) ∧ ∀ v' ∈ hashStep v op, Sized hd v' ops

instance HashHeader.Holds.decidable (hd : HashHeader) (n : Nat) : Decidable (hd.Holds n) :=
  decidable_of_iff (n < 3 * 2 ^ 28 ∧ (hd.log2PairSize ≠ 0 → n * 2 ^ hd.pairLog2Bytes ≤ 2 ^ 31))
    ⟨fun h => ⟨h.1, h.2⟩, fun h => ⟨h.small, h.room⟩⟩

instance HashOp.Sized.decidable (hd : HashHeader) (live : Nat) : (op : HashOp V) → Decidable (op.Sized hd live)
  | .set _ _ => inferInstanceAs (Decidable (hd.Holds (live + 1)))
  | .resize newSize => inferInstanceAs (Decidable (0 < newSize ∧ newSize ≤ 2 ^ 30))
  | .unset _ => inferInstanceAs (Decidable True)
  | .get _ => inferInstanceAs (Decidable True)
  | .setFlags _ => inferInstanceAs (Decidable True)

instance Sized.decidable (hd : HashHeader) : (v : HashPtr V) → (ops : List (HashOp V)) → Decidable (Sized hd v ops)
  | _, [] => inferInstanceAs (Decidable True)
  | v, op :: ops =>
    have : ∀ v', Decidable (Sized hd v' ops) := fun v' => Sized.decidable hd v' ops
    inferInstanceAs (Decidable (op.Sized hd (v.elim 0 Hash.elts) ∧ ∀ v' ∈ hashStep v op, Sized hd v' ops))

/-- A table made with a header, whose pairs are those of a map. -/
structure Refines (hd : HashHeader) (f : Uword → Option V) (h : Hash V) : Prop where
  sum : h.keySum = hd.keySum
  equal : h.keyEqual = hd.keyEqual
  size : h.log2PairSize = hd.log2PairSize
  good : h.Good
  holds : hd.Holds h.elts
  look : ∀ key, (lookKey hd.equal h.pairs key).map Prod.snd = f key

theorem Refines.equal_eq (hf : Refines hd f h) : h.equal = hd.equal := by
  funext a b
  rw [HashHeader.equal, HashHeader.equal, hf.equal]

theorem Refines.respects (hf : Refines hd f h) (hr : hd.Respects) : h.Respects where
  eqv := by
    rw [hf.equal_eq]
    exact hr.eqv
  sum hab := by
    rw [hf.equal_eq] at hab
    rw [hf.sum]
    exact hr.sum hab

theorem Refines.holds_of (hf : Refines hd f h) (hh : hd.Holds n) : h.Holds n := by
  apply HashHeader.Holds.mk hh.small
  intro hne
  rw [HashHeader.pairLog2Bytes, hf.size]
  rw [hf.size] at hne
  exact hh.room hne

theorem Refines.with (hf : Refines hd f h) (hheader : h'.toHashHeader = h.toHashHeader) (hgood : h'.Good)
    (hholds : hd.Holds h'.elts) (hlook : ∀ key, (lookKey hd.equal h'.pairs key).map Prod.snd = g key) :
    Refines hd g h' := by
  refine ⟨?_, ?_, ?_, hgood, hholds, hlook⟩
  · rw [hheader, hf.sum]
  · rw [hheader, hf.equal]
  · rw [hheader, hf.size]

theorem Refines.resize (hf : Refines hd f h) (hr : hd.Respects) (hheader : h'.toHashHeader = h.toHashHeader)
    (hperm : h'.pairs.Perm h.pairs) (hgood : h'.Good) : Refines hd f h' := by
  have helts : h'.elts = h.elts := by rw [hgood.elts_eq, hf.good.elts_eq, hperm.length_eq]
  apply hf.with hheader hgood
  · rw [helts]
    exact hf.holds
  · intro key
    have hdist := hf.good.distinct
    rw [hf.equal_eq] at hdist
    rw [← lookKey_perm hr.eqv hdist hperm.symm]
    exact hf.look key

theorem Refines.unset (hf : Refines hd f h) (hr : hd.Respects) (key : Uword) :
    ∃ h', hashUnset (some h) key = some (some h', f key) ∧
      Refines hd (fun k => if hd.equal key k then none else f k) h' := by
  obtain ⟨h', hrun, hheader, hperm, hgood⟩ := hashUnset_spec hf.good (hf.respects hr) (hf.holds_of hf.holds) key
  have hdist := hf.good.distinct
  rw [hf.equal_eq] at hrun hperm hdist
  rw [hf.look] at hrun
  refine ⟨h', hrun, hf.with hheader hgood ?_ ?_⟩
  · apply hf.holds.mono
    rw [hgood.elts_eq, hperm.length_eq, hf.good.elts_eq]
    exact length_filter_le _ _
  · intro k
    rw [← lookKey_perm hr.eqv (hdist.drop key) hperm.symm, lookKey_dropKey hr.eqv hdist]
    by_cases hk : hd.equal key k = true
    · rw [if_pos hk, if_pos hk]
      rfl
    · rw [if_neg hk, if_neg hk]
      exact hf.look k

theorem Refines.set (hf : Refines hd f h) (hr : hd.Respects) (hholds : hd.Holds (h.elts + 1)) (key : Uword)
    (value : V) :
    ∃ h', hashSet (some h) key value = some (some h', f key) ∧
      Refines hd (fun k => if hd.equal key k then some value else f k) h' := by
  obtain ⟨h', hrun, hset⟩ := hashSet_spec hf.good (hf.respects hr) (hf.holds_of hholds) key value
  have hperm := hset.perm
  have hdist := hf.good.distinct
  rw [hf.equal_eq] at hrun hperm hdist
  rw [hf.look] at hrun
  refine ⟨h', hrun, hf.with hset.header hset.good (hholds.mono (hset.elts_le hf.good)) ?_⟩
  intro k
  rw [← lookKey_perm hr.eqv (hdist.put hr.eqv key value) hperm.symm, lookKey_putKey hr.eqv hdist, hf.look]

theorem Refines.step (hf : Refines hd (lastSet hd.equal ops) h) (hr : hd.Respects) {op : HashOp V}
    (hok : op.Sized hd h.elts) :
    ∃ h', hashStep (some h) op = some (some h') ∧ Refines hd (lastSet hd.equal (op :: ops)) h' := by
  cases op with
  | set key value =>
    obtain ⟨h', hrun, hf'⟩ := hf.set hr hok key value
    exact ⟨h', by rw [hashStep, hrun, map_some], hf'⟩
  | unset key =>
    obtain ⟨h', hrun, hf'⟩ := hf.unset hr key
    exact ⟨h', by rw [hashStep, hrun, map_some], hf'⟩
  | get key => exact ⟨h, rfl, hf⟩
  | resize newSize =>
    obtain ⟨h', hrun, hheader, hperm, hgood⟩ := hashResize_spec hf.good (hf.respects hr)
        (hf.holds_of hf.holds) hok.1 hok.2
    exact ⟨h', hrun, hf.resize hr hheader hperm hgood⟩
  | setFlags flags =>
    exact ⟨_, rfl, hf.sum, hf.equal, hf.size, ⟨hf.good.pow, hf.good.placed, hf.good.fits, hf.good.distinct,
      hf.good.elts_eq⟩, hf.holds, hf.look⟩

theorem Refines.run (hf : Refines hd (lastSet hd.equal done) h) (hr : hd.Respects) (hok : Sized hd (some h) ops) :
    ∃ h', hashRun (some h) ops = some (some h') ∧ Refines hd (lastSet hd.equal (ops.reverse ++ done)) h' := by
  induction ops generalizing h done with
  | nil => exact ⟨h, rfl, hf⟩
  | cons op ops ih =>
    obtain ⟨h₁, hstep, hf₁⟩ := hf.step hr hok.1
    obtain ⟨h₂, hrun, hf₂⟩ := ih hf₁ (hok.2 _ hstep)
    rw [reverse_cons, List.append_assoc, singleton_append]
    refine ⟨h₂, ?_, hf₂⟩
    rw [hashRun, hstep]
    exact hrun

theorem Refines.create (hd : HashHeader) (hn : n ≤ 2 ^ 30) :
    ∃ h : Hash V, hashCreate n hd = some h ∧ Refines hd (lastSet hd.equal []) h := by
  obtain ⟨h, hrun, hheader, helts, hpairs, hgood, _⟩ := hashCreate_spec (V := V) hd hn
  refine ⟨h, hrun, ?_, ?_, ?_, hgood, ?_, ?_⟩
  · rw [hheader]
  · rw [hheader]
  · rw [hheader]
  · rw [helts]
    apply HashHeader.Holds.mk (by decide)
    intro _
    rw [Nat.zero_mul]
    exact Nat.zero_le _
  · intro key
    rw [hpairs]
    rfl

/-- A table has the pairs of the map, each once: its lookups, its count, what the next unset reports and what an
iteration visits. -/
structure Hash.IsMap (h : Hash V) (equal : Uword → Uword → Bool) (f : Uword → Option V) : Prop where
  get : ∀ key, (hashGet (some h) key).map Prod.snd = f key
  get_key : ∀ key p, hashGet (some h) key = some p → equal p.1 key = true
  elts : h.elts = h.pairs.length
  live : ∀ key, (f key).isSome = true ↔ ∃ p ∈ h.pairs, equal p.1 key = true
  once : KeyDistinct equal h.pairs
  unset : ∀ key, (hashUnset (some h) key).map Prod.snd = some (f key)
  next : ∀ n, h.pairs.length < n → hashNextAll n h .start = (h.pairs, h, .start)

theorem Refines.isMap (hf : Refines hd f h) (hr : hd.Respects) : h.IsMap hd.equal f := by
  have hget : ∀ key, hashGet (some h) key = lookKey hd.equal h.pairs key := by
    intro key
    rw [hashGet_spec hf.good (hf.respects hr), hf.equal_eq]
  have hdist := hf.good.distinct
  rw [hf.equal_eq] at hdist
  refine ⟨?_, ?_, hf.good.elts_eq, ?_, hdist, ?_, fun n hn => hashNextAll_eq h hn⟩
  · intro key
    rw [hget, hf.look]
  · intro key p hp
    rw [hget] at hp
    exact ((lookKey_eq_some hr.eqv hdist).mp hp).2
  · intro key
    rw [← hf.look, isSome_map, lookKey, find?_isSome]
  · intro key
    obtain ⟨h', hrun, _⟩ := hf.unset hr key
    rw [hrun, map_some]

theorem hash_finite_map (hd : HashHeader) (n : Nat) (ops : List (HashOp V)) (hr : hd.Respects) (hn : n ≤ 2 ^ 30)
    (hok : ∀ start ∈ (hashCreate n hd : Option (Hash V)), Sized hd (some start) ops) :
    ∃ start h, hashCreate n hd = some start ∧ hashRun (some start) ops = some (some h) ∧
      h.IsMap hd.equal (lastSet hd.equal ops.reverse) := by
  obtain ⟨start, hcreate, hf⟩ := Refines.create (V := V) hd hn
  obtain ⟨h, hrun, hf'⟩ := hf.run hr (hok start hcreate)
  rw [append_nil] at hf'
  exact ⟨start, h, hcreate, hrun, hf'.isMap hr⟩

def wordHeader : HashHeader where
  keySum := fun key => key
  keyEqual := fun _ _ => false
  log2PairSize := 1

theorem wordHeader_respects : wordHeader.Respects := by
  have heq : ∀ a b : Uword, wordHeader.equal a b = true ↔ a = b := by
    intro a b
    rw [HashHeader.equal, wordHeader, Bool.or_false, beq_iff_eq]
  apply HashHeader.Respects.mk
  · exact ⟨fun a => (heq a a).mpr rfl, fun h => (heq _ _).mpr ((heq _ _).mp h).symm,
      fun h h' => (heq _ _).mpr (((heq _ _).mp h).trans ((heq _ _).mp h'))⟩
  · intro a b hab
    rw [(heq a b).mp hab]

theorem hash_finite_map_two :
    ∃ start h : Hash Nat, hashCreate 0 wordHeader = some start ∧
      hashRun (some start) [.set 1 7, .resize 128, .set 65 8] = some (some h) ∧
      h.IsMap wordHeader.equal (lastSet wordHeader.equal [.set 65 8, .resize 128, .set 1 7]) := by
  exact hash_finite_map wordHeader 0 [.set 1 7, .resize 128, .set 65 8] wordHeader_respects (by decide) (by decide)

/-- A resize to no buckets loses the pairs. -/
theorem hash_finite_map_fails :
    ∃ start : Hash Nat, hashCreate 0 wordHeader = some start ∧
      (hashRun (some start) [.set 1 7, .resize 0]).map (fun v => (hashGet v 1).map Prod.snd) = some none ∧
      lastSet wordHeader.equal [HashOp.resize 0, .set 1 7] 1 = some 7 := by
  exact ⟨_, rfl, by decide, rfl⟩

end Vpp.Infra
