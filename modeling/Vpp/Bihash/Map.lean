import Vpp.Bihash.AddDel

namespace Vpp.Bihash
open Vpp.Lib Function List

section

inductive Op (K V : Type) where
  | add (kv : K × V)
  | del (kv : K × V)

def Op.key : Op K V → K
  | .add kv => kv.1
  | .del kv => kv.1

def Op.value : Op K V → Option V
  | .add kv => some kv.2
  | .del _ => none

def Op.call [DecidableEq K] (t : Template K V) (h : Table K V) : Op K V → Option (Table K V × Int)
  | .add kv => clibBihashAddDel t h kv true
  | .del kv => clibBihashAddDel t h kv false

def runOps [DecidableEq K] (t : Template K V) : Table K V → List (Op K V) → Option (Table K V)
  | h, [] => some h
  | h, op :: ops => (op.call t h).bind fun r => runOps t r.1 ops

/-- The value of the last add of `k` that no delete of `k` follows. -/
def lastValue [DecidableEq K] (ops : List (Op K V)) (k : K) : Option V :=
  (ops.reverse.find? fun op => op.key = k).bind Op.value

/-- Every way to read the table gives the map `m`. -/
structure ReadsAs (t : Template K V) (h : Table K V) (m : K → Option V) : Prop where
  search : ∀ searchKey valuep : K × V, searchKey.1 ≠ t.ones.1 →
    clibBihashSearch t h searchKey valuep =
      ((m searchKey.1).map fun v => (0, (searchKey.1, v))).getD (-1, valuep)
  search_inline : ∀ kvp : K × V, kvp.1 ≠ t.ones.1 →
    clibBihashSearchInline t h kvp = ((m kvp.1).map fun v => (0, (kvp.1, v))).getD (-1, kvp)
  search_inline_2 : ∀ searchKey valuep : K × V, searchKey.1 ≠ t.ones.1 →
    clibBihashSearchInline2 t h searchKey valuep =
      ((m searchKey.1).map fun v => (0, (searchKey.1, v))).getD (-1, valuep)
  foreach_iff : ∀ k v, (k, v) ∈ clibBihashForeachKeyValuePair t h ↔ m k = some v
  foreach_once : ((clibBihashForeachKeyValuePair t h).map Prod.fst).Nodup

/-- From an empty table with `2 ^ log2Nbuckets` buckets, the calls all return and leave a table that
reads as the map of the last values. -/
def RefinesMap [DecidableEq K] (t : Template K V) (log2Nbuckets : Nat) (ops : List (Op K V)) : Prop :=
  ∃ h, runOps t (clibBihashInit log2Nbuckets) ops = some h ∧ ReadsAs t h (lastValue ops)

variable {K V : Type} {t : Template K V} {h : Table K V} {m : K → Option V}

theorem TableInv.searchPair_eq (hl : t.Lawful) (hi : TableInv t h m) (hk : key ≠ t.ones.1) :
    searchPair t h key = (m key).map fun v => (key, v) := by
  have hmap := hi.map key
  have hlt := h.bucketIndex_lt t key
  simp only [searchPair]
  generalize bucketIndex t h.log2Nbuckets key = i at hmap hlt ⊢
  split
  · next hz =>
    cases hm : m key with
    | none => rfl
    | some v => exact absurd hz ((hmap v).mp hm).1
  · next hz =>
    have ha := hi.array i hlt hz
    cases hf : findSlot t (fun kv => t.keyCompare kv.1 key) (h.values (h.buckets i))
        (searchLimit (h.buckets i).linearSearch (h.buckets i).log2Pages)
        (searchStart t h.log2Nbuckets (h.buckets i).linearSearch (h.buckets i).log2Pages key) with
    | none =>
      cases hm : m key with
      | none => rfl
      | some v =>
        obtain ⟨j, hj, hs⟩ := ha.searched ((hmap v).mp hm).2
        have hno := findSlot_none hf hs.1 hs.2
        rw [hj, (hl.compare_iff key key).mpr rfl] at hno
        exact absurd hno (by decide)
    | some j =>
      obtain ⟨_, _, hcmp⟩ := findSlot_some hf
      have hkey := (hl.compare_iff _ _).mp hcmp
      have hm : m key = some (slot t (h.values (h.buckets i)) j).2 := by
        rw [hmap]
        exact ⟨hz, hkey ▸ slot_ne_of_key hk hkey, j, by rw [← hkey]⟩
      rw [hm]
      simp only [Option.map_some, Option.some.injEq]
      rw [← hkey]

theorem mem_visitBucket : kv ∈ visitBucket t h i ↔ (h.buckets i).offset ≠ 0 ∧
    ∃ j, j < pagesSize (h.buckets i).log2Pages ∧ slot t (h.values (h.buckets i)) j = kv ∧
      t.isFree kv = false := by
  simp only [visitBucket]
  split
  · next hz => simp [hz]
  · next hz =>
    simp only [mem_flatMap, mem_range, mem_filter, List.mem_map, Bool.not_eq_true']
    constructor
    · rintro ⟨j, hj, ⟨k, hk, he⟩, hf⟩
      refine ⟨hz, kvpPerPage * j + k, ?_, he, hf⟩
      simp only [pagesSize, kvpPerPage] at hk ⊢
      omega
    · rintro ⟨_, j, hj, he, hf⟩
      refine ⟨j / kvpPerPage, Nat.div_lt_of_lt_mul hj, ⟨j % kvpPerPage, Nat.mod_lt _ (by decide), ?_⟩, hf⟩
      rw [Nat.div_add_mod]
      exact he

theorem ne_ones_of_not_free (hl : t.Lawful) (hf : t.isFree kv = false) : kv ≠ t.ones := by
  rintro rfl
  rw [hl.ones_free] at hf
  exact absurd hf (by decide)

theorem ArrayOk.key_ne (hl : t.Lawful) (ha : ArrayOk t n b linear L values)
    (hf : t.isFree (slot t values i) = false) (hij : i ≠ j) :
    (slot t values i).1 ≠ (slot t values j).1 :=
  fun he => hij (ha.unique i j (ne_ones_of_not_free hl hf) he)

theorem TableInv.bucket_of_mem (hl : t.Lawful) (hi : TableInv t h m) (hlt : i < h.nbuckets)
    (hm : kv ∈ visitBucket t h i) : bucketIndex t h.log2Nbuckets kv.1 = i := by
  obtain ⟨hz, j, _, rfl, hf⟩ := mem_visitBucket.mp hm
  exact ((hi.array i hlt hz).home j (ne_ones_of_not_free hl hf)).1

theorem TableInv.foreach_iff (hl : t.Lawful) (hi : TableInv t h m) (k : K) (v : V) :
    (k, v) ∈ clibBihashForeachKeyValuePair t h ↔ m k = some v := by
  rw [clibBihashForeachKeyValuePair, mem_flatMap, hi.map]
  constructor
  · rintro ⟨i, hlt, hm⟩
    have hb := hi.bucket_of_mem hl (mem_range.mp hlt) hm
    obtain ⟨hz, j, _, he, hf⟩ := mem_visitBucket.mp hm
    rw [hb]
    exact ⟨hz, ne_ones_of_not_free hl hf, j, he⟩
  · rintro ⟨hz, hne, j, he⟩
    have hlt := h.bucketIndex_lt t k
    have ha := hi.array _ hlt hz
    have hj := lt_length_of_slot_ne (he ▸ hne)
    rw [ha.length] at hj
    exact ⟨_, mem_range.mpr hlt,
      mem_visitBucket.mpr ⟨hz, j, hj, he, he ▸ (ha.storable (he ▸ hne)).1⟩⟩

theorem TableInv.visitBucket_once (hl : t.Lawful) (hi : TableInv t h m) (hlt : i < h.nbuckets) :
    (visitBucket t h i).Pairwise fun kv kv' => kv.1 ≠ kv'.1 := by
  simp only [visitBucket]
  split
  · exact .nil
  · next hz =>
    have ha := hi.array i hlt hz
    rw [pairwise_flatMap]
    constructor
    · intro j _
      rw [pairwise_filter, pairwise_map]
      refine nodup_range.imp ?_
      intro k k' hne hf _
      exact ha.key_ne hl (by simpa using hf) (by omega)
    · refine nodup_range.imp ?_
      intro j j' hne x hx y hy
      simp only [mem_filter, List.mem_map, mem_range, Bool.not_eq_true'] at hx hy
      obtain ⟨⟨k, hk, rfl⟩, hf⟩ := hx
      obtain ⟨⟨k', hk', rfl⟩, _⟩ := hy
      refine ha.key_ne hl hf ?_
      simp only [kvpPerPage] at hk hk' ⊢
      omega

theorem TableInv.foreach_once (hl : t.Lawful) (hi : TableInv t h m) :
    ((clibBihashForeachKeyValuePair t h).map Prod.fst).Nodup := by
  rw [List.Nodup, pairwise_map, clibBihashForeachKeyValuePair, pairwise_flatMap]
  constructor
  · intro i hm
    exact hi.visitBucket_once hl (mem_range.mp hm)
  · refine nodup_range.imp_of_mem ?_
    intro i j hmi hmj hne x hx y hy he
    rw [mem_range] at hmi hmj
    have hx' := hi.bucket_of_mem hl hmi hx
    rw [he, hi.bucket_of_mem hl hmj hy] at hx'
    exact hne hx'.symm

theorem TableInv.readsAs (hl : t.Lawful) (hi : TableInv t h m) : ReadsAs t h m := by
  constructor
  case search =>
    intro searchKey valuep hk
    rw [clibBihashSearch, hi.searchPair_eq hl hk]
    cases m searchKey.1 with
    | none => rfl
    | some v => rfl
  case search_inline =>
    intro kvp hk
    rw [clibBihashSearchInline, hi.searchPair_eq hl hk]
    cases m kvp.1 with
    | none => rfl
    | some v => rfl
  case search_inline_2 =>
    intro searchKey valuep hk
    rw [clibBihashSearchInline2, hi.searchPair_eq hl hk]
    cases m searchKey.1 with
    | none => rfl
    | some v => rfl
  case foreach_iff => exact hi.foreach_iff hl
  case foreach_once => exact hi.foreach_once hl

/-- The pairs a caller may add and the keys it may delete. -/
def Op.Ok (t : Template K V) : Op K V → Prop
  | .add kv => t.Storable kv
  | .del kv => kv.1 ≠ t.ones.1

section
variable [DecidableEq K]

theorem Op.call_spec (hl : t.Lawful) (hi : TableInv t h m) {op : Op K V} (hop : op.Ok t) :
    ∃ h' rv, op.call t h = some (h', rv) ∧ TableInv t h' (update m op.key op.value) := by
  cases op with
  | add kv =>
    obtain ⟨h', he, hi', _⟩ := clibBihashAddDel_add hl hi hop
    exact ⟨h', 0, he, hi'⟩
  | del kv =>
    obtain ⟨h', rv, he, hi', _⟩ := clibBihashAddDel_del hi hop
    exact ⟨h', rv, he, hi'⟩

theorem runOps_spec (hl : t.Lawful) (hi : TableInv t h m) {ops : List (Op K V)}
    (hops : ∀ op ∈ ops, op.Ok t) :
    ∃ h', runOps t h ops = some h' ∧
      TableInv t h' (ops.foldl (fun m op => update m op.key op.value) m) := by
  induction ops generalizing h m with
  | nil => exact ⟨h, rfl, hi⟩
  | cons op ops ih =>
    obtain ⟨h1, rv, hcall, hi1⟩ := Op.call_spec hl hi (hops op (.head _))
    obtain ⟨h', hrun, hi'⟩ := ih hi1 fun op' hm => hops op' (.tail _ hm)
    refine ⟨h', ?_, hi'⟩
    rw [runOps, hcall]
    exact hrun

theorem foldl_eq_lastValue (ops : List (Op K V)) :
    ops.foldl (fun m op => update m op.key op.value) (fun _ => none) = lastValue ops := by
  induction ops using List.reverseRecOn with
  | nil => rfl
  | append_singleton ops op ih =>
    rw [foldl_append, ih]
    funext k
    simp only [foldl_cons, foldl_nil, lastValue, List.reverse_append, reverse_cons,
      reverse_nil, nil_append, List.cons_append, find?_cons, update_apply]
    by_cases hk : k = op.key
    · simp [hk]
    · simp [hk, Ne.symm hk]

theorem mem_of_lastValue {ops : List (Op K V)} (hv : lastValue ops k = some v) : .add (k, v) ∈ ops := by
  obtain ⟨op, hfind, hval⟩ := Option.bind_eq_some_iff.mp hv
  have hm := mem_reverse.mp (mem_of_find?_eq_some hfind)
  have hk := find?_some hfind
  rw [decide_eq_true_eq] at hk
  cases op with
  | add kv =>
    obtain rfl := Option.some.inj hval
    obtain rfl := hk
    exact hm
  | del kv => exact absurd hval (by simp [Op.value])

theorem refinesMap (hl : t.Lawful) (log2Nbuckets : Nat) {ops : List (Op K V)}
    (hops : ∀ op ∈ ops, op.Ok t) : RefinesMap t log2Nbuckets ops := by
  obtain ⟨h, hrun, hi⟩ := runOps_spec hl (TableInv.init t log2Nbuckets) hops
  rw [foldl_eq_lastValue] at hi
  exact ⟨h, hrun, hi.readsAs hl⟩

end

end

abbrev Word := BitVec 64

def clibBihashIsFree88 (v : Word × Word) : Bool := v.1 = ~~~0 ∧ v.2 = ~~~0

def clibBihashKeyCompare88 (a b : Word) : Bool := a = b

def template88 (hash : Word → Word) : Template Word Word :=
  ⟨(~~~0, ~~~0), clibBihashIsFree88, clibBihashKeyCompare88, hash⟩

theorem template88_lawful (hash : Word → Word) : (template88 hash).Lawful :=
  ⟨fun a b => by simp [template88, clibBihashKeyCompare88], rfl⟩

theorem template88_storable (hash : Word → Word) {kv : Word × Word} (hk : kv.1 ≠ ~~~0) :
    (template88 hash).Storable kv :=
  ⟨decide_eq_false fun hf => hk hf.1, hk⟩

/-- Whatever the hash function, a table with 8 octet keys is a finite map on the keys other than
`~0`. -/
theorem bihash_8_8_refines_map (hash : Word → Word) (log2Nbuckets : Nat) (ops : List (Op Word Word))
    (hkeys : ∀ op ∈ ops, op.key ≠ ~~~0) : RefinesMap (template88 hash) log2Nbuckets ops := by
  apply refinesMap (template88_lawful hash)
  intro op hm
  have hk := hkeys op hm
  cases op with
  | add kv => exact template88_storable hash hk
  | del kv => exact hk

/-- Six colliding keys overflow a page; one is replaced and one is deleted. -/
theorem bihash_8_8_refines_map_colliding :
    RefinesMap (template88 fun _ => 0) 1
      [.add (1, 10), .add (2, 20), .add (3, 30), .add (4, 40), .add (5, 50), .add (6, 60),
        .add (2, 21), .del (3, 0)] :=
  bihash_8_8_refines_map _ _ _ (by decide)

structure Key24 where
  key0 : Word
  key1 : Word
  key2 : Word
  deriving DecidableEq, Repr

def clibBihashIsFree248 (v : Key24 × Word) : Bool := v.1.key0 = ~~~0 ∧ v.2 = ~~~0

def clibBihashKeyCompare248 (a b : Key24) : Bool :=
  ((a.key0 ^^^ b.key0) ||| (a.key1 ^^^ b.key1) ||| (a.key2 ^^^ b.key2)) = 0

def Key24.ones : Key24 := ⟨~~~0, ~~~0, ~~~0⟩

def template248 (hash : Key24 → Word) : Template Key24 Word :=
  ⟨(.ones, ~~~0), clibBihashIsFree248, clibBihashKeyCompare248, hash⟩

theorem template248_lawful (hash : Key24 → Word) : (template248 hash).Lawful := by
  refine ⟨?_, rfl⟩
  rintro ⟨a0, a1, a2⟩ ⟨b0, b1, b2⟩
  simp only [template248, clibBihashKeyCompare248, decide_eq_true_eq, Key24.mk.injEq]
  rw [show (0 : Word) = 0#64 from rfl, BitVec.or_eq_zero_iff, BitVec.or_eq_zero_iff,
    BitVec.xor_eq_zero_iff, BitVec.xor_eq_zero_iff, BitVec.xor_eq_zero_iff, and_assoc]

/-- The call adds a pair that the free-slot test takes for a cleared cell. -/
def Op.AddsFree : Op Key24 Word → Prop
  | .add kv => kv.1.key0 = ~~~0 ∧ kv.2 = ~~~0
  | .del _ => False

/-- As long as no added pair has `~0` both in its first key word and in its value, a table with 24
octet keys is a finite map on the keys other than all ones, and no live pair passes for a free slot. -/
theorem bihash_24_8_refines_map (hash : Key24 → Word) (log2Nbuckets : Nat)
    (ops : List (Op Key24 Word)) (hkeys : ∀ op ∈ ops, op.key ≠ .ones)
    (hfree : ∀ op ∈ ops, ¬ op.AddsFree) :
    RefinesMap (template248 hash) log2Nbuckets ops ∧
      ∀ k v, lastValue ops k = some v → clibBihashIsFree248 (k, v) = false := by
  have hops (op : Op Key24 Word) (hm : op ∈ ops) : op.Ok (template248 hash) := by
    have hk := hkeys op hm
    have hf := hfree op hm
    cases op with
    | add kv => exact ⟨decide_eq_false hf, hk⟩
    | del kv => exact hk
  refine ⟨refinesMap (template248_lawful hash) log2Nbuckets hops, ?_⟩
  intro k v hv
  exact (hops _ (mem_of_lastValue hv)).1

/-- A first key word or a value of `~0` alone does no harm. -/
theorem bihash_24_8_refines_map_ones_key :
    RefinesMap (template248 fun _ => 0) 0
        [.add (⟨~~~0, 0, 0⟩, 7), .add (⟨1, 0, 0⟩, ~~~0), .del (⟨~~~0, 0, 0⟩, ~~~0)] ∧
      ∀ k v, lastValue [.add (⟨~~~0, 0, 0⟩, 7), .add (⟨1, 0, 0⟩, ~~~0), .del (⟨~~~0, 0, 0⟩, ~~~0)] k
        = some v → clibBihashIsFree248 (k, v) = false :=
  bihash_24_8_refines_map _ _ _ (by decide) (by simp [Op.AddsFree])

/-- A pair with `~0` in its first key word and in its value is overwritten by the next add to its
page, and then not found. -/
theorem bihash_24_8_live_pair_lost :
    (∀ op ∈ ([.add (⟨~~~0, 0, 0⟩, ~~~0), .add (⟨1, 0, 0⟩, 5)] : List (Op Key24 Word)),
        op.key ≠ .ones) ∧
      ¬ RefinesMap (template248 fun _ => 0) 0 [.add (⟨~~~0, 0, 0⟩, ~~~0), .add (⟨1, 0, 0⟩, 5)] := by
  refine ⟨by decide, ?_⟩
  rintro ⟨h, hrun, hreads⟩
  have hs := hreads.search (⟨~~~0, 0, 0⟩, 0) (⟨0, 0, 0⟩, 0) (by decide)
  obtain rfl := Option.some.inj hrun
  exact absurd hs (by decide)

end Vpp.Bihash
