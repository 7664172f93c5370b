import Mathlib.Data.Rat.Floor
import Vpp.Infra.Bitops

namespace Vpp.Dpo

structure DpoId where
  type : Nat
  proto : Nat
  nextNode : Nat
  index : Nat
  deriving DecidableEq

structure Path where
  pathDpo : DpoId
  pathWeight : Nat
  deriving DecidableEq

def nextHopSortByWeight (n1 n2 : Path) : Int :=
  (BitVec.ofNat 32 n1.pathWeight - BitVec.ofNat 32 n2.pathWeight).toInt

def fltRoundNearest (x : ℚ) : Nat := ⌊x + 1 / 2⌋.toNat

/-- The loop over the saved weights at one size of the block: the weights up to the first that is zero,
what is left of the block and the error. -/
def normalizeLoop (nAdj sumWeight : Nat) : List Nat → (nAdjLeft : Nat) → (error : ℚ) → List Nat × Nat × ℚ
  | [], nAdjLeft, error => ([], nAdjLeft, error)
  | weight :: weights, nAdjLeft, error =>
    let nf : ℚ := weight * (nAdj / sumWeight)
    let n := fltRoundNearest nf
    let n := if n > nAdjLeft then nAdjLeft else n
    let nAdjLeft := nAdjLeft - n
    let error := error + |nf - n|
    let pathWeight := n % 2 ^ 32
    if pathWeight = 0 then ([], nAdjLeft, nAdj)
    else
      let (rest, nAdjLeft, error) := normalizeLoop nAdj sumWeight weights nAdjLeft error
      (pathWeight :: rest, nAdjLeft, error)

def addToFirst (n : Nat) : List Nat → List Nat
  | [] => []
  | weight :: weights => (weight + n) % 2 ^ 32 :: weights

/-- Try larger and larger blocks. The size is a 64-bit word and doubles with each pass. -/
def normalizeFrom (tolerance : ℚ) (weights : List Nat) (sumWeight : Nat) :
    (fuel : Nat) → (nAdj : Nat) → Option (List Nat × Nat)
  | 0, _ => none
  | fuel + 1, nAdj =>
    let (normalized, nAdjLeft, error) := normalizeLoop nAdj sumWeight weights nAdj 0
    if error ≤ tolerance * nAdj then some (addToFirst nAdjLeft normalized, nAdj)
    else normalizeFrom tolerance weights sumWeight fuel (nAdj * 2 % 2 ^ 64)

def sortNextHops (qsort : List Path → List Path) : List Path → List Path
  | [nh0, nh1] => if nextHopSortByWeight nh0 nh1 < 0 then [nh1, nh0] else [nh0, nh1]
  | raw => qsort raw

def setWeights (nhs : List Path) (weights : List Nat) : List Path :=
  List.zipWith (fun nh weight => { nh with pathWeight := weight }) nhs weights

/-- The weights that are normalized: they are all one if they are all given as zero. -/
def savedWeights (nhs : List Path) : List Nat :=
  let weights := nhs.map Path.pathWeight
  if weights.sum = 0 then nhs.map fun _ => 1 else weights

/-- The normalized next hops and the number of adjacencies, which is returned as a 32-bit word. -/
def ipMultipathNormalizeNextHops (qsort : List Path → List Path) (tolerance : ℚ) :
    List Path → Option (List Path × Nat)
  | [] => some ([], 0)
  | [nh] => some ([{ nh with pathWeight := 1 }], 1)
  | [nh0, nh1] =>
    if nh0.pathWeight = nh1.pathWeight then
      some ([{ nh0 with pathWeight := 1 }, { nh1 with pathWeight := 1 }], 2)
    else normalizeSorted (sortNextHops qsort [nh0, nh1])
  | raw => normalizeSorted (sortNextHops qsort raw)
where
  normalizeSorted (nhs : List Path) : Option (List Path × Nat) := do
    let weights := savedWeights nhs
    let (normalized, nAdj) ← normalizeFrom tolerance weights weights.sum 65 (Infra.maxPow2 nhs.length)
    some (setWeights nhs normalized, nAdj % 2 ^ 32)

/-- A bucket, without a value before it is first written and after it is reset. -/
abbrev Bucket := Option DpoId

/-- The arrays of buckets. The local one is the new array before it is installed and the old one after. -/
inductive Arr where
  | inline
  | outline
  | scratch
  deriving DecidableEq

structure LoadBalance where
  nBuckets : Nat
  nBucketsMinus1 : Nat
  map : Nat
  bucketsInline : List Bucket
  buckets : List Bucket
  scratch : List Bucket
  deriving DecidableEq

inductive Store where
  | nBuckets (n : Nat)
  | nBucketsMinus1 (n : Nat)
  | map (lbmi : Nat)
  | bucket (a : Arr) (i : Nat) (b : Bucket)
  | validate (a : Arr) (n : Nat)
  | install
  | free (a : Arr)

def LoadBalance.arr (lb : LoadBalance) : Arr → List Bucket
  | .inline => lb.bucketsInline
  | .outline => lb.buckets
  | .scratch => lb.scratch

def LoadBalance.setArr (lb : LoadBalance) (v : List Bucket) : Arr → LoadBalance
  | .inline => { lb with bucketsInline := v }
  | .outline => { lb with buckets := v }
  | .scratch => { lb with scratch := v }

def LoadBalance.store (lb : LoadBalance) : Store → LoadBalance
  | .nBuckets n => { lb with nBuckets := n % 2 ^ 16 }
  | .nBucketsMinus1 n => { lb with nBucketsMinus1 := n % 2 ^ 16 }
  | .map lbmi => { lb with map := lbmi }
  | .bucket a i b => lb.setArr ((lb.arr a).set i b) a
  | .validate a n => lb.setArr (lb.arr a ++ List.replicate (n - (lb.arr a).length) none) a
  | .install => { lb with buckets := lb.scratch, scratch := lb.buckets }
  | .free a => lb.setArr [] a

def lbNumInlineBuckets : Nat := 4

/-- Which array `LB_HAS_INLINE_BUCKETS` selects. -/
def LoadBalance.getBuckets (lb : LoadBalance) : Arr := if lb.nBuckets ≤ lbNumInlineBuckets then .inline else .outline

def dpoStack (edge : DpoId → Nat) (parent : DpoId) : DpoId := { parent with nextNode := edge parent }

/-- Write `n` buckets from bucket `i` on. -/
def writeBuckets (a : Arr) (i n : Nat) (b : Bucket) : List Store :=
  (List.range n).map fun ii => .bucket a (i + ii) b

/-- The buckets and the loop over one path's buckets are counted in 16 bits: a larger weight is never
reached. -/
def fillBuckets (edge : DpoId → Nat) (a : Arr) : List Path → (bucket : Nat) → Option (List Store)
  | [], _ => some []
  | nh :: nhs, bucket =>
    if nh.pathWeight < 2 ^ 16 then do
      let rest ← fillBuckets edge a nhs ((bucket + nh.pathWeight) % 2 ^ 16)
      some ((List.range nh.pathWeight).map
        (fun ii => .bucket a ((bucket + ii) % 2 ^ 16) (some (dpoStack edge nh.pathDpo))) ++ rest)
    else none

def setNBuckets (n : Nat) : List Store := [.nBuckets n, .nBucketsMinus1 (n + 2 ^ 32 - 1)]

/-- The stores that install the normalized next hops `nhs`, with `lbmi` the new load-balance map. -/
def updateStores (edge : DpoId → Nat) (lb : LoadBalance) (nhs : List Path) (nBuckets lbmi : Nat) :
    Option (List Store) :=
  let fill (a : Arr) := fillBuckets edge a nhs 0
  let old := lb.nBuckets
  if 0 = old then do
    let n := nBuckets % 2 ^ 16
    let filled ← fill (if n ≤ lbNumInlineBuckets then .inline else .outline)
    some (setNBuckets nBuckets ++ (if ¬ n ≤ lbNumInlineBuckets then [.validate .outline n] else []) ++
      filled ++ [.map lbmi])
  else if nBuckets = old then do
    some ((← fill lb.getBuckets) ++ [.map lbmi])
  else if nBuckets > old then
    if nBuckets > lbNumInlineBuckets ∧ old ≤ lbNumInlineBuckets then do
      some ([.validate .outline nBuckets] ++ (← fill .outline) ++ setNBuckets nBuckets ++
        writeBuckets .inline 0 lbNumInlineBuckets none ++ [.map lbmi])
    else if nBuckets ≤ lbNumInlineBuckets then do
      some ((← fill lb.getBuckets) ++ setNBuckets nBuckets ++ [.map lbmi])
    else do
      some ([.validate .scratch nBuckets] ++ (← fill .scratch) ++ [.install] ++ setNBuckets nBuckets ++
        writeBuckets .scratch 0 lb.buckets.length none ++ [.free .scratch] ++ [.map lbmi])
  else if nBuckets ≤ lbNumInlineBuckets ∧ old > lbNumInlineBuckets then do
    some ([.map lbmi] ++ (← fill .inline) ++ setNBuckets nBuckets ++
      writeBuckets .outline 0 lb.buckets.length none ++ [.free .outline])
  else do
    some ([.map lbmi] ++ setNBuckets nBuckets ++ (← fill lb.getBuckets) ++
      writeBuckets lb.getBuckets nBuckets (old - nBuckets) none)

def LoadBalance.storeAll (lb : LoadBalance) (stores : List Store) : LoadBalance := stores.foldl .store lb

def nextHopFixup (drop : DpoId) (nhs : List Path) : List Path := if nhs.length = 0 then [⟨drop, 1⟩] else nhs

def loadBalanceMultipathUpdate (qsort : List Path → List Path) (tolerance : ℚ) (edge : DpoId → Nat)
    (drop : DpoId) (lb : LoadBalance) (raw : List Path) (lbmi : Nat) : Option LoadBalance := do
  let (nhs, nBuckets) ← ipMultipathNormalizeNextHops qsort tolerance (nextHopFixup drop raw)
  let stores ← updateStores edge lb nhs nBuckets lbmi
  some (lb.storeAll stores)

end Vpp.Dpo
