import Vpp.Fib.EntrySrc
import Vpp.Fib.PathList

namespace Vpp.Fib

structure FibTable (P : Type) where
  prefixes : Finset P
  entry : P → FibEntry
  ftTotalRouteCounts : BitVec 32
  ftSrcRouteCounts : FibSource → BitVec 32

def fibEntryIsSourced (e : FibEntry) (source : FibSource) : Bool := (fibEntrySrcFind e source).isSome

def addedAfter (bestSource : Option FibSource) (source : FibSource) (removed : FibEntry × Bool) : Bool :=
  if bestSource ≠ some source then true
  else if !removed.2 then (fibEntryGetBestSource removed.1).isSome
  else true

def fibEntryPathRemoveFlag (vft : Vft) (e : FibEntry) (source : FibSource) : Bool :=
  addedAfter (fibEntryGetBestSource e) source (fibEntrySrcActionPathRemove vft e source)

def fibEntrySpecialRemoveFlag (vft : Vft) (e : FibEntry) (source : FibSource) : Bool :=
  addedAfter (fibEntryGetBestSource e) source (fibEntrySrcActionRemove vft e source)

section
variable {P : Type} [DecidableEq P]

def FibTable.setEntry (t : FibTable P) (p : P) (e : FibEntry) :
    FibTable P := { t with entry := Function.update t.entry p e }

def FibTable.countSrc (t : FibTable P) (source : FibSource) (n : BitVec 32) : FibTable P :=
  { t with ftSrcRouteCounts := Function.update t.ftSrcRouteCounts source (t.ftSrcRouteCounts source + n) }

def fibTableEntryInsert (t : FibTable P) (p : P) (e : FibEntry) : FibTable P :=
  let t := { t with ftTotalRouteCounts := t.ftTotalRouteCounts + 1 }
  if p ∈ t.prefixes then t else { t.setEntry p e with prefixes := insert p t.prefixes }

def fibTableEntryRemove (t : FibTable P) (p : P) : FibTable P :=
  { t with
    ftTotalRouteCounts := t.ftTotalRouteCounts - 1
    prefixes := t.prefixes.erase p }

/-- The path-lists that a call makes and releases lead to calls on the same table: `inner` are those while the entry
is made or changed, after it was looked up, and `after` those when the entries below the prefix find another cover.
-/
def addSource (create : FibEntry) (change : Bool → FibEntry → FibEntry) (inner after : FibTable P → FibTable P)
    (t : FibTable P) (p : P) (source : FibSource) : FibTable P :=
  if p ∈ t.prefixes then
    let wasSourced := fibEntryIsSourced (t.entry p) source
    let t := inner t
    let t := after (t.setEntry p (change wasSourced (t.entry p)))
    if wasSourced ≠ fibEntryIsSourced (t.entry p) source then t.countSrc source 1 else t
  else
    let t := after (fibTableEntryInsert (inner t) p create)
    t.countSrc source 1

def fibTableEntrySpecialDpoAdd (vft : Vft) (inner after : FibTable P → FibTable P) (t : FibTable P) (p : P)
    (source : FibSource) : FibTable P :=
  addSource (fibEntryCreateSpecial vft source) (fun _ e => fibEntrySpecialAdd vft e source) inner after t p source

def fibTableEntrySpecialDpoUpdate (vft : Vft) (inner after : FibTable P → FibTable P) (t : FibTable P) (p : P)
    (source : FibSource) : FibTable P :=
  addSource (fibEntryCreateSpecial vft source) (fun wasSourced e =>
    if wasSourced then fibEntrySpecialUpdate vft e source else fibEntrySpecialAdd vft e source) inner after t p source

def fibTableEntryPathAdd2 (vft : Vft) (inner after : FibTable P → FibTable P) (t : FibTable P) (p : P)
    (source : FibSource) : FibTable P :=
  addSource (fibEntryCreate vft source) (fun _ e => fibEntryPathAdd vft e source) inner after t p source

def fibTableEntryUpdate (vft : Vft) (inner after : FibTable P → FibTable P) (t : FibTable P) (p : P)
    (source : FibSource) : FibTable P :=
  addSource (fibEntryCreate vft source) (fun _ e => fibEntryUpdate vft e source) inner after t p source

def removeSource (change : FibEntry → FibEntry) (added : FibEntry → Bool) (inner after : FibTable P → FibTable P)
    (t : FibTable P) (p : P) (source : FibSource) : FibTable P :=
  if p ∈ t.prefixes then
    let wasSourced := fibEntryIsSourced (t.entry p) source
    let t := inner t
    let e := t.entry p
    let t := t.setEntry p (change e)
    let t := after (if added e then t else fibTableEntryRemove t p)
    if wasSourced ≠ fibEntryIsSourced (t.entry p) source then t.countSrc source (-1) else t
  else t

def fibTableEntryPathRemove2 (vft : Vft) (inner after : FibTable P → FibTable P) (t : FibTable P) (p : P)
    (source : FibSource) : FibTable P :=
  removeSource (fibEntryPathRemove vft · source) (fibEntryPathRemoveFlag vft · source) inner after t p source

def fibTableEntrySpecialRemove (vft : Vft) (inner after : FibTable P → FibTable P) (t : FibTable P) (p : P)
    (source : FibSource) : FibTable P :=
  removeSource (fibEntrySpecialRemove vft · source) (fibEntrySpecialRemoveFlag vft · source) inner after t p source

/-- The removal of the source is that of `fibEntrySpecialRemove`. -/
def fibTableEntryDelete (vft : Vft) (inner after : FibTable P → FibTable P) (t : FibTable P) (p : P)
    (source : FibSource) : FibTable P :=
  removeSource (fibEntrySpecialRemove vft · source) (fibEntrySpecialRemoveFlag vft · source) inner after t p source

end

inductive TableFunction where
  | specialDpoAdd
  | specialDpoUpdate
  | pathAdd2
  | update
  | pathRemove2
  | specialRemove
  | delete

/-- A label and its end-of-stack bit are in the first bytes of the address. -/
structure FibPrefix where
  fpLen : Nat
  fpProto : FibProtocol
  fpAddr : BitVec 128
  deriving DecidableEq

def ip46AddressIsIp4 (addr : BitVec 128) : Bool := addr >>> 32 = 0

def fibPrefixFromIp46Addr (addr : BitVec 128) : FibPrefix :=
  if ip46AddressIsIp4 addr then ⟨32, .ip4, addr⟩ else ⟨128, .ip6, addr⟩

def fibPrefixFromMplsLabel (label : BitVec 128) : FibPrefix := ⟨21, .mpls, label⟩

def fibRouteRecursesViaSelf (pre : FibPrefix) (rpath : FibRoutePath) : Bool :=
  rpath.frpAddr ≠ 0 ∧ rpath.frpSwIfIndex = indexInvalid ∧ rpath.frpAddr = pre.fpAddr

/-- The flag forces the install of a drop path-list. Each path sets it or clears it again. -/
def fibEntryFlagsUpdate (pre : FibPrefix) (plFlags : FibPathListFlags) (rpath : FibRoutePath) : FibPathListFlags :=
  { plFlags with drop := fibRouteRecursesViaSelf pre rpath }

/-- What a new path of a list with these flags recurses through: a prefix of the table with that index. A permanent drop
resolves via the drop. -/
def recursesVia (plFlags : FibPathListFlags) (rpath : FibRoutePath) : Option (FibPrefix × BitVec 32) :=
  let conf := fibPathConf rpath.frpProto (fibPathListFlags2PathFlags plFlags) rpath
  match conf.fpCfgFlags.drop, conf.data with
  | false, .recursive nh tbl =>
    some (if conf.fpNhProto = .mpls then fibPrefixFromMplsLabel nh else fibPrefixFromIp46Addr nh, tbl)
  | _, _ => none

mutual

/-- A call and what it leads to on the same table. It has `paths` if it is one that comes with paths, and what `shared`
tells is whether their list is already in the data-base. `inner` are the other calls while the entry is made or changed,
by the path-lists that are copied and released, and `after` those when the entries below find another cover. -/
inductive TableCall where
  | mk (f : TableFunction) (vft : Vft) (pre : FibPrefix) (source : FibSource) (plFlags : FibPathListFlags)
    (paths : List PathCall) (shared : Bool) (inner after : List TableCall)

/-- A path of a call, with what the entry leads to that it has made for what it recurses through. -/
inductive PathCall where
  | mk (rpath : FibRoutePath) (vft : Vft) (inner after : List TableCall)

end

def PathCall.rpath : PathCall → FibRoutePath
  | ⟨rpath, _, _, _⟩ => rpath

def callFlags (pre : FibPrefix) (plFlags : FibPathListFlags) (paths : List PathCall) : FibPathListFlags :=
  fibPathListFlagsFixup ((paths.map PathCall.rpath).foldl (fibEntryFlagsUpdate pre) plFlags)

def TableFunction.run [DecidableEq P] (vft : Vft) (inner after : FibTable P → FibTable P) (t : FibTable P) (p : P)
    (source : FibSource) : TableFunction → FibTable P
  | .specialDpoAdd => fibTableEntrySpecialDpoAdd vft inner after t p source
  | .specialDpoUpdate => fibTableEntrySpecialDpoUpdate vft inner after t p source
  | .pathAdd2 => fibTableEntryPathAdd2 vft inner after t p source
  | .update => fibTableEntryUpdate vft inner after t p source
  | .pathRemove2 => fibTableEntryPathRemove2 vft inner after t p source
  | .specialRemove => fibTableEntrySpecialRemove vft inner after t p source
  | .delete => fibTableEntryDelete vft inner after t p source

section
variable (proto : FibProtocol) (fibIndex : BitVec 32)

def viaHere (plFlags : FibPathListFlags) (rpath : FibRoutePath) : Option FibPrefix :=
  match recursesVia plFlags rpath with
  | some (via, tbl) => if via.fpProto = proto ∧ tbl = fibIndex then some via else none
  | none => none

mutual

def TableCall.run : TableCall → FibTable FibPrefix → FibTable FibPrefix
  | ⟨f, vft, pre, source, plFlags, paths, shared, inner, after⟩, t =>
    let flags := callFlags pre plFlags paths
    let resolve := fun t => if flags.shared ∧ shared then t else resolvePaths flags paths t
    f.run vft (fun t => runCalls inner (resolve t)) (runCalls after) t pre source

def runCalls : List TableCall → FibTable FibPrefix → FibTable FibPrefix
  | [], t => t
  | c :: cs, t => runCalls cs (c.run t)

def PathCall.resolve (plFlags : FibPathListFlags) : PathCall → FibTable FibPrefix → FibTable FibPrefix
  | ⟨rpath, vft, inner, after⟩, t =>
    match viaHere proto fibIndex plFlags rpath with
    | some via => fibTableEntrySpecialDpoAdd vft (runCalls inner) (runCalls after) t via .rr
    | none => t

def resolvePaths (plFlags : FibPathListFlags) : List PathCall → FibTable FibPrefix → FibTable FibPrefix
  | [], t => t
  | c :: cs, t => resolvePaths plFlags cs (c.resolve plFlags t)

end

mutual

def TableCall.on : TableCall → List FibPrefix
  | ⟨_, _, pre, _, plFlags, paths, shared, inner, after⟩ =>
    let flags := callFlags pre plFlags paths
    pre :: ((if flags.shared ∧ shared then [] else pathsOn flags paths) ++ callsOn inner ++ callsOn after)

def callsOn : List TableCall → List FibPrefix
  | [] => []
  | c :: cs => c.on ++ callsOn cs

def PathCall.on (plFlags : FibPathListFlags) : PathCall → List FibPrefix
  | ⟨rpath, _, inner, after⟩ =>
    match viaHere proto fibIndex plFlags rpath with
    | some via => via :: (callsOn inner ++ callsOn after)
    | none => []

def pathsOn (plFlags : FibPathListFlags) : List PathCall → List FibPrefix
  | [] => []
  | c :: cs => c.on plFlags ++ pathsOn plFlags cs

end

mutual

def TableCall.Outward : TableCall → Prop
  | ⟨_, _, pre, _, plFlags, paths, shared, inner, after⟩ =>
    let flags := callFlags pre plFlags paths
    (¬ (flags.shared ∧ shared) → pre ∉ pathsOn proto fibIndex flags paths ∧ PathsOutward flags paths) ∧
      pre ∉ callsOn proto fibIndex inner ∧ pre ∉ callsOn proto fibIndex after ∧
      CallsOutward inner ∧ CallsOutward after

def CallsOutward : List TableCall → Prop
  | [] => True
  | c :: cs => c.Outward ∧ CallsOutward cs

def PathCall.Outward (plFlags : FibPathListFlags) : PathCall → Prop
  | ⟨rpath, _, inner, after⟩ => ∀ via, viaHere proto fibIndex plFlags rpath = some via →
    via ∉ callsOn proto fibIndex inner ∧ via ∉ callsOn proto fibIndex after ∧ CallsOutward inner ∧ CallsOutward after

def PathsOutward (plFlags : FibPathListFlags) : List PathCall → Prop
  | [] => True
  | c :: cs => c.Outward plFlags ∧ PathsOutward plFlags cs

end

end

def emptyFib : FibTable P := ⟨∅, fun _ => fibEntryAlloc, 0, fun _ => 0⟩

end Vpp.Fib
