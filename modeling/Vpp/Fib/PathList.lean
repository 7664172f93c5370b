import Mathlib.Data.BitVec
import Vpp.Lib.Pool

namespace Vpp.Fib
open Vpp.Lib

inductive FibProtocol where
  | ip4
  | ip6
  | mpls
  deriving DecidableEq, Repr

/-- Addresses are the sixteen bytes of an `ip46_address_t`; a label shares its first four. -/
structure FibRoutePath where
  frpProto : FibProtocol
  frpAddr : BitVec 128
  frpSwIfIndex : BitVec 32
  frpFibIndex : BitVec 32
  frpWeight : BitVec 32
  resolveViaHost : Bool
  resolveViaAttached : Bool
  isLocal : Bool
  attached : Bool
  deriving DecidableEq, Repr

structure FibPathCfgFlags where
  drop : Bool
  exclusive : Bool
  resolveHost : Bool
  resolveAttached : Bool
  attached : Bool
  isLocal : Bool
  deriving DecidableEq, Repr

inductive FibPathData where
  | attachedNextHop (fpNh : BitVec 128) (fpInterface : BitVec 32)
  | attached (fpInterface : BitVec 32)
  | recursive (fpNh : BitVec 128) (fpTblId : BitVec 32)
  | special
  | exclusive (fpExDpo : BitVec 64)
  | deag (fpTblId : BitVec 32)
  | receive (fpInterface : BitVec 32) (fpAddr : BitVec 128)
  deriving DecidableEq, Repr

structure FibPathConf where
  fpCfgFlags : FibPathCfgFlags
  fpNhProto : FibProtocol
  fpWeight : BitVec 32
  data : FibPathData
  deriving DecidableEq, Repr

/-- What a path resolves to is left out: it is neither copied nor compared. -/
structure FibPathElt where
  fpPlIndex : Nat
  conf : FibPathConf
  deriving DecidableEq, Repr

instance : Inhabited FibPathElt :=
  ⟨0, ⟨false, false, false, false, false, false⟩, .ip4, 0, .special⟩

structure FibPathListFlags where
  shared : Bool
  drop : Bool
  isLocal : Bool
  exclusive : Bool
  deriving DecidableEq, Repr

structure FibPathList where
  fplFlags : FibPathListFlags
  fplNhProto : FibProtocol
  fplPaths : List Nat
  deriving DecidableEq, Repr

instance : Inhabited FibPathList := ⟨⟨false, false, false, false⟩, .ip4, []⟩

/-- The code around the path-lists: the comparison of two interfaces, the hash of a path, the mixing of a path's hash
with the hash before, and a sort, which puts a vector in some order. -/
structure FibPathEnv where
  swInterfaceCompare : BitVec 32 → BitVec 32 → Int
  pathHash : FibPathConf → BitVec 64
  hashMix64 : BitVec 64 → BitVec 64 → BitVec 64 → BitVec 64 × BitVec 64
  vecSort : (Nat → Nat → Int) → List Nat → List Nat
  vecSort_perm : ∀ cmp v, (vecSort cmp v).Perm v

structure FibPathLists where
  paths : Pool FibPathElt
  lists : Pool FibPathList
  db : List Nat

def indexInvalid : BitVec 32 := BitVec.allOnes 32

def fibPathListFlags2PathFlags (plf : FibPathListFlags) : FibPathCfgFlags :=
  ⟨plf.drop, plf.exclusive, false, false, false, plf.isLocal⟩

def fibPathListFlagsFixup (flags : FibPathListFlags) : FibPathListFlags :=
  if flags.drop ∨ flags.exclusive then { flags with shared := false } else flags

def fibPathRouteFlagsToCfgFlags (flags : FibPathCfgFlags) (rpath : FibRoutePath) : FibPathCfgFlags :=
  { flags with
    resolveHost := flags.resolveHost || rpath.resolveViaHost
    resolveAttached := flags.resolveAttached || rpath.resolveViaAttached
    isLocal := flags.isLocal || rpath.isLocal
    attached := flags.attached || rpath.attached }

def localLabel (a : BitVec 128) : BitVec 128 := (a >>> 96) <<< 96

def fibPathData (isLocal : Bool) (nhProto : FibProtocol) (rpath : FibRoutePath) : FibPathData :=
  if isLocal then .receive rpath.frpSwIfIndex rpath.frpAddr
  else if rpath.frpSwIfIndex ≠ indexInvalid then
    if rpath.frpAddr = 0 then .attached rpath.frpSwIfIndex
    else .attachedNextHop rpath.frpAddr rpath.frpSwIfIndex
  else if rpath.frpAddr = 0 then
    if rpath.frpFibIndex = indexInvalid then .special else .deag rpath.frpFibIndex
  else .recursive (if nhProto = .mpls then localLabel rpath.frpAddr else rpath.frpAddr) rpath.frpFibIndex

def fibPathConf (nhProto : FibProtocol) (flags : FibPathCfgFlags) (rpath : FibRoutePath) : FibPathConf where
  fpCfgFlags := fibPathRouteFlagsToCfgFlags flags rpath
  fpNhProto := nhProto
  -- a weight of 0 is a meaningless value
  fpWeight := if rpath.frpWeight = 0 then 1 else rpath.frpWeight
  data := fibPathData (fibPathRouteFlagsToCfgFlags flags rpath).isLocal nhProto rpath

/-- The sign of `memcmp` on the bytes of two addresses. -/
def ip46AddressCmp (a b : BitVec 128) : Int := if a = b then 0 else if a < b then -1 else 1

def FibPathData.fpType (d : FibPathData) : Int := d.ctorIdx

def FibProtocol.index (p : FibProtocol) : Int := p.ctorIdx

/-- Different weights only are the same path. -/
def fibPathCmpI (env : FibPathEnv) (path1 path2 : FibPathConf) : Int :=
  if path1.data.fpType ≠ path2.data.fpType then path1.data.fpType - path2.data.fpType
  else if path1.fpNhProto ≠ path2.fpNhProto then path1.fpNhProto.index - path2.fpNhProto.index
  else
    match path1.data, path2.data with
    | .attachedNextHop nh1 if1, .attachedNextHop nh2 if2 =>
      if ip46AddressCmp nh1 nh2 = 0 then env.swInterfaceCompare if1 if2 else ip46AddressCmp nh1 nh2
    | .attached if1, .attached if2 => env.swInterfaceCompare if1 if2
    | .recursive nh1 tbl1, .recursive nh2 tbl2 =>
      if ip46AddressCmp nh1 nh2 = 0 then (tbl1 - tbl2).toInt else ip46AddressCmp nh1 nh2
    | .deag tbl1, .deag tbl2 => (tbl1 - tbl2).toInt
    | _, _ => 0

namespace FibPathLists

variable (env : FibPathEnv) (s : FibPathLists)

def conf (i : Nat) : FibPathConf := (s.paths.eltAt i).conf

def fibPathCmp (pi1 pi2 : Nat) : Int := fibPathCmpI env (s.conf pi1) (s.conf pi2)

def newPath (path : FibPathElt) : FibPathLists × Nat :=
  ({ s with paths := s.paths.get.1.set s.paths.get.2 path }, s.paths.get.2)

def fibPathCreate (plIndex : Nat) (nhProto : FibProtocol) (flags : FibPathCfgFlags) (rpath : FibRoutePath) :
    FibPathLists × Nat := s.newPath ⟨plIndex, fibPathConf nhProto flags rpath⟩

def fibPathCopy (pathIndex plIndex : Nat) : FibPathLists × Nat :=
  s.newPath { s.paths.eltAt pathIndex with fpPlIndex := plIndex }

def fibPathDestroy (pathIndex : Nat) : FibPathLists := { s with paths := s.paths.put pathIndex }

def fibPathListAlloc : FibPathLists × Nat :=
  ({ s with lists := s.lists.get.1.set s.lists.get.2 default }, s.lists.get.2)

def fplPaths (l : Nat) : List Nat := (s.lists.eltAt l).fplPaths

def fibPathListDestroy (l : Nat) : FibPathLists :=
  { s with paths := (s.fplPaths l).foldl Pool.put s.paths, lists := s.lists.put l }

def setList (l : Nat) (pathList : FibPathList) : FibPathLists := { s with lists := s.lists.set l pathList }

def mixPath (h : BitVec 64 × BitVec 64) (c : FibPathConf) : BitVec 64 × BitVec 64 :=
  env.hashMix64 (env.pathHash c) h.1 h.2

def confsHash (cs : List FibPathConf) : BitVec 64 :=
  (cs.foldl (mixPath env) (BitVec.ofNat 64 cs.length, BitVec.ofNat 64 cs.length)).2

def confs (l : Nat) : List FibPathConf := (s.fplPaths l).map s.conf

def fibPathListHash (l : Nat) : BitVec 64 := confsHash env (s.confs l)

/-- Keys are equal when the hashes of the path-lists are. -/
def fibPathListDbFind (l : Nat) : Option Nat :=
  s.db.find? fun e => decide (s.fibPathListHash env e = s.fibPathListHash env l)

def fibPathListDbInsert (l : Nat) : FibPathLists := { s with db := l :: s.db }

def fibPathListDbRemove (l : Nat) : FibPathLists :=
  { s with db := s.db.eraseP fun e => decide (s.fibPathListHash env e = s.fibPathListHash env l) }

/-- How a new path-list ends: a shared one gives way to one of the data-base. Resolving the paths of the others leaves
the vectors and what is compared alone. -/
def share (l : Nat) : FibPathLists × Nat :=
  if (s.lists.eltAt l).fplFlags.shared then
    match s.fibPathListDbFind env l with
    | some e => (s.fibPathListDestroy l, e)
    | none => (s.fibPathListDbInsert l, l)
  else (s, l)

def createPaths (plIndex : Nat) (nhProto : FibProtocol) (flags : FibPathCfgFlags) :
    List FibRoutePath → FibPathLists → List Nat → FibPathLists × List Nat
  | [], s, v => (s, v)
  | rpath :: rpaths, s, v =>
    createPaths plIndex nhProto flags rpaths (s.fibPathCreate plIndex nhProto flags rpath).1
      (v ++ [(s.fibPathCreate plIndex nhProto flags rpath).2])

def fibPathListCreate (flags : FibPathListFlags) (rpath : FibRoutePath) (rpaths : List FibRoutePath) :
    FibPathLists × Nat :=
  let flags := fibPathListFlagsFixup flags
  let (s, l) := s.fibPathListAlloc
  let (s, v) := createPaths l rpath.frpProto (fibPathListFlags2PathFlags flags) (rpath :: rpaths) s []
  (s.setList l ⟨flags, rpath.frpProto, v⟩).share env l

/-- The loop of the copy. The vector has room for all paths and the new one; with a duplicate it is cut back to as many
as the original has. -/
def copyForAdd (newPathIndex plIndex n : Nat) :
    List Nat → FibPathLists → List Nat → Nat → FibPathLists × List Nat × Nat
  | [], s, v, pi => (s, v, pi)
  | i :: is, s, v, pi =>
    if s.fibPathCmp env newPathIndex i ≠ 0 then
      copyForAdd newPathIndex plIndex n is (s.fibPathCopy i plIndex).1 (v.set pi (s.fibPathCopy i plIndex).2) (pi + 1)
    else copyForAdd newPathIndex plIndex n is s (v.take n) pi

def fibPathListCopyAndPathAdd (orig : Nat) (flags : FibPathListFlags) (rpath : FibRoutePath) :
    FibPathLists × Nat :=
  let (s, l) := s.fibPathListAlloc
  let flags := fibPathListFlagsFixup flags
  let nhProto := (s.lists.eltAt orig).fplNhProto
  let n := (s.fplPaths orig).length
  let (s, new) := s.fibPathCreate l nhProto (fibPathListFlags2PathFlags flags) rpath
  let (s, v, pi) := copyForAdd env new l n (s.fplPaths orig) s (List.replicate (n + 1) 0) 0
  let v := env.vecSort (s.fibPathCmp env) (v.set pi new)
  (s.setList l ⟨flags, nhProto, v⟩).share env l

/-- The loop of the copy. The vector has room for all paths but one; more are appended. -/
def copyForRemove (tmpPathIndex plIndex : Nat) :
    List Nat → FibPathLists → List Nat → Nat → FibPathLists × List Nat
  | [], s, v, _ => (s, v)
  | i :: is, s, v, pi =>
    if s.fibPathCmp env tmpPathIndex i ≠ 0 then
      if pi < v.length then
        copyForRemove tmpPathIndex plIndex is (s.fibPathCopy i plIndex).1
          (v.set pi (s.fibPathCopy i plIndex).2) (pi + 1)
      else
        copyForRemove tmpPathIndex plIndex is (s.fibPathCopy i plIndex).1
          (v ++ [(s.fibPathCopy i plIndex).2]) pi
    else copyForRemove tmpPathIndex plIndex is s v pi

/-- No path-list when the vector is empty. -/
def fibPathListCopyAndPathRemove (orig : Nat) (flags : FibPathListFlags) (rpath : FibRoutePath) :
    FibPathLists × Option Nat :=
  let (s, l) := s.fibPathListAlloc
  let flags := fibPathListFlagsFixup flags
  let nhProto := (s.lists.eltAt orig).fplNhProto
  let n := (s.fplPaths orig).length
  let (s, tmp) := s.fibPathCreate l nhProto (fibPathListFlags2PathFlags flags) rpath
  let (s, v) := copyForRemove env tmp l (s.fplPaths orig) s (List.replicate (n - 1) 0) 0
  let s := s.fibPathDestroy tmp
  if v = [] then ((s.setList l ⟨flags, nhProto, []⟩).fibPathListDestroy l, none)
  else
    let v := env.vecSort (s.fibPathCmp env) v
    let r := (s.setList l ⟨flags, nhProto, v⟩).share env l
    (r.1, some r.2)

def fibPathListLastLockGone (l : Nat) : FibPathLists :=
  if (s.lists.eltAt l).fplFlags.shared then (s.fibPathListDbRemove env l).fibPathListDestroy l
  else s.fibPathListDestroy l

end FibPathLists

end Vpp.Fib
