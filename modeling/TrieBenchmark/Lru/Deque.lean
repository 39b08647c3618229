import Mathlib.Data.Int.Notation
import Mathlib.Logic.Function.Basic
import TrieBenchmark.Lib.Run

/-!
The sharded LRU of `dcache_lru.h`, MCAS arm: the shards are deques whose every change is one
commit, and the count of a shard is a word that is updated after the commit and apart from it.
-/

namespace TrieBenchmark.LruDeque

open Function

/-- The two engines that include the header. They differ in when a new dentry is pushed and in
whether the liveness test is part of the push's commit. -/
inductive Engine where
  | bucketlock
  | txn
  deriving DecidableEq, Repr

inductive Owner where
  | off
  | queue (q : ℕ)
  | poison
  deriving DecidableEq, Repr

/-- What the LRU reads and writes of the cache. `reclaim` are the dentries handed to `call_rcu`,
`freed` those whose memory was given back. -/
structure Dcache where
  fresh : ℕ
  parent : ℕ → ℕ
  published : ℕ → Bool
  unhashed : ℕ → Bool
  referenced : ℕ → Bool
  owner : ℕ → Owner
  deque : ℕ → List ℕ
  count : ℕ → BitVec 64
  reclaim : List ℕ
  freed : List ℕ

def root : ℕ := 0

def dcCreate : Dcache where
  fresh := 1
  parent := fun _ => root
  published := fun a => a = root
  unhashed := fun _ => false
  referenced := fun _ => false
  owner := fun _ => .off
  deque := fun _ => []
  count := fun _ => 0
  reclaim := []
  freed := []

namespace Dcache

variable (d : Dcache)

def existing : List ℕ :=
  (List.range d.fresh).filter (· ∉ d.freed)

def childrenEmpty (a : ℕ) : Bool :=
  (List.range d.fresh).all fun c =>
    !(c ≠ root && d.parent c = a && d.published c && !d.unhashed c)

def setOwner (a : ℕ) (o : Owner) : Dcache :=
  { d with owner := update d.owner a o }

def setDeque (q : ℕ) (l : List ℕ) : Dcache :=
  { d with deque := update d.deque q l }

def setReferenced (a : ℕ) (b : Bool) : Dcache :=
  { d with referenced := update d.referenced a b }

def setCount (q : ℕ) (n : BitVec 64) : Dcache :=
  { d with count := update d.count q n }

def dentryAlloc (p : ℕ) : Dcache :=
  { d with fresh := d.fresh + 1, parent := update d.parent d.fresh p }

def publish (a : ℕ) : Dcache :=
  { d with published := update d.published a true }

def unhash (a : ℕ) : Dcache :=
  { d with unhashed := update d.unhashed a true }

def removable (a : ℕ) : Bool :=
  a ≠ root && d.published a && !d.unhashed a && d.childrenEmpty a

def pushTail (q a : ℕ) : Option Dcache :=
  if d.owner a = .off then some ((d.setOwner a (.queue q)).setDeque q (d.deque q ++ [a])) else none

def remove (q a : ℕ) (o : Owner) : Option Dcache :=
  if d.owner a = .queue q then some ((d.setOwner a o).setDeque q ((d.deque q).erase a)) else none

def rotateHead (q : ℕ) : Dcache :=
  match d.deque q with
  | [] => d
  | h :: l => d.setDeque q (l ++ [h])

end Dcache

/-- The locals of `lru_shrink_range`. `existed` is the number of dentries that existed when the
budget was loaded: no step reads it. -/
structure Sweep where
  i : ℕ
  hi : ℕ
  nr : ℤ
  freed : ℤ
  scanned : BitVec 64
  budget : BitVec 64
  existed : ℕ
  deriving DecidableEq, Repr

inductive Call where
  | add (p q : ℕ)
  | retain (a q : ℕ)
  | del (a : ℕ)
  | kill (a : ℕ)
  | shrink (nr : ℤ) (lo hi : ℕ)
  deriving DecidableEq, Repr

/-- `new` is set for the push of a dentry that is published afterwards; `k` is the pass a kill is
part of. -/
inductive Pc where
  | idle
  | create (p q : ℕ)
  | publish (a : ℕ)
  | retain (a q : ℕ)
  | alive (a q : ℕ) (new : Bool)
  | push (a q : ℕ) (new : Bool)
  | inc (a q : ℕ) (new : Bool)
  | del (a : ℕ)
  | remove (a q : ℕ)
  | dec (a q : ℕ)
  | unhash (a : ℕ)
  | look (a : ℕ) (k : Option Sweep)
  | removeSeal (a q : ℕ) (k : Option Sweep)
  | sealOff (a : ℕ) (k : Option Sweep)
  | decSeal (a q : ℕ) (k : Option Sweep)
  | reclaim (a : ℕ) (k : Option Sweep)
  | shard (x : Sweep)
  | loop (x : Sweep)
  | head (x : Sweep)
  | visit (x : Sweep) (victim : ℕ)
  | kids (x : Sweep) (victim : ℕ)
  | evict (x : Sweep) (victim : ℕ)
  | rotate (x : Sweep)
  deriving DecidableEq, Repr

def Call.start : Call → Pc
  | .add p q => .create p q
  | .retain a q => .retain a q
  | .del a => .del a
  | .kill a => .unhash a
  | .shrink nr lo hi => .shard ⟨lo, hi, nr, 0, 0, 0, 0⟩

def Engine.push (e : Engine) (a q : ℕ) (new : Bool) : Pc :=
  match e with
  | .bucketlock => .alive a q new
  | .txn => .push a q new

def afterPush (a : ℕ) (new : Bool) : Pc :=
  if new then .publish a else .idle

def afterKill (k : Option Sweep) : Pc :=
  match k with
  | none => .idle
  | some x => .loop { x with freed := x.freed + 1 }

/-- One step of a thread. `ok` is false when a commit has no memory, when an add finds the name
taken or its parent gone, and when the victim of an eviction is not settled. -/
def step (e : Engine) (d : Dcache) (pc : Pc) (ok : Bool) : Option (Dcache × Pc) :=
  match pc with
  | .idle => none
  -- dc_add: the bucket-lock engine pushes under the locks it publishes with
  | .create p q =>
    if !ok then some (d, .idle)
    else match e with
      | .bucketlock => some (d.dentryAlloc p, .alive d.fresh q true)
      | .txn => some ((d.dentryAlloc p).publish d.fresh, .push d.fresh q false)
  | .publish a => some (d.publish a, .idle)
  -- lru_retain
  | .retain a q =>
    if d.owner a ≠ .off then some (d.setReferenced a true, .idle) else some (d, e.push a q false)
  -- lru_add_at
  | .alive a q new =>
    if d.unhashed a then some (d, afterPush a new) else some (d, .push a q new)
  | .push a q new =>
    if !ok || (e = .txn && d.unhashed a) then some (d, afterPush a new)
    else match d.pushTail q a with
      | some d' => some (d', .inc a q new)
      | none => some (d, afterPush a new)
  | .inc a q new => some (d.setCount q (d.count q + 1), afterPush a new)
  -- lru_del
  | .del a =>
    match d.owner a with
    | .queue q => some (d, .remove a q)
    | _ => some (d, .idle)
  | .remove a q =>
    if !ok then some (d, .del a)
    else match d.remove q a .off with
      | some d' => some (d', .dec a q)
      | none => some (d, .del a)
  | .dec a q => some (d.setCount q (d.count q - 1), .del a)
  -- the removal from both indexes
  | .unhash a => if d.removable a then some (d.unhash a, .look a none) else some (d, .idle)
  -- lru_del_can_free
  | .look a k =>
    match d.owner a with
    | .queue q => some (d, .removeSeal a q k)
    | _ => some (d, .sealOff a k)
  | .removeSeal a q k =>
    if !ok then some (d, .look a k)
    else if d.owner a = .poison then some (d, .reclaim a k)
    else match d.remove q a .poison with
      | some d' => some (d', .decSeal a q k)
      | none => some (d, .look a k)
  | .sealOff a k =>
    if !ok then some (d, .look a k)
    else match d.owner a with
      | .off => some (d.setOwner a .poison, .reclaim a k)
      | .queue _ => some (d, .look a k)
      | .poison => some (d, .reclaim a k)
  | .decSeal a q k => some (d.setCount q (d.count q - 1), .reclaim a k)
  | .reclaim a k => some ({ d with reclaim := a :: d.reclaim }, afterKill k)
  -- lru_shrink_range
  | .shard x =>
    if x.i < x.hi ∧ x.freed < x.nr then
      some (d, .loop { x with scanned := 0, budget := d.count x.i, existed := d.existing.length })
    else some (d, .idle)
  | .loop x =>
    if x.freed < x.nr ∧ x.scanned < x.budget then
      some (d, .head { x with scanned := x.scanned + 1 })
    else some (d, .shard { x with i := x.i + 1 })
  | .head x =>
    match d.deque x.i with
    | [] => some (d, .shard { x with i := x.i + 1 })
    | v :: _ => some (d, .visit x v)
  | .visit x v =>
    if d.referenced v then some (d.setReferenced v false, .rotate x) else some (d, .kids x v)
  | .kids x v => if !d.childrenEmpty v then some (d, .rotate x) else some (d, .evict x v)
  | .evict x v =>
    -- the publisher has the locks that an eviction takes
    if !d.published v then none
    else if ok && d.removable v then some (d.unhash v, .look v (some x))
    else some (d, .rotate x)
  | .rotate x => some (if ok then d.rotateHead x.i else d, .loop x)

structure Sys (n : ℕ) where
  d : Dcache
  pc : Fin n → Pc

inductive Act (n : ℕ) where
  | call (t : Fin n) (c : Call)
  | step (t : Fin n) (ok : Bool)
  | free (a : ℕ)
  deriving DecidableEq, Repr

namespace Sys

variable {n : ℕ}

def init (n : ℕ) : Sys n :=
  ⟨dcCreate, fun _ => .idle⟩

def admits (s : Sys n) : Call → Bool
  | .add p _ => s.d.published p
  | .retain a _ => s.d.published a && a ≠ root
  | .del a | .kill a => s.d.published a
  | .shrink .. => true

def act (e : Engine) (s : Sys n) : Act n → Option (Sys n)
  | .call t c =>
    if s.pc t = .idle ∧ s.admits c then some { s with pc := update s.pc t c.start }
    else none
  | .step t ok =>
    (step e s.d (s.pc t) ok).map fun r => ⟨r.1, update s.pc t r.2⟩
  | .free a =>
    if a ∈ s.d.reclaim ∧ a ∉ s.d.freed then
      some { s with d := { s.d with freed := a :: s.d.freed } }
    else none

end Sys

inductive Update where
  | inc (a q : ℕ)
  | dec (a q : ℕ)
  deriving DecidableEq, Repr

def Update.node : Update → ℕ
  | .inc a _ | .dec a _ => a

namespace Pc

def update : Pc → Option Update
  | .inc a q _ => some (.inc a q)
  | .dec a q | .decSeal a q _ => some (.dec a q)
  | _ => none

def commits : Pc → Option ℕ
  | .push a _ _ | .remove a _ | .removeSeal a _ _ | .sealOff a _ => some a
  | _ => none

def sweep : Pc → Option Sweep
  | .look _ k | .removeSeal _ _ k | .sealOff _ k | .decSeal _ _ k | .reclaim _ k => k
  | .loop x | .head x | .visit x _ | .kids x _ | .evict x _ | .rotate x => some x
  | _ => none

end Pc

/-- A commit about a node is made only when no thread owes a count update for that node. -/
def Sys.Orderly {n : ℕ} (s : Sys n) : Act n → Prop
  | .step t _ => ∀ a ∈ (s.pc t).commits, ∀ t', ∀ u ∈ (s.pc t').update, u.node ≠ a
  | _ => True

instance {n : ℕ} (s : Sys n) (a : Act n) : Decidable (s.Orderly a) :=
  match a with
  | .step t _ => inferInstanceAs
      (Decidable (∀ a ∈ (s.pc t).commits, ∀ t', ∀ u ∈ (s.pc t').update, u.node ≠ a))
  | .call .. | .free _ => .isTrue trivial

end TrieBenchmark.LruDeque
