import TrieBenchmark.Api
import TrieBenchmark.Lib.Lane

/-!
The transaction handles of the bucket-lock engine's moves. Its `stack_shell` and its
`dc_rename_exchange` are the two loops that can escalate. Besides the handle, a loop carries the
lingering entries it has ready from one attempt to the next.
-/

namespace TrieBenchmark.Bucketlock.Lane

open TrieBenchmark.Lane

inductive Linger where
  | off
  | always
  | onDemand
  deriving DecidableEq, Repr

/-- The switches that change which exits a move has: the scan arm, `DC_MOUNT_COUNT`, and the
check of the destination that `DC_NO_RENAME_DEST_RECHECK` turns off. -/
structure Build where
  linger : Linger
  mountCount : Bool
  destRecheck : Bool
  deriving DecidableEq, Repr

/-- What a loop carries from one attempt to the next: its handle, and whether what the move is
to leave behind is allocated. -/
structure Carry where
  handle : Handle
  ready : Bool
  deriving DecidableEq, Repr

abbrev Exit := Carry × Option Fault

def lingerNeeded (b : Build) (scans : Bool) (c : Carry) : Bool :=
  match b.linger with
  | .off => false
  | .always => c.ready
  | .onDemand => scans

def lingerWanted (b : Build) (scans : Bool) : Bool :=
  match b.linger with
  | .off => false
  | .always => true
  | .onDemand => scans

def Carry.bail (c : Carry) : Carry := { c with handle := c.handle.bail }

def Carry.again (c : Carry) : Carry := { c with handle := c.handle.again }

def Carry.close (st : Status) (c : Carry) : Carry := { c with handle := c.handle.close st }

def Carry.txnBegin (wants : Bool) (c : Carry) : Carry :=
  { c with handle := c.handle.txnBegin wants }

@[simp] theorem lingerNeeded_txnBegin (b : Build) (scans wants : Bool) (c : Carry) :
    lingerNeeded b scans (c.txnBegin wants) = lingerNeeded b scans c := rfl

@[simp] theorem txnBegin_ready (wants : Bool) (c : Carry) : (c.txnBegin wants).ready = c.ready := rfl

/-- One round of `stack_shell`. `alloc` is what `linger_alloc` answers between two attempts, and
`shift` whether the counts that go with the move are worked out and still hold. -/
structure StackTry where
  wants : Bool
  found : Bool
  moving : Bool
  cycle : Option Errno
  marked : Bool
  scans : Bool
  alloc : Bool
  positive : Bool
  taken : Bool
  counted : Bool
  shift : Bool
  moveBegin : Option Fault
  st : Status

def stackTry (b : Build) (cross : Bool) (o : StackTry) (c : Carry) :
    Carry × Option (Option Fault) :=
  let c := c.txnBegin o.wants
  if !o.found then (c.bail, some (some (.errno .ENOENT)))
  else if cross ∧ o.moving then (c.bail, none)
  else if cross ∧ o.cycle = some .EINVAL then (c.bail, some (some (.errno .EINVAL)))
  else if cross ∧ o.cycle.isSome then (c.again, none)
  else if o.marked then (c.again, none)
  else if cross ∧ lingerNeeded b o.scans c ∧ !c.ready then
    -- the lane is kept, and the allocation comes before the next attempt
    if o.alloc then ({ c.again with ready := true }, none)
    else (c.again, some (some (.errno .ENOMEM)))
  else if !o.positive then (c.bail, some (some (.errno .ENOENT)))
  else if b.destRecheck ∧ o.taken then (c.bail, some (some (.errno .EEXIST)))
  else if b.mountCount ∧ cross ∧ o.counted ∧ !o.shift then
    match o.moveBegin with
    | some e => (c.bail, some (some e))
    | none => (c.bail, none)
  else (c.close o.st, verdict o.st (.errno .ENOMEM))

/-- The rounds that come to `linger_alloc`. -/
def StackTry.allocates (b : Build) (cross : Bool) (o : StackTry) (c : Carry) : Bool :=
  o.found && cross && !o.moving && o.cycle.isNone && !o.marked && lingerNeeded b o.scans c &&
    !c.ready

structure StackHead where
  alloc : Bool
  cross : Bool
  scans : Bool
  lingerAlloc : Bool

def stackShell (b : Build) (o : StackHead) (tries : List StackTry) : Option Exit :=
  if !o.alloc then some (⟨.init, false⟩, some (.errno .ENOMEM))
  else if o.cross ∧ lingerWanted b o.scans ∧ !o.lingerAlloc then
    some (⟨.init, false⟩, some (.errno .ENOMEM))
  else retry (stackTry b o.cross) tries ⟨.init, o.cross && lingerWanted b o.scans⟩

/-- One round of `dc_rename_exchange`. `ca` and `cb` are the two cycle checks, `alloc` the two
allocations between attempts. -/
structure ExchangeTry where
  wants : Bool
  found : Bool
  movingLo : Bool
  movingHi : Bool
  ca : Option Errno
  cb : Option Errno
  marked : Bool
  scans : Bool
  alloc : Bool
  counted : Bool
  shift : Bool
  xchgBegin : Option Fault
  st : Status

def exchangeTry (b : Build) (cross : Bool) (o : ExchangeTry) (c : Carry) :
    Carry × Option (Option Fault) :=
  let c := c.txnBegin o.wants
  if !o.found then (c.bail, some (some (.errno .ENOENT)))
  else if cross ∧ o.movingLo then (c.bail, none)
  else if cross ∧ o.movingHi then (c.bail, none)
  -- the second check is not made when the first one has an answer
  else if cross ∧ (o.ca <|> o.cb) = some .EINVAL then (c.bail, some (some (.errno .EINVAL)))
  else if cross ∧ (o.ca <|> o.cb).isSome then (c.again, none)
  else if o.marked then (c.again, none)
  else if cross ∧ lingerNeeded b o.scans c ∧ !c.ready then
    if o.alloc then ({ c.again with ready := true }, none)
    else (c.again, some (some (.errno .ENOMEM)))
  else if b.mountCount ∧ cross ∧ o.counted ∧ !o.shift then
    match o.xchgBegin with
    | some e => (c.bail, some (some e))
    | none => (c.bail, none)
  else (c.close o.st, verdict o.st (.errno .ENOMEM))

def ExchangeTry.allocates (b : Build) (cross : Bool) (o : ExchangeTry) (c : Carry) : Bool :=
  o.found && cross && !o.movingLo && !o.movingHi && (o.ca <|> o.cb).isNone && !o.marked &&
    lingerNeeded b o.scans c && !c.ready

structure ExchangeHead where
  root : Bool
  pa : Bool
  pb : Bool
  hosts : Bool
  same : Bool
  cross : Bool
  alloc : Bool
  scans : Bool
  lingerAlloc : Bool

def dcRenameExchange (b : Build) (o : ExchangeHead) (tries : List ExchangeTry) : Option Exit :=
  if o.root then some (⟨.init, false⟩, some (.errno .EINVAL))
  else if !o.pa then some (⟨.init, false⟩, some (.errno .ENOENT))
  else if !o.pb then some (⟨.init, false⟩, some (.errno .ENOENT))
  else if !o.hosts then some (⟨.init, false⟩, some (.errno .ENOENT))
  else if o.same then some (⟨.init, false⟩, none)
  else if !o.alloc then some (⟨.init, false⟩, some (.errno .ENOMEM))
  else if o.cross ∧ lingerWanted b o.scans ∧ !o.lingerAlloc then
    some (⟨.init, false⟩, some (.errno .ENOMEM))
  else retry (exchangeTry b o.cross) tries ⟨.init, o.cross && lingerWanted b o.scans⟩

section Attempts

variable (b : Build) (cross : Bool) (c : Carry)

/-- With the entry that is to linger allocated, no exit of a move keeps the lane. -/
theorem stackTry_frees {o : StackTry} (ho : o.allocates b cross c = true → o.alloc = true) :
    Frees Carry.handle (stackTry b cross o c) := by
  unfold stackTry
  dsimp only
  split_ifs
  all_goals first
    | exact Returns.next _
    | exact frees_bail rfl _
    | exact frees_close rfl _
    | skip
  · refine absurd (ho ?_) ‹_›
    simp_all [StackTry.allocates]
  · split
    · exact frees_bail rfl _
    · exact Returns.next _

theorem exchangeTry_frees {o : ExchangeTry} (ho : o.allocates b cross c = true → o.alloc = true) :
    Frees Carry.handle (exchangeTry b cross o c) := by
  unfold exchangeTry
  dsimp only
  split_ifs
  all_goals first
    | exact Returns.next _
    | exact frees_bail rfl _
    | exact frees_close rfl _
    | skip
  · refine absurd (ho ?_) ‹_›
    simp_all [ExchangeTry.allocates]
  · split
    · exact frees_bail rfl _
    · exact Returns.next _

end Attempts

/-- No `linger_alloc` that the loop makes between two attempts fails. -/
def StackLingers (b : Build) (o : StackHead) (tries : List StackTry) : Prop :=
  Along (fun o' c => o'.allocates b o.cross c = true → o'.alloc = true) (stackTry b o.cross) tries
    ⟨.init, o.cross && lingerWanted b o.scans⟩

def ExchangeLingers (b : Build) (o : ExchangeHead) (tries : List ExchangeTry) : Prop :=
  Along (fun o' c => o'.allocates b o.cross c = true → o'.alloc = true) (exchangeTry b o.cross)
    tries ⟨.init, o.cross && lingerWanted b o.scans⟩

theorem stackShell_leaves {b : Build} {o : StackHead} {tries : List StackTry}
    (hok : StackLingers b o tries) : Leaves Carry.handle (stackShell b o tries) := by
  unfold stackShell
  split_ifs
  · exact leaves_early (by rfl) _
  · exact leaves_early (by rfl) _
  · exact leaves_retry (fun _ c ho => stackTry_frees b o.cross c ho) hok

theorem dcRenameExchange_leaves {b : Build} {o : ExchangeHead} {tries : List ExchangeTry}
    (hok : ExchangeLingers b o tries) : Leaves Carry.handle (dcRenameExchange b o tries) := by
  unfold dcRenameExchange
  split_ifs
  all_goals first
    | exact leaves_early (by rfl) _
    | exact leaves_retry (fun _ c ho => exchangeTry_frees b o.cross c ho) hok

end TrieBenchmark.Bucketlock.Lane
