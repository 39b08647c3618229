import TrieBenchmark.Lib.Lane
import TrieBenchmark.Txn.Cache

/-!
The transaction handles of the lock-free engine. Every operation is its retry loop over what its
lookups, prepares, allocations and commits may answer: an attempt is given one answer of each,
and the answers of a whole call are the list of its attempts' answers. A call starts with a
fresh handle, and `none` instead of a return is a call that is still retrying.
-/

namespace TrieBenchmark.Txn.Lane

open TrieBenchmark.Lane

/-- The switches that change which exits an operation has: the arm, `DC_TXN_PARENT_GUARD`,
`DC_TXN_PARENT_SEAL` and the duplicate check that `DC_NO_ADD_DUP_RECHECK` turns off. -/
structure Build where
  arm : Arm
  parentGuard : Bool
  parentSeal : Bool
  dupRecheck : Bool
  deriving DecidableEq, Repr

abbrev Exit := Handle × Option Errno

def laneGiveback (h : Handle) : Handle :=
  if h.inFallback then (h.txnBegin false).bail else h

theorem frees_laneGiveback (h : Handle) (r : Option (Option Errno)) :
    Frees id (laneGiveback h, r) := by
  apply Returns.last
  unfold laneGiveback
  split_ifs with hl
  · exact Handle.bail_inFallback _
  · simpa using hl

structure AddTry where
  wants : Bool
  negative : Bool
  gone : Bool
  sealed : Bool
  taken : Bool
  hash : Option Errno
  sib : Option Errno
  st : Status

def addTry (b : Build) (o : AddTry) (h : Handle) : Handle × Option (Option Errno) :=
  let h := h.txnBegin o.wants
  if b.arm = .mark ∧ o.negative then (h.bail, some (some .ENOENT))
  else if b.parentGuard ∧ o.gone then (h.bail, some (some .ENOENT))
  else if b.dupRecheck ∧ ¬ o.sealed ∧ o.taken then (h.bail, some (some .EEXIST))
  else
    match (if b.dupRecheck ∧ o.sealed then some Errno.ENOENT else o.hash) <|> o.sib with
    | some .EAGAIN => (h.again, none)
    | some p => (h.bail, some (some p))
    | none => (h.close o.st, verdict o.st .ENOMEM)

structure AddHead where
  root : Bool
  parent : Bool
  isdir : Bool
  taken : Bool
  alloc : Bool

def dcAdd (b : Build) (o : AddHead) (tries : List AddTry) : Option Exit :=
  if o.root then some (.init, some .EEXIST)
  else if !o.parent then some (.init, some .ENOENT)
  else if !o.isdir then some (.init, some .ENOTDIR)
  else if o.taken then some (.init, some .EEXIST)
  else if !o.alloc then some (.init, some .ENOMEM)
  else retry (addTry b) tries .init

/-- One round of `dc_unlink`. The top is looked up and its children are looked at before the
transaction begins. -/
structure UnlinkTry where
  wants : Bool
  found : Bool
  empty : Bool
  isdir : Bool
  sealFails : Bool
  hash : Option Errno
  sib : Option Errno
  st : Status

def unlinkTry (b : Build) (o : UnlinkTry) (h : Handle) : Handle × Option (Option Errno) :=
  if !o.found then (laneGiveback h, some (some .ENOENT))
  else if !o.empty then (laneGiveback h, some (some .ENOTEMPTY))
  else
    let h := h.txnBegin o.wants
    if b.parentSeal ∧ o.isdir ∧ o.sealFails then (laneGiveback h.bail, some (some .ENOMEM))
    else if (o.hash <|> o.sib).isSome then (h.again, none)
    else
      match o.st with
      | .error => (laneGiveback (h.close o.st), some (some .ENOMEM))
      | st => (h.close st, verdict st .ENOMEM)

structure UnlinkHead where
  root : Bool
  parent : Bool

def dcUnlink (b : Build) (o : UnlinkHead) (tries : List UnlinkTry) : Option Exit :=
  if o.root then some (.init, some .EINVAL)
  else if !o.parent then some (.init, some .ENOENT)
  else retry (unlinkTry b) tries .init

structure SetTry where
  wants : Bool
  ret : Option Errno
  st : Status

def setTry (o : SetTry) (h : Handle) : Handle × Option (Option Errno) :=
  let h := h.txnBegin o.wants
  match o.ret with
  | some e => (h.bail, some (some e))
  | none => (h.close o.st, verdict o.st .ENOMEM)

/-- `plain` is what `dc_set_negative` answers, on the arms that set the tag without a
transaction. -/
structure SetHead where
  root : Bool
  parent : Bool
  found : Bool
  isdir : Bool
  plain : Option Errno

def dcInstantiate (b : Build) (o : SetHead) (tries : List SetTry) : Option Exit :=
  if o.root then some (.init, some .EEXIST)
  else if !o.parent then some (.init, some .ENOENT)
  else if !o.found then some (.init, some .ENOENT)
  else if b.arm = .mark then retry setTry tries .init
  else some (.init, o.plain)

def dcDelete (b : Build) (o : SetHead) (tries : List SetTry) : Option Exit :=
  if o.root then some (.init, some .EISDIR)
  else if !o.parent then some (.init, some .ENOENT)
  else if !o.found then some (.init, some .ENOENT)
  else if b.arm = .mark then retry setTry tries .init
  else if o.isdir then some (.init, some .ENOTSUP)
  else some (.init, o.plain)

structure StackTry where
  wants : Bool
  negative : Bool
  found : Bool
  moving : Bool
  p : Option Fault
  st : Status

def stackTry (b : Build) (cross : Bool) (o : StackTry) (h : Handle) :
    Handle × Option (Option Errno) :=
  let h := h.txnBegin o.wants
  if b.arm = .mark ∧ o.negative then (laneGiveback h.bail, some (some .ENOENT))
  else if !o.found then (laneGiveback h.bail, some (some .ENOENT))
  else if cross ∧ o.moving then (h.bail, none)
  else
    match o.p with
    | some (.errno .EINVAL) => (laneGiveback h.bail, some (some .EINVAL))
    | some (.errno .EEXIST) => (laneGiveback h.bail, some (some .EEXIST))
    | some .ESTALE => (laneGiveback h.bail, some (some .ENOENT))
    | some _ => (h.again, none)
    | none =>
      match o.st with
      | .error => (laneGiveback (h.close o.st), some (some .ENOMEM))
      | st => (h.close st, verdict st .ENOMEM)

structure RenameHead where
  root : Bool
  fromParent : Bool
  victim : Bool
  toParent : Bool
  taken : Bool
  cross : Bool
  alloc : Bool

def dcRename (b : Build) (o : RenameHead) (tries : List StackTry) : Option Exit :=
  if o.root then some (.init, some .EINVAL)
  else if !o.fromParent then some (.init, some .ENOENT)
  else if !o.victim then some (.init, some .ENOENT)
  else if !o.toParent then some (.init, some .ENOENT)
  else if o.taken then some (.init, some .EEXIST)
  else if !o.alloc then some (.init, some .ENOMEM)
  else retry (stackTry b o.cross) tries .init

structure ExchangeTry where
  wants : Bool
  found : Bool
  movingLo : Bool
  movingHi : Bool
  p : Option Errno
  st : Status

def exchangeTry (cross : Bool) (o : ExchangeTry) (h : Handle) : Handle × Option (Option Errno) :=
  let h := h.txnBegin o.wants
  if !o.found then (laneGiveback h.bail, some (some .ENOENT))
  else if cross ∧ o.movingLo then (h.bail, none)
  else if cross ∧ o.movingHi then (h.bail, none)
  else
    match o.p with
    | some .EINVAL => (laneGiveback h.bail, some (some .EINVAL))
    | some _ => (h.again, none)
    | none =>
      match o.st with
      | .error => (laneGiveback (h.close o.st), some (some .ENOMEM))
      | st => (h.close st, verdict st .ENOMEM)

structure ExchangeHead where
  root : Bool
  pa : Bool
  pb : Bool
  hosts : Bool
  same : Bool
  cross : Bool
  alloc : Bool

def dcRenameExchange (o : ExchangeHead) (tries : List ExchangeTry) : Option Exit :=
  if o.root then some (.init, some .EINVAL)
  else if !o.pa then some (.init, some .ENOENT)
  else if !o.pb then some (.init, some .ENOENT)
  else if !o.hosts then some (.init, some .ENOENT)
  else if o.same then some (.init, none)
  else if !o.alloc then some (.init, some .ENOMEM)
  else retry (exchangeTry o.cross) tries .init

/-- One round of `fold`. `store` is the record of the identity handover, on the arm that has
one. -/
structure FoldTry where
  unhashed : Bool
  wants : Bool
  demoted : Bool
  store : Bool
  hash : Option Errno
  sib : Option Errno
  st : Status

def foldTry (b : Build) (o : FoldTry) (h : Handle) : Handle × Option (Option Errno) :=
  if o.unhashed then (laneGiveback h, some none)
  else
    let h := h.txnBegin o.wants
    if o.demoted then (h.again, none)
    else if b.arm = .mark ∧ !o.store then (h.again, none)
    else if o.hash = some .ENOENT then (laneGiveback h.bail, some none)
    else if (o.hash <|> o.sib).isSome then (h.again, none)
    else
      match o.st with
      | .abort => (h.close .abort, none)
      | st => (laneGiveback (h.close st), some none)

def fold (b : Build) (tries : List FoldTry) : Option Exit := retry (foldTry b) tries .init

structure EvictTry where
  wants : Bool
  busy : Bool
  sealFails : Bool
  hash : Option Errno
  sib : Option Errno
  st : Status

def evictTry (b : Build) (o : EvictTry) (h : Handle) : Handle × Option (Option Errno) :=
  let h := h.txnBegin o.wants
  if o.busy then (h.bail, some (some .EAGAIN))
  else if b.parentSeal ∧ o.sealFails then (h.bail, some (some .EAGAIN))
  else if (o.hash <|> o.sib).isSome then (h.bail, some (some .EAGAIN))
  else (h.close o.st, verdict o.st .EAGAIN)

def lruEvictSettled (b : Build) (skip : Bool) (tries : List EvictTry) : Option Exit :=
  if skip then some (.init, some .EAGAIN) else retry (evictTry b) tries .init

section Attempts

variable (b : Build) (cross : Bool) (h : Handle)

theorem addTry_frees (o : AddTry) : Frees id (addTry b o h) := by
  unfold addTry
  dsimp only
  (repeat' split) <;> first
    | exact Returns.next _
    | exact frees_laneGiveback _ _
    | exact frees_bail (by rfl) _
    | exact frees_close (by rfl) _

theorem unlinkTry_frees (o : UnlinkTry) : Frees id (unlinkTry b o h) := by
  unfold unlinkTry
  dsimp only
  (repeat' split) <;> first
    | exact Returns.next _
    | exact frees_laneGiveback _ _
    | exact frees_bail (by rfl) _
    | exact frees_close (by rfl) _

theorem setTry_frees (o : SetTry) : Frees id (setTry o h) := by
  unfold setTry
  dsimp only
  (repeat' split) <;> first
    | exact Returns.next _
    | exact frees_laneGiveback _ _
    | exact frees_bail (by rfl) _
    | exact frees_close (by rfl) _

theorem stackTry_frees (o : StackTry) : Frees id (stackTry b cross o h) := by
  unfold stackTry
  dsimp only
  (repeat' split) <;> first
    | exact Returns.next _
    | exact frees_laneGiveback _ _
    | exact frees_bail (by rfl) _
    | exact frees_close (by rfl) _

theorem exchangeTry_frees (o : ExchangeTry) : Frees id (exchangeTry cross o h) := by
  unfold exchangeTry
  dsimp only
  (repeat' split) <;> first
    | exact Returns.next _
    | exact frees_laneGiveback _ _
    | exact frees_bail (by rfl) _
    | exact frees_close (by rfl) _

theorem foldTry_frees (o : FoldTry) : Frees id (foldTry b o h) := by
  unfold foldTry
  dsimp only
  (repeat' split) <;> first
    | exact Returns.next _
    | exact frees_laneGiveback _ _

theorem evictTry_frees (o : EvictTry) : Frees id (evictTry b o h) := by
  unfold evictTry
  dsimp only
  (repeat' split) <;> first
    | exact Returns.next _
    | exact frees_laneGiveback _ _
    | exact frees_bail (by rfl) _
    | exact frees_close (by rfl) _

end Attempts

theorem leaves_loop {O : Type} {attempt : O → Handle → Handle × Option (Option Errno)}
    (h : ∀ o h, Frees id (attempt o h)) (tries : List O) :
    Leaves id (retry attempt tries .init) :=
  leaves_retry (fun o s (_ : True) => h o s) (along_of_forall fun _ _ => trivial)

section Calls

variable (b : Build)

theorem dcAdd_leaves (o : AddHead) (tries : List AddTry) : Leaves id (dcAdd b o tries) := by
  unfold dcAdd
  split_ifs
  all_goals first
    | exact leaves_early (by rfl) _
    | exact leaves_loop (fun o h => addTry_frees b h o) tries

theorem dcUnlink_leaves (o : UnlinkHead) (tries : List UnlinkTry) : Leaves id (dcUnlink b o tries) := by
  unfold dcUnlink
  split_ifs
  all_goals first
    | exact leaves_early (by rfl) _
    | exact leaves_loop (fun o h => unlinkTry_frees b h o) tries

theorem dcInstantiate_leaves (o : SetHead) (tries : List SetTry) :
    Leaves id (dcInstantiate b o tries) := by
  unfold dcInstantiate
  split_ifs
  all_goals first
    | exact leaves_early (by rfl) _
    | exact leaves_loop (fun o h => setTry_frees h o) tries

theorem dcDelete_leaves (o : SetHead) (tries : List SetTry) : Leaves id (dcDelete b o tries) := by
  unfold dcDelete
  split_ifs
  all_goals first
    | exact leaves_early (by rfl) _
    | exact leaves_loop (fun o h => setTry_frees h o) tries

theorem dcRename_leaves (o : RenameHead) (tries : List StackTry) : Leaves id (dcRename b o tries) := by
  unfold dcRename
  split_ifs
  all_goals first
    | exact leaves_early (by rfl) _
    | exact leaves_loop (fun o' h => stackTry_frees b o.cross h o') tries

theorem dcRenameExchange_leaves (o : ExchangeHead) (tries : List ExchangeTry) :
    Leaves id (dcRenameExchange o tries) := by
  unfold dcRenameExchange
  split_ifs
  all_goals first
    | exact leaves_early (by rfl) _
    | exact leaves_loop (fun o' h => exchangeTry_frees o.cross h o') tries

theorem fold_leaves (tries : List FoldTry) : Leaves id (fold b tries) :=
  leaves_loop (fun o h => foldTry_frees b h o) tries

theorem lruEvictSettled_leaves (skip : Bool) (tries : List EvictTry) :
    Leaves id (lruEvictSettled b skip tries) := by
  unfold lruEvictSettled
  split_ifs
  · exact leaves_early (by rfl) _
  · exact leaves_loop (fun o h => evictTry_frees b h o) tries

end Calls

end TrieBenchmark.Txn.Lane
