import TrieBenchmark.Bucketlock.Lane
import TrieBenchmark.Txn.Lane

/-!
Which calls return without the escalation lane. All calls of the lock-free engine do, whatever
their lookups, prepares, allocations and commits answer. The two moves of the bucket-lock
engine do unless an entry that is to linger cannot be allocated between two attempts.
-/

namespace TrieBenchmark.Lane

inductive Call where
  | add (b : Txn.Lane.Build) (o : Txn.Lane.AddHead) (tries : List Txn.Lane.AddTry)
  | unlink (b : Txn.Lane.Build) (o : Txn.Lane.UnlinkHead) (tries : List Txn.Lane.UnlinkTry)
  | rename (b : Txn.Lane.Build) (o : Txn.Lane.RenameHead) (tries : List Txn.Lane.StackTry)
  | exchange (o : Txn.Lane.ExchangeHead) (tries : List Txn.Lane.ExchangeTry)
  | delete (b : Txn.Lane.Build) (o : Txn.Lane.SetHead) (tries : List Txn.Lane.SetTry)
  | instantiate (b : Txn.Lane.Build) (o : Txn.Lane.SetHead) (tries : List Txn.Lane.SetTry)
  | fold (b : Txn.Lane.Build) (tries : List Txn.Lane.FoldTry)
  | evict (b : Txn.Lane.Build) (skip : Bool) (tries : List Txn.Lane.EvictTry)
  | stackLocked (b : Bucketlock.Lane.Build) (o : Bucketlock.Lane.StackHead)
      (tries : List Bucketlock.Lane.StackTry)
  | exchangeLocked (b : Bucketlock.Lane.Build) (o : Bucketlock.Lane.ExchangeHead)
      (tries : List Bucketlock.Lane.ExchangeTry)

namespace Call

def handle : Call → Option Handle
  | add b o tries => (Txn.Lane.dcAdd b o tries).map Prod.fst
  | unlink b o tries => (Txn.Lane.dcUnlink b o tries).map Prod.fst
  | rename b o tries => (Txn.Lane.dcRename b o tries).map Prod.fst
  | exchange o tries => (Txn.Lane.dcRenameExchange o tries).map Prod.fst
  | delete b o tries => (Txn.Lane.dcDelete b o tries).map Prod.fst
  | instantiate b o tries => (Txn.Lane.dcInstantiate b o tries).map Prod.fst
  | fold b tries => (Txn.Lane.fold b tries).map Prod.fst
  | evict b skip tries => (Txn.Lane.lruEvictSettled b skip tries).map Prod.fst
  | stackLocked b o tries => (Bucketlock.Lane.stackShell b o tries).map fun x => x.1.handle
  | exchangeLocked b o tries =>
    (Bucketlock.Lane.dcRenameExchange b o tries).map fun x => x.1.handle

/-- No `linger_alloc` that a move makes between two attempts fails. -/
def LingersAllocated : Call → Prop
  | stackLocked b o tries => Bucketlock.Lane.StackLingers b o tries
  | exchangeLocked b o tries => Bucketlock.Lane.ExchangeLingers b o tries
  | _ => True

end Call

theorem map_inFallback {X : Type} {run : Option X} {f : X → Handle} {h : Handle}
    (hl : ∀ x, run = some x → (f x).inFallback = false) (hh : run.map f = some h) :
    h.inFallback = false := by
  obtain ⟨x, hx, rfl⟩ := Option.map_eq_some_iff.mp hh
  exact hl x hx

theorem returns_without_lane (c : Call) (hc : c.LingersAllocated) (h : Handle)
    (hh : c.handle = some h) : h.inFallback = false := by
  cases c with
  | add b o tries => exact map_inFallback (Txn.Lane.dcAdd_leaves b o tries) hh
  | unlink b o tries => exact map_inFallback (Txn.Lane.dcUnlink_leaves b o tries) hh
  | rename b o tries => exact map_inFallback (Txn.Lane.dcRename_leaves b o tries) hh
  | exchange o tries => exact map_inFallback (Txn.Lane.dcRenameExchange_leaves o tries) hh
  | delete b o tries => exact map_inFallback (Txn.Lane.dcDelete_leaves b o tries) hh
  | instantiate b o tries => exact map_inFallback (Txn.Lane.dcInstantiate_leaves b o tries) hh
  | fold b tries => exact map_inFallback (Txn.Lane.fold_leaves b tries) hh
  | evict b skip tries => exact map_inFallback (Txn.Lane.lruEvictSettled_leaves b skip tries) hh
  | stackLocked b o => exact map_inFallback (Bucketlock.Lane.stackShell_leaves hc) hh
  | exchangeLocked b o =>
    exact map_inFallback (Bucketlock.Lane.dcRenameExchange_leaves hc) hh

/-- A cross-directory round that gets to its commit unless a scan is under way with nothing
ready to linger; then `alloc` is what the allocation answers. -/
def scannedTry (alloc : Bool) : Bucketlock.Lane.StackTry :=
  { wants := true, found := true, moving := false, cycle := none, marked := false, scans := true,
    alloc, positive := true, taken := false, counted := false, shift := true, moveBegin := none,
    st := .ok }

def scannedMove (alloc : Bool) : Call :=
  .stackLocked ⟨.onDemand, false, true⟩ ⟨true, true, false, true⟩
    [{ scannedTry true with wants := false, marked := true }, scannedTry alloc, scannedTry true]

theorem returns_without_lane_scanned : ∃ h : Handle,
    (scannedMove true).handle = some h ∧ h.inFallback = false := by
  have hh : (scannedMove true).handle = some ⟨false, false⟩ := by decide
  have hc : (scannedMove true).LingersAllocated :=
    ⟨fun _ => rfl, fun _ => ⟨fun _ => rfl, fun _ => ⟨fun _ => rfl, fun _ => trivial⟩⟩⟩
  exact ⟨_, hh, returns_without_lane (scannedMove true) hc _ hh⟩

/-- With the allocation refused, the move returns and its handle keeps the lane. -/
theorem scannedMove_keeps_lane : ∃ h : Handle,
    (scannedMove false).handle = some h ∧ h.inFallback = true :=
  ⟨⟨true, false⟩, by decide, rfl⟩

end TrieBenchmark.Lane
