import TrieBenchmark.Bucketlock.Dentry

/-!
The critical sections of the bucket-lock engine: what each operation does between taking its
sorted heads and dropping them. A section runs alone on every chain it touches.
-/

namespace TrieBenchmark.Bucketlock

open Hlist

variable {Name : Type}

structure DcTxn (Name : Type) where
  dc : DCache Name
  hash : SwTxn ℕ ℕ
  sib : SwTxn ℕ ℕ
  top : List (ℕ × Option ℕ × Option ℕ)
  parent : List (ℕ × ℕ × ℕ)

namespace DcTxn

def begin (d : DCache Name) : DcTxn Name :=
  ⟨d, ⟨d.hash, []⟩, ⟨d.sib, []⟩, [], []⟩

def storeTop (t : DcTxn Name) (a : ℕ) (old new : Option ℕ) : DcTxn Name :=
  { t with top := t.top ++ [(a, old, new)] }

def storeParent (t : DcTxn Name) (a new : ℕ) : DcTxn Name :=
  { t with parent := t.parent ++ [(a, (t.dc.dentry a).parent, new)] }

/-- A single-writer commit settles every record in order and never aborts. -/
def commitSw (t : DcTxn Name) : DCache Name :=
  let d := { t.dc with hash := t.hash.commit, sib := t.sib.commit }
  let d := t.top.foldl (fun d r => d.setTop r.1 r.2.2) d
  t.parent.foldl (fun d r => d.setParent r.1 r.2.2) d

end DcTxn

namespace DCache

variable (d : DCache Name)

def delLocked (top : ℕ) : DCache Name :=
  { d with hash := blHlistDelLocked d.hash top, sib := blHlistDelLocked d.sib top }

def setNegative (host : ℕ) (negative : Bool) (id : ℕ) : Option Errno × DCache Name :=
  if (d.dentry host).neg = negative then
    (some (if negative then .ENOENT else .EEXIST), d)
  else
    (none, d.modify host fun e =>
      { e with neg := negative, id := if negative then e.id else id })

section

variable [DecidableEq Name]

def addLocked (parent : ℕ) (name : Name) (id : ℕ) (isdir positive : Bool) :
    Option Errno × DCache Name :=
  if !d.isPositive parent then (some .ENOENT, d)
  else if !d.entryAlive parent then (some .ENOENT, d)
  else if (d.childLookup parent name).isSome then (some .EEXIST, d)
  else
    let a := d.fresh
    let d₁ := d.alloc ⟨parent, false, !positive, name, none, none, isdir, parent, false, id⟩
    (none, { d₁ with
      hash := blHlistAddHeadLocked d.hash (d.bucketOf parent name) a
      sib := blHlistAddHeadLocked d.sib parent a })

/-- `dest_claim_locked`: `none` is `-EEXIST`; a replaced negative leaves both indexes. -/
def destClaimLocked (newParent : ℕ) (newName : Name) (self : ℕ) : Option (DCache Name) :=
  match d.findTop newParent newName with
  | none => some d
  | some cur =>
    if cur = self ∨ d.hostOf cur ≠ cur ∨ d.isPositive cur ∨ (d.dentry cur).isdir then none
    else some (d.delLocked cur)

end

def newShell (parent : ℕ) (name : Name) (host : ℕ) : Dentry Name :=
  ⟨parent, true, false, name, none, some host, false, parent, false, 0⟩

def stackOnePrepare (t : DcTxn Name) (top host newParent : ℕ) (newBucket fromBucket : ℕ)
    (shell : ℕ) (crossParent : Bool) : DcTxn Name :=
  let t₁ := if fromBucket = newBucket then { t with hash := blSwReplace t.hash top shell }
    else { t with hash := blSwAddHead (blSwDelMarked t.hash top) shell newBucket }
  let t₂ := if !crossParent then { t₁ with sib := blSwReplace t₁.sib top shell }
    else { t₁ with sib := blSwAddHead (blSwDelMarked t₁.sib top) shell newParent }
  let t₃ := t₂.storeTop host (dtopVal host top) (some shell)
  if crossParent then t₃.storeParent host newParent else t₃

def stackCommit (m : Move Name) (top : ℕ) : DCache Name :=
  let shell := d.fresh
  let host := d.hostOf top
  let d₁ := d.alloc (newShell m.newParent m.newName host)
  (stackOnePrepare (.begin d₁) top host m.newParent (d.bucketOf m.newParent m.newName)
    (d.bucketOf m.fromParent m.fromName) shell m.cross).commitSw

/-- `stack_shell` under its four heads. A commit that runs out of memory publishes nothing,
but the negative that `dest_claim_locked` dropped stays dropped. -/
def stackLocked [DecidableEq Name] (m : Move Name) (top : ℕ) (oom : Bool) :
    Outcome ℕ × DCache Name :=
  if d.topUnhashed top then (.retry, d)
  else if !d.isPositive m.newParent then (.fail .ENOENT, d)
  else match d.destClaimLocked m.newParent m.newName top with
    | none => (.fail .EEXIST, d)
    | some d₁ =>
      if oom then (.fail .ENOMEM, d₁) else (.done d₁.fresh, d₁.stackCommit m top)

/-- `fold` under the heads of the shell's name: the host takes the shell's identity and
place. Without memory the host keeps what was stored before the commit. -/
def foldLocked (n : ℕ) (oom : Bool) : DCache Name :=
  let host := d.hostOf n
  if d.topUnhashed n then d
  else
    let d₁ := d.modify host fun e =>
      { e with iparent := (d.dentry n).iparent, iname := (d.dentry n).iname }
    let t := DcTxn.begin d₁
    let t := { t with hash := blSwReplace t.hash n host, sib := blSwReplace t.sib n host }
    if oom then { d₁ with hash := t.hash.mem, sib := t.sib.mem }
    else t.commitSw.setTop host none

/-- `dc_unlink` under its heads. -/
def unlinkLocked (top : ℕ) : Outcome Unit × DCache Name :=
  if d.topUnhashed top then (.retry, d)
  else if !d.childrenEmpty (d.hostOf top) then (.fail .ENOTEMPTY, d)
  else (.done (), d.delLocked top)

def evictLocked (a : ℕ) : Option Errno × DCache Name :=
  if d.topUnhashed a || !d.childrenEmpty a || (d.dentry a).top.isSome then (some .EAGAIN, d)
  else (none, d.delLocked a)

def exchangePrepare (t : DcTxn Name) (x : Xchg Name) (topa topb hosta hostb sa sb : ℕ) :
    DcTxn Name :=
  let t₁ := if t.dc.bucketOf x.pa x.na = t.dc.bucketOf x.pb x.nb
    then { t with hash := blSwReplace2 t.hash topa sb topb sa }
    else { t with hash := blSwReplace (blSwReplace t.hash topa sb) topb sa }
  let t₂ := if !x.cross then { t₁ with sib := blSwReplace2 t₁.sib topa sb topb sa }
    else { t₁ with sib := blSwReplace (blSwReplace t₁.sib topa sb) topb sa }
  let t₃ := (t₂.storeTop hosta (dtopVal hosta topa) (some sa)).storeTop hostb
    (dtopVal hostb topb) (some sb)
  if x.cross then (t₃.storeParent hosta x.pb).storeParent hostb x.pa else t₃

def exchangeCommit (x : Xchg Name) (topa topb : ℕ) : DCache Name :=
  let hosta := d.hostOf topa
  let hostb := d.hostOf topb
  let sa := d.fresh
  let sb := d.fresh + 1
  let d₁ := (d.alloc (newShell x.pb x.nb hosta)).alloc (newShell x.pa x.na hostb)
  (exchangePrepare (.begin d₁) x topa topb hosta hostb sa sb).commitSw

def exchangeLocked (x : Xchg Name) (topa topb : ℕ) (oom : Bool) :
    Outcome (ℕ × ℕ) × DCache Name :=
  if d.topUnhashed topa || d.topUnhashed topb then (.retry, d)
  else if oom then (.fail .ENOMEM, d)
  else (.done (d.fresh, d.fresh + 1), d.exchangeCommit x topa topb)

end DCache

end TrieBenchmark.Bucketlock
