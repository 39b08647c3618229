import TrieBenchmark.Bucketlock.Chain
import TrieBenchmark.Shell

/-!
The dentries of the bucket-lock engine (mark arm, no lingering entries) and the reads its
operations make without a lock. A dentry is named by its address, the order of its allocation;
an address is never used again.
-/

namespace TrieBenchmark.Bucketlock

open Hlist

structure DCache (Name : Type) where
  bucketOf : ℕ → Name → ℕ
  dentry : ℕ → Dentry Name
  hash : Links ℕ ℕ
  sib : Links ℕ ℕ
  /-- The next address the allocator gives out. -/
  fresh : ℕ

variable {Name : Type}

def emptyLinks {H : Type} : Links H ℕ :=
  ⟨fun _ => ⟨none, false⟩, fun _ => none⟩

def dcCreate (bucketOf : ℕ → Name → ℕ) (rootname : Name) : DCache Name where
  bucketOf := bucketOf
  dentry := fun _ => ⟨root, false, false, rootname, none, none, true, root, false, 0⟩
  hash := emptyLinks
  sib := emptyLinks
  fresh := 1

namespace DCache

variable (d : DCache Name)

def modify (a : ℕ) (f : Dentry Name → Dentry Name) : DCache Name :=
  { d with dentry := Function.update d.dentry a (f (d.dentry a)) }

def setTop (a : ℕ) (top : Option ℕ) : DCache Name :=
  d.modify a fun e => { e with top := top }

def setParent (a parent : ℕ) : DCache Name :=
  d.modify a fun e => { e with parent := parent }

def setMoving (a : ℕ) (flag : Bool) : DCache Name :=
  d.modify a fun e => { e with moving := flag }

def alloc (e : Dentry Name) : DCache Name :=
  { d with dentry := Function.update d.dentry d.fresh e, fresh := d.fresh + 1 }

def hostOf (top : ℕ) : ℕ :=
  if (d.dentry top).shell then (d.dentry top).host.getD top else top

def dtopVal (host top : ℕ) : Option ℕ :=
  if top = host then none else some top

def isPositive (a : ℕ) : Bool :=
  !(d.dentry a).neg

/-- The mark of `d_hash.next`: the dentry has left the index. -/
def topUnhashed (a : ℕ) : Bool :=
  d.hash.marked a

def bucket (a : ℕ) : ℕ :=
  d.bucketOf (d.dentry a).iparent (d.dentry a).iname

def hashChain (b : ℕ) : List ℕ :=
  d.hash.chain d.fresh b

def childChain (parent : ℕ) : List ℕ :=
  d.sib.chain d.fresh parent

variable [DecidableEq Name]

def spells (parent : ℕ) (name : Name) (a : ℕ) : Bool :=
  (d.dentry a).iparent = parent && (d.dentry a).iname = name

def findTop (parent : ℕ) (name : Name) : Option ℕ :=
  (d.hashChain (d.bucketOf parent name)).find? (d.spells parent name)

def childLookup (parent : ℕ) (name : Name) : Option ℕ :=
  (d.findTop parent name).map d.hostOf

def childrenEmpty (host : ℕ) : Bool :=
  (d.sib.first host).isNone

def entryAlive (host : ℕ) : Bool :=
  !d.topUnhashed ((d.dentry host).top.getD host)

end DCache

theorem emptyLinks_family {H : Type} : Family (emptyLinks (H := H)) fun _ => [] :=
  ⟨fun _ => ⟨trivial, rfl⟩, by simp, by simp⟩

end TrieBenchmark.Bucketlock
