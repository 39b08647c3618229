import TrieBenchmark.Api
import TrieBenchmark.Lib.Hlist

/-!
The dentries of the seqlock engine. An entry is its dentry: its name, its parent and its state
are edited in place.
-/

namespace TrieBenchmark.Seqlock

open Hlist

structure Dentry (Name : Type) where
  name : Name
  parent : ℕ
  unhashed : Bool
  neg : Bool
  id : ℕ
  isdir : Bool
  deriving DecidableEq, Repr

structure Cache (Name : Type) where
  bucketOf : ℕ → Name → ℕ
  dentry : ℕ → Dentry Name
  hash : Links ℕ ℕ
  sib : Links ℕ ℕ
  fresh : ℕ

variable {Name : Type}

def emptyLinks : Links ℕ ℕ :=
  ⟨fun _ => ⟨none, false⟩, fun _ => none⟩

def dcCreate (bucketOf : ℕ → Name → ℕ) (rootname : Name) : Cache Name where
  bucketOf := bucketOf
  dentry := fun _ => ⟨rootname, root, false, false, 0, true⟩
  hash := emptyLinks
  sib := emptyLinks
  fresh := 1

def hlistAddHeadRcu (L : Links ℕ ℕ) (h n : ℕ) : Links ℕ ℕ :=
  L.addHead h n

def hlistDelRcu (L : Links ℕ ℕ) (n : ℕ) : Links ℕ ℕ :=
  L.unlink n

def childrenRemove (L : Links ℕ ℕ) (n : ℕ) : Links ℕ ℕ :=
  ((hlistDelRcu L n).store (.next n) ⟨none, false⟩).setPprev n none

namespace Cache

variable (d : Cache Name)

def modify (a : ℕ) (f : Dentry Name → Dentry Name) : Cache Name :=
  { d with dentry := Function.update d.dentry a (f (d.dentry a)) }

def parent (a : ℕ) : ℕ :=
  (d.dentry a).parent

def isPositive (a : ℕ) : Bool :=
  !(d.dentry a).neg

def bucket (a : ℕ) : ℕ :=
  d.bucketOf (d.parent a) (d.dentry a).name

def hashChain (b : ℕ) : List ℕ :=
  d.hash.chain d.fresh b

def childChain (p : ℕ) : List ℕ :=
  d.sib.chain d.fresh p

def hasChildren (a : ℕ) : Bool :=
  (d.sib.first a).isSome

/-- The dentry was published and is not tagged unhashed. The root is in no chain. -/
def Live (a : ℕ) : Prop :=
  a < d.fresh ∧ a ≠ root ∧ (d.dentry a).unhashed = false

instance (a : ℕ) : Decidable (d.Live a) :=
  inferInstanceAs (Decidable (_ ∧ _))

variable [DecidableEq Name]

def named (p : ℕ) (n : Name) (a : ℕ) : Bool :=
  d.parent a = p && !(d.dentry a).unhashed && (d.dentry a).name = n

def childLookup (p : ℕ) (n : Name) : Option ℕ :=
  (d.hashChain (d.bucketOf p n)).find? (d.named p n)

end Cache

namespace Cache

variable (d : Cache Name)

def link (parent : ℕ) (name : Name) (id : ℕ) (isdir positive : Bool) : Cache Name where
  bucketOf := d.bucketOf
  dentry := Function.update d.dentry d.fresh ⟨name, parent, false, !positive, id, isdir⟩
  hash := hlistAddHeadRcu d.hash (d.bucketOf parent name) d.fresh
  sib := hlistAddHeadRcu d.sib parent d.fresh
  fresh := d.fresh + 1

def unhash (a : ℕ) : Cache Name :=
  { d.modify a fun e => { e with unhashed := true } with
    hash := hlistDelRcu d.hash a
    sib := childrenRemove d.sib a }

def setPositive (a id : ℕ) : Cache Name :=
  d.modify a fun e => { e with neg := false, id := id }

def setNegative (a : ℕ) : Cache Name :=
  d.modify a fun e => { e with neg := true }

/-- The move itself: the victim leaves its old chain for the head of the new one, and its old
parent's list for that of the new parent if the two differ. -/
def relocate (victim oldParent newParent : ℕ) (newName : Name) : Cache Name :=
  { d.modify victim fun e => { e with name := newName, parent := newParent } with
    hash := hlistAddHeadRcu (hlistDelRcu d.hash victim) (d.bucketOf newParent newName) victim
    sib := if oldParent ≠ newParent then
        hlistAddHeadRcu (childrenRemove d.sib victim) newParent victim
      else d.sib }

def dMove (victim oldParent newParent : ℕ) (newName : Name) (target : Option ℕ) : Cache Name :=
  match target with
  | some t => (d.unhash t).relocate victim oldParent newParent newName
  | none => d.relocate victim oldParent newParent newName

def exchange (da db pa pb : ℕ) (na nb : Name) : Cache Name :=
  let d₁ := (d.modify da fun e => { e with name := nb, parent := pb }).modify db
    fun e => { e with name := na, parent := pa }
  { d₁ with
    hash := hlistAddHeadRcu (hlistAddHeadRcu (hlistDelRcu (hlistDelRcu d.hash da) db)
      (d.bucketOf pb nb) da) (d.bucketOf pa na) db
    sib := if pa ≠ pb then
        hlistAddHeadRcu (hlistAddHeadRcu (childrenRemove (childrenRemove d.sib da) db) pb da) pa db
      else d.sib }

end Cache

end TrieBenchmark.Seqlock
