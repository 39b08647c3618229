import TrieBenchmark.Lib.Edit
import TrieBenchmark.Lib.Grace
import TrieBenchmark.Shell

/-!
The data of the lock-free engine (child heads sealed on removal) and what each of its commits
does. A commit is atomic, so a transacted list is the list of its nodes; a node that has left
its chain keeps the pointer it had, marked.
-/

namespace TrieBenchmark.Txn

open Function Edits

/-- How a lookup notices that a name it passed has moved: by the deletion mark of the node, by
one generation that directory moves bump, or by a generation of each directory. Only the mark
arm transacts `d_iparent`. -/
inductive Arm where
  | mark
  | global
  | node
  deriving DecidableEq, Repr

structure StateWord where
  parent : ℕ
  shell : Bool
  neg : Bool
  deriving DecidableEq, Repr

structure Cache (Name : Type) where
  bucketOf : ℕ → Name → ℕ
  dentry : ℕ → Dentry Name
  /-- The bucket chains, from the head. -/
  hash : ℕ → List ℕ
  /-- The child lists, from the head. -/
  kids : ℕ → List ℕ
  /-- The deletion mark of `d_hash.next`. -/
  mark : ℕ → Bool
  /-- The pointer under that mark. -/
  after : ℕ → Option ℕ
  /-- The child head holds the marked NULL. -/
  sealed : ℕ → Bool
  /-- `rename_gen`, used by the global arm. -/
  gen : ℕ
  /-- `d_seq`, used by the per-node arm. -/
  seq : ℕ → ℕ
  fresh : ℕ

variable {Name : Type}

def dcCreate (bucketOf : ℕ → Name → ℕ) (rootname : Name) : Cache Name where
  bucketOf := bucketOf
  dentry := fun _ => ⟨root, false, false, rootname, none, none, true, root, false, 0⟩
  hash := fun _ => []
  kids := fun _ => []
  mark := fun _ => false
  after := fun _ => none
  sealed := fun _ => false
  gen := 0
  seq := fun _ => 0
  fresh := 1

namespace Cache

variable (d : Cache Name)

def raw (a : ℕ) : StateWord :=
  ⟨(d.dentry a).iparent, (d.dentry a).shell, (d.dentry a).neg⟩

def bucket (a : ℕ) : ℕ :=
  d.bucketOf (d.dentry a).iparent (d.dentry a).iname

def hostOf (top : ℕ) : ℕ :=
  if (d.dentry top).shell then (d.dentry top).host.getD top else top

def dtopVal (host top : ℕ) : Option ℕ :=
  if top = host then none else some top

def linked (a : ℕ) : Prop :=
  a ∈ d.hash (d.bucket a)

instance (a : ℕ) : Decidable (d.linked a) :=
  inferInstanceAs (Decidable (a ∈ d.hash (d.bucket a)))

def next (a : ℕ) : Option ℕ :=
  if a ∈ d.hash (d.bucket a) then succ a (d.hash (d.bucket a)) else d.after a

def childrenEmpty (host : ℕ) : Bool :=
  (d.kids host).isEmpty

def modify (a : ℕ) (f : Dentry Name → Dentry Name) : Cache Name :=
  { d with dentry := update d.dentry a (f (d.dentry a)) }

def setTop (a : ℕ) (top : Option ℕ) : Cache Name :=
  d.modify a fun e => { e with top := top }

def setParent (a parent : ℕ) : Cache Name :=
  d.modify a fun e => { e with parent := parent }

def setMoving (a : ℕ) (flag : Bool) : Cache Name :=
  d.modify a fun e => { e with moving := flag }

def setIname (a : ℕ) (name : Name) : Cache Name :=
  d.modify a fun e => { e with iname := name }

def setIparent (a parent : ℕ) : Cache Name :=
  d.modify a fun e => { e with iparent := parent }

def alloc (e : Dentry Name) : Cache Name :=
  { d with dentry := update d.dentry d.fresh e, fresh := d.fresh + 1 }

/-- The list records of a commit, on `d_hash` and `d_sib` alike: deletions, replacements in
place and insertions at the head. -/
def edit (e : Edit ℕ) : Cache Name :=
  { d with
    hash := fun b => e.apply (fun a => d.bucket a = b) (d.hash b)
    kids := fun p => e.apply (fun a => (d.dentry a).iparent = p) (d.kids p)
    mark := fun a => if a ∈ e.out then true else if a ∈ e.inn then false else d.mark a
    after := fun a => if a ∈ e.out then d.next a else d.after a }

def sealHead (host : ℕ) : Cache Name :=
  { d with sealed := update d.sealed host true }

def bumpGen (arm : Arm) (host : ℕ) : Cache Name :=
  { d with
    gen := if arm = .global && (d.dentry host).isdir then d.gen + 2 else d.gen
    seq := if arm = .node && (d.dentry host).isdir then update d.seq host (d.seq host + 2)
      else d.seq }

def addCommit (parent : ℕ) (name : Name) (id : ℕ) (isdir positive : Bool) : Cache Name :=
  (d.alloc ⟨parent, false, !positive, name, none, none, isdir, parent, false, id⟩).edit
    ⟨[], [d.fresh]⟩

/-- The commit of `dc_unlink` and of `lru_evict_settled`: a directory's child head is sealed
with the removal. -/
def removeCommit (top host : ℕ) (sealIt : Bool) : Cache Name :=
  (if sealIt then d.sealHead host else d).edit ⟨[(top, none)], []⟩

def newShell (parent : ℕ) (name : Name) (host : ℕ) : Dentry Name :=
  ⟨parent, true, false, name, none, some host, false, parent, false, 0⟩

def stackCommit (arm : Arm) (m : Move Name) (top : ℕ) (neg : Option ℕ) : Cache Name :=
  let host := d.hostOf top
  let d₁ := ((d.alloc (newShell m.newParent m.newName host)).setTop host (some d.fresh)).bumpGen
    arm host
  let d₂ := if m.cross then d₁.setParent host m.newParent else d₁
  d₂.edit ⟨(top, none) :: neg.toList.map (·, none), [d.fresh]⟩

def exchangeCommit (arm : Arm) (x : Xchg Name) (topa topb : ℕ) : Cache Name :=
  let hosta := d.hostOf topa
  let hostb := d.hostOf topb
  let sa := d.fresh
  let sb := d.fresh + 1
  let d₁ := (d.alloc (newShell x.pb x.nb hosta)).alloc (newShell x.pa x.na hostb)
  let d₂ := (d₁.setTop hosta (some sa)).setTop hostb (some sb)
  let d₃ := (d₂.bumpGen arm hosta).bumpGen arm hostb
  let d₄ := if x.cross then (d₃.setParent hosta x.pb).setParent hostb x.pa else d₃
  d₄.edit ⟨[(topa, some sb), (topb, some sa)], []⟩

/-- The TRANSFER of `fold`: the host takes the shell's place. Where `d_iparent` is transacted
the same commit hands the inline parent over. -/
def foldCommit (arm : Arm) (n : ℕ) : Cache Name :=
  let host := d.hostOf n
  let d₁ := if arm = .mark then d.setIparent host (d.dentry n).iparent else d
  (d₁.setTop host none).edit ⟨[(n, some host)], []⟩

def flip (host : ℕ) (negative : Bool) : Cache Name :=
  d.modify host fun e => { e with neg := negative }

variable [DecidableEq Name]

def spells (parent : ℕ) (name : Name) (a : ℕ) : Bool :=
  (d.dentry a).iparent = parent && (d.dentry a).iname = name

def findTop (parent : ℕ) (name : Name) : Option ℕ :=
  (d.hash (d.bucketOf parent name)).find? (d.spells parent name)

def childLookup (parent : ℕ) (name : Name) : Option ℕ :=
  (d.findTop parent name).map d.hostOf

end Cache

end TrieBenchmark.Txn
