import TrieBenchmark.Api

/-!
What the bucket-lock and the lock-free engine share: the dentry, on which a rename stacks a shell
with the new name, the moves as their operations pass them on, and how an operation begins.
-/

namespace TrieBenchmark

structure Dentry (Name : Type) where
  /-- The word `d_iparent`: inline parent, shell tag and negative tag. -/
  iparent : ℕ
  shell : Bool
  neg : Bool
  iname : Name
  /-- `d_top`, NULL when the dentry is its own named top. -/
  top : Option ℕ
  /-- `d_host` and `d_fwd` of a shell; NULL on a host. -/
  host : Option ℕ
  isdir : Bool
  parent : ℕ
  moving : Bool
  id : ℕ
  deriving Repr

inductive Outcome (α : Type) where
  | retry
  | fail (e : Errno)
  | done (a : α)
  deriving DecidableEq, Repr

inductive Cont (Name : Type) where
  | add (name : Name) (id : ℕ) (isdir positive : Bool)
  | instantiate (name : Name) (id : ℕ)
  | delete (name : Name)
  | unlink (name : Name)
  | renameFrom (fromName : Name) (toDir : List Name) (toName : Name)
  | renameTo (fromParent : ℕ) (fromName : Name) (victim : ℕ) (toName : Name)
  | exchangeA (na : Name) (bDir : List Name) (nb : Name)
  | exchangeB (pa : ℕ) (na nb : Name)
  deriving DecidableEq, Repr

structure Move (Name : Type) where
  fromParent : ℕ
  fromName : Name
  newParent : ℕ
  newName : Name
  cross : Bool
  deriving DecidableEq, Repr

structure Xchg (Name : Type) where
  pa : ℕ
  na : Name
  pb : ℕ
  nb : Name
  deriving DecidableEq, Repr

def loopMax : ℕ := 256

inductive CycleHop where
  | loop
  | busy
  | arrived
  | climb
  deriving DecidableEq

/-- How an operation begins: its arguments are refused, the directory of its first path is walked
to, or the lookup starts. -/
inductive Start (Name : Type) where
  | refuse (e : Errno)
  | walk (dir : List Name) (k : Cont Name)
  | lookup (path : List Name)

variable {Name : Type}

def Move.CrossFits (m : Move Name) : Prop :=
  m.cross = true ↔ m.fromParent ≠ m.newParent

def Xchg.cross (x : Xchg Name) : Bool :=
  x.pa ≠ x.pb

def Xchg.NamesDiffer (x : Xchg Name) : Prop :=
  ¬ (x.pa = x.pb ∧ x.na = x.nb)

def Xchg.dirs (x : Xchg Name) : List ℕ :=
  [x.pa, x.pb]

def Xchg.climbs (x : Xchg Name) (second : Bool) (cur : ℕ) : List (ℕ × ℕ) :=
  if second then [(x.pb, root), (x.pa, cur)] else [(x.pb, cur)]

def Cont.dirs : Cont Name → List ℕ
  | .exchangeB pa _ _ => [pa]
  | _ => []

def Cont.opens : Cont Name → Bool
  | .renameTo .. => false
  | .exchangeB .. => false
  | _ => true

def startAt (path : List Name) (e : Errno) (k : Name → Cont Name) : Start Name :=
  match path.getLast? with
  | none => .refuse e
  | some name => .walk path.dropLast (k name)

def startAt2 (a b : List Name) (e : Errno) (k : Name → List Name → Name → Cont Name) :
    Start Name :=
  match b.getLast? with
  | none => .refuse e
  | some nb => startAt a e fun na => k na b.dropLast nb

@[grind =] def Op.start : Op Name → Start Name
  | .addTyped path id isdir positive => startAt path .EEXIST (.add · id isdir positive)
  | .instantiate path id => startAt path .EEXIST (.instantiate · id)
  | .delete path => startAt path .EISDIR .delete
  | .unlink path => startAt path .EINVAL .unlink
  | .rename src dst => startAt2 src dst .EINVAL .renameFrom
  | .exchange a b => startAt2 a b .EINVAL .exchangeA
  | .lookup path => .lookup path

theorem startAt_concat (dir : List Name) (name : Name) (e : Errno) (k : Name → Cont Name) :
    startAt (dir ++ [name]) e k = .walk dir (k name) := by
  simp [startAt]

theorem of_startAt {path dir : List Name} {e : Errno} {k : Name → Cont Name} {k' : Cont Name}
    (h : startAt path e k = .walk dir k') : ∃ name, path = dir ++ [name] ∧ k' = k name := by
  rcases List.eq_nil_or_concat' path with rfl | ⟨dir', name, rfl⟩
  · cases h
  · rw [startAt_concat] at h
    cases h
    exact ⟨name, rfl, rfl⟩

theorem of_startAt2 {a b dir : List Name} {e : Errno} {k : Name → List Name → Name → Cont Name}
    {k' : Cont Name} (h : startAt2 a b e k = .walk dir k') :
    ∃ na bdir nb, a = dir ++ [na] ∧ b = bdir ++ [nb] ∧ k' = k na bdir nb := by
  rcases List.eq_nil_or_concat' b with rfl | ⟨bdir, nb, rfl⟩
  · cases h
  · simp only [startAt2, List.getLast?_concat, List.dropLast_concat] at h
    obtain ⟨na, ha, hk⟩ := of_startAt h
    exact ⟨na, bdir, nb, ha, rfl, hk⟩

namespace Op

variable {o : Op Name} {dir path : List Name} {k : Cont Name}

theorem start_opens (h : o.start = .walk dir k) : k.opens = true := by
  cases o <;> grind [start, startAt, startAt2, Cont.opens]

theorem start_lookup (h : o.start = .lookup path) : o = .lookup path := by
  cases o <;> grind [start, startAt, startAt2]

end Op

end TrieBenchmark
