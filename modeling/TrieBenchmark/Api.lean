import Mathlib.Data.List.Basic

/-!
The interface of the dentry cache: the calls every engine answers and what they return.
-/

namespace TrieBenchmark

inductive Errno where
  | ENOENT
  | EEXIST
  | ENOTDIR
  | EISDIR
  | ENOTEMPTY
  | EINVAL
  | EAGAIN
  | ENOMEM
  | ENOTSUP
  deriving DecidableEq, Repr

/-- What the steps of an operation answer: an operation's code, or `-ESTALE`. -/
inductive Fault where
  | errno (e : Errno)
  | ESTALE
  deriving DecidableEq, Repr

inductive DcResult where
  | absent
  | positive
  | negative
  deriving DecidableEq, Repr

/-- What an operation returns: a code (`none` is 0), or a lookup's answer with the content
hosts its walk went through. -/
inductive Ret where
  | code (e : Option Errno)
  | lookup (res : DcResult) (hosts : List ℕ)
  deriving DecidableEq, Repr

def pathMax : ℕ := 24

inductive Op (Name : Type) where
  | addTyped (path : List Name) (id : ℕ) (isdir positive : Bool)
  | instantiate (path : List Name) (id : ℕ)
  | delete (path : List Name)
  | unlink (path : List Name)
  | rename (src dst : List Name)
  | exchange (a b : List Name)
  | lookup (path : List Name)
  deriving DecidableEq, Repr

namespace Op

variable {Name : Type}

def add (path : List Name) (id : ℕ) : Op Name :=
  .addTyped path id true true

def addFile (path : List Name) (id : ℕ) : Op Name :=
  .addTyped path id false true

def addNegative (path : List Name) : Op Name :=
  .addTyped path 0 false false

def paths : Op Name → List (List Name)
  | .addTyped path _ _ _ => [path]
  | .instantiate path _ => [path]
  | .delete path => [path]
  | .unlink path => [path]
  | .rename src dst => [src, dst]
  | .exchange a b => [a, b]
  | .lookup path => [path]

def Fits (o : Op Name) : Prop :=
  ∀ p ∈ o.paths, p.length ≤ pathMax

instance (o : Op Name) : Decidable o.Fits :=
  inferInstanceAs (Decidable (∀ p ∈ o.paths, p.length ≤ pathMax))

end Op

/-- What a thread of an engine with shells is asked to do: a request of the interface, the eviction
of a dentry, or the fold of a shell whose grace period is over. -/
inductive Call (Name : Type) where
  | op (o : Op Name)
  | evict (a : ℕ)
  | fold (n : ℕ)
  deriving DecidableEq, Repr

def Call.folded {Name : Type} : Call Name → Option ℕ
  | .fold n => some n
  | _ => none

/-- The address of the root dentry. -/
def root : ℕ := 0

end TrieBenchmark
