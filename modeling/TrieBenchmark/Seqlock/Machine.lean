import TrieBenchmark.Api
import TrieBenchmark.Seqlock.Cache

/-!
Threads that run the operations of the seqlock engine. A lockless resolve takes a step for every
component; each lock acquisition, each test under the locks and each edit is a step of its own.
-/

namespace TrieBenchmark.Seqlock

open Function

inductive Lock where
  | mutex
  | dir (a : ℕ)
  | rename
  | bucket (b : ℕ)
  deriving DecidableEq, Repr

def inOrder (lock : ℕ → Lock) (a b : ℕ) : List Lock :=
  if a = b then [lock a] else if a < b then [lock a, lock b] else [lock b, lock a]

def dirsWlock2 (a b : ℕ) : List Lock :=
  inOrder .dir a b

def blLock2 (x y : ℕ) : List Lock :=
  inOrder .bucket x y

inductive Call (Name : Type) where
  | op (o : Op Name)
  | kill (a : ℕ)
  deriving DecidableEq, Repr

structure Ren (Name : Type) where
  victim : ℕ
  fromParent : ℕ
  toParent : ℕ
  toName : Name
  deriving DecidableEq, Repr

def Ren.cross {Name : Type} (r : Ren Name) : Bool :=
  r.fromParent ≠ r.toParent

structure Xchg where
  da : ℕ
  db : ℕ
  pa : ℕ
  pb : ℕ
  deriving DecidableEq, Repr

def Xchg.cross (x : Xchg) : Bool :=
  x.pa ≠ x.pb

inductive Cont (Name : Type) where
  | add (name : Name) (id : ℕ) (isdir positive : Bool)
  | instantiate (name : Name) (id : ℕ)
  | delete (name : Name) (path : List Name)
  | deletePeek (parent : ℕ) (name : Name) (path : List Name)
  | unlink (path : List Name)
  | renameFrom (toDir : List Name) (toName : Name)
  | renameTo (victim : ℕ) (toName : Name)
  | exchangeA (b : List Name)
  | exchangeB (da : Option ℕ)
  deriving DecidableEq, Repr

inductive Stage (Name : Type) where
  | addTest (parent : ℕ) (name : Name) (id : ℕ) (isdir positive : Bool)
  | addFind (parent : ℕ) (name : Name) (id : ℕ) (isdir positive : Bool)
  | addLink (parent : ℕ) (name : Name) (id : ℕ) (isdir positive : Bool)
  | instFind (parent : ℕ) (name : Name) (id : ℕ)
  | instSet (a id : ℕ)
  | delFind (parent : ℕ) (name : Name) (path : List Name) (peek : Option ℕ)
  | delState (a : ℕ) (peek : Option ℕ)
  | delKids (a : ℕ) (peek : Option ℕ)
  | delSet (a : ℕ) (peek : Option ℕ)
  | unlRead (path : List Name) (victim : ℕ)
  | unlTest (path : List Name) (victim parent : ℕ)
  | unlKids (victim parent : ℕ)
  | unlDel (victim parent : ℕ)
  | renRead (victim toParent : ℕ) (toName : Name)
  | renState (r : Ren Name)
  | renLoop (r : Ren Name) (cur : ℕ)
  | renAgain (r : Ren Name)
  | renTarget (r : Ren Name)
  | renBuckets (r : Ren Name) (target : Option ℕ)
  | renMove (r : Ren Name) (target : Option ℕ) (oldParent : ℕ)
  | xchRead (da db : ℕ)
  | xchLoopA (x : Xchg) (cur : ℕ)
  | xchLoopB (x : Xchg) (cur : ℕ)
  | xchNames (x : Xchg)
  | xchSwap (x : Xchg) (na nb : Name)
  | killRead (a : ℕ)
  | killTest (a parent : ℕ)
  | killDel (a parent : ℕ)
  deriving DecidableEq, Repr

inductive Exit (Name : Type) where
  | ret (r : Ret)
  | again (path : List Name) (k : Cont Name)
  deriving DecidableEq, Repr

inductive Next (Name : Type) where
  | go (more : List Lock) (stage : Stage Name)
  | out (e : Exit Name)
  deriving DecidableEq, Repr

/-- `sect todo held stage` has the locks `held`, takes those of `todo`, then runs the stage. -/
inductive Pc (Name : Type) where
  | idle
  | done (r : Ret)
  | walk (cur : ℕ) (rest : List Name) (k : Cont Name)
  | lkHop (cur : ℕ) (rest : List Name) (hosts : List ℕ) (res : DcResult)
  | sect (todo held : List Lock) (stage : Stage Name)
  | drop (held : List Lock) (e : Exit Name)
  deriving DecidableEq, Repr

variable {Name : Type}

def Next.fail (e : Errno) : Next Name :=
  .out (.ret (.code (some e)))

def Next.ok : Next Name :=
  .out (.ret (.code none))

namespace Pc

def busy : Pc Name → Bool
  | .idle => false
  | .done _ => false
  | _ => true

def ret (e : Option Errno) : Pc Name :=
  .done (.code e)

end Pc

def Exit.pc : Exit Name → Pc Name
  | .ret r => .done r
  | .again path k => .walk root path k

def Next.pc (held : List Lock) : Next Name → Pc Name
  | .go more stage => .sect more held stage
  | .out e => if held = [] then e.pc else .drop held e

def Cont.missing (d : Cache Name) : Cont Name → Pc Name
  | .deletePeek parent name path =>
    .sect [.dir parent, .bucket (d.bucketOf parent name)] [] (.delFind parent name path none)
  | .exchangeA b => .walk root b (.exchangeB none)
  | _ => .ret (some .ENOENT)

@[grind =] def Cont.arrive (d : Cache Name) (a : ℕ) : Cont Name → Pc Name
  | .add name id isdir positive =>
    if (d.dentry a).isdir then
      .sect [.dir a, .bucket (d.bucketOf a name)] [] (.addTest a name id isdir positive)
    else .ret (some .ENOTDIR)
  | .instantiate name id =>
    .sect [.dir a, .bucket (d.bucketOf a name)] [] (.instFind a name id)
  | .delete name path => .walk root path (.deletePeek a name path)
  | .deletePeek parent name path =>
    -- a directory is locked with its parent, a file is not
    if (d.dentry a).isdir then
      .sect (dirsWlock2 parent a ++ [.bucket (d.bucketOf parent name)]) []
        (.delFind parent name path (some a))
    else .sect [.dir parent, .bucket (d.bucketOf parent name)] [] (.delFind parent name path none)
  | .unlink path => .sect [] [] (.unlRead path a)
  | .renameFrom toDir toName => .walk root toDir (.renameTo a toName)
  | .renameTo victim toName => .sect [] [] (.renRead victim a toName)
  | .exchangeA b => .walk root b (.exchangeB (some a))
  | .exchangeB none => .ret (some .ENOENT)
  | .exchangeB (some da) => if da = a then .ret none else .sect [] [] (.xchRead da a)

def startAt (path : List Name) (e : Errno) (k : Name → Pc Name) : Pc Name :=
  match path.getLast? with
  | none => .ret (some e)
  | some name => k name

@[grind =] def opStart : Op Name → Pc Name
  | .addTyped path id isdir positive =>
    startAt path .EEXIST fun name => .walk root path.dropLast (.add name id isdir positive)
  | .instantiate path id =>
    startAt path .EEXIST fun name => .walk root path.dropLast (.instantiate name id)
  | .delete path =>
    startAt path .EISDIR fun name => .walk root path.dropLast (.delete name path)
  | .unlink path => startAt path .EINVAL fun _ => .walk root path (.unlink path)
  | .rename src dst =>
    startAt src .EINVAL fun _ => startAt dst .EINVAL fun name =>
      .walk root src (.renameFrom dst.dropLast name)
  | .exchange a b =>
    startAt a .EINVAL fun _ => startAt b .EINVAL fun _ => .walk root a (.exchangeA b)
  | .lookup path => .lkHop root path [] .positive

def Call.start : Call Name → Pc Name
  | .op o => opStart o
  | .kill a => .sect [] [] (.killRead a)

variable [DecidableEq Name]

@[grind =] def stageStep (d : Cache Name) (stage : Stage Name) (oom : Bool) : Cache Name × Next Name :=
  match stage with
  -- dc_add_typed_state
  | .addTest parent name id isdir positive =>
    if !d.isPositive parent || (d.dentry parent).unhashed then (d, .fail .ENOENT)
    else (d, .go [] (.addFind parent name id isdir positive))
  | .addFind parent name id isdir positive =>
    if (d.childLookup parent name).isSome then (d, .fail .EEXIST)
    else (d, .go [] (.addLink parent name id isdir positive))
  | .addLink parent name id isdir positive =>
    if oom then (d, .fail .ENOMEM) else (d.link parent name id isdir positive, .ok)
  -- dc_instantiate
  | .instFind parent name id =>
    match d.childLookup parent name with
    | none => (d, .fail .ENOENT)
    | some a => if d.isPositive a then (d, .fail .EEXIST) else (d, .go [] (.instSet a id))
  | .instSet a id => (d.setPositive a id, .ok)
  -- dc_delete
  | .delFind parent name path peek =>
    let found := d.childLookup parent name
    if peek.isSome && found != peek then (d, .out (.again path (.deletePeek parent name path)))
    else match found with
      | none => (d, .fail .ENOENT)
      | some a => (d, .go [] (.delState a peek))
  | .delState a peek =>
    if !d.isPositive a then (d, .fail .ENOENT) else (d, .go [] (.delKids a peek))
  | .delKids a peek =>
    if (d.dentry a).isdir && d.hasChildren a then (d, .fail .ENOTEMPTY)
    else (d, .go [] (.delSet a peek))
  | .delSet a _ => (d.setNegative a, .ok)
  -- dc_unlink
  | .unlRead path victim =>
    let parent := d.parent victim
    (d, .go (if (d.dentry victim).isdir then dirsWlock2 parent victim else [.dir parent])
      (.unlTest path victim parent))
  | .unlTest path victim parent =>
    if (d.dentry victim).unhashed || d.parent victim != parent then
      (d, .out (.again path (.unlink path)))
    else (d, .go [.bucket (d.bucketOf parent (d.dentry victim).name)] (.unlKids victim parent))
  | .unlKids victim parent =>
    if d.hasChildren victim then (d, .fail .ENOTEMPTY) else (d, .go [] (.unlDel victim parent))
  | .unlDel victim _ => (d.unhash victim, .ok)
  -- dc_rename
  | .renRead victim toParent toName =>
    let r : Ren Name := ⟨victim, d.parent victim, toParent, toName⟩
    (d, .go (if r.cross then [.mutex] else []) (.renState r))
  | .renState r =>
    if !d.isPositive r.toParent then (d, .fail .ENOENT)
    else if r.cross then (d, .go [] (.renLoop r r.toParent))
    else (d, .go (dirsWlock2 r.fromParent r.toParent) (.renAgain r))
  | .renLoop r cur =>
    if cur = r.victim then (d, .fail .EINVAL)
    else if d.parent cur = cur then
      (d, .go (dirsWlock2 r.fromParent r.toParent) (.renAgain r))
    else (d, .go [] (.renLoop r (d.parent cur)))
  | .renAgain r =>
    if r.cross && !d.isPositive r.toParent then (d, .fail .ENOENT)
    else (d, .go [] (.renTarget r))
  | .renTarget r =>
    match d.childLookup r.toParent r.toName with
    | none => (d, .go [.rename] (.renBuckets r none))
    | some t =>
      if t = r.victim || d.isPositive t then (d, .fail .EEXIST)
      else (d, .go [.rename] (.renBuckets r (some t)))
  | .renBuckets r target =>
    let oldParent := d.parent r.victim
    (d, .go (blLock2 (d.bucketOf oldParent (d.dentry r.victim).name)
      (d.bucketOf r.toParent r.toName)) (.renMove r target oldParent))
  | .renMove r target oldParent => (d.dMove r.victim oldParent r.toParent r.toName target, .ok)
  -- dc_rename_exchange
  | .xchRead da db =>
    let x : Xchg := ⟨da, db, d.parent da, d.parent db⟩
    (d, if x.cross then .go [.mutex] (.xchLoopA x x.pb) else .go [] (.xchNames x))
  | .xchLoopA x cur =>
    if cur = x.da then (d, .fail .EINVAL)
    else if d.parent cur = cur then (d, .go [] (.xchLoopB x x.pa))
    else (d, .go [] (.xchLoopA x (d.parent cur)))
  | .xchLoopB x cur =>
    if cur = x.db then (d, .fail .EINVAL)
    else if d.parent cur = cur then (d, .go [] (.xchNames x))
    else (d, .go [] (.xchLoopB x (d.parent cur)))
  | .xchNames x =>
    let na := (d.dentry x.da).name
    let nb := (d.dentry x.db).name
    (d, .go (dirsWlock2 x.pa x.pb ++ .rename :: blLock2 (d.bucketOf x.pa na) (d.bucketOf x.pb nb))
      (.xchSwap x na nb))
  | .xchSwap x na nb => (d.exchange x.da x.db x.pa x.pb na nb, .ok)
  -- lru_kill
  | .killRead a =>
    let parent := d.parent a
    if parent = a then (d, .fail .EAGAIN)
    else (d, .go [.dir parent, .bucket (d.bucketOf parent (d.dentry a).name)] (.killTest a parent))
  | .killTest a parent =>
    if d.parent a = parent && !(d.dentry a).unhashed && !d.hasChildren a then
      (d, .go [] (.killDel a parent))
    else (d, .fail .EAGAIN)
  | .killDel a _ => (d.unhash a, .ok)

def walkStep (d : Cache Name) (cur : ℕ) (k : Cont Name) : List Name → Pc Name
  | [] => k.arrive d cur
  | name :: rest =>
    match d.childLookup cur name with
    | some a => .walk a rest k
    | none => k.missing d

def lkStep (d : Cache Name) (cur : ℕ) (hosts : List ℕ) (res : DcResult) : List Name → Pc Name
  | [] => .done (.lookup res hosts)
  | name :: rest =>
    match d.childLookup cur name with
    | some a => .lkHop a rest (hosts ++ [a]) (if d.isPositive a then .positive else .negative)
    | none => .done (.lookup .absent hosts)

structure Sys (Name : Type) where
  d : Cache Name
  locks : Lock → Option ℕ
  pc : ℕ → Pc Name

inductive Act (Name : Type) where
  | call (t : ℕ) (c : Call Name)
  | step (t : ℕ) (oom : Bool)
  deriving DecidableEq, Repr

namespace Act

def thread : Act Name → ℕ
  | .call t _ => t
  | .step t _ => t

def steps (t k : ℕ) : List (Act Name) :=
  List.replicate k (.step t false)

def op (t : ℕ) (o : Op Name) (k : ℕ) : List (Act Name) :=
  .call t (.op o) :: steps t k

end Act

namespace Sys

def init (bucketOf : ℕ → Name → ℕ) (rootname : Name) : Sys Name :=
  ⟨dcCreate bucketOf rootname, fun _ => none, fun _ => .idle⟩

def admits (s : Sys Name) : Call Name → Bool
  | .op _ => true
  | .kill a => a < s.d.fresh

/-- A thread whose next lock is taken cannot step. -/
def act (s : Sys Name) : Act Name → Option (Sys Name)
  | .call t c =>
    if !(s.pc t).busy && s.admits c then some { s with pc := update s.pc t c.start }
    else none
  | .step t oom =>
    match s.pc t with
    | .idle => none
    | .done _ => none
    | .walk cur rest k => some { s with pc := update s.pc t (walkStep s.d cur k rest) }
    | .lkHop cur rest hosts res =>
      some { s with pc := update s.pc t (lkStep s.d cur hosts res rest) }
    | .sect (l :: todo) held stage =>
      if s.locks l = none then
        some ⟨s.d, update s.locks l (some t),
          update s.pc t (.sect todo (l :: held) stage)⟩
      else none
    | .sect [] held stage =>
      let r := stageStep s.d stage oom
      some ⟨r.1, s.locks, update s.pc t (r.2.pc held)⟩
    | .drop held e =>
      some ⟨s.d, fun l => if l ∈ held then none else s.locks l, update s.pc t e.pc⟩

end Sys

end TrieBenchmark.Seqlock
