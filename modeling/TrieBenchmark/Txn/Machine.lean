import TrieBenchmark.Txn.Cache

/-!
The operations of the lock-free engine as programs of atomic steps: an unlocked lookup, a plain
read, store or flag access, or the commit of a transaction. A transaction records the words it
read and its commit checks them all; a commit may also meet a conflict of the library's own.
-/

namespace TrieBenchmark.Txn

open Grace Edits

structure Entry (Name : Type) where
  parent : ℕ
  name : Name
  id : ℕ
  isdir : Bool
  positive : Bool
  deriving DecidableEq, Repr

/-- The words a transaction has recorded: state words, the generations, and the neighbours of
the nodes it takes out of the two lists. -/
structure Reads where
  words : List (ℕ × StateWord)
  gen : Option ℕ
  seqs : List (ℕ × ℕ)
  hash : List (ℕ × Option ℕ × Option ℕ)
  sib : List (ℕ × Option ℕ × Option ℕ)
  deriving DecidableEq, Repr

/-- What a rename records besides: the destination's bucket head and child head, and the
negative it replaces. -/
structure Guards extends Reads where
  head : Option ℕ
  first : Option ℕ
  neg : Option ℕ
  deriving DecidableEq, Repr

/-- A hop of a lookup. What it has latched are stamps and hosts; the stamp is the top, or in the
per-node arm the generation of the host. -/
structure Hop (Name : Type) where
  path : List Name
  gen : ℕ
  cur : ℕ
  name : Name
  rest : List Name
  latched : List (ℕ × ℕ)
  deriving DecidableEq, Repr

inductive Pc (Name : Type) where
  | idle
  | done (r : Ret)
  | walk (cur : ℕ) (rest : List Name) (k : Cont Name)
  | addCheck (e : Entry Name)
  | addState (e : Entry Name)
  | addHead (e : Entry Name) (raw : StateWord)
  | addScan (e : Entry Name) (raw : StateWord) (head : Option ℕ)
  | addCommit (e : Entry Name) (raw : StateWord) (head : Option ℕ)
  | setFind (parent : ℕ) (name : Name) (negative : Bool) (id : ℕ)
  | setRead (host : ℕ) (negative : Bool) (id : ℕ)
  | setKids (host : ℕ) (negative : Bool) (id : ℕ) (raw : StateWord)
  | setId (host : ℕ) (negative : Bool) (id : ℕ) (raw : StateWord)
  | setCommit (host : ℕ) (negative : Bool) (id : ℕ) (raw : StateWord)
  | unlFind (parent : ℕ) (name : Name)
  | unlKids (parent : ℕ) (name : Name) (top : ℕ)
  | unlCommit (parent : ℕ) (name : Name) (top : ℕ)
  | renVictim (fromParent : ℕ) (fromName : Name) (toDir : List Name) (toName : Name)
  | renDest (fromParent : ℕ) (fromName : Name) (victim toParent : ℕ) (toName : Name)
  | renDestPos (fromParent : ℕ) (fromName : Name) (victim toParent : ℕ) (toName : Name)
      (dest : ℕ)
  | renCross (fromParent : ℕ) (fromName : Name) (victim toParent : ℕ) (toName : Name)
  | stkState (m : Move Name)
  | stkFind (m : Move Name)
  | stkGray (m : Move Name) (top : ℕ)
  | stkGuard (m : Move Name) (top : ℕ)
  | stkHead (m : Move Name) (top : ℕ) (g : Guards)
  | stkScan (m : Move Name) (top : ℕ) (g : Guards)
  | stkJudge (m : Move Name) (top : ℕ) (g : Guards) (cur : ℕ)
  | stkNeg (m : Move Name) (top : ℕ) (g : Guards) (cur : ℕ)
  | stkSib (m : Move Name) (top : ℕ) (g : Guards)
  | stkOld (m : Move Name) (top : ℕ) (g : Guards)
  | stkWalk (m : Move Name) (top : ℕ) (g : Guards) (oldp cur : ℕ) (hops : ℕ)
  | stkHop (m : Move Name) (top : ℕ) (g : Guards) (oldp cur : ℕ) (hops : ℕ)
  | stkCommit (m : Move Name) (top : ℕ) (g : Guards) (oldp : ℕ)
  | stkClear (m : Move Name) (top : ℕ) (o : Outcome ℕ)
  | stkQueue (shell : ℕ)
  | xchLookA (x : Xchg Name)
  | xchLookB (x : Xchg Name) (hosta : Option ℕ)
  | xchFindA (x : Xchg Name)
  | xchFindB (x : Xchg Name) (topa : Option ℕ)
  | xchGrayLo (x : Xchg Name) (topa topb : ℕ)
  | xchGrayHi (x : Xchg Name) (topa topb : ℕ)
  | xchDropLo (x : Xchg Name) (topa topb : ℕ)
  | xchGuardA (x : Xchg Name) (topa topb : ℕ)
  | xchGuardB (x : Xchg Name) (topa topb : ℕ) (g : Reads)
  | xchLinks (x : Xchg Name) (topa topb : ℕ) (g : Reads)
  | xchOld (x : Xchg Name) (topa topb : ℕ) (g : Reads)
  | xchWalk (x : Xchg Name) (topa topb : ℕ) (g : Reads) (olda oldb : ℕ) (second : Bool)
      (cur : ℕ) (hops : ℕ)
  | xchHop (x : Xchg Name) (topa topb : ℕ) (g : Reads) (olda oldb : ℕ) (second : Bool)
      (cur : ℕ) (hops : ℕ)
  | xchCommit (x : Xchg Name) (topa topb : ℕ) (g : Reads) (olda oldb : ℕ)
  | xchClearA (x : Xchg Name) (topa topb : ℕ) (o : Outcome (ℕ × ℕ))
  | xchClearB (x : Xchg Name) (topa topb : ℕ) (o : Outcome (ℕ × ℕ))
  | xchQueueA (sa sb : ℕ)
  | xchQueueB (sb : ℕ)
  | evTop (a : ℕ)
  | evParent (a : ℕ)
  | evKids (a : ℕ)
  | evCommit (a : ℕ)
  | fldTest (n : ℕ)
  | fldSwap (n : ℕ) (own : StateWord)
  | fldName (n : ℕ)
  | fldTop (n : ℕ)
  | fldOwn (n : ℕ)
  | fldCommit (n : ℕ) (own : Option StateWord)
  | lkGen (path : List Name)
  | lkHop (path : List Name) (gen : ℕ) (cur : ℕ) (rest : List Name) (latched : List (ℕ × ℕ))
      (res : DcResult)
  | lkScan (h : Hop Name) (node : Option ℕ)
  | lkName (h : Hop Name) (node : ℕ) (raw : StateWord)
  | lkNext (h : Hop Name) (node : ℕ)
  | lkStamp (h : Hop Name) (top : ℕ) (raw : StateWord)
  | lkConfirm (h : Hop Name) (top : ℕ) (raw : StateWord) (stamp : ℕ)
  | lkState (h : Hop Name) (top : ℕ) (raw : StateWord) (stamp : ℕ)
  | lkUp (path : List Name) (latched todo : List (ℕ × ℕ)) (res : DcResult)
  | lkGenEnd (path : List Name) (gen : ℕ) (latched : List (ℕ × ℕ)) (res : DcResult)
  deriving DecidableEq, Repr

namespace Pc

variable {Name : Type}

def busy : Pc Name → Bool
  | .idle => false
  | .done _ => false
  | _ => true

def queues : Pc Name → Option ℕ
  | .stkQueue shell => some shell
  | .xchQueueA sa _ => some sa
  | .xchQueueB sb => some sb
  | _ => none

def ret (e : Option Errno) : Pc Name :=
  .done (.code e)

def lkStart (arm : Arm) (path : List Name) : Pc Name :=
  if arm = .global then .lkGen path else .lkHop path 0 root path [] .positive

end Pc

variable {Name : Type}

@[grind =] def arrive (parent : ℕ) : Cont Name → Pc Name
  | .add name id isdir positive => .addCheck ⟨parent, name, id, isdir, positive⟩
  | .instantiate name id => .setFind parent name false id
  | .delete name => .setFind parent name true 0
  | .unlink name => .unlFind parent name
  | .renameFrom fromName toDir toName => .renVictim parent fromName toDir toName
  | .renameTo fromParent fromName victim toName => .renDest fromParent fromName victim parent toName
  | .exchangeA na bDir nb => .walk root bDir (.exchangeB parent na nb)
  | .exchangeB pa na nb => .xchLookA ⟨pa, na, parent, nb⟩

@[grind =] def opStart (arm : Arm) (o : Op Name) : Pc Name :=
  match o.start with
  | .refuse e => .ret (some e)
  | .walk dir k => .walk root dir k
  | .lookup path => .lkStart arm path

def callStart (arm : Arm) : Call Name → Pc Name
  | .op o => opStart arm o
  | .evict a => .evTop a
  | .fold n => .fldTest n

def reparentHop (d : Cache Name) (host cur : ℕ) (hops : ℕ) : CycleHop :=
  if cur = root then .arrived
  else if cur = host then .loop
  else if (d.dentry cur).moving then .busy
  else if loopMax < hops + 1 then .busy
  else .climb

theorem reparentHop_arrived {d : Cache Name} {host cur hops : ℕ}
    (h : reparentHop d host cur hops = .arrived) : cur = root := by
  unfold reparentHop at h
  split_ifs at h with hr
  exact hr

namespace Cache

variable (d : Cache Name)

def lo (topa topb : ℕ) : ℕ :=
  min (d.hostOf topa) (d.hostOf topb)

def hi (topa topb : ℕ) : ℕ :=
  max (d.hostOf topa) (d.hostOf topb)

def near (a : ℕ) (l : List ℕ) : Option ℕ × Option ℕ :=
  ((l.takeWhile (· ≠ a)).getLast?, succ a l)

def hashNear (a : ℕ) : Option ℕ × Option ℕ :=
  near a (d.hash (d.bucket a))

def sibNear (a : ℕ) : Option ℕ × Option ℕ :=
  near a (d.kids (d.dentry a).iparent)

def holds (g : Reads) : Bool :=
  g.words.all (fun p => d.raw p.1 = p.2) && g.gen.all (fun v => d.gen = v) &&
    g.seqs.all (fun p => d.seq p.1 = p.2) &&
    g.hash.all (fun p => d.hashNear p.1 = p.2) && g.sib.all (fun p => d.sibNear p.1 = p.2)

def recordWord (arm : Arm) (a : ℕ) : List (ℕ × StateWord) :=
  if arm = .mark then [(a, d.raw a)] else []

def recordGen (arm : Arm) (hosts : List ℕ) : Option ℕ :=
  if arm = .global && hosts.any (fun h => (d.dentry h).isdir) then some d.gen else none

def recordSeqs (arm : Arm) (hosts : List ℕ) : List (ℕ × ℕ) :=
  if arm = .node then (hosts.filter fun h => (d.dentry h).isdir).map fun h => (h, d.seq h) else []

def addHolds (arm : Arm) (e : Entry Name) (raw : StateWord) (head : Option ℕ) : Bool :=
  (arm ≠ .mark || d.raw e.parent = raw) && (d.hash (d.bucketOf e.parent e.name)).head? = head

/-- `dc_set_negative_txn`: the state word, and for a directory the NULL child head. The other
arms exchange the word alone. -/
def setHolds (arm : Arm) (host : ℕ) (raw : StateWord) : Bool :=
  d.raw host = raw && (arm ≠ .mark || !(d.dentry host).isdir ||
    d.childrenEmpty host && !d.sealed host)

def removeHolds (host : ℕ) (sealIt : Bool) : Bool :=
  !sealIt || d.childrenEmpty host && !d.sealed host

def stackHolds (m : Move Name) (top : ℕ) (g : Guards) (oldp : ℕ) : Bool :=
  d.holds g.toReads && !d.mark top && g.neg.all (fun a => !d.mark a) &&
    (d.hash (d.bucketOf m.newParent m.newName)).head? = g.head &&
    (d.kids m.newParent).head? = g.first && !d.sealed m.newParent &&
    (d.dentry (d.hostOf top)).top = dtopVal (d.hostOf top) top &&
    (!m.cross || (d.dentry (d.hostOf top)).parent = oldp)

def exchangeHolds (x : Xchg Name) (topa topb : ℕ) (g : Reads) (olda oldb : ℕ) : Bool :=
  d.holds g && !d.mark topa && !d.mark topb &&
    (d.dentry (d.hostOf topa)).top = dtopVal (d.hostOf topa) topa &&
    (d.dentry (d.hostOf topb)).top = dtopVal (d.hostOf topb) topb &&
    (!x.cross || (d.dentry (d.hostOf topa)).parent = olda &&
      (d.dentry (d.hostOf topb)).parent = oldb)

def foldHolds (n : ℕ) (own : Option StateWord) : Bool :=
  own.all (fun w => d.raw (d.hostOf n) = w) && (d.dentry (d.hostOf n)).top = some n

def stampOf (arm : Arm) (top : ℕ) : ℕ :=
  if arm = .node then d.seq (d.hostOf top) else top

def restamped (arm : Arm) (stamp host : ℕ) : Bool :=
  if arm = .node then d.seq host ≠ stamp else d.mark stamp

@[simp] theorem restamped_mark (stamp host : ℕ) : d.restamped .mark stamp host = d.mark stamp := rfl

@[simp] theorem restamped_node (stamp host : ℕ) :
    d.restamped .node stamp host = decide (d.seq host ≠ stamp) := rfl

end Cache

def afterStack (m : Move Name) : Outcome ℕ → Pc Name
  | .retry => .stkState m
  | .fail e => .ret (some e)
  | .done shell => .stkQueue shell

def stackEnds (m : Move Name) (top : ℕ) (o : Outcome ℕ) : Pc Name :=
  if m.cross then .stkClear m top o else afterStack m o

def afterExchange (x : Xchg Name) : Outcome (ℕ × ℕ) → Pc Name
  | .retry => .xchFindA x
  | .fail e => .ret (some e)
  | .done s => .xchQueueA s.1 s.2

def exchangeEnds (x : Xchg Name) (topa topb : ℕ) (o : Outcome (ℕ × ℕ)) : Pc Name :=
  if x.cross then .xchClearA x topa topb o else afterExchange x o

/-- What the library answers where it is asked: memory, and whether a commit met a conflict. -/
inductive Answer where
  | ok
  | oom
  | abort
  deriving DecidableEq, Repr

variable [DecidableEq Name]

def stepPc (arm : Arm) (d : Cache Name) (pc : Pc Name) (ans : Answer) : Cache Name × Pc Name :=
  match pc with
  | .idle => (d, .idle)
  | .done r => (d, .done r)
  -- resolve
  | .walk cur [] k => (d, arrive cur k)
  | .walk cur (name :: rest) k =>
    match d.childLookup cur name with
    | none => (d, .ret (some .ENOENT))
    | some host => (d, .walk host rest k)
  -- dc_add_typed
  | .addCheck e =>
    if !(d.dentry e.parent).isdir then (d, .ret (some .ENOTDIR))
    else if (d.childLookup e.parent e.name).isSome then (d, .ret (some .EEXIST))
    else if ans = .oom then (d, .ret (some .ENOMEM))
    else (d, .addState e)
  | .addState e =>
    if arm = .mark && (d.raw e.parent).neg then (d, .ret (some .ENOENT)) else (d, .addHead e (d.raw e.parent))
  | .addHead e raw => (d, .addScan e raw (d.hash (d.bucketOf e.parent e.name)).head?)
  | .addScan e raw head =>
    if (d.childLookup e.parent e.name).isSome then (d, .ret (some .EEXIST))
    else (d, .addCommit e raw head)
  | .addCommit e raw head =>
    if d.sealed e.parent then (d, .ret (some .ENOENT))
    else if ans = .oom then (d, .ret (some .ENOMEM))
    else if ans = .abort || !d.addHolds arm e raw head then (d, .addState e)
    else (d.addCommit e.parent e.name e.id e.isdir e.positive, .ret none)
  -- dc_instantiate and dc_delete
  | .setFind parent name negative id =>
    match d.findTop parent name with
    | none => (d, .ret (some .ENOENT))
    | some top =>
      if arm ≠ .mark && negative && (d.dentry (d.hostOf top)).isdir then
        (d, .ret (some .ENOTSUP))
      else (d, .setRead (d.hostOf top) negative id)
  | .setRead host negative id =>
    if (d.raw host).neg = negative then
      (d, .ret (some (if negative then .ENOENT else .EEXIST)))
    else if arm = .mark && (d.dentry host).isdir then (d, .setKids host negative id (d.raw host))
    else (d, .setId host negative id (d.raw host))
  | .setKids host negative id raw =>
    if d.childrenEmpty host then (d, .setId host negative id raw)
    else (d, .ret (some .ENOTEMPTY))
  | .setId host negative id raw =>
    (if negative then d else d.modify host fun e => { e with id := id },
      .setCommit host negative id raw)
  | .setCommit host negative id raw =>
    if arm = .mark && ans = .oom then (d, .ret (some .ENOMEM))
    else if arm = .mark && ans = .abort || !d.setHolds arm host raw then (d, .setRead host negative id)
    else (d.flip host negative, .ret none)
  -- dc_unlink
  | .unlFind parent name =>
    match d.findTop parent name with
    | none => (d, .ret (some .ENOENT))
    | some top => (d, .unlKids parent name top)
  | .unlKids parent name top =>
    if d.childrenEmpty (d.hostOf top) then (d, .unlCommit parent name top)
    else (d, .ret (some .ENOTEMPTY))
  | .unlCommit parent name top =>
    let host := d.hostOf top
    if ans = .oom then (d, .ret (some .ENOMEM))
    else if ans = .abort || d.mark top || !d.removeHolds host (d.dentry host).isdir then
      (d, .unlFind parent name)
    else (d.removeCommit top host (d.dentry host).isdir, .ret none)
  -- dc_rename
  | .renVictim fromParent fromName toDir toName =>
    match d.childLookup fromParent fromName with
    | none => (d, .ret (some .ENOENT))
    | some victim => (d, .walk root toDir (.renameTo fromParent fromName victim toName))
  | .renDest fromParent fromName victim toParent toName =>
    match d.childLookup toParent toName with
    | none => (d, .renCross fromParent fromName victim toParent toName)
    | some dest =>
      if dest = victim then (d, .ret (some .EEXIST))
      else (d, .renDestPos fromParent fromName victim toParent toName dest)
  | .renDestPos fromParent fromName victim toParent toName dest =>
    if !(d.raw dest).neg then (d, .ret (some .EEXIST))
    else (d, .renCross fromParent fromName victim toParent toName)
  | .renCross fromParent fromName victim toParent toName =>
    if ans = .oom then (d, .ret (some .ENOMEM))
    else (d, .stkState ⟨fromParent, fromName, toParent, toName,
      (d.dentry victim).parent ≠ toParent⟩)
  -- stack_shell
  | .stkState m =>
    if arm = .mark && (d.raw m.newParent).neg then (d, .ret (some .ENOENT)) else (d, .stkFind m)
  | .stkFind m =>
    match d.findTop m.fromParent m.fromName with
    | none => (d, .ret (some .ENOENT))
    | some top => (d, if m.cross then .stkGray m top else .stkGuard m top)
  | .stkGray m top =>
    if (d.dentry (d.hostOf top)).moving then (d, .stkState m)
    else (d.setMoving (d.hostOf top) true, .stkGuard m top)
  | .stkGuard m top =>
    if m.cross && d.hostOf top = root then (d, stackEnds m top (.fail .EINVAL))
    else (d, .stkHead m top ⟨⟨d.recordWord arm m.newParent,
      d.recordGen arm [d.hostOf top], d.recordSeqs arm [d.hostOf top], [], []⟩, none, none, none⟩)
  | .stkHead m top g =>
    if d.mark top then (d, stackEnds m top .retry)
    else (d, .stkScan m top { g with
      hash := [(top, d.hashNear top)]
      head := (d.hash (d.bucketOf m.newParent m.newName)).head? })
  | .stkScan m top g =>
    match d.findTop m.newParent m.newName with
    | none => (d, .stkSib m top g)
    | some cur =>
      if cur = top then (d, stackEnds m top (.fail .EEXIST)) else (d, .stkJudge m top g cur)
  | .stkJudge m top g cur =>
    if d.hostOf cur = cur && (d.raw cur).neg && !(d.dentry cur).isdir then
      (d, .stkNeg m top g cur)
    else (d, stackEnds m top (.fail .EEXIST))
  | .stkNeg m top g cur =>
    if d.mark cur then (d, stackEnds m top .retry)
    else (d, .stkSib m top { g with
      words := g.words ++ d.recordWord arm cur
      hash := g.hash ++ [(cur, d.hashNear cur)]
      sib := [(cur, d.sibNear cur)]
      neg := some cur })
  | .stkSib m top g =>
    if d.mark top then (d, stackEnds m top .retry)
    else if d.sealed m.newParent then (d, stackEnds m top (.fail .ENOENT))
    else
      let g := { g with
        sib := g.sib ++ [(top, d.sibNear top)]
        first := (d.kids m.newParent).head? }
      (d, if m.cross then .stkOld m top g else .stkCommit m top g 0)
  | .stkOld m top g => (d, .stkWalk m top g (d.dentry (d.hostOf top)).parent m.newParent 0)
  | .stkWalk m top g oldp cur hops =>
    match reparentHop d (d.hostOf top) cur hops with
    | .loop => (d, stackEnds m top (.fail .EINVAL))
    | .busy => (d, stackEnds m top .retry)
    | .arrived => (d, .stkCommit m top g oldp)
    | .climb => (d, .stkHop m top g oldp cur (hops + 1))
  | .stkHop m top g oldp cur hops => (d, .stkWalk m top g oldp (d.dentry cur).parent hops)
  | .stkCommit m top g oldp =>
    if ans = .oom then (d, stackEnds m top (.fail .ENOMEM))
    else if ans = .abort || !d.stackHolds m top g oldp then (d, stackEnds m top .retry)
    else (d.stackCommit arm m top g.neg, stackEnds m top (.done d.fresh))
  | .stkClear m top o => (d.setMoving (d.hostOf top) false, afterStack m o)
  | .stkQueue _ => (d, .ret none)
  -- dc_rename_exchange
  | .xchLookA x => (d, .xchLookB x (d.childLookup x.pa x.na))
  | .xchLookB x hosta =>
    match hosta, d.childLookup x.pb x.nb with
    | some ha, some hb =>
      if ha = hb then (d, .ret none)
      else if ans = .oom then (d, .ret (some .ENOMEM))
      else (d, .xchFindA x)
    | _, _ => (d, .ret (some .ENOENT))
  | .xchFindA x => (d, .xchFindB x (d.findTop x.pa x.na))
  | .xchFindB x topa =>
    match topa, d.findTop x.pb x.nb with
    | some ta, some tb => (d, if x.cross then .xchGrayLo x ta tb else .xchGuardA x ta tb)
    | _, _ => (d, .ret (some .ENOENT))
  | .xchGrayLo x topa topb =>
    if (d.dentry (d.lo topa topb)).moving then (d, .xchFindA x)
    else (d.setMoving (d.lo topa topb) true, .xchGrayHi x topa topb)
  | .xchGrayHi x topa topb =>
    if d.hi topa topb = d.lo topa topb then (d, .xchGuardA x topa topb)
    else if (d.dentry (d.hi topa topb)).moving then (d, .xchDropLo x topa topb)
    else (d.setMoving (d.hi topa topb) true, .xchGuardA x topa topb)
  | .xchDropLo x topa topb => (d.setMoving (d.lo topa topb) false, .xchFindA x)
  | .xchGuardA x topa topb =>
    (d, .xchGuardB x topa topb ⟨d.recordWord arm x.pa,
      d.recordGen arm [d.hostOf topa, d.hostOf topb],
      d.recordSeqs arm [d.hostOf topa, d.hostOf topb], [], []⟩)
  | .xchGuardB x topa topb g =>
    (d, .xchLinks x topa topb (if x.pb = x.pa then g
      else { g with words := g.words ++ d.recordWord arm x.pb }))
  | .xchLinks x topa topb g =>
    -- a top that is found under both names has been replaced by the time of its second record
    if d.mark topa || d.mark topb || topa = topb then (d, exchangeEnds x topa topb .retry)
    else
      let g := { g with
        hash := [(topa, d.hashNear topa), (topb, d.hashNear topb)]
        sib := [(topa, d.sibNear topa), (topb, d.sibNear topb)] }
      (d, if x.cross then .xchOld x topa topb g else .xchCommit x topa topb g 0 0)
  | .xchOld x topa topb g =>
    if d.hostOf topa = root || d.hostOf topb = root then
      (d, exchangeEnds x topa topb (.fail .EINVAL))
    else (d, .xchWalk x topa topb g (d.dentry (d.hostOf topa)).parent
      (d.dentry (d.hostOf topb)).parent false x.pb 0)
  | .xchWalk x topa topb g olda oldb second cur hops =>
    match reparentHop d (d.hostOf (if second then topb else topa)) cur hops with
    | .loop => (d, exchangeEnds x topa topb (.fail .EINVAL))
    | .busy => (d, exchangeEnds x topa topb .retry)
    | .arrived => (d, if second then .xchCommit x topa topb g olda oldb
        else .xchWalk x topa topb g olda oldb true x.pa 0)
    | .climb => (d, .xchHop x topa topb g olda oldb second cur (hops + 1))
  | .xchHop x topa topb g olda oldb second cur hops =>
    (d, .xchWalk x topa topb g olda oldb second (d.dentry cur).parent hops)
  | .xchCommit x topa topb g olda oldb =>
    if ans = .oom then (d, exchangeEnds x topa topb (.fail .ENOMEM))
    else if ans = .abort || !d.exchangeHolds x topa topb g olda oldb then
      (d, exchangeEnds x topa topb .retry)
    else (d.exchangeCommit arm x topa topb,
      exchangeEnds x topa topb (.done (d.fresh, d.fresh + 1)))
  | .xchClearA x topa topb o => (d.setMoving (d.hostOf topa) false, .xchClearB x topa topb o)
  | .xchClearB x _ topb o => (d.setMoving (d.hostOf topb) false, afterExchange x o)
  | .xchQueueA _ sb => (d, .xchQueueB sb)
  | .xchQueueB _ => (d, .ret none)
  -- lru_evict_settled
  | .evTop a =>
    if (d.dentry a).top.isSome || (d.dentry a).host.isSome then (d, .ret (some .EAGAIN))
    else (d, .evParent a)
  | .evParent a =>
    if (d.dentry a).parent = a then (d, .ret (some .EAGAIN)) else (d, .evKids a)
  | .evKids a =>
    if !d.childrenEmpty a || (d.dentry a).top.isSome then (d, .ret (some .EAGAIN))
    else (d, .evCommit a)
  | .evCommit a =>
    if ans = .oom || d.mark a then (d, .ret (some .EAGAIN))
    else if ans = .abort || !d.removeHolds a true then (d, .evKids a)
    else (d.removeCommit a a true, .ret none)
  -- fold
  | .fldTest n =>
    if d.mark n then (d, .ret none)
    else if arm = .mark then (d, .fldName n)
    else (d, .fldOwn n)
  | .fldName n => (d.setIname (d.hostOf n) (d.dentry n).iname, .fldTop n)
  | .fldTop n =>
    if (d.dentry (d.hostOf n)).top = some n then
      (d, if arm = .mark then .fldOwn n else .fldCommit n none)
    else (d, .fldTest n)
  | .fldOwn n =>
    (d, if arm = .mark then .fldCommit n (some (d.raw (d.hostOf n)))
      else .fldSwap n (d.raw (d.hostOf n)))
  | .fldSwap n own =>
    if d.raw (d.hostOf n) = own then
      (d.setIparent (d.hostOf n) (d.dentry n).iparent, .fldName n)
    else (d, .fldOwn n)
  | .fldCommit n own =>
    if ans = .oom || d.mark n then (d, .ret none)
    else if ans = .abort || !d.foldHolds n own then (d, .fldTest n)
    else (d.foldCommit arm n, .ret none)
  -- dc_lookup
  | .lkGen path => (d, .lkHop path d.gen root path [] .positive)
  | .lkHop path gen _ [] latched res =>
    (d, if arm = .global then .lkGenEnd path gen latched res else .lkUp path latched latched res)
  | .lkHop path gen cur (name :: rest) latched _ =>
    (d, .lkScan ⟨path, gen, cur, name, rest, latched⟩ (d.hash (d.bucketOf cur name)).head?)
  | .lkScan h none =>
    (d, if arm = .global then .lkGenEnd h.path h.gen h.latched .absent
      else .lkUp h.path h.latched h.latched .absent)
  | .lkScan h (some n) =>
    if (d.raw n).parent = h.cur then (d, .lkName h n (d.raw n)) else (d, .lkNext h n)
  | .lkName h n raw =>
    if (d.dentry n).iname = h.name then
      (d, match arm with
        | .mark => .lkConfirm h n raw n
        | .global => .lkState h n raw n
        | .node => .lkStamp h n raw)
    else (d, .lkNext h n)
  | .lkNext h n => (d, .lkScan h (d.next n))
  | .lkStamp h top raw => (d, .lkConfirm h top raw (d.stampOf arm top))
  | .lkConfirm h top raw stamp =>
    if d.mark top then (d, .lkStart arm h.path) else (d, .lkState h top raw stamp)
  | .lkState h top raw stamp =>
    let host := d.hostOf top
    let negative := if raw.shell then (d.raw host).neg else raw.neg
    (d, .lkHop h.path h.gen host h.rest (h.latched ++ [(stamp, host)])
      (if negative then .negative else .positive))
  | .lkUp _ latched [] res => (d, .done (.lookup res (latched.map Prod.snd)))
  | .lkUp path latched ((stamp, host) :: todo) res =>
    if d.restamped arm stamp host then (d, .lkStart arm path)
    else (d, .lkUp path latched todo res)
  | .lkGenEnd path gen latched res =>
    if d.gen = gen then (d, .done (.lookup res (latched.map Prod.snd)))
    else (d, .lkStart arm path)

structure Sys (Name : Type) where
  d : Cache Name
  rcu : Rcu ℕ ℕ
  pc : ℕ → Pc Name

inductive Act (Name : Type) where
  | call (t : ℕ) (c : Call Name)
  | step (t : ℕ) (ans : Answer)
  deriving DecidableEq, Repr

namespace Act

def thread : Act Name → ℕ
  | .call t _ => t
  | .step t _ => t

def steps (t k : ℕ) : List (Act Name) :=
  List.replicate k (.step t .ok)

def op (t : ℕ) (o : Op Name) (k : ℕ) : List (Act Name) :=
  .call t (.op o) :: steps t k

end Act

namespace Sys

def init (bucketOf : ℕ → Name → ℕ) (rootname : Name) : Sys Name :=
  ⟨dcCreate bucketOf rootname, .init, fun _ => .idle⟩

def admits (s : Sys Name) : Call Name → Bool
  | .fold n => s.rcu.ready n
  | .evict a => a < s.d.fresh
  | _ => true

def act (arm : Arm) (s : Sys Name) : Act Name → Option (Sys Name)
  | .call t c =>
    if !(s.pc t).busy && s.admits c then
      some ⟨s.d, s.rcu.atCall t (c.folded) (callStart arm c).busy,
        Function.update s.pc t (callStart arm c)⟩
    else none
  | .step t ans =>
    if (s.pc t).busy then
      let r := stepPc arm s.d (s.pc t) ans
      some ⟨r.1, s.rcu.atStep t (s.pc t).queues r.2.busy, Function.update s.pc t r.2⟩
    else none

theorem act_step {arm : Arm} {s : Sys Name} {t : ℕ} (hb : (s.pc t).busy = true) (ans : Answer) :
    s.act arm (.step t ans) = some ⟨(stepPc arm s.d (s.pc t) ans).1,
      s.rcu.atStep t (s.pc t).queues (stepPc arm s.d (s.pc t) ans).2.busy,
      Function.update s.pc t (stepPc arm s.d (s.pc t) ans).2⟩ := by
  simp [act, hb]

end Sys

end TrieBenchmark.Txn
