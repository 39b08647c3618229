import TrieBenchmark.Bucketlock.Section
import TrieBenchmark.Lib.Grace

/-!
The operations of the bucket-lock engine as programs of atomic steps: an unlocked lookup, a
pointer or flag access, or a whole critical section. Any number of threads interleave them.
-/

namespace TrieBenchmark.Bucketlock

open Function Hlist Grace

/-- A hop of a lookup: the names still to match and the tops latched so far, with their
hosts. -/
structure Hop (Name : Type) where
  path : List Name
  cur : ℕ
  name : Name
  rest : List Name
  latched : List (ℕ × ℕ)
  deriving DecidableEq, Repr

inductive Pc (Name : Type) where
  | idle
  | done (r : Ret)
  | walk (cur : ℕ) (rest : List Name) (k : Cont Name)
  | addCheck (parent : ℕ) (name : Name) (id : ℕ) (isdir positive : Bool)
  | addLock (parent : ℕ) (name : Name) (id : ℕ) (isdir positive : Bool)
  | instFind (parent : ℕ) (name : Name) (id : ℕ)
  | instLock (parent : ℕ) (name : Name) (id : ℕ) (top : ℕ)
  | delFind (parent : ℕ) (name : Name) (isdirLocked : Option ℕ)
  | delLock (parent : ℕ) (name : Name) (isdirLocked : Option ℕ) (top : ℕ)
  | unlFind (parent : ℕ) (name : Name)
  | unlKids (parent : ℕ) (name : Name) (top : ℕ)
  | unlLock (parent : ℕ) (name : Name) (top : ℕ)
  | renVictim (fromParent : ℕ) (fromName : Name) (toDir : List Name) (toName : Name)
  | renDest (fromParent : ℕ) (fromName : Name) (victim toParent : ℕ) (toName : Name)
  | renDestPos (fromParent : ℕ) (fromName : Name) (victim toParent : ℕ) (toName : Name)
      (dest : ℕ)
  | renToPos (fromParent : ℕ) (fromName : Name) (victim toParent : ℕ) (toName : Name)
  | renCross (fromParent : ℕ) (fromName : Name) (victim toParent : ℕ) (toName : Name)
  | stkFind (m : Move Name)
  | stkGray (m : Move Name) (top : ℕ)
  | stkWalk (m : Move Name) (top cur : ℕ) (hops : ℕ)
  | stkHop (m : Move Name) (top cur : ℕ) (hops : ℕ)
  | stkLock (m : Move Name) (top : ℕ)
  | stkClear (m : Move Name) (top : ℕ) (o : Outcome ℕ)
  | stkQueue (shell : ℕ)
  | xchLookA (x : Xchg Name)
  | xchLookB (x : Xchg Name) (hosta : Option ℕ)
  | xchFindA (x : Xchg Name)
  | xchFindB (x : Xchg Name) (topa : Option ℕ)
  | xchGrayLo (x : Xchg Name) (topa topb : ℕ)
  | xchGrayHi (x : Xchg Name) (topa topb : ℕ)
  | xchDropLo (x : Xchg Name) (topa topb : ℕ)
  | xchWalk (x : Xchg Name) (topa topb : ℕ) (second : Bool) (cur : ℕ) (hops : ℕ)
  | xchHop (x : Xchg Name) (topa topb : ℕ) (second : Bool) (cur : ℕ) (hops : ℕ)
  | xchLock (x : Xchg Name) (topa topb : ℕ)
  | xchClearA (x : Xchg Name) (topa topb : ℕ) (o : Outcome (ℕ × ℕ))
  | xchClearB (x : Xchg Name) (topa topb : ℕ) (o : Outcome (ℕ × ℕ))
  | xchQueueA (sa sb : ℕ)
  | xchQueueB (sb : ℕ)
  | evTop (a : ℕ)
  | evParent (a : ℕ)
  | evLock (a : ℕ)
  | fldTest (n : ℕ)
  | fldLock (n : ℕ)
  | lkHop (path : List Name) (cur : ℕ) (rest : List Name) (latched : List (ℕ × ℕ))
      (res : DcResult)
  | lkScan (h : Hop Name) (node : Option ℕ)
  | lkNext (h : Hop Name) (node : ℕ)
  | lkConfirm (h : Hop Name) (top : ℕ) (neg : Bool)
  | lkState (h : Hop Name) (top : ℕ) (neg : Bool)
  | lkUp (path : List Name) (latched todo : List (ℕ × ℕ)) (res : DcResult)
  deriving DecidableEq, Repr

namespace Pc

variable {Name : Type}

def busy : Pc Name → Bool
  | .idle => false
  | .done _ => false
  | _ => true

def queues : Pc Name → Option ℕ
  | .stkQueue shell => some shell
  | .xchQueueA sa _ => some sa
  | .xchQueueB sb => some sb
  | _ => none

def ret (e : Option Errno) : Pc Name :=
  .done (.code e)

def lkStart (path : List Name) : Pc Name :=
  .lkHop path root path [] .positive

end Pc

variable {Name : Type}

@[grind =] def arrive (parent : ℕ) : Cont Name → Pc Name
  | .add name id isdir positive => .addCheck parent name id isdir positive
  | .instantiate name id => .instFind parent name id
  | .delete name => .delFind parent name none
  | .unlink name => .unlFind parent name
  | .renameFrom fromName toDir toName => .renVictim parent fromName toDir toName
  | .renameTo fromParent fromName victim toName => .renDest fromParent fromName victim parent toName
  | .exchangeA na bDir nb => .walk root bDir (.exchangeB parent na nb)
  | .exchangeB pa na nb => .xchLookA ⟨pa, na, parent, nb⟩

@[grind =] def opStart (o : Op Name) : Pc Name :=
  match o.start with
  | .refuse e => .ret (some e)
  | .walk dir k => .walk root dir k
  | .lookup path => .lkStart path

def callStart : Call Name → Pc Name
  | .op o => opStart o
  | .evict a => .evTop a
  | .fold n => .fldTest n

def crossCycleHop (d : DCache Name) (host cur : ℕ) (hops : ℕ) : CycleHop :=
  if host = root then .loop
  else if cur = root then .arrived
  else if cur = host then .loop
  else if (d.dentry cur).moving then .busy
  else if loopMax < hops + 1 then .busy
  else .climb

def DCache.lo (d : DCache Name) (topa topb : ℕ) : ℕ :=
  min (d.hostOf topa) (d.hostOf topb)

def DCache.hi (d : DCache Name) (topa topb : ℕ) : ℕ :=
  max (d.hostOf topa) (d.hostOf topb)

def afterStack (m : Move Name) : Outcome ℕ → Pc Name
  | .retry => .stkFind m
  | .fail e => .ret (some e)
  | .done shell => .stkQueue shell

def afterExchange (x : Xchg Name) : Outcome (ℕ × ℕ) → Pc Name
  | .retry => .xchFindA x
  | .fail e => .ret (some e)
  | .done s => .xchQueueA s.1 s.2

variable [DecidableEq Name]

/-- One step of a thread. `oom` is the allocator's answer where the step allocates. -/
def stepPc (d : DCache Name) (pc : Pc Name) (oom : Bool) : DCache Name × Pc Name :=
  match pc with
  | .idle => (d, .idle)
  | .done r => (d, .done r)
  -- resolve
  | .walk cur [] k => (d, arrive cur k)
  | .walk cur (name :: rest) k =>
    match d.childLookup cur name with
    | none => (d, .ret (some .ENOENT))
    | some host => (d, .walk host rest k)
  -- dc_add_typed
  | .addCheck parent name id isdir positive =>
    if !(d.dentry parent).isdir then (d, .ret (some .ENOTDIR))
    else if (d.childLookup parent name).isSome then (d, .ret (some .EEXIST))
    else if oom then (d, .ret (some .ENOMEM))
    else (d, .addLock parent name id isdir positive)
  | .addLock parent name id isdir positive =>
    let r := d.addLocked parent name id isdir positive
    (r.2, .ret r.1)
  -- dc_instantiate
  | .instFind parent name id =>
    match d.findTop parent name with
    | none => (d, .ret (some .ENOENT))
    | some top => (d, .instLock parent name id top)
  | .instLock parent name id top =>
    if d.topUnhashed top then (d, .instFind parent name id)
    else
      let r := d.setNegative (d.hostOf top) false id
      (r.2, .ret r.1)
  -- dc_delete: a directory's own child head is locked on the second round
  | .delFind parent name isdirLocked =>
    match d.findTop parent name with
    | none => (d, .ret (some .ENOENT))
    | some top => (d, .delLock parent name isdirLocked top)
  | .delLock parent name isdirLocked top =>
    let host := d.hostOf top
    if d.topUnhashed top then (d, .delFind parent name none)
    else if (d.dentry host).isdir && isdirLocked ≠ some host then
      (d, .delFind parent name (some host))
    else if (d.dentry host).isdir && !d.childrenEmpty host then (d, .ret (some .ENOTEMPTY))
    else
      let r := d.setNegative host true 0
      (r.2, .ret r.1)
  -- dc_unlink
  | .unlFind parent name =>
    match d.findTop parent name with
    | none => (d, .ret (some .ENOENT))
    | some top => (d, .unlKids parent name top)
  | .unlKids parent name top =>
    if d.childrenEmpty (d.hostOf top) then (d, .unlLock parent name top)
    else (d, .ret (some .ENOTEMPTY))
  | .unlLock parent name top =>
    match d.unlinkLocked top with
    | (.retry, d') => (d', .unlFind parent name)
    | (.fail e, d') => (d', .ret (some e))
    | (.done _, d') => (d', .ret none)
  -- dc_rename
  | .renVictim fromParent fromName toDir toName =>
    match d.childLookup fromParent fromName with
    | none => (d, .ret (some .ENOENT))
    | some victim => (d, .walk root toDir (.renameTo fromParent fromName victim toName))
  | .renDest fromParent fromName victim toParent toName =>
    match d.childLookup toParent toName with
    | none => (d, .renToPos fromParent fromName victim toParent toName)
    | some dest =>
      if dest = victim then (d, .ret (some .EEXIST))
      else (d, .renDestPos fromParent fromName victim toParent toName dest)
  | .renDestPos fromParent fromName victim toParent toName dest =>
    if d.isPositive dest then (d, .ret (some .EEXIST))
    else (d, .renToPos fromParent fromName victim toParent toName)
  | .renToPos fromParent fromName victim toParent toName =>
    if !d.isPositive toParent then (d, .ret (some .ENOENT))
    else (d, .renCross fromParent fromName victim toParent toName)
  | .renCross fromParent fromName victim toParent toName =>
    if oom then (d, .ret (some .ENOMEM))
    else (d, .stkFind ⟨fromParent, fromName, toParent, toName,
      (d.dentry victim).parent ≠ toParent⟩)
  -- stack_shell
  | .stkFind m =>
    match d.findTop m.fromParent m.fromName with
    | none => (d, .ret (some .ENOENT))
    | some top => (d, if m.cross then .stkGray m top else .stkLock m top)
  | .stkGray m top =>
    if (d.dentry (d.hostOf top)).moving then (d, .stkFind m)
    else (d.setMoving (d.hostOf top) true, .stkWalk m top m.newParent 0)
  | .stkWalk m top cur hops =>
    match crossCycleHop d (d.hostOf top) cur hops with
    | .loop => (d, .stkClear m top (.fail .EINVAL))
    | .busy => (d, .stkClear m top .retry)
    | .arrived => (d, .stkLock m top)
    | .climb => (d, .stkHop m top cur (hops + 1))
  | .stkHop m top cur hops => (d, .stkWalk m top (d.dentry cur).parent hops)
  | .stkLock m top =>
    let r := d.stackLocked m top oom
    (r.2, if m.cross then .stkClear m top r.1 else afterStack m r.1)
  | .stkClear m top o => (d.setMoving (d.hostOf top) false, afterStack m o)
  | .stkQueue _ => (d, .ret none)
  -- dc_rename_exchange
  | .xchLookA x => (d, .xchLookB x (d.childLookup x.pa x.na))
  | .xchLookB x hosta =>
    match hosta, d.childLookup x.pb x.nb with
    | some ha, some hb =>
      if ha = hb then (d, .ret none)
      else if oom then (d, .ret (some .ENOMEM))
      else (d, .xchFindA x)
    | _, _ => (d, .ret (some .ENOENT))
  | .xchFindA x => (d, .xchFindB x (d.findTop x.pa x.na))
  | .xchFindB x topa =>
    match topa, d.findTop x.pb x.nb with
    | some ta, some tb => (d, if x.cross then .xchGrayLo x ta tb else .xchLock x ta tb)
    | _, _ => (d, .ret (some .ENOENT))
  | .xchGrayLo x topa topb =>
    if (d.dentry (d.lo topa topb)).moving then (d, .xchFindA x)
    else (d.setMoving (d.lo topa topb) true, .xchGrayHi x topa topb)
  | .xchGrayHi x topa topb =>
    if (d.dentry (d.hi topa topb)).moving then (d, .xchDropLo x topa topb)
    else (d.setMoving (d.hi topa topb) true, .xchWalk x topa topb false x.pb 0)
  | .xchDropLo x topa topb => (d.setMoving (d.lo topa topb) false, .xchFindA x)
  | .xchWalk x topa topb second cur hops =>
    match crossCycleHop d (d.hostOf (if second then topb else topa)) cur hops with
    | .loop => (d, .xchClearA x topa topb (.fail .EINVAL))
    | .busy => (d, .xchClearA x topa topb .retry)
    | .arrived => (d, if second then .xchLock x topa topb else .xchWalk x topa topb true x.pa 0)
    | .climb => (d, .xchHop x topa topb second cur (hops + 1))
  | .xchHop x topa topb second cur hops =>
    (d, .xchWalk x topa topb second (d.dentry cur).parent hops)
  | .xchLock x topa topb =>
    let r := d.exchangeLocked x topa topb oom
    (r.2, if x.cross then .xchClearA x topa topb r.1 else afterExchange x r.1)
  | .xchClearA x topa topb o => (d.setMoving (d.hostOf topa) false, .xchClearB x topa topb o)
  | .xchClearB x _ topb o => (d.setMoving (d.hostOf topb) false, afterExchange x o)
  | .xchQueueA _ sb => (d, .xchQueueB sb)
  | .xchQueueB _ => (d, .ret none)
  -- lru_evict_settled
  | .evTop a =>
    if (d.dentry a).top.isSome || (d.dentry a).host.isSome then (d, .ret (some .EAGAIN))
    else (d, .evParent a)
  | .evParent a =>
    if (d.dentry a).parent = a then (d, .ret (some .EAGAIN)) else (d, .evLock a)
  | .evLock a =>
    let r := d.evictLocked a
    (r.2, .ret r.1)
  -- fold
  | .fldTest n => if d.topUnhashed n then (d, .ret none) else (d, .fldLock n)
  | .fldLock n => (d.foldLocked n oom, .ret none)
  -- dc_lookup
  | .lkHop path _ [] latched res => (d, .lkUp path latched latched res)
  | .lkHop path cur (name :: rest) latched _ =>
    (d, .lkScan ⟨path, cur, name, rest, latched⟩ (d.hash.first (d.bucketOf cur name)))
  | .lkScan h none => (d, .lkUp h.path h.latched h.latched .absent)
  | .lkScan h (some n) =>
    if d.spells h.cur h.name n then (d, .lkConfirm h n (d.dentry n).neg) else (d, .lkNext h n)
  | .lkNext h n => (d, .lkScan h (d.hash.next n))
  | .lkConfirm h top neg =>
    if d.topUnhashed top then (d, .lkStart h.path) else (d, .lkState h top neg)
  | .lkState h top neg =>
    let host := d.hostOf top
    let negative := if (d.dentry top).shell then (d.dentry host).neg else neg
    (d, .lkHop h.path host h.rest (h.latched ++ [(top, host)])
      (if negative then .negative else .positive))
  | .lkUp _ latched [] res => (d, .done (.lookup res (latched.map Prod.snd)))
  | .lkUp path latched ((top, _) :: todo) res =>
    if d.topUnhashed top then (d, .lkStart path) else (d, .lkUp path latched todo res)

structure Sys (Name : Type) where
  d : DCache Name
  rcu : Rcu ℕ ℕ
  pc : ℕ → Pc Name

inductive Act (Name : Type) where
  | call (t : ℕ) (c : Call Name)
  | step (t : ℕ) (oom : Bool)
  deriving DecidableEq, Repr

namespace Act

def thread : Act Name → ℕ
  | .call t _ => t
  | .step t _ => t

def steps (t k : ℕ) : List (Act Name) :=
  List.replicate k (.step t false)

def op (t : ℕ) (o : Op Name) (k : ℕ) : List (Act Name) :=
  .call t (.op o) :: steps t k

end Act

namespace Sys

def init (bucketOf : ℕ → Name → ℕ) (rootname : Name) : Sys Name :=
  ⟨dcCreate bucketOf rootname, .init, fun _ => .idle⟩

/-- A fold runs once, after its grace period; an eviction is of an allocated dentry. -/
def admits (s : Sys Name) : Call Name → Bool
  | .fold n => s.rcu.ready n
  | .evict a => a < s.d.fresh
  | _ => true

def rcuAtCall (s : Sys Name) (t : ℕ) (c : Call Name) : Rcu ℕ ℕ :=
  let r := if (callStart c).busy then s.rcu.lock t else s.rcu
  match c with
  | .fold n => r.invoke n
  | _ => r

/-- The whole operation is one read-side section, left when it returns. -/
def rcuAtStep (s : Sys Name) (t : ℕ) (pc' : Pc Name) : Rcu ℕ ℕ :=
  let r := match (s.pc t).queues with
    | some n => s.rcu.call n
    | none => s.rcu
  if pc'.busy then r else r.unlock t

def act (s : Sys Name) : Act Name → Option (Sys Name)
  | .call t c =>
    if !(s.pc t).busy && s.admits c then
      some ⟨s.d, s.rcuAtCall t c, update s.pc t (callStart c)⟩
    else none
  | .step t oom =>
    if (s.pc t).busy then
      let r := stepPc s.d (s.pc t) oom
      some ⟨r.1, s.rcuAtStep t r.2, update s.pc t r.2⟩
    else none

variable {s s' : Sys Name} {t : ℕ}

theorem of_act_call {c : Call Name} (ha : s.act (.call t c) = some s') : (s.pc t).busy = false ∧
    s.admits c = true ∧ s' = ⟨s.d, s.rcuAtCall t c, update s.pc t (callStart c)⟩ := by
  simp only [act] at ha
  split_ifs at ha with hc
  simp only [Bool.and_eq_true, Bool.not_eq_true'] at hc
  exact ⟨hc.1, hc.2, (Option.some.inj ha).symm⟩

theorem of_act_step {oom : Bool} (ha : s.act (.step t oom) = some s') : (s.pc t).busy = true ∧
    s' = ⟨(stepPc s.d (s.pc t) oom).1, s.rcuAtStep t (stepPc s.d (s.pc t) oom).2,
      update s.pc t (stepPc s.d (s.pc t) oom).2⟩ := by
  simp only [act] at ha
  split_ifs at ha with hb
  exact ⟨hb, (Option.some.inj ha).symm⟩

theorem act_step (hb : (s.pc t).busy = true) (oom : Bool) :
    s.act (.step t oom) = some ⟨(stepPc s.d (s.pc t) oom).1,
      s.rcuAtStep t (stepPc s.d (s.pc t) oom).2,
      update s.pc t (stepPc s.d (s.pc t) oom).2⟩ := by
  simp [act, hb]

theorem act_call {c : Call Name} (ha : s.act (.call t c) = some s') :
    s'.d = s.d ∧ s'.pc t = callStart c ∧ s.admits c = true := by
  obtain ⟨-, hadm, rfl⟩ := of_act_call ha
  exact ⟨rfl, update_self .., hadm⟩

end Sys

end TrieBenchmark.Bucketlock
