import TrieBenchmark.Bucketlock.Machine
import TrieBenchmark.Lib.Run

/-!
The head locks of `dc_delete`. Its passes are taken apart into the steps find, lock, re-verify,
decide and unlock, between which any operation of the other threads may run; their sections are
not held up by the heads held here, which only allows more runs.
-/

namespace TrieBenchmark.Bucketlock

open Run

variable {Name : Type}

inductive Head where
  | bucket (b : ℕ)
  | child (host : ℕ)
  deriving DecidableEq, Repr

inductive Del.Exit where
  | again (isdirLocked : Option ℕ)
  | ret (e : Option Errno)
  deriving DecidableEq, Repr

inductive Del where
  | find (isdirLocked : Option ℕ)
  | lock (isdirLocked : Option ℕ) (top : ℕ)
  | verify (isdirLocked : Option ℕ) (top : ℕ)
  | decide (isdirLocked : Option ℕ) (top : ℕ)
  | unlock (heads : List Head) (exit : Del.Exit)
  | ret (e : Option Errno)
  deriving DecidableEq, Repr

def Del.Exit.next : Del.Exit → Del
  | .again isdirLocked => .find isdirLocked
  | .ret e => .ret e

/-- A call of `dc_delete` that has resolved its directory, beside the other threads. The bucket
is that of the name, read once before the first pass. -/
structure DelSys (Name : Type) where
  s : Sys Name
  parent : ℕ
  name : Name
  bucket : Head
  pc : Del
  held : List Head

namespace DelSys

def start (s : Sys Name) (parent : ℕ) (name : Name) : DelSys Name :=
  ⟨s, parent, name, .bucket (s.d.bucketOf parent name), .find none, []⟩

variable (x : DelSys Name)

def heads (isdirLocked : Option ℕ) : List Head :=
  x.bucket :: (isdirLocked.map Head.child).toList

def hostHeads (host : ℕ) : List Head :=
  if (x.s.d.dentry host).isdir then [x.bucket, .child host] else [x.bucket]

def decideStep (isdirLocked : Option ℕ) (top : ℕ) : DelSys Name :=
  let host := x.s.d.hostOf top
  if (x.s.d.dentry host).isdir && isdirLocked ≠ some host then
    { x with pc := .unlock [x.bucket] (.again (some host)) }
  else if (x.s.d.dentry host).isdir && !x.s.d.childrenEmpty host then
    { x with pc := .unlock [x.bucket, .child host] (.ret (some .ENOTEMPTY)) }
  else
    let r := x.s.d.setNegative host true 0
    { x with s := { x.s with d := r.2 }, pc := .unlock (x.hostHeads host) (.ret r.1) }

variable [DecidableEq Name]

def step : DelSys Name :=
  match x.pc with
  | .find isdirLocked =>
    match x.s.d.findTop x.parent x.name with
    | none => { x with pc := .ret (some .ENOENT) }
    | some top => { x with pc := .lock isdirLocked top }
  | .lock isdirLocked top =>
    { x with pc := .verify isdirLocked top, held := x.held ++ x.heads isdirLocked }
  | .verify isdirLocked top =>
    if x.s.d.topUnhashed top then { x with pc := .unlock (x.heads isdirLocked) (.again none) }
    else { x with pc := .decide isdirLocked top }
  | .decide isdirLocked top => x.decideStep isdirLocked top
  | .unlock heads exit => { x with pc := exit.next, held := x.held.filter (· ∉ heads) }
  | .ret _ => x

/-- A step of `dc_delete` (`none`), or an action of another thread. -/
def act (x : DelSys Name) : Option (Act Name) → Option (DelSys Name)
  | none => some x.step
  | some a => (x.s.act a).map fun s => { x with s := s }

/-- A pass that locked the child head of a directory finds the name held by that directory. -/
def SameHost (x : DelSys Name) : Option (Act Name) → Prop
  | none => match x.pc with
    | .decide (some host) top => x.s.d.hostOf top = host ∧ (x.s.d.dentry host).isdir = true
    | _ => True
  | some _ => True

instance (x : DelSys Name) (a : Option (Act Name)) : Decidable (x.SameHost a) := by
  unfold SameHost
  split
  · split <;> infer_instance
  · infer_instance

def Holds : Prop :=
  match x.pc with
  | .verify isdirLocked _ | .decide isdirLocked _ => x.held = x.heads isdirLocked
  | .unlock heads _ => x.held = heads
  | _ => x.held = []

variable {x}

omit [DecidableEq Name] in
theorem holds_decideStep {isdirLocked : Option ℕ} {top : ℕ} (hx : x.held = x.heads isdirLocked)
    (hsame : ∀ host, isdirLocked = some host →
      x.s.d.hostOf top = host ∧ (x.s.d.dentry host).isdir = true) :
    (x.decideStep isdirLocked top).Holds := by
  simp only [decideStep]
  cases isdirLocked with
  | none =>
    -- the bucket alone is held: a directory is left for another pass
    have hheld : x.held = [x.bucket] := hx
    split_ifs with hdir hkids
    · exact hheld
    · simp only [Bool.and_eq_true, decide_eq_true_eq, not_and, not_not] at hdir hkids
      cases hdir hkids.1
    · show x.held = x.hostHeads (x.s.d.hostOf top)
      have hfile : (x.s.d.dentry (x.s.d.hostOf top)).isdir = false := by
        simpa using hdir
      rw [hheld, hostHeads, hfile]
      rfl
  | some host =>
    obtain ⟨rfl, hdir⟩ := hsame host rfl
    have hheld : x.held = [x.bucket, .child (x.s.d.hostOf top)] := hx
    split_ifs with hne hkids
    · simp at hne
    · exact hheld
    · show x.held = x.hostHeads (x.s.d.hostOf top)
      rw [hheld, hostHeads, hdir]
      rfl

theorem holds_step (hx : x.Holds) (hok : x.SameHost none) : x.step.Holds := by
  unfold step
  cases hpc : x.pc with
  | find =>
    have hheld : x.held = [] := by simpa [Holds, hpc] using hx
    dsimp only
    split <;> exact hheld
  | lock isdirLocked =>
    have hheld : x.held = [] := by simpa [Holds, hpc] using hx
    show x.held ++ x.heads isdirLocked = x.heads isdirLocked
    rw [hheld, List.nil_append]
  | verify isdirLocked =>
    have hheld : x.held = x.heads isdirLocked := by simpa [Holds, hpc] using hx
    dsimp only
    split_ifs <;> exact hheld
  | decide isdirLocked =>
    have hheld : x.held = x.heads isdirLocked := by simpa [Holds, hpc] using hx
    apply holds_decideStep hheld
    intro host he
    subst he
    simpa [SameHost, hpc] using hok
  | unlock heads exit =>
    have hheld : x.held = heads := by simpa [Holds, hpc] using hx
    have hnone : x.held.filter (· ∉ heads) = [] := by simp [hheld]
    cases exit <;> exact hnone
  | ret =>
    dsimp only
    exact hx

theorem holds_act {x' : DelSys Name} {a : Option (Act Name)} (hx : x.Holds) (hok : x.SameHost a)
    (ha : x.act a = some x') : x'.Holds := by
  cases a with
  | none =>
    obtain rfl := Option.some.inj ha
    exact holds_step hx hok
  | some =>
    obtain ⟨s', -, rfl⟩ := Option.map_eq_some_iff.mp ha
    exact hx

def toPc (x : DelSys Name) : Pc Name :=
  match x.pc with
  | .find isdirLocked => .delFind x.parent x.name isdirLocked
  | .lock isdirLocked top | .verify isdirLocked top | .decide isdirLocked top =>
    .delLock x.parent x.name isdirLocked top
  | .unlock _ (.again isdirLocked) => .delFind x.parent x.name isdirLocked
  | .unlock _ (.ret e) | .ret e => .ret e

/-- A step is one of the coarser machine, or changes neither the cache nor the program counter
there, while the bucket lock keeps the verified top in the index. -/
theorem step_refines (x : DelSys Name) (oom : Bool)
    (hkeep : ∀ isdirLocked top, x.pc = .decide isdirLocked top → x.s.d.topUnhashed top = false) :
    (x.step.s.d, x.step.toPc) = stepPc x.s.d x.toPc oom ∨
      x.step.s.d = x.s.d ∧ x.step.toPc = x.toPc := by
  cases hpc : x.pc with
  | find =>
    left
    simp only [step, toPc, hpc, stepPc]
    cases x.s.d.findTop x.parent x.name <;> rfl
  | lock | ret =>
    right
    simp [step, toPc, hpc]
  | verify _ top =>
    by_cases hm : x.s.d.topUnhashed top = true
    · left
      simp [step, toPc, hpc, stepPc, hm]
    · right
      simp [step, toPc, hpc, hm]
  | decide isdirLocked top =>
    left
    simp only [step, hpc, decideStep, toPc, stepPc, hkeep isdirLocked top hpc, Bool.false_eq_true,
      ↓reduceIte]
    split_ifs <;> rfl
  | unlock _ exit =>
    right
    cases exit <;> simp [step, toPc, hpc, Del.Exit.next]

end DelSys

variable [DecidableEq Name]

/-- Whatever the other threads do, `dc_delete` drops exactly the heads it holds, and holds none
when it starts a pass and when it returns. -/
theorem dcDelete_releases (s : Sys Name) (parent : ℕ) (name : Name) {x : DelSys Name}
    (hr : Reach DelSys.act DelSys.SameHost (.start s parent name) x) :
    (∀ heads exit, x.pc = .unlock heads exit → x.held = heads) ∧
      (∀ isdirLocked, x.pc = .find isdirLocked → x.held = []) ∧
      ∀ e, x.pc = .ret e → x.held = [] := by
  have hx : x.Holds := hr.invariant rfl fun _ _ _ => DelSys.holds_act
  refine ⟨fun heads exit hpc => ?_, fun isdirLocked hpc => ?_, fun e hpc => ?_⟩ <;>
    simpa [DelSys.Holds, hpc] using hx

def deleteDir : DelSys ℕ :=
  .start (Sys.init (fun _ _ => 0) 0) root 1

def addDir : List (Option (Act ℕ)) :=
  (Act.op 1 (.add [1] 5) 3).map some

/-- The directory becomes negative in two passes. -/
theorem dcDelete_releases_dir : ∃ x, Reach DelSys.act DelSys.SameHost deleteDir x ∧
    x.pc = .ret none ∧ x.s.d.isPositive 1 = false ∧ x.held = [] := by
  have he : (exec (guarded DelSys.act DelSys.SameHost) deleteDir
      (addDir ++ List.replicate 10 none)).map (fun x => (x.pc, x.s.d.isPositive 1)) =
      some (.ret none, false) := by
    rfl
  obtain ⟨x, hr, hx⟩ := reach_exec_map he
  obtain ⟨hpc, hneg⟩ := Prod.mk.inj hx
  exact ⟨x, hr.of_guarded, hpc, hneg, (dcDelete_releases _ root 1 hr.of_guarded).2.2 none hpc⟩

/-- After the first pass another thread unlinks the directory and adds a file of its name. -/
def fileInPlace : List (Option (Act ℕ)) :=
  addDir ++ List.replicate 5 none ++
    (Act.op 1 (.unlink [1]) 4 ++ Act.op 1 (.addFile [1] 6) 3).map some ++ List.replicate 5 none

/-- The file becomes negative, and the child head of the directory stays locked. -/
theorem fileInPlace_leaks : (exec DelSys.act deleteDir fileInPlace).map
    (fun x => (x.pc, x.s.d.isPositive 2, x.held)) = some (.ret none, false, [.child 1]) := by
  rfl

end TrieBenchmark.Bucketlock
