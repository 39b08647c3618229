import TrieBenchmark.Lib.Run
import TrieBenchmark.Seqlock.Lru

/-!
Threads at work on the LRU of the seqlock engine: adds, the walks of writers, the kills of
`dc_unlink` and of a negative target of `dc_rename`, and shrinkers. Each section under the lock of
a list and each `cmpxchg` on a word is a step; so are the acquisition and the release of a
directory's rwsem. Dentries stay under their parents: nothing is moved.
-/

namespace TrieBenchmark.Seqlock.Lru

open Option Function Run

structure Scan where
  nr : ℕ
  hi : ℕ
  i : ℕ
  freed : ℕ
  full : Bool
  batch : List ℕ
  deriving DecidableEq, Repr

/-- Where `lru_del` is: it loads the word, seals a dentry that is on no list, or takes the lock of
list `i`. `free` is the `call_rcu` of its caller. -/
inductive Del where
  | load
  | cas (st : Word)
  | shard (i : ℕ)
  | free
  deriving DecidableEq, Repr

/-- `lock p k` waits for the rwsem of `p` to go on at `k`, `unlock p k` releases it. `del` holds
the rwsem of its victim's parent in `dc_unlink`, none in `dc_rename`. -/
inductive Pc where
  | idle
  | done (freed : ℕ)
  | lock (p : ℕ) (k : Pc)
  | unlock (p : ℕ) (k : Pc)
  | addTest (p nid : ℕ)
  | addLink (d p nid : ℕ)
  | addPublish (d p : ℕ)
  | retLoad (d nid : ℕ)
  | retMark (d : ℕ)
  | retClaim (d nid : ℕ)
  | unlRead (d : ℕ)
  | unlTest (d p : ℕ)
  | unlKids (d p : ℕ)
  | unlDel (d p : ℕ)
  | dropFind (d p : ℕ)
  | dropDel (d p : ℕ)
  | del (d : ℕ) (stage : Del) (held : Option ℕ)
  | scan (c : Scan)
  | load (c : Scan)
  | isolate (c : Scan) (budget : ℕ)
  | kills (c : Scan)
  | killTest (c : Scan) (d p : ℕ)
  | killDel (c : Scan) (d p : ℕ)
  | killSeal (c : Scan) (d p : ℕ)
  | killFree (c : Scan) (d p : ℕ)
  | putBack (c : Scan) (d : ℕ)
  deriving DecidableEq, Repr

/-- What a thread may start. `drop d p` is the part of a `dc_rename` into `p` that finds a negative
target `d` and drops it; `shrink` has the range of `dc_shrink` or of `dc_shrink_local`. -/
inductive Call where
  | add (p nid : ℕ)
  | retain (d nid : ℕ)
  | unlink (d : ℕ)
  | drop (d p : ℕ)
  | shrink (nr : ℤ) (lo hi : ℕ)
  deriving DecidableEq, Repr

@[grind =] def Call.start : Call → Pc
  | .add p nid => .lock p (.addTest p (lruNid nid))
  | .retain d nid => .retLoad d (lruNid nid)
  | .unlink d => .unlRead d
  | .drop d p => .lock p (.dropFind d p)
  | .shrink nr lo hi => if nr ≤ 0 then .done 0 else .scan ⟨nr.toNat, hi, lo, 0, false, []⟩

@[grind =] def Call.admits (s : Dcache) : Call → Bool
  | .add p _ => p < s.fresh
  | .retain d _ | .unlink d | .drop d _ => s.published d
  | .shrink _ _ _ => true

def delStep (s : Dcache) (d : ℕ) (held : Option ℕ) : Del → Dcache × Pc
  | .load =>
    match s.word d with
    | .dead => (s, .del d .free held)
    | .on i => (s, .del d (.shard i) held)
    | st => (s, .del d (.cas st) held)
  | .cas st =>
    if s.word d = st then (s.setWord d .dead, .del d .free held) else (s, .del d .load held)
  | .shard i =>
    if s.word d = .on i then (s.lruDelLocked i d .dead, .del d .free held)
    else (s, .del d .load held)
  | .free =>
    (s.callRcu d, match held with
      | some p => .unlock p .idle
      | none => .idle)

@[grind =] def step (s : Dcache) : Pc → Dcache × Pc
  -- dc_add_typed_state
  | .addTest p nid =>
    if s.unhashed p then (s, .unlock p .idle) else (s.dentryAlloc p, .addLink s.fresh p nid)
  | .addLink d p nid => (s.lruAddNew nid d, .addPublish d p)
  | .addPublish d p => (s.publish d, .unlock p .idle)
  -- lru_retain
  | .retLoad d nid =>
    match s.word d with
    | .on _ => (s, .retMark d)
    | .off => (s, .retClaim d nid)
    | _ => (s, .idle)
  | .retMark d => (s.setReferenced d true, .idle)
  | .retClaim d nid => (s.lruAddClaim nid d, .idle)
  -- dc_unlink
  | .unlRead d => (s, .lock (s.parent d) (.unlTest d (s.parent d)))
  | .unlTest d p =>
    if !s.unhashed d && s.parent d = p then (s, .unlKids d p) else (s, .unlock p .idle)
  | .unlKids d p => if s.children d ≠ [] then (s, .unlock p .idle) else (s, .unlDel d p)
  | .unlDel d p => (s.unhash d, .del d .load (some p))
  -- the target of dc_rename: lru_del comes after the locks are released
  | .dropFind d p =>
    if s.parent d = p && !s.unhashed d then (s, .dropDel d p) else (s, .unlock p .idle)
  | .dropDel d p => (s.unhash d, .unlock p (.del d .load none))
  | .del d stage held => delStep s d held stage
  -- lru_shrink_nodes
  | .scan c =>
    if c.i < c.hi ∧ c.freed < c.nr then (s, .load c) else (s, .done c.freed)
  | .load c => (s, .isolate c (s.nrItems c.i).toNat)
  | .isolate c budget =>
    let r := s.isolate c.i budget (min shrinkBatch (c.nr - c.freed))
    (r.2, .kills { c with full := r.1.length = shrinkBatch, batch := r.1 })
  | .kills c =>
    match c.batch with
    | [] => (s, if c.full && c.freed < c.nr then .load c else .scan { c with i := c.i + 1 })
    | d :: batch =>
      let c' := { c with batch := batch }
      let p := s.parent d
      (s, if p = d then .putBack c' d else .lock p (.killTest c' d p))
  -- lru_kill
  | .killTest c d p =>
    if s.parent d = p && !s.unhashed d && s.children d = [] then (s, .killDel c d p)
    else (s, .unlock p (.putBack c d))
  | .killDel c d p => (s.unhash d, .killSeal c d p)
  | .killSeal c d p => (s.setWord d .dead, .killFree c d p)
  | .killFree c d p => (s.callRcu d, .unlock p (.kills { c with freed := c.freed + 1 }))
  | .putBack c d => (s.cmpxchg d .shrink .off, .kills c)
  | pc => (s, pc)

structure Sys where
  d : Dcache
  dir : ℕ → Option ℕ
  pc : ℕ → Pc

inductive Act where
  | call (t : ℕ) (c : Call)
  | step (t : ℕ)
  deriving DecidableEq, Repr

namespace Sys

def init : Sys :=
  ⟨dcCreate, fun _ => none, fun _ => .idle⟩

def act (s : Sys) : Act → Option Sys
  | .call t c =>
    match s.pc t with
    | .idle | .done _ =>
      if c.admits s.d then some { s with pc := update s.pc t c.start } else none
    | _ => none
  | .step t =>
    match s.pc t with
    | .idle | .done _ => none
    | .lock p k =>
      if s.dir p = none then
        some ⟨s.d, update s.dir p (some t), update s.pc t k⟩
      else none
    | .unlock p k => some ⟨s.d, update s.dir p none, update s.pc t k⟩
    | pc =>
      let r := Lru.step s.d pc
      some ⟨r.1, s.dir, update s.pc t r.2⟩

end Sys

def Act.thread : Act → ℕ
  | .call t _ | .step t => t

theorem act_pc_of_ne {s s' : Sys} {a : Act} {u : ℕ} (hu : u ≠ a.thread) (h : s.act a = some s') :
    s'.pc u = s.pc u := by
  cases a with
  | call =>
    simp only [Sys.act] at h
    split at h
    · split_ifs at h
      rw [← some.inj h]
      exact update_of_ne hu ..
    · split_ifs at h
      rw [← some.inj h]
      exact update_of_ne hu ..
    · cases h
  | step =>
    simp only [Sys.act] at h
    split at h
    · cases h
    · cases h
    · split_ifs at h
      rw [← some.inj h]
      exact update_of_ne hu ..
    · rw [← some.inj h]
      exact update_of_ne hu ..
    · rw [← some.inj h]
      exact update_of_ne hu ..

theorem exec_pc_of_ne {as : List Act} {s s' : Sys} {u : ℕ} (has : ∀ a ∈ as, u ≠ a.thread)
    (h : exec Sys.act s as = some s') : s'.pc u = s.pc u := by
  induction as generalizing s with
  | nil =>
    rw [exec] at h
    rw [some.inj h]
  | cons a _ ih =>
    obtain ⟨s₁, ha, h⟩ := bind_eq_some_iff.mp h
    rw [ih (fun b hb => has b (List.mem_cons_of_mem _ hb)) h]
    exact act_pc_of_ne (has a (List.mem_cons_self ..)) ha

namespace Pc

@[grind =] def held : Pc → Option ℕ
  | .unlock p _ | .addTest p _ | .addLink _ p _ | .addPublish _ p | .unlTest _ p | .unlKids _ p
  | .unlDel _ p | .dropFind _ p | .dropDel _ p => some p
  | .del _ _ held => held
  | .killTest _ _ p | .killDel _ _ p | .killSeal _ _ p | .killFree _ _ p => some p
  | _ => none

def isolated : Pc → List ℕ
  | .lock _ k | .unlock _ k => k.isolated
  | .kills c => c.batch
  | .killTest c d _ | .killDel c d _ | .killSeal c d _ => d :: c.batch
  | .killFree c _ _ => c.batch
  | .putBack c d => d :: c.batch
  | _ => []

def killing : Pc → Option ℕ
  | .lock _ k | .unlock _ k => k.killing
  | .del d _ _ | .killSeal _ d _ | .killFree _ d _ => some d
  | _ => none

def adding : Pc → Option ℕ
  | .addLink d _ _ | .addPublish d _ => some d
  | _ => none

end Pc

end TrieBenchmark.Seqlock.Lru
