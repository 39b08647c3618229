import TrieBenchmark.Bucketlock.Account
import TrieBenchmark.Seqlock.Account
import TrieBenchmark.Txn.Account

/-!
Conservation of the namespace: what `dc_walk` visits and `dc_readdir` lists after any calls made
one at a time, with folds and evictions.
-/

namespace TrieBenchmark

open Prod Serial Run

variable {Name : Type} [DecidableEq Name]

theorem walk_conserves (bucketOf : ℕ → Name → ℕ) (rootname : Name) (t : ℕ) :
    (∀ l : Ledger (Bucketlock.Sys Name) Name,
      Reach Bucketlock.engine.record (fun l a => a.thread = t ∧ l.s.DropsLeaf a)
        (.blank (.init bucketOf rootname)) l →
      (l.s.pc t).busy = false → (∀ p h, l.s.d.resolve p = some h → p.length ≤ pathMax) →
      Accounts l.s.d.dcWalk l.reg (l.s.Finds t)) ∧
    ∀ (arm : Txn.Arm) (l : Ledger (Txn.Sys Name) Name),
      Reach (Txn.engine arm).record (fun l a => a.thread = t ∧ l.s.DropsLeaf a)
        (.blank (.init bucketOf rootname)) l →
      (l.s.pc t).busy = false → (∀ p h, l.s.d.resolve p = some h → p.length ≤ pathMax) →
      Accounts l.s.d.dcWalk l.reg (l.s.Finds arm t) :=
  ⟨fun _ hr hrest hshallow => (Bucketlock.client bucketOf rootname t).accounts hr hrest hshallow,
    fun arm _ hr hrest hshallow => (Txn.client arm bucketOf rootname t).accounts hr hrest hshallow⟩

/-- On every engine, a directory lists what lookups answer to be positive below it if and only if
none of its names is held by a negative. -/
theorem readdir_lists (bucketOf : ℕ → Name → ℕ) (rootname : Name) (t : ℕ) :
    (∀ l : Ledger (Bucketlock.Sys Name) Name,
      Reach Bucketlock.engine.record (fun _ a => a.thread = t) (.blank (.init bucketOf rootname)) l →
      (l.s.pc t).busy = false → ∀ path dir, l.s.d.resolve path = some dir →
      (Lists (l.s.d.tree.readdirCount root path) l.reg (l.s.Finds t) path ↔
        ∀ n h, l.s.d.resolve (path ++ [n]) = some h → (l.s.d.dentry h).neg = false)) ∧
    (∀ (arm : Txn.Arm) (l : Ledger (Txn.Sys Name) Name),
      Reach (Txn.engine arm).record (fun _ a => a.thread = t) (.blank (.init bucketOf rootname)) l →
      (l.s.pc t).busy = false → ∀ path dir, l.s.d.resolve path = some dir →
      (Lists (l.s.d.tree.readdirCount root path) l.reg (l.s.Finds arm t) path ↔
        ∀ n h, l.s.d.resolve (path ++ [n]) = some h → (l.s.d.dentry h).neg = false)) ∧
    ∀ l : Ledger (Seqlock.Sys Name) Name,
      Reach Seqlock.engine.record (fun _ a => a.thread = t) (.blank (.init bucketOf rootname)) l →
      (l.s.pc t).busy = false → ∀ path dir, l.s.d.resolve path = some dir →
      (Lists (l.s.d.tree.readdirCount root path) l.reg (l.s.Finds t) path ↔
        ∀ n h, l.s.d.resolve (path ++ [n]) = some h → (l.s.d.dentry h).neg = false) :=
  ⟨fun _ hr hrest _ _ hdir => (Bucketlock.client bucketOf rootname t).lists_iff hr hrest hdir,
    fun arm _ hr hrest _ _ hdir => (Txn.client arm bucketOf rootname t).lists_iff hr hrest hdir,
    fun _ hr hrest _ _ hdir => (Seqlock.client bucketOf rootname t).lists_iff hr hrest hdir⟩

section Runs

open Bucketlock (Act)

def renameOverNegative : List (Act ℕ) :=
  Act.op 0 (.add [1] 1) 3 ++ Act.op 0 (.addFile [2] 2) 3 ++ Act.op 0 (.delete [2]) 3 ++
    Act.op 0 (.rename [1] [2]) 10 ++ .call 0 (.fold 3) :: Act.steps 0 2 ++
    Act.op 0 (.addFile [2, 1] 4) 4

def renameOverNegativeTxn : List (Txn.Act ℕ) :=
  Txn.Act.op 0 (.add [1] 1) 6 ++ Txn.Act.op 0 (.addFile [2] 2) 6 ++ Txn.Act.op 0 (.delete [2]) 5 ++
    Txn.Act.op 0 (.rename [1] [2]) 16 ++ .call 0 (.fold 3) :: Txn.Act.steps 0 6 ++
    Txn.Act.op 0 (.addFile [2, 1] 4) 7

theorem renameOverNegative_exec :
    (exec (guarded Bucketlock.engine.record fun l a => a.thread = 0 ∧ l.s.DropsLeaf a)
      (.blank (.init (fun p n => p + n) 0)) renameOverNegative).map (fun l =>
        ((l.s.pc 0).busy, l.s.d.fresh, [l.reg 1, l.reg 2, l.reg 4], l.s.d.tree.kids 0,
          (l.s.d.dentry 1).neg)) =
      some (false, 5, [some 1, none, some 4], [(1, 2)], false) := by
  rfl

set_option synthInstance.maxSize 256 in
theorem renameOverNegativeTxn_exec :
    (exec (guarded (Txn.engine .global).record fun l a => a.thread = 0 ∧ l.s.DropsLeaf a)
      (.blank (.init (fun p n => p + n) 0)) renameOverNegativeTxn).map (fun l =>
        ((l.s.pc 0).busy, l.s.d.fresh, [l.reg 1, l.reg 2, l.reg 4], l.s.d.tree.kids 0,
          (l.s.d.dentry 1).neg)) =
      some (false, 5, [some 1, none, some 4], [(1, 2)], false) := by
  decide +kernel

theorem walk_conserves_rename :
    (∃ l : Ledger (Bucketlock.Sys ℕ) ℕ, l.reg 1 = some 1 ∧ l.reg 2 = none ∧ l.reg 4 = some 4 ∧
      Accounts l.s.d.dcWalk l.reg (l.s.Finds 0)) ∧
    ∃ l : Ledger (Txn.Sys ℕ) ℕ, l.reg 1 = some 1 ∧ l.reg 2 = none ∧ l.reg 4 = some 4 ∧
      Accounts l.s.d.dcWalk l.reg (l.s.Finds .global 0) := by
  constructor
  · obtain ⟨l, hr, hl⟩ := reach_exec_map renameOverNegative_exec
    simp only [mk.injEq, List.cons.injEq, and_true] at hl
    obtain ⟨hrest, hfresh, ⟨h₁, h₂, h₄⟩, -⟩ := hl
    refine ⟨l, h₁, h₂, h₄, (walk_conserves _ _ 0).1 l hr.of_guarded hrest fun p h hp => ?_⟩
    have hlen := (Bucketlock.client _ _ 0).length_lt (hr.of_guarded.mono fun _ _ h => h.1) hrest hp
    exact hlen.le.trans (hfresh.le.trans (by decide))
  · obtain ⟨l, hr, hl⟩ := reach_exec_map renameOverNegativeTxn_exec
    simp only [mk.injEq, List.cons.injEq, and_true] at hl
    obtain ⟨hrest, hfresh, ⟨h₁, h₂, h₄⟩, -⟩ := hl
    refine ⟨l, h₁, h₂, h₄, (walk_conserves _ _ 0).2 .global l hr.of_guarded hrest fun p h hp => ?_⟩
    have hlen := (Txn.client _ _ _ 0).length_lt (hr.of_guarded.mono fun _ _ h => h.1) hrest hp
    exact hlen.le.trans (hfresh.le.trans (by decide))

/-- A chain of as many directories as a path has room for, renamed below another one. -/
def nestChain : List (Act ℕ) :=
  ((List.range pathMax).flatMap fun k => Act.op 0 (.add (List.replicate (k + 1) 0) k) (k + 3)) ++
    Act.op 0 (.add [1] 24) 3 ++ Act.op 0 (.rename [0] [1, 0]) 15

theorem nestChain_exec :
    (exec (guarded Bucketlock.engine.record fun l a => a.thread = 0 ∧ l.s.DropsLeaf a)
      (.blank (.init (fun p n => p + n) 0)) nestChain).map (fun l =>
        (l.s.pc 0, l.reg 24, l.s.d.dcWalk.all fun e => e.1 ≠ 23)) =
      some (.done (.code none), some 23, true) := by
  decide +kernel

/-- A directory goes below a file, the file is deleted, and another takes its name. -/
def replaceParent : List (Act ℕ) :=
  Act.op 0 (.addFile [1] 1) 3 ++ Act.op 0 (.add [2] 2) 3 ++ Act.op 0 (.rename [2] [1, 2]) 15 ++
    Act.op 0 (.delete [1]) 3 ++ Act.op 0 (.addFile [3] 3) 3 ++ Act.op 0 (.rename [3] [1]) 10

theorem replaceParent_exec :
    (exec (guarded Bucketlock.engine.record fun _ a => a.thread = 0)
      (.blank (.init (fun p n => p + n) 0)) replaceParent).map (fun l =>
        (l.s.pc 0, l.s.d.fresh, l.reg 2, l.s.d.dcWalk.all fun e => e.1 ≠ 2)) =
      some (.done (.code none), 6, some 2, true) := by
  decide +kernel

/-- An object that was added and never removed is not visited: it lies below the last component
that a path can hold, or below a negative that a rename replaced. -/
theorem walk_misses :
    (∃ l : Ledger (Bucketlock.Sys ℕ) ℕ,
      Reach Bucketlock.engine.record (fun l a => a.thread = 0 ∧ l.s.DropsLeaf a)
        (.blank (.init (fun p n => p + n) 0)) l ∧ (l.s.pc 0).busy = false ∧
      ¬ Accounts l.s.d.dcWalk l.reg (l.s.Finds 0)) ∧
    ∃ l : Ledger (Bucketlock.Sys ℕ) ℕ,
      Reach Bucketlock.engine.record (fun _ a => a.thread = 0)
        (.blank (.init (fun p n => p + n) 0)) l ∧ (l.s.pc 0).busy = false ∧
      (∀ p h, l.s.d.resolve p = some h → p.length ≤ pathMax) ∧
      ¬ Accounts l.s.d.dcWalk l.reg (l.s.Finds 0) := by
  constructor
  · obtain ⟨l, hr, hl⟩ := reach_exec_map nestChain_exec
    simp only [mk.injEq] at hl
    obtain ⟨hpc, hreg, hwalk⟩ := hl
    refine ⟨l, hr.of_guarded, by rw [hpc]; rfl, fun hA => ?_⟩
    obtain ⟨p, hp⟩ := hA.visited hreg
    simpa using List.all_eq_true.mp hwalk _ hp
  · obtain ⟨l, hr, hl⟩ := reach_exec_map replaceParent_exec
    simp only [mk.injEq] at hl
    obtain ⟨hpc, hfresh, hreg, hwalk⟩ := hl
    have hrest : (l.s.pc 0).busy = false := by rw [hpc]; rfl
    refine ⟨l, hr.of_guarded, hrest, fun p h hp => ?_, fun hA => ?_⟩
    · have hlen := (Bucketlock.client _ _ 0).length_lt hr.of_guarded hrest hp
      exact hlen.le.trans (hfresh.le.trans (by decide))
    · obtain ⟨p, hp⟩ := hA.visited hreg
      simpa using List.all_eq_true.mp hwalk _ hp

def renameOverNegativeSeqlock : List (Seqlock.Act ℕ) :=
  Seqlock.Act.op 0 (.add [1] 1) 7 ++ Seqlock.Act.op 0 (.addFile [2] 2) 7 ++
    Seqlock.Act.op 0 (.delete [2]) 10 ++ Seqlock.Act.op 0 (.rename [1] [2]) 14 ++
    Seqlock.Act.op 0 (.addFile [2, 1] 4) 8

theorem renameOverNegativeSeqlock_kids :
    (exec (guarded Seqlock.engine.record fun _ a => a.thread = 0)
      (.blank (.init (fun p n => p + n) 0)) renameOverNegativeSeqlock).map (fun l =>
        ((l.s.pc 0).busy, l.s.d.tree.kids 0, (l.s.d.dentry 1).neg)) =
      some (false, [(1, 2)], false) := by
  rfl

theorem readdir_lists_rename :
    (∃ l : Ledger (Bucketlock.Sys ℕ) ℕ, l.s.d.tree.kids 0 = [(1, 2)] ∧
      Lists (l.s.d.tree.readdirCount root []) l.reg (l.s.Finds 0) []) ∧
    (∃ l : Ledger (Txn.Sys ℕ) ℕ, l.s.d.tree.kids 0 = [(1, 2)] ∧
      Lists (l.s.d.tree.readdirCount root []) l.reg (l.s.Finds .global 0) []) ∧
    ∃ l : Ledger (Seqlock.Sys ℕ) ℕ, l.s.d.tree.kids 0 = [(1, 2)] ∧
      Lists (l.s.d.tree.readdirCount root []) l.reg (l.s.Finds 0) [] := by
  refine ⟨?_, ?_, ?_⟩
  · obtain ⟨l, hr, hl⟩ := reach_exec_map renameOverNegative_exec
    simp only [mk.injEq] at hl
    obtain ⟨hrest, -, -, hkids, hpos⟩ := hl
    replace hr := hr.of_guarded.mono fun _ _ h => h.1
    refine ⟨l, hkids, ((readdir_lists _ _ 0).1 l hr hrest [] 0 rfl).mpr ?_⟩
    refine (Bucketlock.client _ _ 0).positive_of_kids hr hrest rfl fun c hc => ?_
    obtain rfl := List.mem_singleton.mp (hkids ▸ hc)
    exact hpos
  · obtain ⟨l, hr, hl⟩ := reach_exec_map renameOverNegativeTxn_exec
    simp only [mk.injEq] at hl
    obtain ⟨hrest, -, -, hkids, hpos⟩ := hl
    replace hr := hr.of_guarded.mono fun _ _ h => h.1
    refine ⟨l, hkids, ((readdir_lists _ _ 0).2.1 .global l hr hrest [] 0 rfl).mpr ?_⟩
    refine (Txn.client .global _ _ 0).positive_of_kids hr hrest rfl fun c hc => ?_
    obtain rfl := List.mem_singleton.mp (hkids ▸ hc)
    exact hpos
  · obtain ⟨l, hr, hl⟩ := reach_exec_map renameOverNegativeSeqlock_kids
    simp only [mk.injEq] at hl
    obtain ⟨hrest, hkids, hpos⟩ := hl
    replace hr := hr.of_guarded
    refine ⟨l, hkids, ((readdir_lists _ _ 0).2.2 l hr hrest [] 0 rfl).mpr ?_⟩
    refine (Seqlock.client _ _ 0).positive_of_kids hr hrest rfl fun c hc => ?_
    obtain rfl := List.mem_singleton.mp (hkids ▸ hc)
    exact hpos

theorem addNegative_bucketlock :
    (exec (guarded Bucketlock.engine.record fun _ a => a.thread = 0)
      (.blank (.init (fun p n => p + n) 0)) (Act.op 0 (.addNegative [1]) 3)).map (fun l =>
        ((l.s.pc 0).busy, l.s.d.resolve [1], (l.s.d.dentry 1).neg)) = some (false, some 1, true) := by
  rfl

theorem addNegative_txn :
    (exec (guarded (Txn.engine .mark).record fun _ a => a.thread = 0)
      (.blank (.init (fun p n => p + n) 0)) (Txn.Act.op 0 (.addNegative [1]) 6)).map (fun l =>
        ((l.s.pc 0).busy, l.s.d.resolve [1], (l.s.d.dentry 1).neg)) = some (false, some 1, true) := by
  rfl

theorem addNegative_seqlock :
    (exec (guarded Seqlock.engine.record fun _ a => a.thread = 0)
      (.blank (.init (fun p n => p + n) 0)) (Seqlock.Act.op 0 (.addNegative [1]) 7)).map (fun l =>
        ((l.s.pc 0).busy, l.s.d.resolve [1], (l.s.d.dentry 1).neg)) = some (false, some 1, true) := by
  rfl

/-- Every engine lists a cached absence as a child of the root, after one `dc_add_negative`. -/
theorem readdir_lists_negative :
    (∃ l : Ledger (Bucketlock.Sys ℕ) ℕ,
      Reach Bucketlock.engine.record (fun _ a => a.thread = 0)
        (.blank (.init (fun p n => p + n) 0)) l ∧ (l.s.pc 0).busy = false ∧
      ¬ Lists (l.s.d.tree.readdirCount root []) l.reg (l.s.Finds 0) []) ∧
    (∃ l : Ledger (Txn.Sys ℕ) ℕ,
      Reach (Txn.engine .mark).record (fun _ a => a.thread = 0)
        (.blank (.init (fun p n => p + n) 0)) l ∧ (l.s.pc 0).busy = false ∧
      ¬ Lists (l.s.d.tree.readdirCount root []) l.reg (l.s.Finds .mark 0) []) ∧
    ∃ l : Ledger (Seqlock.Sys ℕ) ℕ,
      Reach Seqlock.engine.record (fun _ a => a.thread = 0)
        (.blank (.init (fun p n => p + n) 0)) l ∧ (l.s.pc 0).busy = false ∧
      ¬ Lists (l.s.d.tree.readdirCount root []) l.reg (l.s.Finds 0) [] := by
  refine ⟨?_, ?_, ?_⟩
  · obtain ⟨l, hr, hl⟩ := reach_exec_map addNegative_bucketlock
    simp only [mk.injEq] at hl
    obtain ⟨hrest, hat, hneg⟩ := hl
    exact ⟨l, hr.of_guarded, hrest, (Bucketlock.client _ _ 0).not_lists hr.of_guarded hrest hat hneg⟩
  · obtain ⟨l, hr, hl⟩ := reach_exec_map addNegative_txn
    simp only [mk.injEq] at hl
    obtain ⟨hrest, hat, hneg⟩ := hl
    exact ⟨l, hr.of_guarded, hrest, (Txn.client .mark _ _ 0).not_lists hr.of_guarded hrest hat hneg⟩
  · obtain ⟨l, hr, hl⟩ := reach_exec_map addNegative_seqlock
    simp only [mk.injEq] at hl
    obtain ⟨hrest, hat, hneg⟩ := hl
    exact ⟨l, hr.of_guarded, hrest, (Seqlock.client _ _ 0).not_lists hr.of_guarded hrest hat hneg⟩

end Runs

end TrieBenchmark
