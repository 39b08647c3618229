import TrieBenchmark.Bucketlock.Machine
import TrieBenchmark.Lib.Run
import TrieBenchmark.Lru.Shrink
import TrieBenchmark.Txn.Machine
import Mathlib.Logic.Function.Iterate

/-!
The LRU over the bucket-lock engine and over the txn engine. The lists, the words and the counts
agree after any sequence of calls, and a shrink from there does what `Passes` says.
-/

namespace TrieBenchmark

open Function

variable {Name : Type} [DecidableEq Name]

namespace Bucketlock

def lruEvictSettled (d : DCache Name) (a : ℕ) : Option (DCache Name) :=
  if (d.dentry a).top.isSome || (d.dentry a).host.isSome then none
  else if (d.dentry a).parent = a then none
  else match d.evictLocked a with
    | (none, d') => some d'
    | (some _, _) => none

def lruEngine : LruLock.Engine (DCache Name) where
  childrenEmpty := DCache.childrenEmpty
  lruAliveHint d a := !d.topUnhashed a
  lruEvictSettled := lruEvictSettled

theorem lruEvictSettled_alone (d : DCache Name) (a : ℕ) (oom : Bool) :
    (fun x : DCache Name × Pc Name => stepPc x.1 x.2 oom)^[3] (d, .evTop a) =
      match lruEvictSettled d a with
      | some d' => (d', .ret none)
      | none => (d, .ret (some .EAGAIN)) := by
  have htop : stepPc d (.evTop a) oom =
      if (d.dentry a).top.isSome || (d.dentry a).host.isSome then (d, .ret (some .EAGAIN))
      else (d, .evParent a) := rfl
  have hparent : stepPc d (.evParent a) oom =
      if (d.dentry a).parent = a then (d, .ret (some .EAGAIN)) else (d, .evLock a) := rfl
  have hlock : stepPc d (.evLock a) oom = ((d.evictLocked a).2, .ret (d.evictLocked a).1) := rfl
  have hret : ∀ (d' : DCache Name) e, stepPc d' (Pc.ret e) oom = (d', Pc.ret e) := fun _ _ => rfl
  rw [iterate_succ_apply, iterate_succ_apply, iterate_one, htop]
  unfold lruEvictSettled
  split_ifs with h₁ h₂
  · simp only [hret]
  · simp only [hparent, h₂, if_true, hret]
  · simp only [hparent, h₂, if_false, hlock]
    unfold DCache.evictLocked
    split_ifs <;> rfl

end Bucketlock

namespace Txn

def lruEvictSettled (d : Cache Name) (a : ℕ) : Option (Cache Name) :=
  if (d.dentry a).top.isSome || (d.dentry a).host.isSome then none
  else if (d.dentry a).parent = a then none
  else if !d.childrenEmpty a || d.mark a then none
  else some (d.removeCommit a a true)

def lruEngine : LruLock.Engine (Cache Name) where
  childrenEmpty := Cache.childrenEmpty
  lruAliveHint d a := !d.mark a
  lruEvictSettled := lruEvictSettled

theorem lruEvictSettled_alone (arm : Arm) (d : Cache Name) {a : ℕ}
    (hsealed : d.sealed a = true → d.mark a = true) :
    (fun x : Cache Name × Pc Name => stepPc arm x.1 x.2 .ok)^[4] (d, .evTop a) =
      match lruEvictSettled d a with
      | some d' => (d', .ret none)
      | none => (d, .ret (some .EAGAIN)) := by
  have htop : stepPc arm d (.evTop a) .ok =
      if (d.dentry a).top.isSome || (d.dentry a).host.isSome then (d, .ret (some .EAGAIN))
      else (d, .evParent a) := rfl
  have hparent : stepPc arm d (.evParent a) .ok =
      if (d.dentry a).parent = a then (d, .ret (some .EAGAIN)) else (d, .evKids a) := rfl
  have hkids : stepPc arm d (.evKids a) .ok =
      if !d.childrenEmpty a || (d.dentry a).top.isSome then (d, .ret (some .EAGAIN))
      else (d, .evCommit a) := rfl
  have hcommit : d.childrenEmpty a = true → stepPc arm d (.evCommit a) .ok =
      if d.mark a then (d, .ret (some .EAGAIN)) else (d.removeCommit a a true, .ret none) := by
    intro hempty
    cases hm : d.mark a <;> simp_all [stepPc, Cache.removeHolds]
  have hret : ∀ (d' : Cache Name) e, stepPc arm d' (Pc.ret e) .ok = (d', Pc.ret e) := fun _ _ => rfl
  rw [iterate_succ_apply, iterate_succ_apply, iterate_succ_apply, iterate_one, htop]
  unfold lruEvictSettled
  split_ifs with h₁ h₂ h₃
  · simp only [hret]
  · simp only [hparent, h₂, if_true, hret]
  · simp only [hparent, h₂, if_false, hkids]
    cases hempty : d.childrenEmpty a <;> simp_all
  · simp_all

end Txn

namespace LruLock

open Run

variable {σ : Type} {E : Engine σ} {s : Dcache σ}

inductive Call (σ : Type) where
  | edit (tree : σ)
  | addNew (i d : ℕ)
  | retain (i d : ℕ)
  | delCanFree (d : ℕ) (freeing : Bool)
  | shrinkRange (nr : ℤ) (lo hi : ℕ)

def Call.run (E : Engine σ) (s : Dcache σ) : Call σ → Option (Dcache σ)
  | .edit tree => some { s with tree }
  | .addNew i d => some (s.lruAddNew i d)
  | .retain i d => some (s.lruRetain E i d)
  | .delCanFree d freeing => some (s.lruDelCanFree d freeing).2
  | .shrinkRange nr lo hi => some (s.lruShrinkRange E nr lo hi).2

/-- `lru_add_new` is called for a dentry that was just allocated. -/
def Dcache.Allocated (s : Dcache σ) : Call σ → Prop
  | .addNew _ d => s.word d = .off
  | _ => True

theorem Call.run_listed {tree : σ}
    (hr : Reach (Call.run E) Dcache.Allocated (Dcache.create tree) s) : ∃ ℓ, Listed s ℓ := by
  apply hr.invariant ⟨_, .create tree⟩
  intro s c s' hs hnew hrun
  obtain ⟨ℓ, hs⟩ := hs
  cases c with
  | edit =>
    cases hrun
    exact ⟨ℓ, hs.congr rfl rfl rfl⟩
  | addNew _ d =>
    cases hrun
    have hoff : s.word d = .off := hnew
    exact ⟨_, hs.lruLinkTailLocked (by rw [hoff]; rfl)⟩
  | retain i d =>
    cases hrun
    exact hs.lruRetain E i d
  | delCanFree d freeing =>
    cases hrun
    exact hs.lruDelCanFree d freeing
  | shrinkRange nr lo hi =>
    cases hrun
    obtain ⟨l, -, -, hlast⟩ := lruShrinkShards_passes (E := E) nr (hi - lo) lo 0 s ℓ hs
    exact hlast

/-- After any sequence of calls a dentry is on the list of a shard iff its word says so, once, and
the count of the shard is the length of its list. -/
theorem calls_keep_lists {tree : σ}
    (hr : Reach (Call.run E) Dcache.Allocated (Dcache.create tree) s) (i : ℕ) :
    (s.items i).Nodup ∧ (∀ d, d ∈ s.items i ↔ s.word d = .on i) ∧
      s.count i = (s.items i).length := by
  obtain ⟨ℓ, hs⟩ := Call.run_listed hr
  rw [hs.items_eq]
  exact ⟨hs.linked.nodup i, fun d => hs.mem_iff, hs.counted i⟩

/-- A pass over a range of shards looks at every entry of a shard once at most and leaves the lists
as `Passed` says; it returns how many it evicted. -/
theorem lruShrinkRange_passes {ℓ : ℕ → List ℕ} (E : Engine σ) (hs : Listed s ℓ) (nr : ℤ) (lo hi : ℕ) :
    ∃ l, (s.lruShrinkRange E nr lo hi).1 = l.length ∧ l.length ≤ nr.toNat ∧
      Passes E hi lo nr.toNat s l (s.lruShrinkRange E nr lo hi).2 ∧
      ∃ ℓ', Listed (s.lruShrinkRange E nr lo hi).2 ℓ' := by
  obtain ⟨l, hfreed, hpasses, hlast⟩ := lruShrinkShards_passes (E := E) nr (hi - lo) lo 0 s ℓ hs
  rw [Int.sub_zero] at hpasses
  have hall : Passes E hi lo nr.toNat s l (s.lruShrinkRange E nr lo hi).2 := by
    rcases Nat.le_total lo hi with hle | hle
    · rwa [Nat.add_sub_of_le hle] at hpasses
    · have hnone : hi - lo = 0 := Nat.sub_eq_zero_of_le hle
      rw [hnone] at hpasses
      cases hpasses with
      | done =>
        show Passes E hi lo _ s [] (Dcache.lruShrinkShards E nr (hi - lo) lo 0 s).2
        rw [hnone]
        exact .done (.inl hle)
      | shard hlt => exact absurd hlt (by omega)
  refine ⟨l, ?_, hall.length_le, hall, hlast⟩
  rw [Dcache.lruShrinkRange, hfreed, Int.zero_add]

/-- Thread 0 adds `/1`, `/1/2`, `/3`, `/4`, `/6` and `/7`, then renames `/4` to `/5`. -/
def populate : List (Bucketlock.Act ℕ) :=
  Bucketlock.Act.op 0 (.add [1] 0) 3 ++ Bucketlock.Act.op 0 (.addFile [1, 2] 0) 4 ++
    Bucketlock.Act.op 0 (.addFile [3] 0) 3 ++ Bucketlock.Act.op 0 (.addFile [4] 0) 3 ++
    Bucketlock.Act.op 0 (.addFile [6] 0) 3 ++ Bucketlock.Act.op 0 (.addFile [7] 0) 3 ++
    Bucketlock.Act.op 0 (.rename [4] [5]) 9

def enlist : List (Call (Bucketlock.DCache ℕ)) :=
  [1, 3, 4, 5, 6].map (Call.addNew 0) ++ [.retain 0 3]

instance (s : Dcache σ) (c : Call σ) : Decidable (s.Allocated c) :=
  match c with
  | .addNew _ d => inferInstanceAs (Decidable (s.word d = .off))
  | .edit _ | .retain .. | .delCanFree .. | .shrinkRange .. => .isTrue trivial

theorem calls_keep_lists_enlist : ∃ s : Dcache (Bucketlock.DCache ℕ),
    Reach (Call.run Bucketlock.lruEngine) Dcache.Allocated
      (.create (Bucketlock.dcCreate (fun _ _ => 0) 0)) s ∧
    s.items 0 = [1, 3, 4, 5, 6] ∧ s.count 0 = (s.items 0).length := by
  have he : (exec (guarded (Call.run Bucketlock.lruEngine) Dcache.Allocated)
      (.create (Bucketlock.dcCreate (fun _ _ => 0) 0)) enlist).map (·.items 0) =
      some [1, 3, 4, 5, 6] := by
    rfl
  obtain ⟨s, hr, hs⟩ := reach_exec_map he
  exact ⟨s, hr.of_guarded, hs, (calls_keep_lists hr.of_guarded 0).2.2⟩

/-- One eviction is wanted: `/1` has a child, `/3` is referenced, the rename of `/4` has not
settled, `/6` is evicted and `/7` is not reached. -/
theorem lruShrinkRange_passes_one : ∃ (s : Dcache (Bucketlock.DCache ℕ)) (ℓ : ℕ → List ℕ)
    (l : List ℕ), Listed s ℓ ∧ s.items 0 = [1, 3, 4, 5, 6] ∧
      (s.lruShrinkRange Bucketlock.lruEngine 1 0 1).1 = l.length ∧ l.length ≤ 1 ∧
      Passes Bucketlock.lruEngine 1 0 1 s l (s.lruShrinkRange Bucketlock.lruEngine 1 0 1).2 ∧
      (s.lruShrinkRange Bucketlock.lruEngine 1 0 1).2.items 0 = [6, 3, 4] ∧
      (s.lruShrinkRange Bucketlock.lruEngine 1 0 1).2.reclaim = [5] := by
  have hfull : (exec Bucketlock.Sys.act (.init (fun _ _ => 0) 0) populate).isSome = true := by
    rfl
  obtain ⟨t, ht⟩ := Option.isSome_iff_exists.mp hfull
  have he : ((exec Bucketlock.Sys.act (.init (fun _ _ => 0) 0) populate).bind fun t =>
      (exec (guarded (Call.run Bucketlock.lruEngine) Dcache.Allocated) (.create t.d) enlist).map
        fun s => (s.items 0, (s.lruShrinkRange Bucketlock.lruEngine 1 0 1).2.items 0,
          (s.lruShrinkRange Bucketlock.lruEngine 1 0 1).2.reclaim)) =
      some ([1, 3, 4, 5, 6], [6, 3, 4], [5]) := by
    rfl
  rw [ht, Option.bind_some] at he
  obtain ⟨s, hr, hs⟩ := reach_exec_map he
  simp only [Prod.mk.injEq] at hs
  obtain ⟨ℓ, hl⟩ := Call.run_listed hr.of_guarded
  obtain ⟨l, hfreed, hle, hpasses, -⟩ := lruShrinkRange_passes Bucketlock.lruEngine hl 1 0 1
  exact ⟨s, ℓ, l, hl, hs.1, hfreed, hle, hpasses, hs.2.1, hs.2.2⟩

end LruLock

end TrieBenchmark
