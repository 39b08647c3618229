import TrieBenchmark.Seqlock.Machine
import Mathlib.Order.Lattice

/-!
The order in which the operations of the seqlock engine take their locks: the rename mutex, the
dir rwsems, `rename_lock`, the buckets.
-/

namespace TrieBenchmark.Seqlock

open List

variable {Name : Type} {stage next : Stage Name}

def Lock.rank : Lock → ℕ
  | .mutex => 1
  | .dir _ => 2
  | .rename => 3
  | .bucket _ => 4

/-- The rank of the last lock that may be held in a stage. -/
@[grind =] def Stage.floor : Stage Name → ℕ
  | .unlRead .. | .renRead .. | .xchRead .. | .killRead .. => 0
  | .renState .. | .renLoop .. | .xchLoopA .. | .xchLoopB .. | .xchNames .. => 1
  | .unlTest .. | .renAgain .. | .renTarget .. => 2
  | .renBuckets .. => 3
  | _ => 4

/-- The locks of a section are distinct and not above its stage, and a test or an edit of the
chains is made under some lock. -/
structure Fits (locks : List Lock) (stage : Stage Name) : Prop where
  nodup : locks.Nodup
  rank : ∀ l ∈ locks, l.rank ≤ stage.floor
  locked : 2 ≤ stage.floor → locks ≠ []

def Pc.Ordered : Pc Name → Prop
  | .sect todo held stage => Fits (todo ++ held) stage
  | _ => True

def Pc.Outside : Pc Name → Prop
  | .sect todo held stage => held = [] ∧ Fits todo stage
  | .drop _ _ => False
  | _ => True

def Pc.held : Pc Name → List Lock
  | .sect _ held _ | .drop held _ => held
  | _ => []

theorem Pc.Outside.ordered {pc : Pc Name} (h : pc.Outside) : pc.Ordered := by
  cases pc with
  | sect todo _ stage =>
    obtain ⟨rfl, hF⟩ := h
    show Fits (todo ++ []) stage
    rwa [append_nil]
  | _ => trivial

theorem Pc.Outside.held_eq {pc : Pc Name} (h : pc.Outside) : pc.held = [] := by
  cases pc with
  | sect => exact h.1
  | drop => exact h.elim
  | _ => rfl

theorem inOrder_ne_nil (lock : ℕ → Lock) (a b : ℕ) : inOrder lock a b ≠ [] := by
  unfold inOrder
  split_ifs <;> simp

theorem inOrder_nodup {lock : ℕ → Lock} (hinj : ∀ x y, lock x = lock y → x = y) (a b : ℕ) :
    (inOrder lock a b).Nodup := by
  unfold inOrder
  split_ifs with hab
  · simp
  · simpa using fun he => hab (hinj a b he)
  · simpa using fun he => hab (hinj b a he).symm

theorem mem_inOrder {lock : ℕ → Lock} {a b : ℕ} {l : Lock} (h : l ∈ inOrder lock a b) :
    ∃ x, l = lock x := by
  unfold inOrder at h
  split_ifs at h <;> simp only [mem_cons, not_mem_nil, or_false] at h
  · exact ⟨a, h⟩
  · exact h.elim (fun h => ⟨a, h⟩) fun h => ⟨b, h⟩
  · exact h.elim (fun h => ⟨b, h⟩) fun h => ⟨a, h⟩

theorem dirsWlock2_nodup (a b : ℕ) : (dirsWlock2 a b).Nodup :=
  inOrder_nodup (fun _ _ => Lock.dir.inj) a b

theorem blLock2_nodup (x y : ℕ) : (blLock2 x y).Nodup :=
  inOrder_nodup (fun _ _ => Lock.bucket.inj) x y

theorem rank_dirsWlock2 {a b : ℕ} {l : Lock} (h : l ∈ dirsWlock2 a b) : l.rank = 2 := by
  obtain ⟨x, rfl⟩ := mem_inOrder h
  rfl

theorem rank_blLock2 {x y : ℕ} {l : Lock} (h : l ∈ blLock2 x y) : l.rank = 4 := by
  obtain ⟨x, rfl⟩ := mem_inOrder h
  rfl

theorem nodup_append_of_rank {ls ls' : List Lock} (h : ls.Nodup) (h' : ls'.Nodup)
    (hlt : ∀ l ∈ ls, ∀ l' ∈ ls', l.rank ≠ l'.rank) : (ls ++ ls').Nodup :=
  nodup_append.mpr ⟨h, h', fun l hl l' hl' he => hlt l hl l' hl' (he ▸ rfl)⟩

theorem delete_locks_fit (p a b : ℕ) (name : Name) (path : List Name) (peek : Option ℕ) :
    Fits (dirsWlock2 p a ++ [.bucket b]) (.delFind p name path peek) := by
  refine ⟨nodup_append_of_rank (dirsWlock2_nodup p a) (by simp) fun l hl l' hl' => ?_,
    fun l hl => ?_, by simp⟩
  · obtain rfl := mem_singleton.mp hl'
    rw [rank_dirsWlock2 hl]
    simp [Lock.rank]
  · rcases mem_append.mp hl with hl | hl
    · rw [rank_dirsWlock2 hl]
      simp [Stage.floor]
    · obtain rfl := mem_singleton.mp hl
      exact Nat.le_refl _

theorem exchange_locks_nodup (a b x y : ℕ) :
    (dirsWlock2 a b ++ .rename :: blLock2 x y).Nodup := by
  refine nodup_append_of_rank (dirsWlock2_nodup a b) ?_ fun l hl l' hl' => ?_
  · refine nodup_cons.mpr ⟨fun hl => ?_, blLock2_nodup x y⟩
    have hrank := rank_blLock2 hl
    cases hrank
  · rw [rank_dirsWlock2 hl]
    rcases mem_cons.mp hl' with rfl | hl'
    · decide
    · rw [rank_blLock2 hl']
      decide

structure Raises (stage : Stage Name) (more : List Lock) (next : Stage Name) : Prop where
  nodup : more.Nodup
  rank : ∀ l ∈ more, stage.floor < l.rank ∧ l.rank ≤ next.floor
  floor : stage.floor ≤ next.floor
  locked : 2 ≤ next.floor → 2 ≤ stage.floor ∨ more ≠ []

theorem Raises.stay (h : stage.floor = next.floor) :
    Raises stage [] next :=
  ⟨by simp, by simp, h.le, fun h' => .inl (h ▸ h')⟩

theorem Raises.of_rank {more : List Lock} (k : ℕ) (hnd : more.Nodup)
    (hne : more ≠ []) (hk : ∀ l ∈ more, l.rank = k) (hlt : stage.floor < k)
    (hle : k ≤ next.floor) : Raises stage more next :=
  ⟨hnd, fun l hl => by rw [hk l hl]; exact ⟨hlt, hle⟩, hlt.le.trans hle, fun _ => .inr hne⟩

theorem Fits.go {locks more : List Lock} (hF : Fits locks stage)
    (hR : Raises stage more next) : Fits (more ++ locks) next := by
  refine ⟨nodup_append_of_rank hR.nodup hF.nodup fun l hl l' hl' => ?_, fun l hl => ?_, fun h => ?_⟩
  · have := (hR.rank l hl).1
    have := hF.rank l' hl'
    omega
  · rcases mem_append.mp hl with hl | hl
    · exact (hR.rank l hl).2
    · exact (hF.rank l hl).trans hR.floor
  · rcases hR.locked h with h | h
    · simp [hF.locked h]
    · simp [h]

variable [DecidableEq Name] {d : Cache Name} {stage next : Stage Name} {more : List Lock}
  {oom : Bool}

theorem stageStep_raises (h : (stageStep d stage oom).2 = .go more next) :
    Raises stage more next := by
  cases stage with
  | unlRead =>
    obtain ⟨rfl, rfl⟩ : _ = more ∧ _ = next := by simpa [stageStep] using h
    split_ifs
    · exact .of_rank 2 (dirsWlock2_nodup ..) (inOrder_ne_nil _ _ _) (fun _ => rank_dirsWlock2)
        (by simp [Stage.floor]) (by simp [Stage.floor])
    · exact .of_rank 2 (by simp) (by simp) (by simp [Lock.rank]) (by simp [Stage.floor])
        (by simp [Stage.floor])
  | unlTest =>
    simp only [stageStep] at h
    split at h <;> cases h
    exact .of_rank 4 (by simp) (by simp) (by simp [Lock.rank]) (by simp [Stage.floor])
      (by simp [Stage.floor])
  | renRead =>
    obtain ⟨rfl, rfl⟩ : _ = more ∧ _ = next := by simpa [stageStep] using h
    split_ifs
    · exact .of_rank 1 (by simp) (by simp) (by simp [Lock.rank]) (by simp [Stage.floor])
        (by simp [Stage.floor])
    · exact ⟨by simp, by simp, by simp [Stage.floor], by simp [Stage.floor]⟩
  | renState =>
    simp only [stageStep] at h
    split_ifs at h <;> cases h
    · exact .stay rfl
    · exact .of_rank 2 (dirsWlock2_nodup ..) (inOrder_ne_nil _ _ _) (fun _ => rank_dirsWlock2)
        (by simp [Stage.floor]) (by simp [Stage.floor])
  | renLoop =>
    simp only [stageStep] at h
    split_ifs at h <;> cases h
    · exact .of_rank 2 (dirsWlock2_nodup ..) (inOrder_ne_nil _ _ _) (fun _ => rank_dirsWlock2)
        (by simp [Stage.floor]) (by simp [Stage.floor])
    · exact .stay rfl
  | renTarget =>
    simp only [stageStep] at h
    split at h
    · cases h
      exact .of_rank 3 (by simp) (by simp) (by simp [Lock.rank]) (by simp [Stage.floor])
        (by simp [Stage.floor])
    · split at h <;> cases h
      exact .of_rank 3 (by simp) (by simp) (by simp [Lock.rank]) (by simp [Stage.floor])
        (by simp [Stage.floor])
  | renBuckets =>
    obtain ⟨rfl, rfl⟩ : _ = more ∧ _ = next := by simpa [stageStep] using h
    exact .of_rank 4 (blLock2_nodup ..) (inOrder_ne_nil _ _ _) (fun _ => rank_blLock2)
      (by simp [Stage.floor]) (by simp [Stage.floor])
  | xchRead =>
    simp only [stageStep] at h
    split at h <;> cases h
    · exact .of_rank 1 (by simp) (by simp) (by simp [Lock.rank]) (by simp [Stage.floor])
        (by simp [Stage.floor])
    · exact ⟨by simp, by simp, by simp [Stage.floor], by simp [Stage.floor]⟩
  | xchNames =>
    obtain ⟨rfl, rfl⟩ : _ = more ∧ _ = next := by simpa [stageStep] using h
    refine ⟨exchange_locks_nodup .., fun l hl => ?_, by simp [Stage.floor], fun _ => .inr ?_⟩
    · rcases mem_append.mp hl with hl | hl
      · rw [rank_dirsWlock2 hl]
        simp [Stage.floor]
      · rcases mem_cons.mp hl with rfl | hl
        · simp [Stage.floor, Lock.rank]
        · rw [rank_blLock2 hl]
          simp [Stage.floor]
    · simp
  | killRead =>
    simp only [stageStep] at h
    split at h <;> cases h
    refine ⟨by simp, fun l hl => ?_, by simp [Stage.floor], fun _ => .inr (by simp)⟩
    simp only [mem_cons, not_mem_nil, or_false] at hl
    rcases hl with rfl | rfl <;> simp [Stage.floor, Lock.rank]
  | instFind | delFind =>
    simp only [stageStep] at h
    split at h
    · cases h
    · split at h <;> cases h
      exact .stay rfl
  | xchLoopA | xchLoopB =>
    simp only [stageStep] at h
    split_ifs at h <;> cases h <;> exact .stay rfl
  | addLink =>
    simp only [stageStep] at h
    split at h <;> cases h
  | instSet | delSet | unlDel | renMove | xchSwap | killDel => cases h
  | _ =>
    -- a test under the bucket lock, or once more after the loop walk
    simp only [stageStep] at h
    split at h <;> cases h
    exact .stay rfl

section Ordered

variable {held : List Lock}

omit [DecidableEq Name]

theorem Fits.acquire {l : Lock} {todo : List Lock} (h : Fits (l :: todo ++ held) stage) :
    Fits (todo ++ l :: held) stage := by
  have hperm : (todo ++ l :: held).Perm (l :: todo ++ held) := perm_middle
  exact ⟨hperm.nodup_iff.mpr h.nodup, fun x hx => h.rank x (hperm.mem_iff.mp hx), by simp⟩

theorem Exit.pc_outside (e : Exit Name) : e.pc.Outside := by
  cases e <;> trivial

theorem Cont.missing_outside (d : Cache Name) (k : Cont Name) : (k.missing d).Outside := by
  cases k with
  | deletePeek =>
    exact ⟨rfl, by simp, by simp [Lock.rank, Stage.floor], by simp⟩
  | _ => trivial

theorem Cont.arrive_outside (d : Cache Name) (a : ℕ) (k : Cont Name) : (k.arrive d a).Outside := by
  have hnone : ∀ {stage : Stage Name}, stage.floor = 0 → Fits [] stage := fun h =>
    ⟨by simp, by simp, by simp [h]⟩
  have htwo : ∀ {stage : Stage Name} (p b : ℕ), stage.floor = 4 →
      Fits [.dir p, .bucket b] stage := fun p b h => ⟨by simp, by simp [Lock.rank, h], by simp⟩
  cases k with
  | add =>
    simp only [Cont.arrive]
    split
    · exact ⟨rfl, htwo _ _ rfl⟩
    · trivial
  | instantiate => exact ⟨rfl, htwo _ _ rfl⟩
  | deletePeek =>
    simp only [Cont.arrive]
    split
    · exact ⟨rfl, delete_locks_fit ..⟩
    · exact ⟨rfl, htwo _ _ rfl⟩
  | unlink | renameTo => exact ⟨rfl, hnone rfl⟩
  | exchangeB da =>
    cases da with
    | none => trivial
    | some =>
      simp only [Cont.arrive]
      split
      · trivial
      · exact ⟨rfl, hnone rfl⟩
  | _ => trivial

theorem Call.start_outside (c : Call Name) : c.start.Outside := by
  have hat : ∀ (path : List Name) (e : Errno) (f : Name → Pc Name), (∀ n, (f n).Outside) →
      (startAt path e f).Outside := by
    intro path e f hf
    unfold startAt
    split
    · trivial
    · exact hf _
  cases c with
  | kill => exact ⟨rfl, by simp, by simp, by simp [Stage.floor]⟩
  | op o =>
    cases o with
    | rename | exchange => exact hat _ _ _ fun _ => hat _ _ _ fun _ => trivial
    | lookup => trivial
    | _ => exact hat _ _ _ fun _ => trivial

end Ordered

theorem walkStep_outside (cur : ℕ) (k : Cont Name) (rest : List Name) :
    (walkStep d cur k rest).Outside := by
  cases rest with
  | nil => exact k.arrive_outside d cur
  | cons =>
    simp only [walkStep]
    split
    · trivial
    · exact k.missing_outside d

theorem lkStep_outside (cur : ℕ) (hosts : List ℕ) (res : DcResult) (rest : List Name) :
    (lkStep d cur hosts res rest).Outside := by
  cases rest with
  | nil => trivial
  | cons =>
    simp only [lkStep]
    split <;> trivial

theorem stageStep_ordered {held : List Lock} (h : Fits held stage) :
    ((stageStep d stage oom).2.pc held).Ordered := by
  cases hs : (stageStep d stage oom).2 with
  | go => exact h.go (stageStep_raises hs)
  | out e =>
    unfold Next.pc
    split_ifs
    · exact e.pc_outside.ordered
    · trivial

omit [DecidableEq Name] in
theorem Next.held_pc (next : Next Name) (held : List Lock) : (next.pc held).held = held := by
  cases next with
  | go => rfl
  | out e =>
    simp only [Next.pc]
    split_ifs with hh
    · rw [hh]
      exact e.pc_outside.held_eq
    · rfl

end TrieBenchmark.Seqlock
