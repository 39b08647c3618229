import TrieBenchmark.Lib.LockOrder
import TrieBenchmark.Lib.Run
import TrieBenchmark.Seqlock.Order
import Mathlib.Data.Prod.Lex

/-!
No deadlock of the seqlock engine: the locks of a section are taken by rank, and within a rank by
address.
-/

namespace TrieBenchmark.Seqlock

open List Run
open Function (update update_apply)

variable {Name : Type}

def Lock.addr : Lock → ℕ
  | .dir a => a
  | .bucket b => b
  | _ => 0

def Lock.key (l : Lock) : ℕ ×ₗ ℕ := toLex (l.rank, l.addr)

def Rises (ls : List Lock) : Prop := ls.Pairwise fun l l' => l.key < l'.key

theorem Lock.key_lt_of_rank {l l' : Lock} (h : l.rank < l'.rank) : l.key < l'.key :=
  Prod.Lex.toLex_lt_toLex.mpr (.inl h)

theorem rises_append {ls ls' : List Lock} (h : Rises ls) (h' : Rises ls')
    (hlt : ∀ l ∈ ls, ∀ l' ∈ ls', l.rank < l'.rank) : Rises (ls ++ ls') :=
  pairwise_append.mpr ⟨h, h', fun l hl l' hl' => Lock.key_lt_of_rank (hlt l hl l' hl')⟩

@[simp]
theorem rises_nil : Rises [] := .nil

@[simp]
theorem rises_singleton (l : Lock) : Rises [l] := pairwise_singleton ..

theorem rises_inOrder {lock : ℕ → Lock} (hrank : ∀ x y, (lock x).rank = (lock y).rank)
    (haddr : ∀ x, (lock x).addr = x) (a b : ℕ) : Rises (inOrder lock a b) := by
  have hlt : ∀ {x y}, x < y → (lock x).key < (lock y).key := fun {x y} h =>
    Prod.Lex.toLex_lt_toLex.mpr (.inr ⟨hrank x y, by simpa only [haddr]⟩)
  unfold inOrder
  split_ifs with he h
  · exact rises_singleton _
  · exact pairwise_pair.mpr (hlt h)
  · exact pairwise_pair.mpr (hlt (by omega))

@[simp]
theorem rises_dirsWlock2 (a b : ℕ) : Rises (dirsWlock2 a b) :=
  rises_inOrder (fun _ _ => rfl) (fun _ => rfl) a b

@[simp]
theorem rises_blLock2 (x y : ℕ) : Rises (blLock2 x y) :=
  rises_inOrder (fun _ _ => rfl) (fun _ => rfl) x y

@[simp]
theorem rises_dir_bucket (a b : ℕ) : Rises [.dir a, .bucket b] :=
  pairwise_pair.mpr (Lock.key_lt_of_rank (by simp [Lock.rank]))

@[simp]
theorem rises_dirs_bucket (p a b : ℕ) : Rises (dirsWlock2 p a ++ [.bucket b]) := by
  refine rises_append (rises_dirsWlock2 p a) (rises_singleton _) fun l hl l' hl' => ?_
  rw [rank_dirsWlock2 hl, mem_singleton.mp hl']
  simp [Lock.rank]

theorem rises_exchange (a b x y : ℕ) : Rises (dirsWlock2 a b ++ .rename :: blLock2 x y) := by
  have hbl : Rises (.rename :: blLock2 x y) := by
    refine pairwise_cons.mpr ⟨fun l hl => Lock.key_lt_of_rank ?_, rises_blLock2 x y⟩
    rw [rank_blLock2 hl]
    decide
  refine rises_append (rises_dirsWlock2 a b) hbl fun l hl l' hl' => ?_
  rw [rank_dirsWlock2 hl]
  rcases mem_cons.mp hl' with rfl | hl'
  · decide
  · rw [rank_blLock2 hl']
    decide

/-- The locks of a section in the order they are taken. -/
def Pc.Climbs : Pc Name → Prop
  | .sect todo held _ => Rises (held.reverse ++ todo)
  | _ => True

theorem Cont.missing_climbs (d : Cache Name) (k : Cont Name) : (k.missing d).Climbs := by
  fun_cases Cont.missing d k <;> simp [Pc.Climbs, Pc.ret]

theorem Cont.arrive_climbs (d : Cache Name) (a : ℕ) (k : Cont Name) : (k.arrive d a).Climbs := by
  fun_cases Cont.arrive d a k <;> simp [Pc.Climbs, Pc.ret]

theorem Call.start_climbs (c : Call Name) : c.start.Climbs := by
  cases c with
  | kill => exact rises_nil
  | op o => cases o <;> simp only [Call.start, opStart, startAt] <;> (repeat' split) <;> trivial

theorem Exit.pc_climbs (e : Exit Name) : e.pc.Climbs := by
  cases e <;> trivial

/-- The locks are with the threads that hold them, each of which takes its own in order. -/
structure Sys.InOrder (s : Sys Name) : Prop where
  ordered : ∀ t, (s.pc t).Ordered
  climbs : ∀ t, (s.pc t).Climbs
  owner : ∀ l t, s.locks l = some t ↔ l ∈ (s.pc t).held
  finite : ∃ B : Finset ℕ, ∀ t, (s.pc t).busy = true → t ∈ B

theorem Pc.busy_of_held {pc : Pc Name} {l : Lock} (h : l ∈ pc.held) : pc.busy = true := by
  cases pc with
  | sect | drop => rfl
  | _ => cases h

namespace Sys.InOrder

variable {s s' : Sys Name} {t : ℕ} {pc : Pc Name} {locks : Lock → Option ℕ}

theorem init (bucketOf : ℕ → Name → ℕ) (rootname : Name) :
    (Sys.init bucketOf rootname).InOrder :=
  ⟨fun _ => trivial, fun _ => trivial, fun _ _ => by simp [Sys.init, Pc.held], ∅, nofun⟩

theorem set (hs : s.InOrder) (hord : pc.Ordered) (hclimb : pc.Climbs)
    (hmine : ∀ l, locks l = some t ↔ l ∈ pc.held)
    (hother : ∀ l u, u ≠ t → (locks l = some u ↔ s.locks l = some u)) (d : Cache Name) :
    (⟨d, locks, update s.pc t pc⟩ : Sys Name).InOrder := by
  obtain ⟨B, hB⟩ := hs.finite
  refine ⟨fun u => ?_, fun u => ?_, fun l u => ?_, insert t B, fun u hu => ?_⟩
  all_goals simp only [update_apply] at *
  · split_ifs
    · exact hord
    · exact hs.ordered u
  · split_ifs
    · exact hclimb
    · exact hs.climbs u
  · split_ifs with he
    · rw [he]
      exact hmine l
    · rw [hother l u he]
      exact hs.owner l u
  · split_ifs at hu with he
    · exact Finset.mem_insert.mpr (.inl he)
    · exact Finset.mem_insert_of_mem (hB u hu)

/-- A step that takes and drops no lock. -/
theorem keep (hs : s.InOrder) (hord : pc.Ordered) (hclimb : pc.Climbs)
    (hheld : pc.held = (s.pc t).held) (d : Cache Name) :
    (⟨d, s.locks, update s.pc t pc⟩ : Sys Name).InOrder :=
  hs.set hord hclimb (fun l => by rw [hheld]; exact hs.owner l t) (fun _ _ _ => .rfl) d

theorem outside (hs : s.InOrder) (hout : pc.Outside) (hclimb : pc.Climbs)
    (hnone : (s.pc t).held = []) : (⟨s.d, s.locks, update s.pc t pc⟩ : Sys Name).InOrder :=
  hs.keep hout.ordered hclimb (hout.held_eq.trans hnone.symm) s.d

end Sys.InOrder

variable [DecidableEq Name] {d : Cache Name} {stage next : Stage Name} {more : List Lock}
  {oom : Bool}

theorem walkStep_climbs (cur : ℕ) (k : Cont Name) (rest : List Name) :
    (walkStep d cur k rest).Climbs := by
  fun_cases walkStep d cur k rest
  · exact k.arrive_climbs d cur
  · trivial
  · exact k.missing_climbs d

theorem lkStep_climbs (cur : ℕ) (hosts : List ℕ) (res : DcResult) (rest : List Name) :
    (lkStep d cur hosts res rest).Climbs := by
  fun_cases lkStep d cur hosts res rest <;> trivial

theorem stageStep_rises (h : (stageStep d stage oom).2 = .go more next) : Rises more := by
  cases stage with
  | unlRead | renRead =>
    obtain ⟨rfl, -⟩ : _ = more ∧ _ = next := by simpa [stageStep] using h
    split_ifs <;> simp
  | renBuckets =>
    obtain ⟨rfl, -⟩ : _ = more ∧ _ = next := by simpa [stageStep] using h
    exact rises_blLock2 ..
  | xchNames =>
    obtain ⟨rfl, -⟩ : _ = more ∧ _ = next := by simpa [stageStep] using h
    exact rises_exchange ..
  | instSet | delSet | unlDel | renMove | xchSwap | killDel => cases h
  | _ =>
    simp only [stageStep] at h
    repeat' split at h
    all_goals cases h
    all_goals simp

theorem stageStep_climbs {held : List Lock} (hF : Fits held stage) (hr : Rises held.reverse) :
    ((stageStep d stage oom).2.pc held).Climbs := by
  cases hs : (stageStep d stage oom).2 with
  | go more next =>
    refine rises_append hr (stageStep_rises hs) fun l hl l' hl' => ?_
    exact Nat.lt_of_le_of_lt (hF.rank l (mem_reverse.mp hl)) ((stageStep_raises hs).rank l' hl').1
  | out e =>
    unfold Next.pc
    split_ifs
    · exact e.pc_climbs
    · trivial

namespace Sys.InOrder

variable {s s' : Sys Name}

theorem act (hs : s.InOrder) {a : Act Name} (ha : s.act a = some s') : s'.InOrder := by
  cases a with
  | call t c =>
    rw [Sys.act] at ha
    split_ifs at ha with hidle
    cases ha
    refine hs.outside c.start_outside c.start_climbs (eq_nil_iff_forall_not_mem.mpr fun l hl => ?_)
    simp [Pc.busy_of_held hl] at hidle
  | step t oom =>
    have hord := hs.ordered t
    have hclimb := hs.climbs t
    rw [Sys.act] at ha
    split at ha
    case h_1 | h_2 => cases ha
    case h_3 cur rest k hpc =>
      cases ha
      exact hs.outside (walkStep_outside ..) (walkStep_climbs ..) (by rw [hpc]; rfl)
    case h_4 cur rest hosts res hpc =>
      cases ha
      exact hs.outside (lkStep_outside ..) (lkStep_climbs ..) (by rw [hpc]; rfl)
    case h_5 l todo held stage hpc =>
      split_ifs at ha with hfree
      cases ha
      rw [hpc] at hord hclimb
      have hnext : (Pc.sect todo (l :: held) stage).Ordered := hord.acquire
      refine hs.set hnext (by simpa [Pc.Climbs] using hclimb) (fun x => ?_) (fun x u hu => ?_) s.d
      · have hx := hs.owner x t
        rw [hpc] at hx
        by_cases he : x = l
        · simp [he, Pc.held]
        · simpa [update_apply, he, Pc.held] using hx
      · by_cases he : x = l
        · simp [he, hfree, hu.symm]
        · simp [he]
    case h_6 held stage hpc =>
      cases ha
      rw [hpc] at hord hclimb
      have hrev : Rises held.reverse := by simpa [Pc.Climbs] using hclimb
      exact hs.keep (stageStep_ordered hord) (stageStep_climbs hord hrev)
        (by rw [Next.held_pc, hpc]; rfl) _
    case h_7 held e hpc =>
      cases ha
      refine hs.set e.pc_outside.ordered e.pc_climbs (fun x => ?_) (fun x u hu => ?_) s.d
      · have hx := hs.owner x t
        rw [hpc] at hx
        simp only [e.pc_outside.held_eq, not_mem_nil, iff_false]
        split_ifs with hmem
        · simp
        · exact fun h => hmem (hx.mp h)
      · split_ifs with hmem
        · have hx : s.locks x = some t := (hs.owner x t).mpr (by rw [hpc]; exact hmem)
          simp [hx, hu.symm]
        · rfl

theorem reach {bucketOf : ℕ → Name → ℕ} {rootname : Name}
    (hr : Reach Sys.act (fun _ _ => True) (Sys.init bucketOf rootname) s) : s.InOrder :=
  hr.invariant (init bucketOf rootname) fun _ _ _ hs _ ha => hs.act ha

end Sys.InOrder

/-- The lock that the next step of the thread takes. -/
def Pc.waits : Pc Name → Option Lock
  | .sect (l :: _) _ _ => some l
  | _ => none

theorem act_step_isSome {s : Sys Name} {t : ℕ} (hbusy : (s.pc t).busy = true)
    (hfree : ∀ l, (s.pc t).waits = some l → s.locks l = none) (oom : Bool) :
    (s.act (.step t oom)).isSome = true := by
  rw [Sys.act]
  split
  case h_1 hpc | h_2 hpc =>
    rw [hpc] at hbusy
    cases hbusy
  case h_5 l todo held stage hpc =>
    rw [if_pos (hfree l (by rw [hpc]; rfl))]
    rfl
  all_goals rfl

/-- Whatever calls are under way, one of them can go on; and only they have locks. -/
theorem no_deadlock {bucketOf : ℕ → Name → ℕ} {rootname : Name} {s : Sys Name}
    (hr : Reach Sys.act (fun _ _ => True) (Sys.init bucketOf rootname) s) :
    (∀ l t, s.locks l = some t → (s.pc t).busy = true) ∧
    ((∃ t, (s.pc t).busy = true) →
      ∃ t, (s.pc t).busy = true ∧ ∀ oom, (s.act (.step t oom)).isSome = true) := by
  have hs := Sys.InOrder.reach hr
  have hbusy : ∀ l t, s.locks l = some t → (s.pc t).busy = true := fun l t h =>
    Pc.busy_of_held ((hs.owner l t).mp h)
  refine ⟨hbusy, fun ⟨t₀, ht₀⟩ => ?_⟩
  obtain ⟨B, hB⟩ := hs.finite
  have hmem : ∀ t, t ∈ B.filter (fun t => (s.pc t).busy = true) ↔ (s.pc t).busy = true := by
    intro t
    rw [Finset.mem_filter]
    exact ⟨And.right, fun h => ⟨hB t h, h⟩⟩
  have hup : ∀ t l l', s.locks l = some t → (s.pc t).waits = some l' → l.key < l'.key := by
    intro t l l' hl hw
    have hheld := (hs.owner l t).mp hl
    have hclimb := hs.climbs t
    revert hw hheld hclimb
    fun_cases Pc.waits (s.pc t) with
    | case1 x todo held stage =>
      intro hw hheld hclimb
      cases hw
      exact (pairwise_append.mp hclimb).2.2 l (mem_reverse.mpr hheld) _ (mem_cons_self ..)
    | case2 => nofun
  obtain ⟨t, ht, hfree⟩ := LockOrder.exists_not_blocked
    ⟨t₀, (hmem t₀).mpr ht₀⟩ (fun l t h => (hmem t).mpr (hbusy l t h)) hup
  exact ⟨t, (hmem t).mp ht, act_step_isSome ((hmem t).mp ht) hfree⟩

/-- Two adds below the root: the first has the lock of the directory, the second one waits. -/
theorem no_deadlock_adds : ∃ s, Reach Sys.act (fun _ _ => True) (Sys.init (fun _ n => n) 0) s ∧
    (s.act (.step 1 false)).isSome = false ∧ (s.pc 1).busy = true ∧
    ∃ t, (s.pc t).busy = true ∧ ∀ oom, (s.act (.step t oom)).isSome = true := by
  have he : (exec Sys.act (Sys.init (fun _ n => n) 0)
      (Act.op 0 (.addTyped [1] 0 false true) 2 ++ Act.op 1 (.addTyped [2] 0 false true) 1)).map
        (fun s => ((s.act (.step 1 false)).isSome, (s.pc 1).busy)) = some (false, true) := by
    rfl
  obtain ⟨s, hr, hs⟩ := reach_exec_map he
  simp only [Prod.mk.injEq] at hs
  exact ⟨s, hr, hs.1, hs.2, (no_deadlock hr).2 ⟨1, hs.2⟩⟩

end TrieBenchmark.Seqlock
