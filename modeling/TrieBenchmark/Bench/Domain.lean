import Mathlib.Algebra.GroupWithZero.Nat
import Mathlib.Data.List.Flatten
import Mathlib.Data.List.Nodup
import Mathlib.Data.List.Perm.Basic
import Mathlib.Logic.Function.Basic

/-!
The CPUs of the list benchmark: the order in which `bench_topology_init` gives them to the writers,
and the anchors that `reclaim_domain_build` takes from that order for the reclaim workers.
-/

namespace TrieBenchmark.Bench

open Function List

/-- What hwloc tells: the CPU sets of the cores, each in ascending order, and the L3 cache of a
CPU. -/
structure Topology where
  ncpu : ℕ
  cores : List (List ℕ)
  l3 : ℕ → Option ℕ
  sets : ∀ c ∈ cores, c ≠ [] ∧ c.Pairwise (· < ·)
  disjoint : cores.Pairwise List.Disjoint
  below : ∀ c ∈ cores, ∀ p ∈ c, p < ncpu

inductive Level where
  | core
  | l3
  | single
  | hwthread
  deriving DecidableEq

namespace Topology

variable (T : Topology) (lvl : Level)

def npus : ℕ := (T.cores.map length).sum

def maxsmt : ℕ := T.cores.foldl (fun w c => max w c.length) 0

def puMap : List ℕ :=
  ((range T.maxsmt).flatMap fun rank => T.cores.filterMap (·[rank]?)).take T.npus

def cpu (i : ℕ) : ℕ := T.puMap.getD (i % T.puMap.length) i

def coreOf (c : ℕ) : ℕ := (T.cores.findIdx? (c ∈ ·)).getD c

/-- The L3 cache of a CPU, its core if it has none, and the CPU itself if hwloc does not know it. -/
def l3Of (c : ℕ) : ℕ :=
  match T.cores.findIdx? (c ∈ ·) with
  | some core => (T.l3 c).getD core
  | none => c

def domain (c : ℕ) : ℕ :=
  match lvl with
  | .core => T.coreOf c
  | .l3 => T.l3Of c
  | .single => 0
  | .hwthread => c

def ndomains : ℕ := (range T.ncpu).foldl (fun n c => max n (T.domain lvl c + 1)) 1

def hit (a : ℕ → Option ℕ) (i : ℕ) : ℕ → Option ℕ :=
  let d := T.domain lvl (T.cpu i)
  if T.cpu i < T.ncpu ∧ d < T.ndomains lvl ∧ a d = none then update a d (some (T.cpu i)) else a

def npu : ℕ := if T.puMap.length = 0 then T.ncpu else T.puMap.length

def anchor (d : ℕ) : Option ℕ :=
  ((range T.npu).foldl (T.hit lvl) (fun _ => none) d).or
    ((range T.ncpu).find? (T.domain lvl · = d))

end Topology

theorem le_foldl_max {α : Type} (f : α → ℕ) (l : List α) (w : ℕ) :
    w ≤ l.foldl (fun w a => max w (f a)) w ∧ ∀ a ∈ l, f a ≤ l.foldl (fun w a => max w (f a)) w := by
  induction l generalizing w with
  | nil => simp
  | cons a l ih =>
    obtain ⟨hw, hl⟩ := ih (max w (f a))
    refine ⟨Nat.le_trans (Nat.le_max_left _ _) hw, fun b hb => ?_⟩
    rcases mem_cons.mp hb with rfl | hb
    · exact Nat.le_trans (Nat.le_max_right _ _) hw
    · exact hl b hb

theorem filterMap_range {core : List ℕ} {m : ℕ} (hm : core.length ≤ m) :
    (range m).filterMap (core[·]?) = core := by
  induction core generalizing m with
  | nil => simp
  | cons a core ih =>
    cases m with
    | zero => cases hm
    | succ m =>
      rw [range_succ_eq_map, filterMap_cons, filterMap_map]
      exact congrArg (a :: ·) (ih (Nat.le_of_succ_le_succ hm))

namespace Topology

variable {T : Topology} {lvl : Level} {i N : ℕ}

theorem ranks_perm {m : ℕ} {cores : List (List ℕ)} (hm : ∀ c ∈ cores, c.length ≤ m) :
    ((range m).flatMap fun rank => cores.filterMap (·[rank]?)).Perm cores.flatten := by
  induction cores with
  | nil => simp
  | cons l cores ih =>
    have hsplit : (fun rank => (l :: cores).filterMap (·[rank]?)) =
        fun rank : ℕ => l[rank]?.toList ++ cores.filterMap (·[rank]?) := by
      funext rank
      rw [filterMap_cons]
      cases l[rank]? <;> rfl
    rw [hsplit, flatten_cons]
    refine (flatMap_append_perm _ _ _).symm.trans ?_
    rw [← filterMap_eq_flatMap_toList, filterMap_range (hm l mem_cons_self)]
    exact (ih fun l' hl' => hm l' (mem_cons_of_mem l hl')).append_left l

theorem puMap_perm (T : Topology) : T.puMap.Perm T.cores.flatten := by
  have hperm : ((range T.maxsmt).flatMap fun rank => T.cores.filterMap (·[rank]?)).Perm
      T.cores.flatten := ranks_perm (le_foldl_max length T.cores 0).2
  rw [puMap, take_of_length_le]
  · exact hperm
  · rw [hperm.length_eq, length_flatten]
    exact Nat.le_refl _

theorem length_puMap (T : Topology) : T.puMap.length = T.npus := by
  rw [T.puMap_perm.length_eq, length_flatten]
  rfl

theorem puMap_nodup (T : Topology) : T.puMap.Nodup := by
  rw [T.puMap_perm.nodup_iff, nodup_flatten]
  exact ⟨fun c hc => (T.sets c hc).2.imp Nat.ne_of_lt, T.disjoint⟩

theorem puMap_getElem? (hi : i < T.npus) : T.puMap[i]? = some (T.cpu i) := by
  have hlt : i < T.puMap.length := by rwa [length_puMap]
  rw [cpu, Nat.mod_eq_of_lt hlt, getD_eq_getElem?_getD, getElem?_eq_getElem hlt]
  rfl

theorem cpu_lt (hi : i < T.npus) : T.cpu i < T.ncpu := by
  have hmem := T.puMap_perm.mem_iff.mp (mem_of_getElem? (puMap_getElem? hi))
  obtain ⟨c, hc, hp⟩ := mem_flatten.mp hmem
  exact T.below c hc _ hp

theorem cpu_mem_core (hi : i < T.npus) (hc : i < T.cores.length) : T.cpu i ∈ T.cores[i] := by
  have hne : ∀ c ∈ T.cores, c.length ≠ 0 := fun c hc => mt length_eq_zero_iff.mp (T.sets c hc).1
  obtain ⟨m, hm⟩ : ∃ m, T.maxsmt = m + 1 := by
    have hle := (le_foldl_max length T.cores 0).2 _ (getElem_mem hc)
    exact Nat.exists_eq_succ_of_ne_zero
      (Nat.ne_of_gt (Nat.lt_of_lt_of_le (Nat.pos_of_ne_zero (hne _ (getElem_mem hc))) hle))
  have hfirst : T.cores.filterMap (·[0]?) = T.cores.map (·.headI) := by
    rw [← filterMap_eq_map]
    refine filterMap_congr fun c hc => ?_
    cases c with
    | nil => exact absurd rfl (T.sets _ hc).1
    | cons => rfl
  have hget := puMap_getElem? hi
  rw [puMap, getElem?_take_of_lt hi, hm, range_succ_eq_map, flatMap_cons, hfirst,
    getElem?_append_left (by rwa [length_map]), getElem?_map, getElem?_eq_getElem hc] at hget
  rw [← Option.some.inj hget]
  cases hcore : T.cores[i] with
  | nil => exact absurd hcore (T.sets _ (getElem_mem hc)).1
  | cons => exact mem_cons_self

theorem coreOf_cpu (hi : i < T.npus) (hc : i < T.cores.length) : T.coreOf (T.cpu i) = i := by
  have hfind : T.cores.findIdx? (T.cpu i ∈ ·) = some i := by
    rw [findIdx?_eq_some_iff_getElem]
    refine ⟨hc, decide_eq_true (cpu_mem_core hi hc), fun j hj hmem => ?_⟩
    have hdis := pairwise_iff_getElem.mp T.disjoint j i (Nat.lt_trans hj hc) hc hj
    exact hdis (of_decide_eq_true hmem) (cpu_mem_core hi hc)
  rw [coreOf, hfind]
  rfl

theorem hits_first {k : ℕ} (hk : k ≤ T.npus) :
    (∀ d v, (range k).foldl (T.hit lvl) (fun _ => none) d = some v →
      ∃ j < k, v = T.cpu j ∧ T.domain lvl (T.cpu j) = d) ∧
      ∀ i < k, ∃ j ≤ i, (range k).foldl (T.hit lvl) (fun _ => none) (T.domain lvl (T.cpu i)) =
        some (T.cpu j) := by
  induction k with
  | zero => exact ⟨nofun, nofun⟩
  | succ k ih =>
    obtain ⟨hall, hfirst⟩ := ih (Nat.le_of_succ_le hk)
    rw [range_succ, foldl_append]
    generalize (range k).foldl (T.hit lvl) (fun _ => none) = a at hall hfirst ⊢
    rw [foldl_cons, foldl_nil, hit]
    have hlt := cpu_lt hk
    have hd : T.domain lvl (T.cpu k) < T.ndomains lvl :=
      (le_foldl_max (fun c => T.domain lvl c + 1) (range T.ncpu) 1).2 _ (mem_range.mpr hlt)
    cases hnew : a (T.domain lvl (T.cpu k)) with
    | none =>
      rw [if_pos ⟨hlt, hd, rfl⟩]
      constructor
      · intro d v hv
        rcases eq_or_ne d (T.domain lvl (T.cpu k)) with rfl | hne
        · rw [update_self] at hv
          exact ⟨k, Nat.lt_succ_self k, (Option.some.inj hv).symm, rfl⟩
        · rw [update_of_ne hne] at hv
          obtain ⟨j, hj, he⟩ := hall d v hv
          exact ⟨j, Nat.lt_succ_of_lt hj, he⟩
      · intro i hi
        rcases Nat.lt_succ_iff_lt_or_eq.mp hi with hi | rfl
        · obtain ⟨j, hj, he⟩ := hfirst i hi
          refine ⟨j, hj, ?_⟩
          rw [update_of_ne, he]
          intro hsame
          rw [hsame, hnew] at he
          cases he
        · exact ⟨i, Nat.le_refl i, update_self ..⟩
    | some v =>
      rw [if_neg fun h => by cases h.2.2]
      constructor
      · intro d v hv
        obtain ⟨j, hj, he⟩ := hall d v hv
        exact ⟨j, Nat.lt_succ_of_lt hj, he⟩
      · intro i hi
        rcases Nat.lt_succ_iff_lt_or_eq.mp hi with hi | rfl
        · exact hfirst i hi
        · obtain ⟨j, hj, rfl, -⟩ := hall _ v hnew
          exact ⟨j, Nat.le_of_lt hj, hnew⟩

end Topology

/-- The writers are on different CPUs, as many of them as there are cores on different cores, and
the reclaim worker of each domain that has a writer is where a writer of that domain is. -/
theorem writers_spread (T : Topology) (lvl : Level) {N : ℕ} (hN : N ≤ T.npus) :
    (∀ i j, i < j → j < min N T.cores.length → T.coreOf (T.cpu i) ≠ T.coreOf (T.cpu j)) ∧
      (∀ i j, i < j → j < N → T.cpu i ≠ T.cpu j) ∧
      ∀ i < N, ∃ j < N, T.anchor lvl (T.domain lvl (T.cpu i)) = some (T.cpu j) ∧
        T.domain lvl (T.cpu j) = T.domain lvl (T.cpu i) := by
  refine ⟨fun i j hij hj => ?_, fun i j hij hj he => ?_, fun i hi => ?_⟩
  · obtain ⟨hjN, hjc⟩ := Nat.lt_min.mp hj
    have hj' := Nat.lt_of_lt_of_le hjN hN
    rw [Topology.coreOf_cpu (Nat.lt_trans hij hj') (Nat.lt_trans hij hjc),
      Topology.coreOf_cpu hj' hjc]
    exact Nat.ne_of_lt hij
  · have hj' := Nat.lt_of_lt_of_le hj hN
    have hget := Topology.puMap_getElem? (Nat.lt_trans hij hj')
    rw [he, ← Topology.puMap_getElem? hj'] at hget
    have hlt : i < T.puMap.length := by
      rw [T.length_puMap]
      exact Nat.lt_trans hij hj'
    exact Nat.ne_of_lt hij ((getElem?_inj hlt T.puMap_nodup).mp hget)
  · have hi' := Nat.lt_of_lt_of_le hi hN
    have hcount : T.npu = T.npus := by
      rw [Topology.npu, T.length_puMap, if_neg (Nat.ne_of_gt (Nat.zero_lt_of_lt hi'))]
    obtain ⟨hall, hfirst⟩ := @Topology.hits_first T lvl _ (Nat.le_refl T.npus)
    obtain ⟨j, hj, he⟩ := hfirst i hi'
    obtain ⟨_, -, hsame, hd⟩ := hall _ _ he
    refine ⟨j, Nat.lt_of_le_of_lt hj hi, ?_, hsame ▸ hd⟩
    rw [Topology.anchor, hcount, he]
    rfl

def unequal : Topology where
  ncpu := 3
  cores := [[0, 2], [1]]
  l3 := fun _ => none
  sets := by decide
  disjoint := by simp
  below := by decide

theorem writers_spread_unequal : 3 ≤ unequal.npus ∧ unequal.cpu 0 ≠ unequal.cpu 2 ∧
    ∃ j < 3, unequal.anchor .l3 (unequal.domain .l3 (unequal.cpu 2)) = some (unequal.cpu j) ∧
      unequal.domain .l3 (unequal.cpu j) = unequal.domain .l3 (unequal.cpu 2) := by
  obtain ⟨-, hcpu, hanchor⟩ := writers_spread unequal .l3 (N := 3) (by decide)
  exact ⟨by decide, hcpu 0 2 (by decide) (by decide), hanchor 2 (by decide)⟩

end TrieBenchmark.Bench
