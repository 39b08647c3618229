import TrieBenchmark.Lib.Run
import Mathlib.Data.Fin.VecNotation

/-!
The three-skiplist move benchmark (`bench_txn_3skiplist.c`): updaters rotate the keys they own
through three skiplists while a reader asks whether a key is in one of them.
-/

namespace TrieBenchmark.Bench.ThreeSkiplist

open Run

structure Config where
  nupdaters : ℕ
  updatespacing : ℕ
  movesper : ℕ

namespace Config

variable (g : Config)

def keysPerThread : ℕ :=
  if (g.updatespacing - 16) / 3 < 1 then 3 else 3 * ((g.updatespacing - 16) / 3)

abbrev Valid : Prop := 1 ≤ g.nupdaters ∧ 20 ≤ g.updatespacing

def chunk : ℕ := if 0 < g.movesper then g.movesper else g.keysPerThread

def key (u j : ℕ) : ℕ := u * g.updatespacing + j

def Owned (key : ℕ) : Prop := ∃ u < g.nupdaters, ∃ j < g.keysPerThread, g.key u j = key

variable {g}

theorem Valid.keysPerThread_le (hg : g.Valid) : g.keysPerThread ≤ g.updatespacing := by
  have h := hg.2
  unfold keysPerThread
  split_ifs <;> omega

theorem Valid.key_inj (hg : g.Valid) {u u' j j' : ℕ} (hj : j < g.keysPerThread)
    (hj' : j' < g.keysPerThread) : g.key u j = g.key u' j' ↔ u = u' ∧ j = j' := by
  constructor
  · intro h
    have hK := hg.keysPerThread_le
    have hu : ∀ v i, i < g.keysPerThread → g.key v i / g.updatespacing = v := fun v i hi => by
      rw [key, Nat.mul_comm, Nat.mul_add_div (by omega), Nat.div_eq_of_lt (by omega), Nat.add_zero]
    obtain rfl : u = u' := by rw [← hu u j hj, h, hu u' j' hj']
    exact ⟨rfl, Nat.add_left_cancel h⟩
  · rintro ⟨rfl, rfl⟩
    rfl

end Config

inductive Query where
  | idle
  | look (key : ℕ) (t : Fin 3)
  | done (key : ℕ) (hit : Bool)
  deriving DecidableEq, Repr

structure Sys where
  /-- Whether the key is in skiplist `t`. -/
  sl : Fin 3 → ℕ → Bool
  curtab : ℕ → ℕ → Fin 3
  /-- The first slot of the updater's next chunk. -/
  base : ℕ → ℕ
  reader : Query

inductive Act where
  | commit (u : ℕ)
  | query (key : ℕ)
  | lookup

def Sys.init (g : Config) : Sys where
  sl t key := decide (∃ u < g.nupdaters, ∃ j < g.keysPerThread, g.key u j = key ∧ j % 3 = t)
  curtab _ j := ⟨j % 3, Nat.mod_lt j (by decide)⟩
  base _ := 0
  reader := .idle

def Sys.moves (g : Config) (s : Sys) (u j : ℕ) : Prop :=
  s.base u ≤ j ∧ j < s.base u + g.chunk ∧ j < g.keysPerThread

instance (g : Config) (s : Sys) (u j : ℕ) : Decidable (s.moves g u j) := by
  unfold Sys.moves
  infer_instance

/-- `commit_moves`: the deletes and the inserts of a chunk take effect together. -/
def Sys.commit (g : Config) (s : Sys) (u : ℕ) : Sys :=
  { s with
    sl := fun t key =>
      s.sl t key && !(List.range g.keysPerThread).any (fun j =>
          s.moves g u j ∧ g.key u j = key ∧ s.curtab u j = t) ||
        (List.range g.keysPerThread).any fun j =>
          s.moves g u j ∧ g.key u j = key ∧ s.curtab u j + 1 = t
    curtab := fun v j => if v = u ∧ s.moves g u j then s.curtab v j + 1 else s.curtab v j
    base := fun v =>
      if v ≠ u then s.base v
      else if s.base u + g.chunk < g.keysPerThread then s.base u + g.chunk else 0 }

def Sys.act (g : Config) (s : Sys) : Act → Option Sys
  | .commit u => if u < g.nupdaters then some (s.commit g u) else none
  | .query key =>
    match s.reader with
    | .look _ _ => none
    | _ => some { s with reader := .look key 0 }
  | .lookup =>
    match s.reader with
    | .look key t =>
      some { s with
        reader :=
          if s.sl t key then .done key true
          else if t = 2 then .done key false else .look key (t + 1) }
    | _ => none

/-- The commit would take the key of a query that has looked in skiplist 0 back there. -/
def wraps (g : Config) (s : Sys) : Act → Bool
  | .commit u =>
    match s.reader with
    | .look key t => t ≠ 0 ∧ (List.range g.keysPerThread).any fun j =>
        s.moves g u j ∧ g.key u j = key ∧ s.curtab u j = 2
    | _ => false
  | _ => false

variable {g : Config} {s : Sys} {u j : ℕ}

structure Sys.Inv (g : Config) (s : Sys) : Prop where
  located : ∀ u < g.nupdaters, ∀ j < g.keysPerThread, ∀ t,
    s.sl t (g.key u j) = decide (s.curtab u j = t)
  ahead : ∀ u < g.nupdaters, ∀ j < g.keysPerThread, ∀ t,
    s.reader = .look (g.key u j) t → t ≤ s.curtab u j
  hit : ∀ key hit, s.reader = .done key hit → g.Owned key → hit = true

theorem Sys.Inv.init (hg : g.Valid) : (Sys.init g).Inv g := by
  refine ⟨fun u hu j hj t => ?_, nofun, nofun⟩
  refine decide_eq_decide.mpr ⟨?_, fun h => ⟨u, hu, j, hj, rfl, congrArg Fin.val h⟩⟩
  rintro ⟨u', -, j', hj', he, ht⟩
  obtain ⟨-, rfl⟩ := (hg.key_inj hj' hj).mp he
  exact Fin.ext ht

theorem Sys.Inv.commit (hI : s.Inv g) (hg : g.Valid) (hu : u < g.nupdaters)
    (hok : wraps g s (.commit u) = false) : (s.commit g u).Inv g := by
  refine ⟨fun v hv j hj t => ?_, fun v hv j hj t hr => ?_, hI.hit⟩
  · have hany : ∀ P : ℕ → Prop, (∃ j' ∈ List.range g.keysPerThread, s.moves g u j' ∧
        g.key u j' = g.key v j ∧ P j') ↔ u = v ∧ s.moves g u j ∧ P j := by
      intro P
      constructor
      · rintro ⟨j', hj', hm, he, hP⟩
        obtain ⟨rfl, rfl⟩ := (hg.key_inj (List.mem_range.mp hj') hj).mp he
        exact ⟨rfl, hm, hP⟩
      · rintro ⟨rfl, hm, hP⟩
        exact ⟨j, List.mem_range.mpr hj, hm, rfl, hP⟩
    rw [Bool.eq_iff_iff]
    simp only [Sys.commit, hI.located v hv j hj, Bool.or_eq_true, Bool.and_eq_true,
      Bool.not_eq_true', ← Bool.not_eq_true, List.any_eq_true, decide_eq_true_eq]
    rw [hany fun j => s.curtab u j = t, hany fun j => s.curtab u j + 1 = t]
    by_cases hm : v = u ∧ s.moves g u j
    · obtain ⟨rfl, hm⟩ := hm
      simp [hm]
    · have hne : ∀ P, ¬ (u = v ∧ s.moves g u j ∧ P) := fun P h => hm ⟨h.1.symm, h.2.1⟩
      simp [hm, hne]
  · have hle := hI.ahead v hv j hj t hr
    simp only [Sys.commit]
    split_ifs with hm
    · obtain ⟨rfl, hm⟩ := hm
      -- a move goes up but for the one from skiplist 2, and then the query is at its start
      have hup : ∀ t c : Fin 3, t ≤ c → (c = 2 → t = 0) → t ≤ c + 1 := by decide
      refine hup _ _ hle fun h2 => by_contra fun h0 => ?_
      have hr' : s.reader = .look (g.key v j) t := hr
      simp [wraps, hr', h0] at hok
      exact hok j hj hm rfl h2
    · exact hle

theorem Sys.Inv.lookup (hI : s.Inv g) {key : ℕ} {t : Fin 3} (hr : s.reader = .look key t) :
    ({ s with reader := if s.sl t key then .done key true
        else if t = 2 then .done key false else .look key (t + 1) } : Sys).Inv g := by
  have hpast : ∀ u < g.nupdaters, ∀ j < g.keysPerThread, g.key u j = key → s.sl t key = false →
      t ≠ 2 ∧ t + 1 ≤ s.curtab u j := by
    rintro u hu j hj rfl hmiss
    have hle := hI.ahead u hu j hj t hr
    rw [hI.located u hu j hj, decide_eq_false_iff_not] at hmiss
    have hnext : ∀ t c : Fin 3, t ≤ c → c ≠ t → t ≠ 2 ∧ t + 1 ≤ c := by decide
    exact hnext _ _ hle hmiss
  refine ⟨hI.located, fun u hu j hj t' hr' => ?_, fun key' hit hr' howned => ?_⟩
  · simp only at hr'
    split_ifs at hr' with hsl h2
    cases hr'
    exact (hpast u hu j hj rfl (by simpa using hsl)).2
  · simp only at hr'
    split_ifs at hr' with hsl h2
    · cases hr'
      rfl
    · cases hr'
      obtain ⟨u, hu, j, hj, he⟩ := howned
      exact absurd h2 (hpast u hu j hj he (by simpa using hsl)).1

/-- Every state of a run in which no commit takes the queried key from skiplist 2 past the reader:
a query of an owned key hits. -/
theorem query_hits (hg : g.Valid)
    (hr : Reach (Sys.act g) (fun s a => wraps g s a = false) (Sys.init g) s) {key : ℕ} {hit : Bool}
    (hq : s.reader = .done key hit) (howned : g.Owned key) : hit = true := by
  refine (hr.invariant (Sys.Inv.init hg) fun s a s' hI hok hact => ?_).hit key hit hq howned
  cases a with
  | commit u =>
    rw [Sys.act] at hact
    split_ifs at hact with hu
    cases hact
    exact hI.commit hg hu hok
  | query key =>
    have hs' : s' = { s with reader := .look key 0 } := by
      rw [Sys.act] at hact
      split at hact
      · cases hact
      · cases hact
        rfl
    subst hs'
    refine ⟨hI.located, fun u hu j hj t h => ?_, nofun⟩
    cases h
    exact Fin.zero_le _
  | lookup =>
    rw [Sys.act] at hact
    split at hact
    · rename_i key t hlook
      cases hact
      exact hI.lookup hlook
    · cases hact

def single : Config := ⟨1, 20, 1⟩

theorem query_hits_moved : ∃ s, Reach (Sys.act single) (fun s a => wraps single s a = false)
    (Sys.init single) s ∧ ∃ hit, s.reader = .done 1 hit ∧ hit = true := by
  have he : (exec (guarded (Sys.act single) fun s a => wraps single s a = false) (Sys.init single)
      [.commit 0, .query 1, .lookup, .commit 0, .lookup, .lookup]).map Sys.reader =
        some (.done 1 true) := by
    rfl
  obtain ⟨s, hr, hs⟩ := reach_exec_map he
  exact ⟨s, hr.of_guarded, true, hs, query_hits (by decide) hr.of_guarded hs
    ⟨0, by decide, 1, by decide, rfl⟩⟩

/-- The reader misses key 2 in skiplist 0, its updater moves it there from skiplist 2, and the
reader misses it in the other two. -/
theorem query_misses_owned_key : single.Valid ∧ single.Owned 2 ∧
    ∃ s, Reach (Sys.act single) (fun _ _ => True) (Sys.init single) s ∧
      s.reader = .done 2 false := by
  have he : (exec (Sys.act single) (Sys.init single) [.commit 0, .commit 0, .query 2, .lookup,
      .commit 0, .lookup, .lookup]).map Sys.reader = some (.done 2 false) := by
    rfl
  exact ⟨by decide, ⟨0, by decide, 2, by decide, rfl⟩, reach_exec_map he⟩

end TrieBenchmark.Bench.ThreeSkiplist
