import Mathlib.Data.List.Basic

/-!
The pacing of the benchmark's writers (`dcache_bench_pace.h`).
-/

namespace TrieBenchmark.Bench

open List

def paceSlackNs : ℕ := 1000000

structure Pace where
  periodNs : ℕ
  nextNs : ℕ
  deriving DecidableEq, Repr

/-- One access of a wait: what the read of `*goflag` before it found, and the clock reading. -/
structure Reading where
  stop : Bool
  now : ℕ
  deriving DecidableEq, Repr

/-- How `pace_wait` returns: 0 because the run is over, 1 without a look at the clock, or 1 after
the reading that released the writer. -/
inductive Wait where
  | over
  | unpaced
  | released (now : ℕ)
  deriving DecidableEq, Repr

def paceSpin (next : ℕ) : List Reading → Option (Wait × List Reading)
  | [] => none
  | r :: clock =>
    if r.stop then some (.over, r :: clock)
    else if r.now < next then paceSpin next clock
    else some (.released r.now, clock)

def paceWait (p : Pace) (clock : List Reading) : Option (Wait × Pace × List Reading) :=
  if p.periodNs = 0 then some (.unpaced, p, clock)
  else
    match clock with
    | [] => none
    | r :: clock =>
      let next := if p.nextNs = 0 then r.now else p.nextNs
      if r.now < next then
        (paceSpin next clock).map fun (w, rest) =>
          (w, ⟨p.periodNs, if w = .over then next else next + p.periodNs⟩, rest)
      else
        let next := if paceSlackNs < r.now - next then r.now - paceSlackNs else next
        some (.released r.now, ⟨p.periodNs, next + p.periodNs⟩, clock)

def releases (p : Pace) : ℕ → List Reading → Option (List ℕ)
  | 0, _ => some []
  | n + 1, clock =>
    match paceWait p clock with
    | some (.released r, p', rest) => (releases p' n rest).map (r :: ·)
    | _ => none

def Runs (t : ℕ) (clock : List Reading) : Prop :=
  (clock.map Reading.now).Pairwise (· ≤ ·) ∧ ∀ r ∈ clock, t ≤ r.now

theorem Runs.tail {t : ℕ} {r : Reading} {clock : List Reading} (h : Runs t (r :: clock)) :
    Runs r.now clock := by
  obtain ⟨hmono, -⟩ := h
  rw [map_cons, pairwise_cons] at hmono
  exact ⟨hmono.2, fun r' hr' => hmono.1 _ (mem_map_of_mem hr')⟩

theorem paceSpin_released {t next released : ℕ} {clock rest : List Reading} (hc : Runs t clock)
    (h : paceSpin next clock = some (.released released, rest)) :
    t ≤ released ∧ next ≤ released ∧ Runs released rest := by
  induction clock generalizing t with
  | nil => cases h
  | cons r clock ih =>
    have ht : t ≤ r.now := hc.2 r mem_cons_self
    rw [paceSpin] at h
    split_ifs at h with hstop hnow
    · cases h
    · obtain ⟨hle, hrest⟩ := ih hc.tail h
      exact ⟨Nat.le_trans ht hle, hrest⟩
    · cases h
      exact ⟨ht, Nat.le_of_not_lt hnow, hc.tail⟩

/-- What a call that returns 1 leaves. It was entered at `entry`: a stall in the wait loop does
not count against the slack before the next call. -/
structure Released (p : Pace) (t entry released next : ℕ) : Prop where
  entered : t ≤ entry
  due : p.nextNs ≤ released
  raised : p.nextNs + p.periodNs ≤ next
  slack : entry + p.periodNs ≤ next + paceSlackNs
  first : p.nextNs = 0 → next = released + p.periodNs

theorem paceWait_released {t released : ℕ} {p p' : Pace} {clock rest : List Reading}
    (hc : Runs t clock) (h : paceWait p clock = some (.released released, p', rest)) :
    ∃ entry next, p' = ⟨p.periodNs, next⟩ ∧ Released p t entry released next ∧
      Runs released rest := by
  cases clock with
  | nil =>
    simp only [paceWait] at h
    split_ifs at h
    cases h
  | cons r clock =>
    have ht : t ≤ r.now := hc.2 r mem_cons_self
    simp only [paceWait] at h
    split_ifs at h with hp h0 hlt hslack hlt hslack
    · cases h
    · exact absurd hlt (Nat.lt_irrefl _)
    · rw [Nat.sub_self] at hslack
      exact absurd hslack (Nat.not_lt_zero _)
    · cases h
      refine ⟨r.now, _, rfl, ⟨ht, ?_, ?_, ?_, ?_⟩, hc.tail⟩ <;> omega
    · obtain ⟨⟨ended, rest'⟩, hspin, he⟩ := Option.map_eq_some_iff.mp h
      cases he
      obtain ⟨-, hdue, hrest⟩ := paceSpin_released hc.tail hspin
      refine ⟨r.now, _, rfl, ⟨ht, hdue, Nat.le_refl _, ?_, fun h => absurd h h0⟩, hrest⟩
      rw [if_neg nofun]
      omega
    · cases h
      refine ⟨r.now, _, rfl, ⟨ht, ?_, ?_, ?_, ?_⟩, hc.tail⟩ <;> omega
    · cases h
      refine ⟨r.now, _, rfl, ⟨ht, ?_, ?_, ?_, ?_⟩, hc.tail⟩ <;> omega

section Calls

variable {p : Pace} {n t : ℕ} {clock : List Reading} {rs : List ℕ}

theorem releases_cons (hc : Runs t clock) (h : releases p (n + 1) clock = some rs) :
    ∃ r rs' entry next rest, rs = r :: rs' ∧ Released p t entry r next ∧ Runs r rest ∧
      releases ⟨p.periodNs, next⟩ n rest = some rs' := by
  rw [releases] at h
  split at h
  · rename_i r p' rest hw
    obtain ⟨rs', hrs, rfl⟩ := Option.map_eq_some_iff.mp h
    obtain ⟨entry, next, rfl, hr, hrest⟩ := paceWait_released hc hw
    exact ⟨r, rs', entry, next, rest, rfl, hr, hrest, hrs⟩
  · cases h

theorem releases_due (hc : Runs t clock) (h : releases p n clock = some rs) {k r : ℕ}
    (hk : rs[k]? = some r) : p.nextNs + k * p.periodNs ≤ r := by
  induction n generalizing p t clock rs k with
  | zero =>
    cases h
    cases hk
  | succ n ih =>
    obtain ⟨r, rs', entry, next, rest, rfl, hr, hrest, hrs⟩ := releases_cons hc h
    cases k with
    | zero =>
      cases hk
      simpa using hr.due
    | succ k =>
      calc p.nextNs + (k + 1) * p.periodNs = p.nextNs + p.periodNs + k * p.periodNs := by
            rw [Nat.succ_mul]
            omega
        _ ≤ next + k * p.periodNs := Nat.add_le_add_right hr.raised _
        _ ≤ _ := ih hrest hrs hk

variable {a T : ℕ}

theorem releases_within (hp : 0 < p.periodNs) (hc : Runs t clock)
    (h : releases p n clock = some rs) {m : ℕ}
    (hm : a + (m + 1) * p.periodNs ≤ p.nextNs + paceSlackNs) :
    (rs.filter fun r => a ≤ r ∧ r ≤ a + T).length ≤ (T + paceSlackNs) / p.periodNs - m := by
  induction n generalizing p t clock rs m with
  | zero =>
    cases h
    exact Nat.zero_le _
  | succ n ih =>
    obtain ⟨r, rs', entry, next, rest, rfl, hr, hrest, hrs⟩ := releases_cons hc h
    have hnext : a + (m + 1 + 1) * p.periodNs ≤ next + paceSlackNs := by
      have hle := hr.raised
      rw [Nat.succ_mul]
      omega
    have hlater : _ ≤ (T + paceSlackNs) / p.periodNs - (m + 1) :=
      ih (p := ⟨p.periodNs, next⟩) hp hrest hrs hnext
    by_cases hin : a ≤ r ∧ r ≤ a + T
    · have hdue := hr.due
      have hfit : m + 1 ≤ (T + paceSlackNs) / p.periodNs :=
        (Nat.le_div_iff_mul_le hp).mpr (by omega)
      rw [filter_cons_of_pos (by simpa using hin), length_cons]
      omega
    · rw [filter_cons_of_neg (by simpa using hin)]
      omega

theorem releases_window (hp : 0 < p.periodNs) (hc : Runs t clock)
    (h : releases p n clock = some rs) :
    (rs.filter fun r => a ≤ r ∧ r ≤ a + T).length ≤ (T + paceSlackNs) / p.periodNs + 2 := by
  induction n generalizing p t clock rs with
  | zero =>
    cases h
    exact Nat.zero_le _
  | succ n ih =>
    obtain ⟨r, rs', entry, next, rest, rfl, hr, hrest, hrs⟩ := releases_cons hc h
    by_cases hin : a ≤ r ∧ r ≤ a + T
    swap
    · rw [filter_cons_of_neg (by simpa using hin)]
      exact ih (p := ⟨p.periodNs, next⟩) hp hrest hrs
    rw [filter_cons_of_pos (by simpa using hin), length_cons]
    cases n with
    | zero =>
      cases hrs
      simp
    | succ n =>
      obtain ⟨r', rs'', entry', next', rest', rfl, hr', hrest', hrs'⟩ := releases_cons hrest hrs
      have hnext : a + (0 + 1) * p.periodNs ≤ next' + paceSlackNs := by
        have hentry := hr'.entered
        have hslack := hr'.slack
        simp only at hslack
        omega
      have hlater : _ ≤ (T + paceSlackNs) / p.periodNs - 0 :=
        releases_within (p := ⟨p.periodNs, next'⟩) (T := T) hp hrest' hrs' hnext
      have hone := length_filter_le (fun r => decide (a ≤ r ∧ r ≤ a + T)) [r']
      rw [← singleton_append, filter_append, length_append]
      rw [length_singleton] at hone
      rw [Nat.sub_zero] at hlater
      have hboth := Nat.add_le_add hone hlater
      rw [Nat.add_comm 1] at hboth
      exact Nat.succ_le_succ hboth

end Calls

/-- Releases of a paced writer: none before its time, and no window with more than its share, what
the slack lets it catch up, and two. -/
theorem paceWait_paced {period n : ℕ} {clock : List Reading} {rs : List ℕ} (hp : 1 ≤ period)
    (hc : (clock.map Reading.now).Pairwise (· ≤ ·)) (h : releases ⟨period, 0⟩ n clock = some rs) :
    (∀ first ∈ rs.head?, ∀ k r, rs[k]? = some r → first + k * period ≤ r) ∧
      ∀ a T, (rs.filter fun r => a ≤ r ∧ r ≤ a + T).length ≤ (T + paceSlackNs) / period + 2 := by
  have hclock : Runs 0 clock := ⟨hc, fun _ _ => Nat.zero_le _⟩
  refine ⟨fun first hfirst k r hk => ?_, fun a T => releases_window (p := ⟨period, 0⟩) hp hclock h⟩
  cases n with
  | zero =>
    cases h
    cases hk
  | succ n =>
    obtain ⟨_, rs', entry, next, rest, rfl, hr, hrest, hrs⟩ := releases_cons hclock h
    obtain rfl := Option.some.inj hfirst
    cases k with
    | zero =>
      cases hk
      simp
    | succ k =>
      have hle : next + k * period ≤ r := releases_due hrest hrs hk
      have hnext : next = _ + period := hr.first rfl
      rw [Nat.succ_mul]
      omega

theorem paceWait_paced_stall :
    ∃ rs, releases ⟨1000000, 0⟩ 4 [⟨false, 7⟩, ⟨false, 8⟩, ⟨false, 4000000⟩, ⟨false, 4000000⟩,
        ⟨false, 4000001⟩] = some rs ∧
      (rs.filter fun r => 4000000 ≤ r ∧ r ≤ 4000000 + 1).length ≤
        (1 + paceSlackNs) / 1000000 + 2 :=
  ⟨[7, 4000000, 4000000, 4000001], by decide, (@paceWait_paced _ 4 [⟨false, 7⟩, ⟨false, 8⟩,
    ⟨false, 4000000⟩, ⟨false, 4000000⟩, ⟨false, 4000001⟩] _ (by decide) (by decide)
    (by decide)).2 4000000 1⟩

end TrieBenchmark.Bench
