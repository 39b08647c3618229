import Mathlib.Data.List.Basic

/-!
A CLOCK pass over a list: the entry at the head is looked at again and again, under a budget that
is fixed at the start. An entry goes to the tail, is dropped from the list, or is taken off it.
-/

namespace TrieBenchmark.Clock

inductive Verdict where
  | rotate
  | drop
  | take
  deriving DecidableEq, Repr

variable {S N : Type}

/-- At most `budget` looks at the head, and no more once `room` entries have been taken. -/
def sweep (head : S → Option N) (visit : S → N → Verdict × S) : ℕ → ℕ → S → List N × S
  | 0, _, s => ([], s)
  | _ + 1, 0, s => ([], s)
  | budget + 1, room + 1, s =>
    match head s with
    | none => ([], s)
    | some n =>
      let (v, s') := visit s n
      let out := sweep head visit budget (if v = .take then room else room + 1) s'
      (if v = .take then n :: out.1 else out.1, out.2)

inductive Visits (visit : S → N → Verdict × S) : S → List (N × Verdict) → S → Prop where
  | nil {s : S} : Visits visit s [] s
  | cons {s s₁ s' : S} {n : N} {v : Verdict} {ms : List (N × Verdict)} :
      visit s n = (v, s₁) → Visits visit s₁ ms s' → Visits visit s ((n, v) :: ms) s'

def decided (v : Verdict) (ms : List (N × Verdict)) : List N :=
  (ms.filter (·.2 = v)).map (·.1)

@[simp] theorem decided_nil (v : Verdict) : decided v ([] : List (N × Verdict)) = [] := rfl

theorem decided_cons (v w : Verdict) (n : N) (ms : List (N × Verdict)) :
    decided v ((n, w) :: ms) = if w = v then n :: decided v ms else decided v ms := by
  unfold decided
  split_ifs with h <;> simp [h]

def Verdict.rest (n : N) (l : List N) (v : Verdict) : List N :=
  if v = .rotate then l ++ [n] else l

/-- `R s l`: in the state `s` the list is `l`. A visit keeps that up. -/
structure Holds (head : S → Option N) (visit : S → N → Verdict × S) (R : S → List N → Prop) :
    Prop where
  head : ∀ s l, R s l → head s = l.head?
  visit : ∀ s n l, R s (n :: l) → R (visit s n).2 ((visit s n).1.rest n l)

variable {head : S → Option N} {visit : S → N → Verdict × S} {R : S → List N → Prop}

/-- What holds of a pass with any budget: `I` is kept by a visit, `P` is put together visit by
visit from the end of the pass. -/
theorem sweep_rule {I : S → Prop} {P : S → List N → S → Prop} (hnil : ∀ s, I s → P s [] s)
    (hI : ∀ s n, I s → head s = some n → I (visit s n).2)
    (hcons : ∀ s n l s', I s → head s = some n → P (visit s n).2 l s' →
      P s (if (visit s n).1 = .take then n :: l else l) s') (budget room : ℕ) (s : S) (hs : I s) :
    P s (sweep head visit budget room s).1 (sweep head visit budget room s).2 := by
  induction budget generalizing room s with
  | zero => exact hnil s hs
  | succ _ ih =>
    cases room with
    | zero => exact hnil s hs
    | succ =>
      rw [sweep]
      cases hn : head s with
      | none => exact hnil s hs
      | some n => exact hcons s n _ _ hs hn (ih _ _ (hI s n hs hn))

/-- A pass whose budget is the number of entries before `ys` looks at each of them once at most.
It leaves what it did not reach, then `ys`, then what it sent to the tail, in that order. It goes
on as long as there is room. -/
theorem sweep_spec (hR : Holds head visit R) (xs ys : List N) (room : ℕ) (s : S)
    (hs : R s (xs ++ ys)) :
    ∃ ms rest, xs = ms.map (·.1) ++ rest ∧
      Visits visit s ms (sweep head visit xs.length room s).2 ∧
      (sweep head visit xs.length room s).1 = decided .take ms ∧
      R (sweep head visit xs.length room s).2 (rest ++ ys ++ decided .rotate ms) ∧
      (decided .take ms).length ≤ room ∧ (rest = [] ∨ (decided .take ms).length = room) ∧
      ∀ ms₁ m ms₂, ms = ms₁ ++ m :: ms₂ → (decided .take ms₁).length < room := by
  induction xs generalizing ys room s with
  | nil =>
    exact ⟨[], [], rfl, .nil, rfl, by simpa [sweep] using hs, Nat.zero_le _, .inl rfl, by simp⟩
  | cons n xs ih =>
    cases room with
    | zero =>
      exact ⟨[], n :: xs, rfl, .nil, rfl, by simpa [sweep] using hs, Nat.le_refl _, .inr rfl,
        by simp⟩
    | succ room =>
      have hhead : head s = some n := hR.head s _ hs
      have hvisit := hR.visit s n (xs ++ ys) hs
      rcases hv : visit s n with ⟨v, s'⟩
      rw [hv] at hvisit
      have hvisit : R s' (xs ++ (if v = .rotate then ys ++ [n] else ys)) := by
        simpa [Verdict.rest, apply_ite (xs ++ ·)] using hvisit
      have hsweep : sweep head visit (n :: xs).length (room + 1) s =
          let out := sweep head visit xs.length (if v = .take then room else room + 1) s'
          (if v = .take then n :: out.1 else out.1, out.2) := by
        rw [List.length_cons, sweep]
        simp only [hhead, hv]
      rw [hsweep]
      obtain ⟨ms, rest, hxs, hms, htaken, hl, hle, hstop, hroom⟩ :=
        ih _ (if v = .take then room else room + 1) s' hvisit
      refine ⟨(n, v) :: ms, rest, by simp [hxs], .cons hv hms, ?_, ?_, ?_, ?_, ?_⟩
      · rw [decided_cons, ← htaken]
      · rw [decided_cons]
        rcases eq_or_ne v .rotate with h | h
        · simpa [h] using hl
        · simpa [h] using hl
      · rw [decided_cons]
        split_ifs at hle ⊢ <;> simpa using hle
      · rw [decided_cons]
        split_ifs at hstop ⊢ <;> simpa using hstop
      · intro ms₁ m ms₂ he
        cases ms₁ with
        | nil => exact Nat.succ_pos room
        | cons _ ms₁ =>
          obtain ⟨rfl, htail⟩ := List.cons_eq_cons.mp he
          have hlt := hroom ms₁ m ms₂ htail
          rw [decided_cons]
          split_ifs at hlt ⊢ <;> simpa using hlt

end TrieBenchmark.Clock
