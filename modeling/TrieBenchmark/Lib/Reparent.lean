import Mathlib.Data.Set.Basic
import Mathlib.Logic.Function.Iterate

/-!
Moving nodes in a tree given by a parent function. A mover flags the nodes it moves, climbs from
each new parent towards the root, and moves them when it met no flagged node on the way. The
lemmas say what such a climb is worth when other movers commit in between.
-/

namespace TrieBenchmark.Reparent

open Function

variable {N : Type} {p p' : N → N} {F F' Y : Set N} {a b c r : N}

/-- Climbing from the first node leads to the second, over nodes outside `F` only. The last
node is not one of them. -/
inductive Path (p : N → N) (F : Set N) : N → N → Prop where
  | refl (a : N) : Path p F a a
  | step {a b : N} : a ∉ F → Path p F (p a) b → Path p F a b

namespace Path

theorem mono (h : Path p F a b) (hF : F' ⊆ F) : Path p F' a b := by
  induction h with
  | refl a => exact .refl a
  | step ha _ ih => exact .step (fun h => ha (hF h)) ih

theorem trans (h : Path p F a b) (h' : Path p F b c) : Path p F a c := by
  induction h with
  | refl => exact h'
  | step ha _ ih => exact .step ha (ih h')

theorem snoc (h : Path p F a b) (hb : b ∉ F) : Path p F a (p b) :=
  h.trans (.step hb (.refl _))

theorem congr {A : Set N} (h : Path p F a b) (hA : ∀ x ∈ A, p x ∈ A ∧ p' x = p x) (ha : a ∈ A) :
    Path p' F a b := by
  induction h with
  | refl a => exact .refl a
  | step hF _ ih =>
    refine .step hF ?_
    rw [(hA _ ha).2]
    exact ih (hA _ ha).1

/-- After the parents of `Y` have changed, an old climb still stands, or leads to `Y`. -/
theorem change (h : Path p F a b) (hp : ∀ x, x ∉ Y → p' x = p x) :
    Path p' F a b ∨ ∃ y ∈ Y, y ∉ F ∧ Path p' F a y := by
  induction h with
  | refl a => exact .inl (.refl a)
  | @step a _ ha _ ih =>
    by_cases hY : a ∈ Y
    · exact .inr ⟨a, hY, ha, .refl a⟩
    · rw [← hp a hY] at ih
      rcases ih with h | ⟨y, hy, hyF, h⟩
      · exact .inl (.step ha h)
      · exact .inr ⟨y, hy, hyF, .step ha h⟩

theorem iterate (h : Path p F a r) : ∃ k, p^[k] a = r := by
  induction h with
  | refl => exact ⟨0, rfl⟩
  | step _ _ ih =>
    obtain ⟨k, hk⟩ := ih
    exact ⟨k + 1, hk⟩

theorem ne_iterate (h : Path p F a r) (hr : p r = r) (ha : a ≠ r) (k : ℕ) : p^[k + 1] a ≠ a := by
  intro hk
  obtain ⟨n, hn⟩ := h.iterate
  have hstay : ∀ j, p^[j] r = r := fun j => iterate_fixed hr j
  have hloop : ∀ j, p^[(k + 1) * j] a = a := by
    intro j
    rw [iterate_mul]
    exact iterate_fixed hk j
  have hle : n ≤ (k + 1) * n := Nat.le_mul_of_pos_left n (Nat.succ_pos k)
  apply ha
  calc a = p^[(k + 1) * n - n + n] a := by rw [Nat.sub_add_cancel hle, hloop]
    _ = p^[(k + 1) * n - n] (p^[n] a) := iterate_add_apply p _ n a
    _ = r := by rw [hn, hstay]

end Path

structure Moved (p p' : N → N) (r : N) (F Y : Set N) : Prop where
  keep : ∀ x, x ∉ Y → p' x = p x
  sub : Y ⊆ F
  clear : ∀ y ∈ Y, Path p F (p' y) r

namespace Moved

theorem clear_after (hM : Moved p p' r F Y) {y : N} (hy : y ∈ Y) : Path p' F (p' y) r := by
  rcases (hM.clear y hy).change hM.keep with h | ⟨z, hz, hzF, -⟩
  · exact h
  · exact absurd (hM.sub hz) hzF

/-- What a climb of another mover is worth after the move: it still stands, or the way from its
start to the root is clear altogether. -/
theorem path (hM : Moved p p' r F Y) (hF : ∀ y ∈ Y, y ∈ F' ∨ F' ⊆ F) (h : Path p F' a b) :
    Path p' F' a b ∨ Path p' F' a r := by
  rcases h.change hM.keep with h | ⟨y, hy, hyF, h⟩
  · exact .inl h
  · have hsub := (hF y hy).resolve_left hyF
    exact .inr (h.trans (.step hyF ((hM.clear_after hy).mono hsub)))

theorem rooted (hM : Moved p p' r F Y) (h : Path p ∅ a r) : Path p' ∅ a r := by
  rcases hM.path (fun y _ => .inr (Set.empty_subset F)) h with h | h <;> exact h

end Moved

end TrieBenchmark.Reparent
