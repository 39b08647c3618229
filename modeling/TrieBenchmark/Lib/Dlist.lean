import Mathlib.Data.List.Nodup
import Mathlib.Logic.Function.Basic

/-!
Doubly linked lists over one pool of nodes. A node has one pair of pointers, so it is on one list
at most; a list is its head and its tail.
-/

namespace TrieBenchmark

open List Function

structure Dlist (L N : Type) where
  prev : N → Option N
  next : N → Option N
  head : L → Option N
  tail : L → Option N

namespace Dlist

variable {L N : Type}

def empty : Dlist L N :=
  ⟨fun _ => none, fun _ => none, fun _ => none, fun _ => none⟩

def follow (D : Dlist L N) : ℕ → Option N → List N
  | 0, _ => []
  | _ + 1, none => []
  | k + 1, some n => n :: follow D k (D.next n)

section Edits

variable [DecidableEq L] [DecidableEq N] (D : Dlist L N) (l : L) (n : N)

def linkTail : Dlist L N :=
  let D₁ := { D with
    prev := update D.prev n (D.tail l)
    next := update D.next n none }
  let D₂ := match D₁.tail l with
    | some t => { D₁ with next := update D₁.next t (some n) }
    | none => { D₁ with head := update D₁.head l (some n) }
  { D₂ with tail := update D₂.tail l (some n) }

/-- The node's neighbours, or the ends of the list, are joined past it. -/
def unlink : Dlist L N :=
  let D₁ := match D.prev n with
    | some p => { D with next := update D.next p (D.next n) }
    | none => { D with head := update D.head l (D.next n) }
  let D₂ := match D₁.next n with
    | some m => { D₁ with prev := update D₁.prev m (D₁.prev n) }
    | none => { D₁ with tail := update D₁.tail l (D₁.prev n) }
  { D₂ with prev := update D₂.prev n none, next := update D₂.next n none }

end Edits

section Fields

variable [DecidableEq L] [DecidableEq N] {D : Dlist L N} {l : L} {n : N}

theorem linkTail_prev (m : N) : (D.linkTail l n).prev m = if m = n then D.tail l else D.prev m := by
  unfold linkTail
  cases htail : D.tail l <;> simp [htail, update_apply]

theorem linkTail_next (hn : D.tail l ≠ some n) (m : N) : (D.linkTail l n).next m =
    if m = n then none else if D.tail l = some m then some n else D.next m := by
  unfold linkTail
  cases htail : D.tail l with
  | none => simp [htail, update_apply]
  | some t =>
    have ht : n ≠ t := fun h => hn (h ▸ htail)
    rcases eq_or_ne m n with rfl | hm
    · simp [htail, ht]
    · simp [htail, update_apply, hm, eq_comm]

theorem linkTail_head (x : L) : (D.linkTail l n).head x =
    if x = l ∧ D.tail l = none then some n else D.head x := by
  unfold linkTail
  cases htail : D.tail l <;> simp [htail, update_apply]

theorem linkTail_tail (x : L) : (D.linkTail l n).tail x = if x = l then some n else D.tail x := by
  unfold linkTail
  cases htail : D.tail l <;> simp [htail, update_apply]

variable (hn : D.prev n ≠ some n)
include hn

theorem unlink_next (m : N) : (D.unlink l n).next m =
    if m = n then none else if D.prev n = some m then D.next n else D.next m := by
  unfold unlink
  cases hprev : D.prev n with
  | none => cases hnext : D.next n <;> simp [hnext, update_apply]
  | some p =>
    have hp : n ≠ p := fun h => hn (h ▸ hprev)
    cases hnext : D.next n <;> simp [hnext, update_apply, hp, eq_comm]

theorem unlink_prev (m : N) : (D.unlink l n).prev m =
    if m = n then none else if D.next n = some m then D.prev n else D.prev m := by
  unfold unlink
  cases hprev : D.prev n with
  | none => cases hnext : D.next n <;> simp [hprev, hnext, update_apply, eq_comm]
  | some p =>
    have hp : n ≠ p := fun h => hn (h ▸ hprev)
    cases hnext : D.next n <;> simp [hprev, hnext, update_apply, hp, eq_comm]

theorem unlink_head (x : L) : (D.unlink l n).head x =
    if x = l ∧ D.prev n = none then D.next n else D.head x := by
  unfold unlink
  cases hprev : D.prev n with
  | none => cases hnext : D.next n <;> simp [hnext, update_apply]
  | some p =>
    have hp : n ≠ p := fun h => hn (h ▸ hprev)
    cases hnext : D.next n <;> simp [hnext, hp]

theorem unlink_tail (x : L) : (D.unlink l n).tail x =
    if x = l ∧ D.next n = none then D.prev n else D.tail x := by
  unfold unlink
  cases hprev : D.prev n with
  | none => cases hnext : D.next n <;> simp [hprev, hnext, update_apply]
  | some p =>
    have hp : n ≠ p := fun h => hn (h ▸ hprev)
    cases hnext : D.next n <;> simp [hprev, hnext, update_apply, hp]

end Fields

structure Linked (D : Dlist L N) (ℓ : L → List N) : Prop where
  head : ∀ l, D.head l = (ℓ l).head?
  tail : ∀ l, D.tail l = (ℓ l).getLast?
  place : ∀ l xs n ys, ℓ l = xs ++ n :: ys → D.prev n = xs.getLast? ∧ D.next n = ys.head?
  nodup : ∀ l, (ℓ l).Nodup
  apart : ∀ l l' n, n ∈ ℓ l → n ∈ ℓ l' → l = l'

theorem empty_linked : Linked (empty : Dlist L N) fun _ => [] where
  head _ := rfl
  tail _ := rfl
  place _ _ _ _ h := by simp at h
  nodup _ := nodup_nil
  apart _ _ _ h := by cases h

namespace Linked

variable {D : Dlist L N} {ℓ : L → List N} {l : L} {n : N}

theorem follow_from (hD : Linked D ℓ) (k : ℕ) (xs ys : List N) (hl : ℓ l = xs ++ ys) :
    D.follow k ys.head? = ys.take k := by
  induction k generalizing xs ys with
  | zero => rfl
  | succ k ih =>
    cases ys with
    | nil => rfl
    | cons n ys =>
      have hnext := (hD.place l xs n ys hl).2
      show n :: D.follow k (D.next n) = n :: ys.take k
      rw [hnext, ih (xs ++ [n]) ys (by simpa using hl)]

theorem follow_head (hD : Linked D ℓ) {k : ℕ} (hk : (ℓ l).length ≤ k) :
    D.follow k (D.head l) = ℓ l := by
  rw [hD.head, hD.follow_from k [] (ℓ l) rfl, take_of_length_le hk]

theorem prev_ne (hD : Linked D ℓ) (hn : n ∈ ℓ l) : D.prev n ≠ some n := by
  obtain ⟨xs, ys, hl⟩ := append_of_mem hn
  have hnd := hD.nodup l
  rw [hl, nodup_append] at hnd
  rw [(hD.place l xs n ys hl).1]
  intro h
  exact hnd.2.2 n (mem_of_getLast? h) n (mem_cons_self ..) rfl

variable [DecidableEq L] [DecidableEq N]

theorem linkTail (hD : Linked D ℓ) (hn : ∀ l', n ∉ ℓ l') :
    Linked (D.linkTail l n) (update ℓ l (ℓ l ++ [n])) := by
  have htail : D.tail l ≠ some n := by
    rw [hD.tail]
    exact fun h => hn l (mem_of_getLast? h)
  have hother : ∀ {l' m}, l' ≠ l → m ∈ ℓ l' → D.tail l ≠ some m := by
    intro l' m hne hm h
    rw [hD.tail] at h
    exact hne (hD.apart l' l m hm (mem_of_getLast? h))
  refine ⟨fun x => ?_, fun x => ?_, fun x xs m ys hx => ?_, fun x => ?_, fun x x' m hx hx' => ?_⟩
  · rw [linkTail_head, update_apply, hD.tail]
    split_ifs with h₁ h₂ h₂
    · rw [getLast?_eq_none_iff.mp h₁.2]
      rfl
    · exact absurd h₁.1 h₂
    · rw [h₂, hD.head, head?_append_of_ne_nil]
      exact fun h => h₁ ⟨h₂, getLast?_eq_none_iff.mpr h⟩
    · exact hD.head x
  · rw [linkTail_tail, update_apply]
    split_ifs
    · simp
    · exact hD.tail x
  · rw [linkTail_prev, linkTail_next htail]
    rw [update_apply] at hx
    split_ifs at hx with hxl
    · subst hxl
      -- the node met is the new one, or it was on the list before
      rcases eq_nil_or_concat ys with rfl | ⟨ys', y, rfl⟩
      · obtain ⟨hxs, hm⟩ := append_inj' hx rfl
        obtain rfl : n = m := by simpa using hm
        rw [if_pos rfl, if_pos rfl, hD.tail, hxs]
        exact ⟨rfl, rfl⟩
      · have hcut : ℓ x ++ [n] = (xs ++ m :: ys') ++ [y] := by simpa using hx
        obtain ⟨hold, hy⟩ := append_inj' hcut rfl
        obtain rfl : n = y := by simpa using hy
        have hmem : m ∈ ℓ x := by simp [hold]
        have hmn : m ≠ n := fun h => hn x (h ▸ hmem)
        obtain ⟨hprev, hnext⟩ := hD.place x xs m ys' hold
        rw [if_neg hmn, if_neg hmn, hD.tail, hprev, hnext, hold]
        refine ⟨rfl, ?_⟩
        cases ys' with
        | nil => simp
        | cons z zs =>
          have hnd := hD.nodup x
          rw [hold, nodup_append] at hnd
          have hlast : (xs ++ m :: z :: zs).getLast? ≠ some m := by
            rw [getLast?_append_of_ne_nil _ (cons_ne_nil _ _), getLast?_cons_cons]
            intro h
            exact (nodup_cons.mp hnd.2.1).1 (mem_of_getLast? h)
          rw [if_neg hlast]
          rfl
    · have hmem : m ∈ ℓ x := by simp [hx]
      have hmn : m ≠ n := fun h => hn x (h ▸ hmem)
      rw [if_neg hmn, if_neg hmn, if_neg (hother hxl hmem)]
      exact hD.place x xs m ys hx
  · rw [update_apply]
    split_ifs
    · exact nodup_append.mpr ⟨hD.nodup l, nodup_singleton n,
        fun a ha b hb => fun h => hn l (by rw [← mem_singleton.mp hb, ← h]; exact ha)⟩
    · exact hD.nodup x
  · rw [update_apply] at hx hx'
    have hof : ∀ {y}, m ∈ (if y = l then ℓ l ++ [n] else ℓ y) → m ∈ ℓ y ∨ (m = n ∧ y = l) := by
      intro y hy
      split_ifs at hy with h
      · rcases mem_append.mp hy with hy | hy
        · exact .inl (h ▸ hy)
        · exact .inr ⟨mem_singleton.mp hy, h⟩
      · exact .inl hy
    rcases hof hx with hm | ⟨rfl, rfl⟩ <;> rcases hof hx' with hm' | ⟨h, rfl⟩
    · exact hD.apart x x' m hm hm'
    · exact absurd (h ▸ hm) (hn x)
    · exact absurd hm' (hn x')
    · rfl

theorem unlink_after (hD : Linked D ℓ) {xs zs ys : List N} {m : N}
    (hl : ℓ l = xs ++ n :: (zs ++ m :: ys)) :
    (D.unlink l n).prev m = (xs ++ zs).getLast? ∧ (D.unlink l n).next m = ys.head? := by
  have hnd := hD.nodup l
  have hself := hD.prev_ne (l := l) (n := n) (by simp [hl])
  obtain ⟨hprev, hnext⟩ := hD.place l xs n _ hl
  obtain ⟨hprev', hnext'⟩ := hD.place l (xs ++ n :: zs) m ys (by simp [hl])
  have hmn : m ≠ n := by
    rintro rfl
    simp [hl, nodup_append] at hnd
  have hmx : D.prev n ≠ some m := by
    rw [hprev]
    intro h
    rw [hl, nodup_append] at hnd
    exact hnd.2.2 m (mem_of_getLast? h) m (by simp) rfl
  rw [unlink_prev hself, unlink_next hself, if_neg hmn, if_neg hmn, if_neg hmx, hprev, hnext, hprev',
    hnext']
  refine ⟨?_, rfl⟩
  cases zs with
  | nil => simp
  | cons z =>
    have hz : z ≠ m := by
      rintro rfl
      simp [hl, nodup_append] at hnd
    rw [cons_append, head?_cons, if_neg fun h => hz (Option.some.inj h)]
    simp

theorem unlink_before (hD : Linked D ℓ) {xs zs ys : List N} {m : N}
    (hl : ℓ l = (xs ++ m :: zs) ++ n :: ys) :
    (D.unlink l n).prev m = xs.getLast? ∧ (D.unlink l n).next m = (zs ++ ys).head? := by
  have hnd := hD.nodup l
  have hself := hD.prev_ne (l := l) (n := n) (by simp [hl])
  obtain ⟨hprev, hnext⟩ := hD.place l _ n ys hl
  obtain ⟨hprev', hnext'⟩ := hD.place l xs m (zs ++ n :: ys) (by simp [hl])
  have hmn : m ≠ n := by
    rintro rfl
    simp [hl, nodup_append] at hnd
  have hmy : D.next n ≠ some m := by
    rw [hnext]
    intro h
    rw [hl, nodup_append] at hnd
    exact hnd.2.2 m (by simp) m (mem_cons_of_mem _ (mem_of_mem_head? h)) rfl
  rw [unlink_prev hself, unlink_next hself, if_neg hmn, if_neg hmn, if_neg hmy, hprev, hnext, hprev',
    hnext']
  refine ⟨rfl, ?_⟩
  cases zs with
  | nil => simp
  | cons z zs =>
    have hlast : (xs ++ m :: z :: zs).getLast? ≠ some m := by
      rw [getLast?_append_of_ne_nil _ (cons_ne_nil _ _), getLast?_cons_cons]
      intro h
      rw [hl, nodup_append, nodup_append, nodup_cons] at hnd
      exact hnd.1.2.1.1 (mem_of_getLast? h)
    rw [if_neg hlast]
    rfl

theorem unlink (hD : Linked D ℓ) (hn : n ∈ ℓ l) :
    Linked (D.unlink l n) (update ℓ l ((ℓ l).erase n)) := by
  have hself := hD.prev_ne hn
  obtain ⟨xs₀, ys₀, hl⟩ := append_of_mem hn
  obtain ⟨hprev, hnext⟩ := hD.place l xs₀ n ys₀ hl
  have hnd := hD.nodup l
  rw [hl, nodup_middle, nodup_cons, mem_append, not_or] at hnd
  obtain ⟨⟨hnx, hny⟩, hnd⟩ := hnd
  have herase : (ℓ l).erase n = xs₀ ++ ys₀ := by
    rw [hl, erase_append_right _ hnx, erase_cons_head]
  rw [herase]
  -- a node of another list is no neighbour of the one that leaves
  have hother : ∀ {l' m}, l' ≠ l → m ∈ ℓ l' → m ≠ n ∧ D.prev n ≠ some m ∧ D.next n ≠ some m := by
    intro l' m hne hm
    have hout : m ∉ ℓ l := fun h => hne (hD.apart l' l m hm h)
    refine ⟨fun h => hout (h ▸ hn), fun h => hout ?_, fun h => hout ?_⟩
    · rw [hl, mem_append]
      exact .inl (mem_of_getLast? (hprev ▸ h))
    · rw [hl, mem_append]
      exact .inr (mem_cons_of_mem _ (mem_of_mem_head? (hnext ▸ h)))
  refine ⟨fun x => ?_, fun x => ?_, fun x xs m ys hx => ?_, fun x => ?_, fun x x' m hx hx' => ?_⟩
  · rw [unlink_head hself, update_apply, hprev, hnext, hD.head]
    split_ifs with h₁ h₂ h₂
    · rw [getLast?_eq_none_iff.mp h₁.2]
      rfl
    · exact absurd h₁.1 h₂
    · have hne : xs₀ ≠ [] := fun h => h₁ ⟨h₂, getLast?_eq_none_iff.mpr h⟩
      rw [h₂, hl, head?_append_of_ne_nil _ hne, head?_append_of_ne_nil _ hne]
    · rfl
  · rw [unlink_tail hself, update_apply, hprev, hnext, hD.tail]
    split_ifs with h₁ h₂ h₂
    · rw [head?_eq_none_iff.mp h₁.2, append_nil]
    · exact absurd h₁.1 h₂
    · have hne : ys₀ ≠ [] := fun h => h₁ ⟨h₂, head?_eq_none_iff.mpr h⟩
      rw [h₂, hl, getLast?_append_of_ne_nil _ (cons_ne_nil _ _),
        getLast?_append_of_ne_nil _ hne, getLast?_cons_of_ne_nil hne]
    · rfl
  · rw [update_apply] at hx
    split_ifs at hx with hxl
    · subst hxl
      rcases append_eq_append_iff.mp hx with ⟨zs, rfl, rfl⟩ | ⟨zs, rfl, hys⟩
      · exact hD.unlink_after hl
      · cases zs with
        | nil =>
          obtain rfl : m :: ys = ys₀ := hys
          have hl' : ℓ x = xs ++ n :: ([] ++ m :: ys) := by simpa using hl
          simpa using hD.unlink_after hl'
        | cons =>
          obtain ⟨rfl, rfl⟩ := cons_eq_cons.mp hys
          exact hD.unlink_before hl
    · have hmem : m ∈ ℓ x := by simp [hx]
      obtain ⟨hmn, hp, hs⟩ := hother hxl hmem
      rw [unlink_prev hself, unlink_next hself, if_neg hmn, if_neg hmn, if_neg hp, if_neg hs]
      exact hD.place x xs m ys hx
  · rw [update_apply]
    split_ifs
    · exact hnd
    · exact hD.nodup x
  · have hof : ∀ {y}, m ∈ update ℓ l (xs₀ ++ ys₀) y → m ∈ ℓ y := by
      intro y hy
      rw [update_apply, ← herase] at hy
      split_ifs at hy with h
      · exact h ▸ mem_of_mem_erase hy
      · exact hy
    exact hD.apart x x' m (hof hx) (hof hx')

end Linked

end Dlist

end TrieBenchmark
