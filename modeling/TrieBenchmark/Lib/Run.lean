import Mathlib.Data.List.Basic

/-!
Runs of a system whose actions are partial functions on its states.
-/

namespace TrieBenchmark.Run

open Option

variable {S A : Type} (act : S → A → Option S)

/-- The states reached from `s₀` by actions that all meet `ok` where they are taken. -/
inductive Reach (ok : S → A → Prop) (s₀ : S) : S → Prop where
  | start : Reach ok s₀ s₀
  | step {s s' : S} {a : A} : Reach ok s₀ s → ok s a → act s a = some s' → Reach ok s₀ s'

/-- `vs` are the states of a run from `s₀` to `s`, the last one first. -/
inductive Trail (ok : S → A → Prop) (s₀ : S) : List S → S → Prop where
  | start : Trail ok s₀ [s₀] s₀
  | step {vs : List S} {s s' : S} {a : A} : Trail ok s₀ vs s → ok s a → act s a = some s' →
      Trail ok s₀ (s' :: vs) s'

def exec (s : S) : List A → Option S
  | [] => some s
  | a :: as => (act s a).bind fun s' => exec s' as

variable {act} {ok : S → A → Prop} {s₀ s s' : S}

theorem Reach.invariant {P : S → Prop} (hr : Reach act ok s₀ s) (h₀ : P s₀)
    (hstep : ∀ s a s', P s → ok s a → act s a = some s' → P s') : P s := by
  induction hr with
  | start => exact h₀
  | step _ hok hact ih => exact hstep _ _ _ ih hok hact

theorem Reach.trans (hr : Reach act ok s₀ s) (hr' : Reach act ok s s') : Reach act ok s₀ s' := by
  induction hr' with
  | start => exact hr
  | step _ hok hact ih => exact .step ih hok hact

theorem Reach.mono {ok' : S → A → Prop} (hr : Reach act ok s₀ s)
    (h : ∀ s a, ok s a → ok' s a) : Reach act ok' s₀ s := by
  induction hr with
  | start => exact .start
  | step _ hok hact ih => exact .step ih (h _ _ hok) hact

theorem exec_replicate_unique {a : A} {k k' : ℕ} {s₁ s₂ : S}
    (h₁ : exec act s (List.replicate k a) = some s₁) (hs₁ : act s₁ a = none)
    (h₂ : exec act s (List.replicate k' a) = some s₂) (hs₂ : act s₂ a = none) : s₁ = s₂ := by
  induction k generalizing s k' with
  | zero =>
    obtain rfl : s = s₁ := some.inj h₁
    cases k' with
    | zero => exact some.inj h₂
    | succ =>
      rw [List.replicate_succ, exec, hs₁] at h₂
      cases h₂
  | succ _ ih =>
    rw [List.replicate_succ, exec] at h₁
    obtain ⟨s', ha, h₁⟩ := bind_eq_some_iff.mp h₁
    cases k' with
    | zero =>
      obtain rfl : s = s₂ := some.inj h₂
      rw [hs₂] at ha
      cases ha
    | succ =>
      rw [List.replicate_succ, exec, ha] at h₂
      exact ih h₁ h₂

/-- Each action that `own` counts brings the run to `goal` or nearer to it, and no other takes it
farther: a run with more of them than it was away has met `goal`. -/
theorem exec_meets (own : A → Bool) {goal : S → Prop} {away : S → ℕ → Prop}
    (hstep : ∀ s a s' k, away s k → act s a = some s' →
      if own a then goal s' ∨ ∃ j < k, away s' j else away s' k)
    {as : List A} {k : ℕ} (hk : away s k) (he : exec act s as = some s')
    (hlt : k < as.countP own) : ∃ pre s₁, pre <+: as ∧ exec act s pre = some s₁ ∧ goal s₁ := by
  induction as generalizing s k with
  | nil => cases hlt
  | cons a as ih =>
    obtain ⟨s₀, ha, he⟩ := Option.bind_eq_some_iff.mp he
    have hcons : ∀ j, away s₀ j → j < as.countP own →
        ∃ pre s₁, pre <+: a :: as ∧ exec act s pre = some s₁ ∧ goal s₁ := by
      intro j hj hlt
      obtain ⟨pre, s₁, hpre, he₁, hgoal⟩ := ih hj he hlt
      refine ⟨a :: pre, s₁, List.cons_prefix_cons.mpr ⟨rfl, hpre⟩, ?_, hgoal⟩
      rw [exec, ha]
      exact he₁
    have hnext := hstep s a s₀ k hk ha
    rw [List.countP_cons] at hlt
    split_ifs at hnext hlt
    · rcases hnext with hgoal | ⟨j, hj, haway⟩
      · refine ⟨[a], s₀, List.cons_prefix_cons.mpr ⟨rfl, List.nil_prefix⟩, ?_, hgoal⟩
        rw [exec, ha]
        rfl
      · exact hcons j haway (by omega)
    · exact hcons k hnext hlt

theorem reach_exec {as : List A} (he : exec act s₀ as = some s) :
    Reach act (fun _ _ => True) s₀ s := by
  induction as generalizing s₀ with
  | nil =>
    obtain rfl : s₀ = s := by simpa [exec] using he
    exact .start
  | cons _ _ ih =>
    obtain ⟨s₁, ha, he⟩ := bind_eq_some_iff.mp he
    exact (Reach.step .start trivial ha).trans (ih he)

theorem reach_exec_map {B : Type} {as : List A} {f : S → B} {b : B}
    (he : (exec act s₀ as).map f = some b) : ∃ s, Reach act (fun _ _ => True) s₀ s ∧ f s = b := by
  obtain ⟨s, hs, hf⟩ := map_eq_some_iff.mp he
  exact ⟨s, reach_exec hs, hf⟩

theorem Trail.head_eq {vs : List S} (hr : Trail act ok s₀ vs s) : vs.head? = some s := by
  cases hr <;> rfl

theorem Trail.mem_last {vs : List S} (hr : Trail act ok s₀ vs s) : s ∈ vs :=
  List.mem_of_mem_head? hr.head_eq

def trail (act : S → A → Option S) (vs : List S) (s : S) : List A → Option (List S)
  | [] => some vs
  | a :: as => (act s a).bind fun s' => trail act (s' :: vs) s' as

theorem trail_sound {as : List A} {vs vs' : List S} (hr : Trail act ok s₀ vs s)
    (hok : ∀ s a, ok s a) (he : trail act vs s as = some vs') : ∃ s', Trail act ok s₀ vs' s' := by
  induction as generalizing vs s with
  | nil =>
    obtain rfl : vs = vs' := by simpa [trail] using he
    exact ⟨s, hr⟩
  | cons a _ ih =>
    obtain ⟨s₁, ha, he⟩ := bind_eq_some_iff.mp he
    exact ih (.step hr (hok s a) ha) he

def guarded (act : S → A → Option S) (ok : S → A → Prop) [∀ s a, Decidable (ok s a)] (s : S)
    (a : A) : Option S :=
  if ok s a then act s a else none

theorem Reach.of_guarded [∀ s a, Decidable (ok s a)]
    (hr : Reach (guarded act ok) (fun _ _ => True) s₀ s) : Reach act ok s₀ s := by
  induction hr with
  | start => exact .start
  | step _ _ ha ih =>
    unfold guarded at ha
    split_ifs at ha with hok
    exact .step ih hok ha

theorem Trail.of_guarded [∀ s a, Decidable (ok s a)] {vs : List S}
    (hr : Trail (guarded act ok) (fun _ _ => True) s₀ vs s) : Trail act ok s₀ vs s := by
  induction hr with
  | start => exact .start
  | step _ _ ha ih =>
    unfold guarded at ha
    split_ifs at ha with hok
    exact .step ih hok ha

theorem reach_call_trail [∀ s a, Decidable (ok s a)] {B : Type} {as bs : List A} {c : A}
    {g : S → B} {f : List S → Bool} {b : B}
    (he : ((exec (guarded act ok) s₀ as).bind fun s => (act s c).bind fun s₁ =>
      (trail (guarded act ok) [s₁] s₁ bs).map fun vs => (vs.head?.map g, f vs)) =
        some (some b, true)) :
    ∃ s s₁ s' vs, Reach act ok s₀ s ∧ act s c = some s₁ ∧ Trail act ok s₁ vs s' ∧ g s' = b ∧
      f vs = true := by
  obtain ⟨s, hs, he⟩ := bind_eq_some_iff.mp he
  obtain ⟨s₁, hc, he⟩ := bind_eq_some_iff.mp he
  obtain ⟨vs, hvs, hf⟩ := map_eq_some_iff.mp he
  obtain ⟨s', ht⟩ := trail_sound .start (fun _ _ => trivial) hvs
  rw [ht.head_eq, Option.map_some, Prod.mk.injEq, Option.some.injEq] at hf
  exact ⟨s, s₁, s', vs, (reach_exec hs).of_guarded, hc, ht.of_guarded, hf⟩

end TrieBenchmark.Run
