import Mathlib.Data.List.Basic
import Mathlib.Logic.Function.Basic

/-!
Flags that threads set and clear. A flag is credited to the thread that set it last; the flags
are owned when those that are set are the ones that each thread holds by its own account.
-/

namespace TrieBenchmark.Owner

open Function

variable {H T : Type}

/-- Who set each flag last, after thread `t` has changed the flags from `flag` to `flag'`. -/
def credit (flag flag' : H → Bool) (owner : H → Option T) (t : T) (a : H) : Option T :=
  if !flag a && flag' a then some t else owner a

/-- One step of a thread that owns the flags `own`: afterwards the flags are `flag'` and it owns
those of `l`. -/
inductive Change [DecidableEq H] (flag : H → Bool) (own : List H) : (H → Bool) → List H → Prop where
  | keep {l : List H} (hl : ∀ b, b ∈ l ↔ b ∈ own) : Change flag own flag l
  | set {a : H} {l : List H} (ha : flag a = false) (hl : ∀ b, b ∈ l ↔ b = a ∨ b ∈ own) :
      Change flag own (update flag a true) l
  | clear {a : H} {l : List H} (ha : a ∈ own) (hl : ∀ b, b ∈ l ↔ b ∈ own ∧ b ≠ a) :
      Change flag own (update flag a false) l

namespace Change

variable [DecidableEq H] {flag flag' : H → Bool} {own l : List H}

theorem flag_iff (hC : Change flag own flag' l) (hown : ∀ a ∈ own, flag a = true) (b : H) :
    flag' b = true ↔ b ∈ l ∨ flag b = true ∧ b ∉ own := by
  cases hC with
  | keep hl =>
    rw [hl]
    by_cases hb : b ∈ own
    · simp [hb, hown b hb]
    · simp [hb]
  | @set a _ _ hl =>
    rw [hl]
    rcases eq_or_ne b a with rfl | hne
    · simp
    · by_cases hb : b ∈ own
      · simp [hne, hb, hown b hb]
      · simp [hne, hb]
  | @clear a _ ha hl =>
    rw [hl]
    rcases eq_or_ne b a with rfl | hne
    · simp [ha]
    · by_cases hb : b ∈ own
      · simp [hne, hb, hown b hb]
      · simp [hne, hb]

theorem own_or_clear (hC : Change flag own flag' l) {b : H} (hb : b ∈ l) :
    b ∈ own ∨ flag b = false := by
  cases hC with
  | keep hl => exact .inl ((hl b).mp hb)
  | @set _ _ ha hl =>
    rcases (hl b).mp hb with rfl | h
    · exact .inr ha
    · exact .inl h
  | clear _ hl => exact .inl ((hl b).mp hb).1

end Change

structure Owned (flag : H → Bool) (owner : H → Option T) (held : T → List H) : Prop where
  mem : ∀ t a, a ∈ held t ↔ flag a = true ∧ owner a = some t
  credited : ∀ a, flag a = true → ∃ t, owner a = some t

namespace Owned

variable {flag flag' : H → Bool} {owner : H → Option T} {held : T → List H} {t u : T} {a : H}
  {l : List H}

theorem flag_of_mem (hO : Owned flag owner held) (ha : a ∈ held t) : flag a = true :=
  ((hO.mem t a).mp ha).1

theorem flag_iff (hO : Owned flag owner held) : flag a = true ↔ ∃ t, a ∈ held t := by
  constructor
  · intro ha
    obtain ⟨t, ht⟩ := hO.credited a ha
    exact ⟨t, (hO.mem t a).mpr ⟨ha, ht⟩⟩
  · intro ⟨t, ht⟩
    exact hO.flag_of_mem ht

theorem unique (hO : Owned flag owner held) (ht : a ∈ held t) (hu : a ∈ held u) : t = u :=
  Option.some.inj (((hO.mem t a).mp ht).2.symm.trans ((hO.mem u a).mp hu).2)

variable [DecidableEq H]

theorem owner_of_cleared (hO : Owned flag owner held) (hC : Change flag (held t) flag' l)
    (ha : flag a = true) (ha' : flag' a = false) : owner a = some t := by
  have hno : ¬ flag' a = true := by simp [ha']
  rw [hC.flag_iff (fun _ => hO.flag_of_mem), not_or, not_and, not_not] at hno
  exact ((hO.mem t a).mp (hno.2 ha)).2

theorem step [DecidableEq T] (hO : Owned flag owner held) (hC : Change flag (held t) flag' l) :
    Owned flag' (credit flag flag' owner t) (update held t l) := by
  have hflag := hC.flag_iff (fun _ => hO.flag_of_mem)
  refine ⟨fun u a => ?_, fun a ha => ?_⟩
  · cases hf : flag a with
    | false =>
      have hnot : ∀ u, a ∉ held u := fun u h => by
        have := ((hO.mem u a).mp h).1
        rw [hf] at this
        cases this
      have hl : flag' a = true ↔ a ∈ l := by simp [hflag, hf]
      rcases eq_or_ne u t with rfl | hne
      · rw [update_self, ← hl]
        constructor
        · intro h
          exact ⟨h, by simp [credit, hf, h]⟩
        · exact And.left
      · rw [update_of_ne hne]
        constructor
        · intro h
          exact absurd h (hnot u)
        · intro ⟨h, hc⟩
          simp only [credit, hf, h, Bool.not_false, Bool.and_self, if_true] at hc
          exact absurd (Option.some.inj hc).symm hne
    | true =>
      have hc : credit flag flag' owner t a = owner a := by simp [credit, hf]
      rw [hc]
      rcases eq_or_ne u t with rfl | hne
      · rw [update_self]
        constructor
        · intro h
          refine ⟨(hflag a).mpr (.inl h), ?_⟩
          exact ((hO.mem u a).mp ((hC.own_or_clear h).resolve_right (by simp [hf]))).2
        · intro ⟨h, ho⟩
          exact ((hflag a).mp h).resolve_right fun hno => hno.2 ((hO.mem u a).mpr ⟨hf, ho⟩)
      · rw [update_of_ne hne]
        constructor
        · intro h
          exact ⟨(hflag a).mpr (.inr ⟨hf, fun ht => hne (hO.unique h ht)⟩), ((hO.mem u a).mp h).2⟩
        · intro ⟨_, ho⟩
          exact (hO.mem u a).mpr ⟨hf, ho⟩
  · unfold credit
    split_ifs with h
    · exact ⟨t, rfl⟩
    · simp only [Bool.and_eq_true, Bool.not_eq_true', ha, and_true, Bool.not_eq_false] at h
      exact hO.credited a h

end Owned

end TrieBenchmark.Owner
