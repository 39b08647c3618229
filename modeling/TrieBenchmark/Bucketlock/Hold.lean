import TrieBenchmark.Bucketlock.Step
import TrieBenchmark.Lib.Run

/-!
What a thread holds while it runs: every dentry it can have met in its section is in the index
or marked, keeps its name, and is not linked again before the section ends, because the fold
that would do it waits for the section.
-/

namespace TrieBenchmark.Bucketlock

open Hlist Grace

variable {Name : Type} {d d' : DCache Name} {S S' : Set ℕ} {folded : Option ℕ}

theorem IsShell.step (hH : HashStep d folded d') {n : ℕ} (hn : IsShell d n) : IsShell d' n :=
  ⟨Nat.lt_of_lt_of_le hn.1 hH.fresh, (hH.kind n hn.1).1.trans hn.2⟩

def Spares (d : DCache Name) (folded : Option ℕ) (S : Set ℕ) : Prop :=
  ∀ a ∈ S, ∀ n, folded = some n → a ≠ d.hostOf n

theorem Latched.step (hH : HashStep d folded d') (hS : Settled d S) (hf : Spares d folded S)
    (hsub : S ⊆ S') {top parent : ℕ} {name : Name} (hL : Latched d S top parent name) :
    Latched d' S' top parent name := by
  obtain ⟨hp, hn⟩ := hH.key top (hS top hL.1).1 (hf top hL.1)
  exact ⟨hsub hL.1, hp.trans hL.2.1, hn.trans hL.2.2⟩

theorem PcOk.step {pc : Pc Name} (hH : HashStep d folded d') (hS : Settled d S)
    (hf : Spares d folded S) (hsub : S ⊆ S') (hP : PcOk d S pc) : PcOk d' S' pc := by
  have hL : ∀ {top parent : ℕ} {name : Name}, Latched d S top parent name →
      Latched d' S' top parent name := fun h => h.step hH hS hf hsub
  cases pc with
  | xchFindB _ topa =>
    cases topa with
    | none => trivial
    | some => exact hL hP
  | lkScan _ node =>
    cases node with
    | none => trivial
    | some => exact hsub hP
  | lkNext => exact hsub hP
  | evTop => exact Nat.lt_of_lt_of_le hP hH.fresh
  | evParent a => exact ⟨Nat.lt_of_lt_of_le hP.1 hH.fresh, (hH.kind a hP.1).1.trans hP.2⟩
  | evLock a =>
    exact ⟨Nat.lt_of_lt_of_le hP.1 hH.fresh, (hH.kind a hP.1).1.trans hP.2.1, hP.2.2⟩
  | stkClear => exact fun n hn => (hP n hn).step hH
  | stkQueue | xchQueueB | fldTest | fldLock => exact IsShell.step hH hP
  | xchClearA | xchClearB => exact fun s hs => ⟨(hP s hs).1.step hH, (hP s hs).2.step hH⟩
  | xchQueueA => exact ⟨hP.1.step hH, hP.2.step hH⟩
  | _ => first
    | trivial
    | exact hL hP
    | exact ⟨hL hP.1, hL hP.2⟩

theorem afterStack_ok {m : Move Name} {o : Outcome ℕ} (ho : ∀ n, o = .done n → IsShell d n) :
    PcOk d S (afterStack m o) := by
  cases o with
  | retry | fail => trivial
  | done n => exact ho n rfl

theorem afterExchange_ok {x : Xchg Name} {o : Outcome (ℕ × ℕ)}
    (ho : ∀ s, o = .done s → IsShell d s.1 ∧ IsShell d s.2) : PcOk d S (afterExchange x o) := by
  cases o with
  | retry | fail => trivial
  | done s => exact ho s rfl

theorem exchangeLocked_shells (hI : HashOk d) {x : Xchg Name} {topa topb : ℕ}
    (ha : topa < d.fresh) (hb : topb < d.fresh) (oom : Bool) :
    ∀ s, (d.exchangeLocked x topa topb oom).1 = .done s →
      IsShell (d.exchangeLocked x topa topb oom).2 s.1 ∧
      IsShell (d.exchangeLocked x topa topb oom).2 s.2 := by
  intro s hs
  rcases d.exchangeLocked_cases x topa topb oom with ⟨o, ho, he⟩ | ⟨-, -, he⟩ <;> rw [he] at hs ⊢
  · exact absurd hs (ho s)
  · obtain rfl : (d.fresh, d.fresh + 1) = s := by simpa using hs
    have hha := (hI.hostOf_host ha).1
    have hhb := (hI.hostOf_host hb).1
    refine ⟨⟨by simp, ?_⟩, ⟨by simp, ?_⟩⟩
    · rw [DCache.exchangeCommit_dentry_sa hha hhb]
      rfl
    · rw [DCache.exchangeCommit_dentry_sb hha hhb]
      rfl

variable [DecidableEq Name]

theorem Latched.of_findTop (hI : HashOk d) (hcover : ∀ a, d.hashed a → a ∈ S) {top parent : ℕ}
    {name : Name} (hf : d.findTop parent name = some top) : Latched d S top parent name := by
  obtain ⟨hh, hk⟩ := hI.findTop_eq_some.mp hf
  exact ⟨hcover top hh, hk⟩

theorem stackLocked_shell (hI : HashOk d) {m : Move Name} {top : ℕ}
    (hlt : top < d.fresh) (oom : Bool) :
    ∀ n, (d.stackLocked m top oom).1 = .done n → IsShell (d.stackLocked m top oom).2 n := by
  intro n hn
  rcases d.stackLocked_cases m top oom with ⟨o, ho, he⟩ | ⟨-, -, d₁, hc, he | he⟩ <;>
    rw [he] at hn ⊢
  · exact absurd hn (ho n)
  · cases hn
  · have hC := DCache.destClaimLocked_claimed hI hc
    obtain rfl : d₁.fresh = n := by simpa using hn
    have hlt' : d₁.hostOf top < d₁.fresh := ((hC.hashOk hI).hostOf_host (by
      rw [(hC.spec hI).2.1]
      exact hlt)).1
    refine ⟨by simp, ?_⟩
    rw [DCache.stackCommit_dentry_shell (Nat.ne_of_lt hlt')]
    rfl

theorem stepPc_ok {pc : Pc Name} {oom : Bool} (hI : HashOk d) (hS : Settled d S)
    (hcover : ∀ a, d.hashed a → a ∈ S) (hclosed : ∀ a ∈ S, ∀ b, d.hash.next a = some b → b ∈ S)
    (hroot : (d.dentry root).parent = root)
    (hP : PcOk d S pc) (hP' : PcOk (stepPc d pc oom).1 S pc) :
    PcOk (stepPc d pc oom).1 S (stepPc d pc oom).2 := by
  have hfind : ∀ {top parent : ℕ} {name : Name}, d.findTop parent name = some top →
      Latched d S top parent name := fun h => .of_findTop hI hcover h
  cases pc with
  | walk _ rest k =>
    cases rest with
    | nil => cases k <;> trivial
    | cons =>
      simp only [stepPc]
      split <;> trivial
  | instFind parent name id | delFind parent name l | unlFind parent name =>
    simp only [stepPc]
    split
    · trivial
    · rename_i hf
      exact hfind hf
  | instLock | delLock =>
    simp only [stepPc]
    split_ifs <;> trivial
  | unlKids =>
    simp only [stepPc]
    split_ifs
    · exact hP
    · trivial
  | unlLock =>
    simp only [stepPc]
    split <;> trivial
  | stkFind m =>
    simp only [stepPc]
    split
    · trivial
    · rename_i hf
      split_ifs <;> exact hfind hf
  | stkGray | xchGrayLo | xchGrayHi =>
    simp only [stepPc] at hP' ⊢
    split_ifs at hP' ⊢
    · trivial
    · exact hP'
  | stkWalk =>
    simp only [stepPc]
    split
    · exact fun n hn => by cases hn
    · exact fun n hn => by cases hn
    · exact hP
    · exact hP
  | stkHop | xchHop => exact hP
  | stkLock m top =>
    have hsh := stackLocked_shell hI (m := m) (hS top hP.1).1 oom
    simp only [stepPc]
    split_ifs
    · exact hsh
    · exact afterStack_ok hsh
  | stkClear => exact afterStack_ok hP'
  | xchFindA x =>
    simp only [stepPc]
    cases hf : d.findTop x.pa x.na with
    | none => trivial
    | some => exact hfind hf
  | xchFindB x topa =>
    simp only [stepPc]
    split
    · rename_i hf
      split_ifs <;> exact ⟨hP, hfind hf⟩
    · trivial
  | xchWalk =>
    simp only [stepPc]
    split
    · exact fun n hn => by cases hn
    · exact fun n hn => by cases hn
    · split_ifs <;> exact hP
    · exact hP
  | xchLock x topa topb =>
    have hsh := exchangeLocked_shells hI (x := x) (hS topa hP.1.1).1
      (hS topb hP.2.1).1 oom
    simp only [stepPc]
    split_ifs
    · exact hsh
    · exact afterExchange_ok hsh
  | xchClearA => exact hP'
  | xchClearB => exact afterExchange_ok hP'
  | xchQueueA => exact hP.2
  | evTop a =>
    simp only [stepPc]
    split_ifs with h
    · trivial
    · refine ⟨hP, ?_⟩
      by_contra hs
      obtain ⟨k, hk, -⟩ := hI.shell a hP (by simpa using hs)
      simp [hk] at h
  | evParent =>
    simp only [stepPc]
    split_ifs with h
    · trivial
    · refine ⟨hP.1, hP.2, ?_⟩
      rintro rfl
      exact h hroot
  | fldTest | lkConfirm =>
    simp only [stepPc]
    split_ifs
    · trivial
    · exact hP
  | lkHop _ cur rest =>
    cases rest with
    | nil => trivial
    | cons name =>
      cases hf : d.hash.first (d.bucketOf cur name) with
      | none =>
        simp only [stepPc, hf]
        trivial
      | some n =>
        simp only [stepPc, hf]
        exact hcover n ⟨_, hI.family.first_mem hf⟩
  | lkScan _ node =>
    cases node with
    | none => trivial
    | some =>
      simp only [stepPc]
      split_ifs with hsp
      · exact ⟨hP, HashOk.spells_iff.mp hsp⟩
      · exact hP
  | lkNext _ n =>
    cases hf : d.hash.next n with
    | none =>
      simp only [stepPc, hf]
      trivial
    | some b =>
      simp only [stepPc, hf]
      exact hclosed n hP b hf
  | lkUp _ _ todo =>
    cases todo with
    | nil => trivial
    | cons =>
      simp only [stepPc]
      split_ifs <;> trivial
  | _ => first
    | trivial
    | (simp only [stepPc]; (repeat' split) <;> trivial)

end TrieBenchmark.Bucketlock
