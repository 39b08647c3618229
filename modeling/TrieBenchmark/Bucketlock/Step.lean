import TrieBenchmark.Bucketlock.Effect

/-!
Inversion of one step of a thread: given what its program counter says about the tops it
holds, the step is one of the listed effects.
-/

namespace TrieBenchmark.Bucketlock

open Hlist

variable {Name : Type} {d : DCache Name}

namespace DCache

theorem setNegative_cases (d : DCache Name) (host : ℕ) (negative : Bool) (id : ℕ) :
    (d.setNegative host negative id).2 = d ∨
      ∃ id', (d.setNegative host negative id).2 = d.flip host negative id' := by
  unfold setNegative
  by_cases h : (d.dentry host).neg = negative
  · exact .inl (by rw [if_pos h])
  · exact .inr ⟨if negative then (d.dentry host).id else id, by rw [if_neg h]; rfl⟩

theorem unlinkLocked_cases (d : DCache Name) (top : ℕ) :
    (d.unlinkLocked top).2 = d ∨ d.topUnhashed top = false ∧
      d.childrenEmpty (d.hostOf top) = true ∧ (d.unlinkLocked top).2 = d.delLocked top := by
  unfold unlinkLocked
  split_ifs with hm hk
  · exact .inl rfl
  · exact .inl rfl
  · exact .inr ⟨by simpa using hm, by simpa using hk, rfl⟩

theorem evictLocked_cases (d : DCache Name) (a : ℕ) :
    (d.evictLocked a).2 = d ∨ d.topUnhashed a = false ∧ d.childrenEmpty a = true ∧
      (d.dentry a).top = none ∧ (d.evictLocked a).2 = d.delLocked a := by
  unfold evictLocked
  split_ifs with h
  · exact .inl rfl
  · obtain ⟨⟨hm, hk⟩, ht⟩ : (d.topUnhashed a = false ∧ d.childrenEmpty a = true) ∧
        (d.dentry a).top = none := by simpa using h
    exact .inr ⟨hm, hk, ht, rfl⟩

theorem exchangeLocked_cases (d : DCache Name) (x : Xchg Name) (topa topb : ℕ) (oom : Bool) :
    (∃ o, (∀ s, o ≠ .done s) ∧ d.exchangeLocked x topa topb oom = (o, d)) ∨
      d.topUnhashed topa = false ∧ d.topUnhashed topb = false ∧
        d.exchangeLocked x topa topb oom =
          (.done (d.fresh, d.fresh + 1), d.exchangeCommit x topa topb) := by
  unfold exchangeLocked
  split_ifs with hm ho
  · exact .inl ⟨.retry, by simp, rfl⟩
  · exact .inl ⟨.fail .ENOMEM, by simp, rfl⟩
  · simp only [Bool.or_eq_true, not_or, Bool.not_eq_true] at hm
    exact .inr ⟨hm.1, hm.2, rfl⟩

variable [DecidableEq Name] {d₁ : DCache Name}

theorem destClaimLocked_claimed (hI : HashOk d) {parent self : ℕ} {name : Name}
    (hc : d.destClaimLocked parent name self = some d₁) :
    Claimed d parent name self d₁ := by
  unfold destClaimLocked at hc
  cases hf : d.findTop parent name with
  | none =>
    obtain rfl : d = d₁ := by simpa [hf] using hc
    exact .free (hI.findTop_eq_none.mp hf)
  | some =>
    obtain ⟨hh, hp, hn⟩ := hI.findTop_eq_some.mp hf
    simp only [hf] at hc
    split_ifs at hc with hbad
    obtain rfl := Option.some.inj hc
    simp only [not_or, ne_eq, Decidable.not_not, Bool.not_eq_true] at hbad
    obtain ⟨hself, hhost, hneg, hdir⟩ := hbad
    exact .dropped hh hp hn hself hhost (by simpa [isPositive] using hneg) hdir

theorem stackLocked_cases (d : DCache Name) (m : Move Name) (top : ℕ) (oom : Bool) :
    (∃ o, (∀ s, o ≠ .done s) ∧ d.stackLocked m top oom = (o, d)) ∨
      d.topUnhashed top = false ∧ (d.dentry m.newParent).neg = false ∧
        ∃ d₁, d.destClaimLocked m.newParent m.newName top = some d₁ ∧
          (d.stackLocked m top oom = (.fail .ENOMEM, d₁) ∨
            d.stackLocked m top oom = (.done d₁.fresh, d₁.stackCommit m top)) := by
  unfold stackLocked
  by_cases hm : d.topUnhashed top = true
  · exact .inl ⟨.retry, by simp, by rw [if_pos hm]⟩
  · by_cases hp : (!d.isPositive m.newParent) = true
    · exact .inl ⟨.fail .ENOENT, by simp, by rw [if_neg hm, if_pos hp]⟩
    · rw [if_neg hm, if_neg hp]
      cases hc : d.destClaimLocked m.newParent m.newName top with
      | none => exact .inl ⟨.fail .EEXIST, by simp, rfl⟩
      | some d₁ =>
        refine .inr ⟨by simpa using hm, by simpa [isPositive] using hp, d₁, rfl, ?_⟩
        cases oom
        · exact .inr rfl
        · exact .inl rfl

end DCache

inductive Dropped (d : DCache Name) : DCache Name → Prop where
  | none : Dropped d d
  | some (cur : ℕ) : Dropped d (d.delLocked cur)

theorem Dropped.spec (hD : Dropped d d₁) :
    d₁.dentry = d.dentry ∧ d₁.fresh = d.fresh ∧ d₁.hostOf = d.hostOf := by
  cases hD with
  | none | some => exact ⟨rfl, rfl, rfl⟩

theorem destClaimLocked_dropped [DecidableEq Name] {parent self : ℕ} {name : Name}
    (hc : d.destClaimLocked parent name self = some d₁) : Dropped d d₁ := by
  unfold DCache.destClaimLocked at hc
  split at hc
  · obtain rfl := Option.some.inj hc
    exact .none
  · split_ifs at hc
    obtain rfl := Option.some.inj hc
    exact .some _

def IsShell (d : DCache Name) (n : ℕ) : Prop :=
  n < d.fresh ∧ (d.dentry n).shell = true

theorem HashOk.hashed_of_shell (hI : HashOk d) {n : ℕ} (hn : IsShell d n)
    (hm : d.topUnhashed n = false) : d.hashed n := by
  have hroot : n ≠ root := by
    rintro rfl
    exact absurd hn.2 (by simp [hI.rootHost.2.1])
  rcases hI.marked n hn.1 hroot (.inl hn.2) with hh | hm'
  · exact hh
  · rw [hm] at hm'
    cases hm'

def Latched (d : DCache Name) (S : Set ℕ) (top parent : ℕ) (name : Name) : Prop :=
  top ∈ S ∧ (d.dentry top).iparent = parent ∧ (d.dentry top).iname = name

def Settled (d : DCache Name) (S : Set ℕ) : Prop :=
  ∀ a ∈ S, a < d.fresh ∧ (d.hashed a ∨ d.topUnhashed a = true)

theorem Settled.hashed {S : Set ℕ} (hS : Settled d S) {top parent : ℕ} {name : Name}
    (hL : Latched d S top parent name) (hm : d.topUnhashed top = false) : d.hashed top := by
  rcases (hS top hL.1).2 with hh | hm'
  · exact hh
  · rw [hm] at hm'
    cases hm'

def PcOk (d : DCache Name) (S : Set ℕ) : Pc Name → Prop
  | .instLock p n _ top | .delLock p n _ top | .unlKids p n top | .unlLock p n top =>
    Latched d S top p n
  | .stkGray m top | .stkWalk m top _ _ | .stkHop m top _ _ | .stkLock m top =>
    Latched d S top m.fromParent m.fromName
  | .stkClear _ _ o => ∀ n, o = .done n → IsShell d n
  | .stkQueue n => IsShell d n
  | .xchFindB x (some topa) => Latched d S topa x.pa x.na
  | .xchGrayLo x topa topb | .xchGrayHi x topa topb | .xchWalk x topa topb _ _ _
  | .xchHop x topa topb _ _ _ | .xchLock x topa topb =>
    Latched d S topa x.pa x.na ∧ Latched d S topb x.pb x.nb
  | .xchClearA _ _ _ o | .xchClearB _ _ _ o => ∀ s, o = .done s → IsShell d s.1 ∧ IsShell d s.2
  | .xchQueueA sa sb => IsShell d sa ∧ IsShell d sb
  | .xchQueueB sb => IsShell d sb
  | .evTop a => a < d.fresh
  | .evParent a => a < d.fresh ∧ (d.dentry a).shell = false
  | .evLock a => a < d.fresh ∧ (d.dentry a).shell = false ∧ a ≠ root
  | .fldTest n | .fldLock n => IsShell d n
  | .lkScan _ (some n) | .lkNext _ n => n ∈ S
  | .lkConfirm h top _ | .lkState h top _ => Latched d S top h.cur h.name
  | _ => True

@[grind =] def Pc.move : Pc Name → Option (Move Name)
  | .stkFind m | .stkGray m _ | .stkWalk m _ _ _ | .stkHop m _ _ _ | .stkLock m _ | .stkClear m _ _ =>
    some m
  | _ => none

def Pc.addDir : Pc Name → Option ℕ
  | .addLock parent _ _ _ _ => some parent
  | _ => none

@[grind =] def Pc.xchg : Pc Name → Option (Xchg Name)
  | .xchFindA x | .xchFindB x _ | .xchGrayLo x _ _ | .xchGrayHi x _ _ | .xchDropLo x _ _
  | .xchWalk x _ _ _ _ _ | .xchHop x _ _ _ _ _ | .xchLock x _ _ | .xchClearA x _ _ _
  | .xchClearB x _ _ _ => some x
  | _ => none

def Pc.reads : Pc Name → Bool
  | .addLock .. | .instLock .. | .delLock .. | .unlLock .. | .stkGray .. | .stkLock ..
  | .stkClear .. | .xchGrayLo .. | .xchGrayHi .. | .xchDropLo .. | .xchLock .. | .xchClearA ..
  | .xchClearB .. | .evLock .. | .fldLock .. => false
  | _ => true

variable [DecidableEq Name]

attribute [local simp] stepPc in
theorem stepPc_reads {pc : Pc Name} {oom : Bool} (h : pc.reads = true) :
    (stepPc d pc oom).1 = d := by
  cases pc
  case' walk _ rest _ => cases rest
  case' lkHop rest _ _ => cases rest
  case' lkScan _ node => cases node
  case' lkUp todo _ => cases todo
  all_goals first
    | rfl
    | (cases h; done)
    | (simp only [stepPc]; (repeat' split) <;> rfl)

section Inversion

variable {C : DCache Name → Insertion Name → Prop} {S : Set ℕ} {pc : Pc Name}

theorem stepPc_effect (hI : HashOk d) (hS : Settled d S) (hP : PcOk d S pc)
    (hx : ∀ x, pc.xchg = some x → x.NamesDiffer)
    (hC : ∀ m top, pc = .stkLock m top → d.topUnhashed top = false → C d (.move m))
    (hD : ∀ parent ∈ pc.addDir, C d (.add parent)) (oom : Bool) :
    ∃ folded, Effect C d folded (stepPc d pc oom).1 ∧ ∀ n, folded = some n → pc = .fldLock n := by
  by_cases hr : pc.reads = true
  · exact ⟨none, by rw [stepPc_reads hr]; exact .read, by simp⟩
  cases pc with
  | addLock parent name id isdir positive =>
    refine ⟨none, ?_, by simp⟩
    rcases d.addLocked_cases parent name id isdir positive with ⟨e, he⟩ | ⟨hp, ha, hn, he⟩
    · simp only [stepPc, he]
      exact .read
    · simp only [stepPc, he]
      refine .add parent name id isdir positive (by simpa [DCache.isPositive] using hp) ha ?_ ?_
      · exact hI.findTop_eq_none.mp (by simpa [DCache.childLookup] using hn)
      · exact hD parent (by simp [Pc.addDir])
  | instLock _ _ id top =>
    refine ⟨none, ?_, by simp⟩
    simp only [stepPc]
    split_ifs with hm
    · exact .read
    · have hh := hS.hashed hP (by simpa using hm)
      rcases d.setNegative_cases (d.hostOf top) false id with he | ⟨id', he⟩ <;> rw [he]
      · exact .read
      · exact .flip top false id' hh (by simp)
  | delLock _ _ _ top =>
    refine ⟨none, ?_, by simp⟩
    simp only [stepPc]
    split_ifs with hm hl hk
    · exact .read
    · exact .read
    · exact .read
    · have hh := hS.hashed hP (by simpa using hm)
      rcases d.setNegative_cases (d.hostOf top) true 0 with he | ⟨id', he⟩ <;> rw [he]
      · exact .read
      · refine .flip top true id' hh fun _ hd => ?_
        simpa [hd] using hk
  | unlLock parent name top =>
    refine ⟨none, ?_, by simp⟩
    have hd : (stepPc d (.unlLock parent name top) oom).1 = (d.unlinkLocked top).2 := by
      simp only [stepPc]
      split <;> simp_all
    rw [hd]
    rcases d.unlinkLocked_cases top with he | ⟨hm, hk, he⟩ <;> rw [he]
    · exact .read
    · exact .del top (hS.hashed hP hm) hk
  | stkGray | xchGrayLo | xchGrayHi =>
    refine ⟨none, ?_, by simp⟩
    simp only [stepPc]
    split_ifs
    · exact .read
    · exact .flag _ true
  | stkLock m top =>
    refine ⟨none, ?_, by simp⟩
    simp only [stepPc]
    rcases d.stackLocked_cases m top oom with ⟨o, -, he⟩ | ⟨hm, hp, d₁, hc, he | he⟩ <;> rw [he]
    · exact .read
    · exact .claim m top (DCache.destClaimLocked_claimed hI hc) (hC m top rfl hm)
    · exact .stack m top (hS.hashed hP hm) hP.2.1 hP.2.2 hp
        (DCache.destClaimLocked_claimed hI hc) (hC m top rfl hm)
  | stkClear | xchDropLo | xchClearA | xchClearB => exact ⟨none, .flag _ false, by simp⟩
  | xchLock x topa topb =>
    refine ⟨none, ?_, by simp⟩
    simp only [stepPc]
    rcases d.exchangeLocked_cases x topa topb oom with ⟨o, -, he⟩ | ⟨ha, hb, he⟩ <;> rw [he]
    · exact .read
    · refine .exchange x topa topb ⟨hS.hashed hP.1 ha, hS.hashed hP.2 hb, ?_, hP.1.2.1,
        hP.1.2.2, hP.2.2.1, hP.2.2.2⟩
      rintro rfl
      exact hx x rfl ⟨hP.1.2.1.symm.trans hP.2.2.1, hP.1.2.2.symm.trans hP.2.2.2⟩
  | evLock a =>
    refine ⟨none, ?_, by simp⟩
    obtain ⟨hlt, hs, hroot⟩ := hP
    simp only [stepPc]
    rcases d.evictLocked_cases a with he | ⟨hm, hk, ht, he⟩ <;> rw [he]
    · exact .read
    · refine .del a ?_ (by rwa [DCache.hostOf_of_host hs])
      rcases hI.marked a hlt hroot (.inr ht) with hh | hm'
      · exact hh
      · rw [hm] at hm'
        cases hm'
  | fldLock n =>
    simp only [stepPc, DCache.foldLocked_eq]
    split_ifs with hm ho
    · exact ⟨none, .read, by simp⟩
    · exact ⟨some n, .scratch n (hI.hashed_of_shell hP (by simpa using hm)) hP.2, by simp⟩
    · exact ⟨some n, .fold n (hI.hashed_of_shell hP (by simpa using hm)) hP.2, by simp⟩
  | _ => exact absurd rfl hr

end Inversion

end TrieBenchmark.Bucketlock
