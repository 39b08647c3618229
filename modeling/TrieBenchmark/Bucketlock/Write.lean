import TrieBenchmark.Bucketlock.Bounds

/-!
What a step stores, whatever the state of the indexes, and the addresses a thread holds.
-/

namespace TrieBenchmark.Bucketlock

open List

variable {Name : Type} {d d' : DCache Name} {a n : ℕ}

/-- What the step of a program counter stores, whatever the state of the indexes. -/
inductive Write (d : DCache Name) : Pc Name → DCache Name → Prop where
  | read (pc : Pc Name) : Write d pc d
  | flip (pc : Pc Name) (a : ℕ) (negative : Bool) (id : ℕ) : Write d pc (d.flip a negative id)
  | del (pc : Pc Name) {d₁ : DCache Name} : Dropped d d₁ → Write d pc d₁
  | add (parent : ℕ) (name : Name) (id : ℕ) (isdir positive : Bool) :
      Write d (.addLock parent name id isdir positive)
        (d.addCommit parent name id isdir positive)
  | gray (m : Move Name) (top : ℕ) : (d.dentry (d.hostOf top)).moving = false →
      Write d (.stkGray m top) (d.setMoving (d.hostOf top) true)
  | clear (m : Move Name) (top : ℕ) (o : Outcome ℕ) :
      Write d (.stkClear m top o) (d.setMoving (d.hostOf top) false)
  | stack (m : Move Name) (top : ℕ) {d₁ : DCache Name} : Dropped d d₁ →
      Write d (.stkLock m top) (d₁.stackCommit m top)
  | grayLo (x : Xchg Name) (topa topb : ℕ) : (d.dentry (d.lo topa topb)).moving = false →
      Write d (.xchGrayLo x topa topb) (d.setMoving (d.lo topa topb) true)
  | grayHi (x : Xchg Name) (topa topb : ℕ) : (d.dentry (d.hi topa topb)).moving = false →
      Write d (.xchGrayHi x topa topb) (d.setMoving (d.hi topa topb) true)
  | dropLo (x : Xchg Name) (topa topb : ℕ) :
      Write d (.xchDropLo x topa topb) (d.setMoving (d.lo topa topb) false)
  | exchange (x : Xchg Name) (topa topb : ℕ) :
      Write d (.xchLock x topa topb) (d.exchangeCommit x topa topb)
  | clearA (x : Xchg Name) (topa topb : ℕ) (o : Outcome (ℕ × ℕ)) :
      Write d (.xchClearA x topa topb o) (d.setMoving (d.hostOf topa) false)
  | clearB (x : Xchg Name) (topa topb : ℕ) (o : Outcome (ℕ × ℕ)) :
      Write d (.xchClearB x topa topb o) (d.setMoving (d.hostOf topb) false)
  | fold (n : ℕ) : Write d (.fldLock n) (d.foldCommit n)
  | scratch (n : ℕ) : Write d (.fldLock n) (d.foldScratch n)

theorem stepPc_write [DecidableEq Name] (d : DCache Name) (pc : Pc Name) (oom : Bool) :
    Write d pc (stepPc d pc oom).1 := by
  by_cases hr : pc.reads = true
  · rw [stepPc_reads hr]
    exact .read pc
  cases pc with
  | addLock parent name id isdir positive =>
    rcases d.addLocked_cases parent name id isdir positive with ⟨e, he⟩ | ⟨-, -, -, he⟩ <;>
      simp only [stepPc, he]
    · exact .read _
    · exact .add ..
  | instLock _ _ id top =>
    simp only [stepPc]
    split_ifs
    · exact .read _
    · rcases d.setNegative_cases (d.hostOf top) false id with he | ⟨id', he⟩ <;> rw [he]
      · exact .read _
      · exact .flip ..
  | delLock _ _ _ top =>
    simp only [stepPc]
    split_ifs
    · exact .read _
    · exact .read _
    · exact .read _
    · rcases d.setNegative_cases (d.hostOf top) true 0 with he | ⟨id', he⟩ <;> rw [he]
      · exact .read _
      · exact .flip ..
  | unlLock parent name top =>
    have hd : (stepPc d (.unlLock parent name top) oom).1 = (d.unlinkLocked top).2 := by
      simp only [stepPc]
      split <;> simp_all
    rw [hd]
    rcases d.unlinkLocked_cases top with he | ⟨-, -, he⟩ <;> rw [he]
    · exact .read _
    · exact .del _ (.some top)
  | stkGray m top =>
    simp only [stepPc]
    split_ifs with h
    · exact .read _
    · exact .gray m top (by simpa using h)
  | stkLock m top =>
    simp only [stepPc]
    rcases d.stackLocked_cases m top oom with ⟨o, -, he⟩ | ⟨-, -, d₁, hc, he | he⟩ <;> rw [he]
    · exact .read _
    · exact .del _ (destClaimLocked_dropped hc)
    · exact .stack m top (destClaimLocked_dropped hc)
  | stkClear m top o => exact .clear m top o
  | xchGrayLo x topa topb =>
    simp only [stepPc]
    split_ifs with h
    · exact .read _
    · exact .grayLo x topa topb (by simpa using h)
  | xchGrayHi x topa topb =>
    simp only [stepPc]
    split_ifs with h
    · exact .read _
    · exact .grayHi x topa topb (by simpa using h)
  | xchDropLo x topa topb => exact .dropLo x topa topb
  | xchLock x topa topb =>
    simp only [stepPc]
    rcases d.exchangeLocked_cases x topa topb oom with ⟨o, -, he⟩ | ⟨-, -, he⟩ <;> rw [he]
    · exact .read _
    · exact .exchange x topa topb
  | xchClearA x topa topb o => exact .clearA x topa topb o
  | xchClearB x topa topb o => exact .clearB x topa topb o
  | evLock a =>
    simp only [stepPc]
    rcases d.evictLocked_cases a with he | ⟨-, -, -, he⟩ <;> rw [he]
    · exact .read _
    · exact .del _ (.some a)
  | fldLock n =>
    simp only [stepPc, DCache.foldLocked_eq]
    split_ifs
    · exact .read _
    · exact .scratch n
    · exact .fold n
  | _ => exact absurd rfl hr

@[grind =] def Pc.tops : Pc Name → List ℕ
  | .stkGray _ top | .stkWalk _ top _ _ | .stkHop _ top _ _ | .stkLock _ top | .stkClear _ top _ =>
    [top]
  | .xchFindB _ topa => topa.toList
  | .xchGrayLo _ topa topb | .xchGrayHi _ topa topb | .xchDropLo _ topa topb
  | .xchWalk _ topa topb _ _ _ | .xchHop _ topa topb _ _ _ | .xchLock _ topa topb
  | .xchClearA _ topa topb _ | .xchClearB _ topa topb _ => [topa, topb]
  | .fldTest n | .fldLock n => [n]
  | _ => []

@[grind =] def Pc.dirs : Pc Name → List ℕ
  | .walk cur _ k => cur :: k.dirs
  | .addCheck parent _ _ _ _ | .addLock parent _ _ _ _ => [parent]
  | .renDest _ _ _ toParent _ | .renDestPos _ _ _ toParent _ _ | .renToPos _ _ _ toParent _
  | .renCross _ _ _ toParent _ => [toParent]
  | .stkFind m | .stkGray m _ => [m.newParent]
  | .stkWalk m _ cur _ | .stkHop m _ cur _ => [m.newParent, cur]
  | .stkLock m _ | .stkClear m _ _ => [m.newParent]
  | .xchLookA x | .xchLookB x _ | .xchFindA x | .xchFindB x _ | .xchGrayLo x _ _ | .xchGrayHi x _ _
  | .xchDropLo x _ _ => x.dirs
  | .xchWalk x _ _ _ cur _ | .xchHop x _ _ _ cur _ => cur :: x.dirs
  | .xchLock x _ _ | .xchClearA x _ _ _ | .xchClearB x _ _ _ => x.dirs
  | _ => []

structure Held (d : DCache Name) (D : Set ℕ) (pc : Pc Name) : Prop where
  tops : ∀ a ∈ pc.tops, a ∈ d.linkable
  dirs : ∀ a ∈ pc.dirs, a ∈ D

structure PcIn (d : DCache Name) (pc : Pc Name) : Prop extends Held d d.allocated pc where
  shells : ∀ a ∈ pc.pending, a ∈ d.linkable

theorem PcIn.mono {pc : Pc Name} (hP : PcIn d pc) (hle : d.fresh ≤ d'.fresh) : PcIn d' pc :=
  ⟨⟨fun a ha => ⟨(hP.tops a ha).1, Nat.lt_of_lt_of_le (hP.tops a ha).2 hle⟩,
    fun a ha => Nat.lt_of_lt_of_le (hP.dirs a ha) hle⟩,
    fun a ha => ⟨(hP.shells a ha).1, Nat.lt_of_lt_of_le (hP.shells a ha).2 hle⟩⟩

theorem Dropped.bounded {d₁ : DCache Name} (hD : Dropped d d₁) (hB : Bounded d) : Bounded d₁ := by
  cases hD with
  | none => exact hB
  | some => exact hB.del

theorem Write.grows {pc : Pc Name} (hW : Write d pc d') (hB : Bounded d) (hP : PcIn d pc) :
    d.fresh ≤ d'.fresh ∧ SameKind d d' ∧ Bounded d' := by
  have hkeep : ∀ {a : ℕ} {f : Dentry Name → Dentry Name},
      (∀ e, (f e).shell = e.shell ∧ (f e).host = e.host ∧ (f e).parent = e.parent) →
      d.fresh ≤ (d.modify a f).fresh ∧ SameKind d (d.modify a f) ∧ Bounded (d.modify a f) := by
    intro a f hf
    exact ⟨Nat.le_refl _, fun b _ => d.modify_keeps a b
      (fun e' e => e'.shell = e.shell ∧ e'.host = e.host) (fun _ => ⟨rfl, rfl⟩)
      fun e => ⟨(hf e).1, (hf e).2.1⟩, hB.modify a f fun e => (hf e).2⟩
  cases hW with
  | read => exact ⟨Nat.le_refl _, fun _ _ => ⟨rfl, rfl⟩, hB⟩
  | del _ hD =>
    obtain ⟨hd, hf, -⟩ := hD.spec
    exact ⟨hf.ge, fun a _ => by rw [hd]; exact ⟨rfl, rfl⟩, hD.bounded hB⟩
  | add parent name id isdir positive =>
    have hG := (addCommit_grows (d := d) parent name id isdir positive).1
    exact ⟨hG.fresh, hG.kind, hB.add (hP.dirs parent (by simp [Pc.dirs]))⟩
  | stack m top hD =>
    obtain ⟨hd, hf, -⟩ := hD.spec
    have hB' := hD.bounded hB
    have ht : top ∈ d.linkable := hP.tops top (by simp [Pc.tops])
    have hp : m.newParent < d.fresh := hP.dirs _ (by simp [Pc.dirs])
    rename_i d₁
    have ht' : top ∈ d₁.linkable := ⟨ht.1, hf.symm ▸ ht.2⟩
    have hG := stackCommit_grows m (hB'.hostOf ht').2
    refine ⟨hf ▸ hG.fresh, fun a ha => ?_, hB'.stack ht' (hf.symm ▸ hp)⟩
    rw [← hd]
    exact hG.kind a (hf.symm ▸ ha)
  | exchange x topa topb =>
    have hG := exchangeCommit_grows d x topa topb
    exact ⟨hG.fresh, hG.kind, hB.exchange (hP.tops _ (by simp [Pc.tops]))
      (hP.tops _ (by simp [Pc.tops])) (hP.dirs _ (by simp [Pc.dirs, Xchg.dirs]))
      (hP.dirs _ (by simp [Pc.dirs, Xchg.dirs]))⟩
  | fold n =>
    have hG := (foldCommit_grows (d := d) (n := n)).1
    exact ⟨hG.fresh, hG.kind, hB.fold (hP.tops n (by simp [Pc.tops]))⟩
  | scratch n =>
    have hG := (foldScratch_grows (d := d) (n := n)).1
    exact ⟨hG.fresh, hG.kind, hB.scratch (hP.tops n (by simp [Pc.tops]))⟩
  | _ => exact hkeep fun e => ⟨rfl, rfl, rfl⟩

section Step

variable [DecidableEq Name] {pc : Pc Name} {oom : Bool} {parent top : ℕ} {name : Name} {D : Set ℕ}

theorem Bounded.findTop (hB : Bounded d) (hf : d.findTop parent name = some top) :
    top ∈ d.linkable :=
  hB.hash.walk hB.hash.first top (mem_of_find?_eq_some hf)

omit [DecidableEq Name] in
theorem held_of_nil (ht : pc.tops = []) (hd : pc.dirs = []) : Held d D pc :=
  ⟨by simp [ht], by simp [hd]⟩

omit [DecidableEq Name] in
theorem held_ret (e : Option Errno) : Held d D (.ret e) := held_of_nil rfl rfl

omit [DecidableEq Name] in
theorem held_afterStack {m : Move Name} (hm : m.newParent ∈ D) (o : Outcome ℕ) :
    Held d D (afterStack m o) := by
  cases o <;> constructor <;> simp [afterStack, Pc.ret, Pc.tops, Pc.dirs, hm]

omit [DecidableEq Name] in
theorem held_afterExchange {x : Xchg Name} (hx : ∀ a ∈ x.dirs, a ∈ D)
    (o : Outcome (ℕ × ℕ)) : Held d D (afterExchange x o) := by
  cases o with
  | retry => exact ⟨by simp [afterExchange, Pc.tops], hx⟩
  | fail => exact held_ret _
  | done => constructor <;> simp [afterExchange, Pc.tops, Pc.dirs]

omit [DecidableEq Name] in
theorem held_arrive {cur : ℕ} {k : Cont Name} (hroot : root ∈ D) (hcur : cur ∈ D)
    (hk : ∀ a ∈ k.dirs, a ∈ D) : Held d D (arrive cur k) := by
  cases k with
  | exchangeA =>
    exact ⟨by simp [arrive, Pc.tops],
      by simpa [arrive, Pc.dirs, Cont.dirs] using ⟨hroot, hcur⟩⟩
  | exchangeB pa =>
    exact ⟨by simp [arrive, Pc.tops],
      by simpa [arrive, Pc.dirs, Xchg.dirs] using ⟨hk pa (by simp [Cont.dirs]), hcur⟩⟩
  | _ => constructor <;> simp [arrive, Pc.tops, Pc.dirs, hcur]

/-- `D` may be any set of directories that has the root, the hosts of all tops, and with a
directory its parent. -/
theorem stepPc_held (oom : Bool) (hB : Bounded d) (hroot : root ∈ D)
    (hhost : ∀ a ∈ d.linkable, d.hostOf a ∈ D) (hparent : ∀ a ∈ D, d.parentOf a ∈ D)
    (hH : Held d D pc) : Held d D (stepPc d pc oom).2 := by
  obtain ⟨ht, hd⟩ := hH
  have hlook : ∀ {parent : ℕ} {name : Name} {host : ℕ}, d.childLookup parent name = some host →
      host ∈ D := by
    intro parent name host hf
    obtain ⟨top, htop, rfl⟩ := Option.map_eq_some_iff.mp hf
    exact hhost top (hB.findTop htop)
  cases pc with try simp only [stepPc]
  | walk cur rest k =>
    have hcur := hd cur (mem_cons_self ..)
    have hk : ∀ a ∈ k.dirs, a ∈ D := fun a ha => hd a (mem_cons_of_mem _ ha)
    cases rest with
    | nil => exact held_arrive hroot hcur hk
    | cons name rest =>
      simp only
      split
      · exact held_ret _
      · rename_i host hf
        exact ⟨by simp [Pc.tops], forall_mem_cons.mpr ⟨hlook hf, hk⟩⟩
  | renVictim =>
    split
    · exact held_ret _
    · exact ⟨by simp [Pc.tops], by simpa [Pc.dirs, Cont.dirs] using hroot⟩
  | stkFind m =>
    split
    · exact held_ret _
    · rename_i top hf
      have htop := hB.findTop hf
      split_ifs
      · exact ⟨forall_mem_singleton.mpr htop, hd⟩
      · exact ⟨forall_mem_singleton.mpr htop, hd⟩
  | stkHop m _ cur =>
    have hcur : cur ∈ D := hd cur (by simp [Pc.dirs])
    have hm : m.newParent ∈ D := hd _ (by simp [Pc.dirs])
    exact ⟨ht, by simpa [stepPc, Pc.dirs] using ⟨hm, hparent cur hcur⟩⟩
  | stkLock =>
    split_ifs
    · exact ⟨ht, hd⟩
    · exact held_afterStack (hd _ (mem_singleton_self _)) _
  | stkClear _ _ o => exact held_afterStack (hd _ (mem_singleton_self _)) o
  | xchFindA =>
    refine ⟨fun a ha => ?_, hd⟩
    exact hB.findTop (Option.mem_toList.mp ha)
  | xchFindB x topa =>
    split
    · rename_i ta tb hf
      have htops : ∀ a ∈ [ta, tb], a ∈ d.linkable := by
        simpa using ⟨ht ta (by simp [Pc.tops]), hB.findTop hf⟩
      split_ifs
      · exact ⟨htops, hd⟩
      · exact ⟨htops, hd⟩
    · exact held_ret _
  | xchGrayHi =>
    split_ifs
    · exact ⟨ht, hd⟩
    · exact ⟨ht, forall_mem_cons.mpr ⟨hd _ (by simp [Pc.dirs, Xchg.dirs]), hd⟩⟩
  | xchWalk x =>
    have hx : ∀ a ∈ x.dirs, a ∈ D := fun a ha => hd a (mem_cons_of_mem _ ha)
    split
    · exact ⟨ht, hx⟩
    · exact ⟨ht, hx⟩
    · split_ifs
      · exact ⟨ht, hx⟩
      · exact ⟨ht, forall_mem_cons.mpr ⟨hx _ (by simp [Xchg.dirs]), hx⟩⟩
    · exact ⟨ht, hd⟩
  | xchHop x _ _ _ cur =>
    have hx : ∀ a ∈ x.dirs, a ∈ D := fun a ha => hd a (mem_cons_of_mem _ ha)
    exact ⟨ht, forall_mem_cons.mpr ⟨hparent cur (hd cur (mem_cons_self ..)), hx⟩⟩
  | xchLock =>
    split_ifs
    · exact ⟨ht, hd⟩
    · exact held_afterExchange hd _
  | xchClearB _ _ _ o => exact held_afterExchange hd o
  | lkHop _ _ rest => cases rest <;> exact held_of_nil rfl rfl
  | lkScan _ node =>
    cases node with
    | none => exact held_of_nil rfl rfl
    | some =>
      simp only
      split <;> exact held_of_nil rfl rfl
  | lkUp _ _ todo =>
    cases todo with
    | nil => exact held_of_nil rfl rfl
    | cons =>
      simp only
      split <;> exact held_of_nil rfl rfl
  | _ =>
    (repeat' split) <;> first
      | exact held_of_nil rfl rfl
      | exact ⟨ht, hd⟩
      | exact ⟨by rintro _ ⟨⟩, hd⟩
      | exact ⟨ht, by simp_all [Pc.dirs]⟩

theorem stepPc_in (hB : Bounded d) (hP : PcIn d pc) :
    PcIn (stepPc d pc oom).1 (stepPc d pc oom).2 := by
  have hle := ((stepPc_write d pc oom).grows hB hP).1
  have hH := stepPc_held oom hB hB.root (fun a ha => (hB.hostOf ha).2) hB.parent hP.toHeld
  refine ⟨⟨fun a ha => ⟨(hH.tops a ha).1, Nat.lt_of_lt_of_le (hH.tops a ha).2 hle⟩,
    fun a ha => Nat.lt_of_lt_of_le (hH.dirs a ha) hle⟩, fun n hn => ?_⟩
  rcases (stepPc_pending d pc oom).1 n hn with h | ⟨hge, hlt⟩
  · exact ⟨(hP.shells n h).1, Nat.lt_of_lt_of_le (hP.shells n h).2 hle⟩
  · exact ⟨hB.fresh_linkable hge, hlt⟩

end Step

end TrieBenchmark.Bucketlock
