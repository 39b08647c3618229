import TrieBenchmark.Txn.Step
import TrieBenchmark.Lib.Run

/-!
What a program counter knows outlives the steps of the other threads, and each step of a thread
establishes what its next program counter knows.
-/

namespace TrieBenchmark.Txn

open Edits

variable {Name : Type} {d d' : Cache Name} {arm : Arm} {S S' : Set ℕ} {touched back : Option ℕ}
  {pc : Pc Name} {m : Move Name} {name : Name} {n : ℕ}

/-- What a step leaves alone of the dentries in `S`: their names, and that they are out of the
index once they have left it. -/
structure Spares (touched back : Option ℕ) (S : Set ℕ) : Prop where
  key : ∀ a ∈ S, touched ≠ some a
  back : ∀ a ∈ S, back ≠ some a

theorem IsShell.step (hH : IndexStep d touched back d') (hn : IsShell d n) : IsShell d' n :=
  ⟨Nat.lt_of_lt_of_le hn.1 hH.fresh, (hH.kind n hn.1).1.trans hn.2⟩

theorem Latched.step (hH : IndexStep d touched back d') (hS : Settled d S)
    (hf : Spares touched back S) {top parent : ℕ}
    (hL : Latched d S top parent name) : Latched d' S top parent name := by
  obtain ⟨hp, hn⟩ := hH.key top (hS top hL.1).1 (hf.key top hL.1)
  exact ⟨hL.1, hp.trans hL.2.1, hn.trans hL.2.2⟩

theorem Clear.step (hH : IndexStep d touched back d') (hI' : IndexOk d') (hI : IndexOk d)
    (hS : Settled d S) (hf : Spares touched back S) {parent : ℕ} {head : Option ℕ}
    (hC : Clear d S parent name head) : Clear d' S parent name head := by
  intro h hh
  obtain ⟨hmem, hbefore⟩ := hC h hh
  refine ⟨hmem, fun a ha hp hn hh' => ?_⟩
  rw [hH.bucketOf] at hh' ⊢
  obtain ⟨hhp, hhn⟩ := hH.key h (hS h hmem).1 (hf.key h hmem)
  -- the recorded head stands where it stood, since a node of `S` does not come back
  have hhl : h ∈ d.hash (d.bucketOf parent name) := by
    have hb := hI'.home _ h hh'
    rw [Cache.bucket, hH.bucketOf, hhp, hhn] at hb
    rcases hH.came h (hI'.linked_of_mem hh') with hl | hge | hk
    · unfold Cache.linked Cache.bucket at hl
      rwa [hb] at hl
    · exact absurd (hS h hmem).1 (Nat.not_lt.mpr hge)
    · exact absurd hk (hf.back h hmem)
  have ha' : a ∈ d'.hash (d.bucketOf parent name) := by
    unfold Cache.linked Cache.bucket at ha
    rwa [hp, hn, hH.bucketOf] at ha
  rcases hH.order _ h a hhl hh' ha' with hb | ⟨x, hx, hxp, hxn, hno⟩
  · exact hb
  · exact absurd (hbefore x (hI.linked_of_mem hx) (hxp.trans hp) (hxn.trans hn) hhl) hno

theorem Replaceable.step (hH : IndexStep d touched back d') (hS : Settled d S)
    (hf : Spares touched back S) {top cur : ℕ} (hR : Replaceable d S m top cur) :
    Replaceable d' S m top cur := by
  have hlt := (hS cur hR.latched.1).1
  exact ⟨hR.latched.step hH hS hf, hR.ne, (hH.kind.hostOf hlt).trans hR.host,
    (hH.kind cur hlt).2.2.trans hR.file⟩

theorem Ready.step (hH : IndexStep d touched back d') (hI' : IndexOk d') (hI : IndexOk d)
    (hS : Settled d S) (hf : Spares touched back S) {top : ℕ} {g : Guards}
    (hR : Ready d S m top g) : Ready d' S m top g :=
  ⟨hR.latched.step hH hS hf, fun hg => (hR.clear hg).step hH hI' hI hS hf,
    fun a ha => (hR.neg a ha).step hH hS hf⟩

theorem Flippable.step (hH : IndexStep d touched back d') {host : ℕ} {negative : Bool}
    (hF : Flippable arm d host negative) : Flippable arm d' host negative :=
  ⟨Nat.lt_of_lt_of_le hF.1 hH.fresh, fun ha hn => (hH.kind host hF.1).2.2.trans (hF.2 ha hn)⟩

theorem host_step (hH : IndexStep d touched back d') (hI : IndexOk d) (hS : Settled d S)
    (hf : Spares touched back S) (hn : n ∈ S) (hh : touched ≠ some (d.hostOf n)) :
    (d'.dentry (d'.hostOf n)).iname = (d.dentry (d.hostOf n)).iname ∧
      (d'.dentry (d'.hostOf n)).iparent = (d.dentry (d.hostOf n)).iparent ∧
      (d'.dentry n).iname = (d.dentry n).iname ∧
      (d'.dentry n).iparent = (d.dentry n).iparent := by
  have hlt := (hS n hn).1
  rw [hH.kind.hostOf hlt]
  obtain ⟨hp, hm⟩ := hH.key n hlt (hf.key n hn)
  obtain ⟨hhp, hhm⟩ := hH.key _ (hI.hostOf_host hlt).1 hh
  exact ⟨hhm, hhp, hm, hp⟩

theorem Stored.step (hH : IndexStep d touched back d') (hI : IndexOk d) (hS : Settled d S)
    (hf : Spares touched back S) (hN : Stored arm d S n)
    (hh : touched ≠ some (d.hostOf n)) : Stored arm d' S n := by
  obtain ⟨h₁, h₂, h₃, h₄⟩ := host_step hH hI hS hf hN.mem hh
  exact ⟨hN.shell.step hH, hN.mem, h₁.trans (hN.name.trans h₃.symm),
    fun ha => h₂.trans ((hN.parent ha).trans h₄.symm)⟩

theorem PcOk.step (hH : IndexStep d touched back d') (hI' : IndexOk d')
    (hI : IndexOk d) (hS : Settled d S) (hf : Spares touched back S)
    (hh : ∀ n, pc.folds = some n → touched ≠ some (d.hostOf n)) (hP : PcOk arm d S pc) :
    PcOk arm d' S pc := by
  have hL : ∀ {top parent : ℕ} {name : Name}, Latched d S top parent name →
      Latched d' S top parent name := fun h => h.step hH hS hf
  have hR : ∀ {m : Move Name} {top : ℕ} {g : Guards}, Ready d S m top g → Ready d' S m top g :=
    fun h => h.step hH hI' hI hS hf
  have hB : ∀ {x : Xchg Name} {topa topb : ℕ}, BothLatched d S x topa topb →
      BothLatched d' S x topa topb := fun h => ⟨hL h.1, hL h.2⟩
  cases pc with
  | addCommit => exact ⟨hP.1, hP.2.step hH hI' hI hS hf⟩
  | stkHead | stkScan => exact ⟨hL hP.1, hP.2⟩
  | stkJudge => exact ⟨hL hP.1, hL hP.2.1, hP.2.2⟩
  | stkNeg => exact ⟨hL hP.1, hP.2.step hH hS hf⟩
  | xchFindB _ topa =>
    cases topa with
    | none => trivial
    | some => exact hL hP
  | xchOld | xchWalk | xchHop | xchCommit => exact ⟨hB hP.1, hP.2⟩
  | stkClear => exact fun n hn => (hP n hn).step hH
  | stkQueue | xchQueueB | fldTest => exact IsShell.step hH hP
  | xchClearA | xchClearB => exact fun s hs => ⟨(hP s hs).1.step hH, (hP s hs).2.step hH⟩
  | xchQueueA => exact ⟨hP.1.step hH, hP.2.step hH⟩
  | evTop => exact Nat.lt_of_lt_of_le hP hH.fresh
  | evParent a => exact ⟨Nat.lt_of_lt_of_le hP.1 hH.fresh, (hH.kind a hP.1).1.trans hP.2⟩
  | evKids a | evCommit a =>
    exact ⟨Nat.lt_of_lt_of_le hP.1 hH.fresh, (hH.kind a hP.1).1.trans hP.2.1, hP.2.2⟩
  | fldOwn n =>
    exact ⟨hP.1.step hH, hP.2.1, fun ha => (hP.2.2 ha).step hH hI hS hf (hh n rfl)⟩
  | fldSwap => exact ⟨hP.1.step hH, hP.2⟩
  | fldName n =>
    obtain ⟨-, h₂, -, h₄⟩ := host_step hH hI hS hf hP.2.1 (hh n rfl)
    exact ⟨hP.1.step hH, hP.2.1, fun ha => h₂.trans ((hP.2.2 ha).trans h₄.symm)⟩
  | fldTop n | fldCommit n => exact Stored.step hH hI hS hf hP (hh n rfl)
  | lkScan _ node =>
    cases node with
    | none => trivial
    | some => exact hP
  | lkName _ n =>
    exact ⟨hP.1, (hH.key n (hS n hP.1).1 (hf.key n hP.1)).1.trans hP.2⟩
  | _ => first
    | trivial
    | exact hP
    | exact hL hP
    | exact hR hP
    | exact hB hP
    | exact Flippable.step hH hP

theorem Clear.mono (hsub : S ⊆ S') {parent : ℕ} {head : Option ℕ}
    (hC : Clear d S parent name head) : Clear d S' parent name head :=
  fun h hh => ⟨hsub (hC h hh).1, (hC h hh).2⟩

theorem Ready.mono (hsub : S ⊆ S') {top : ℕ} {g : Guards}
    (hR : Ready d S m top g) : Ready d S' m top g :=
  ⟨⟨hsub hR.latched.1, hR.latched.2⟩, fun hg => (hR.clear hg).mono hsub, fun a ha =>
    ⟨⟨hsub (hR.neg a ha).latched.1, (hR.neg a ha).latched.2⟩, (hR.neg a ha).ne, (hR.neg a ha).host,
      (hR.neg a ha).file⟩⟩

theorem Stored.mono (hsub : S ⊆ S') (hN : Stored arm d S n) : Stored arm d S' n :=
  ⟨hN.shell, hsub hN.mem, hN.name, hN.parent⟩

theorem PcOk.mono (hP : PcOk arm d S pc) (hsub : S ⊆ S') : PcOk arm d S' pc := by
  have hL : ∀ {top parent : ℕ} {name : Name}, Latched d S top parent name →
      Latched d S' top parent name := fun h => ⟨hsub h.1, h.2⟩
  have hB : ∀ {x : Xchg Name} {topa topb : ℕ}, BothLatched d S x topa topb →
      BothLatched d S' x topa topb := fun h => ⟨hL h.1, hL h.2⟩
  cases pc with
  | addScan => exact ⟨hP.1, fun h hh => hsub (hP.2 h hh)⟩
  | addCommit => exact ⟨hP.1, hP.2.mono hsub⟩
  | stkHead => exact ⟨hL hP.1, hP.2⟩
  | stkScan => exact ⟨hL hP.1, hP.2.1, fun h hh => hsub (hP.2.2 h hh)⟩
  | stkJudge => exact ⟨hL hP.1, hL hP.2.1, hP.2.2⟩
  | stkNeg =>
    exact ⟨hL hP.1, hL hP.2.latched, hP.2.ne, hP.2.host, hP.2.file⟩
  | xchFindB _ topa =>
    cases topa with
    | none => trivial
    | some => exact hL hP
  | xchOld | xchWalk | xchHop | xchCommit => exact ⟨hB hP.1, hP.2⟩
  | fldOwn => exact ⟨hP.1, hsub hP.2.1, fun ha => (hP.2.2 ha).mono hsub⟩
  | fldSwap | fldName => exact ⟨hP.1, hsub hP.2.1, hP.2.2⟩
  | lkScan _ node =>
    cases node with
    | none => trivial
    | some => exact hsub hP
  | lkNext => exact hsub hP
  | lkName => exact ⟨hsub hP.1, hP.2⟩
  | _ => first
    | trivial
    | exact hP
    | exact hL hP
    | exact hB hP
    | exact Ready.mono hsub hP
    | exact Stored.mono hsub hP

theorem PcOk.of_not_busy (hb : pc.busy = false) : PcOk arm d S pc := by
  cases pc <;> trivial

theorem stackEnds_ok {top : ℕ} {o : Outcome ℕ}
    (ho : ∀ n, o = .done n → IsShell d n) : PcOk arm d S (stackEnds m top o) := by
  unfold stackEnds
  split_ifs
  · exact ho
  · cases o with
    | retry | fail => trivial
    | done n => exact ho n rfl

theorem afterStack_ok {o : Outcome ℕ} (ho : ∀ n, o = .done n → IsShell d n) :
    PcOk arm d S (afterStack m o) := by
  cases o with
  | retry | fail => trivial
  | done n => exact ho n rfl

theorem afterExchange_ok {x : Xchg Name} {o : Outcome (ℕ × ℕ)}
    (ho : ∀ s, o = .done s → IsShell d s.1 ∧ IsShell d s.2) :
    PcOk arm d S (afterExchange x o) := by
  cases o with
  | retry | fail => trivial
  | done s => exact ho s rfl

theorem exchangeEnds_ok {x : Xchg Name} {topa topb : ℕ} {o : Outcome (ℕ × ℕ)}
    (ho : ∀ s, o = .done s → IsShell d s.1 ∧ IsShell d s.2) :
    PcOk arm d S (exchangeEnds x topa topb o) := by
  unfold exchangeEnds
  split_ifs
  · exact ho
  · exact afterExchange_ok ho

structure Meets (d : Cache Name) (S : Set ℕ) : Prop where
  settled : Settled d S
  cover : ∀ a, d.linked a → a ∈ S
  closed : ∀ a ∈ S, ∀ b, d.next a = some b → b ∈ S

theorem Meets.head (hM : Meets d S) (hI : IndexOk d) (b : ℕ) : HeadIn S (d.hash b).head? :=
  fun _ hh => hM.cover _ (hI.linked_of_mem (List.mem_of_mem_head? hh))

theorem pcOk_ite {b : Bool} {pc pc' : Pc Name} (h : PcOk arm d S pc) (h' : PcOk arm d S pc') :
    PcOk arm d S (if b then pc else pc') := by
  cases b
  · exact h'
  · exact h

variable [DecidableEq Name]

theorem Meets.latched (hM : Meets d S) (hI : IndexOk d) {top parent : ℕ}
    (hf : d.findTop parent name = some top) : Latched d S top parent name := by
  obtain ⟨hl, hk⟩ := hI.findTop_eq_some.mp hf
  exact ⟨hM.cover top hl, hk⟩

theorem clear_of_findTop (hI : IndexOk d) {parent : ℕ} {head : Option ℕ}
    (hh : HeadIn S head) (hf : d.findTop parent name = none) : Clear d S parent name head :=
  fun h he => ⟨hh h he, fun a ha hp hn => absurd ⟨hp, hn⟩ (hI.findTop_eq_none.mp hf a ha)⟩

theorem stepPc_lookup_ok (hl : ∃ h n raw stamp, pc = .lkName h n raw ∨
    pc = .lkNext h n ∨ pc = .lkScan h (some n) ∨ pc = .lkConfirm h n raw stamp) (hM : Meets d S)
    (ans : Answer) (hP : PcOk arm d S pc) :
    PcOk arm (stepPc arm d pc ans).1 S (stepPc arm d pc ans).2 := by
  obtain ⟨h, n, raw, stamp, rfl | rfl | rfl | rfl⟩ := hl
  · simp only [stepPc]
    split_ifs with hn
    · cases arm <;> exact ⟨hP.1, hP.2, hn⟩
    · exact hP.1
  · simp only [stepPc]
    cases hx : d.next n with
    | none => trivial
    | some b => exact hM.closed n hP b hx
  · simp only [stepPc]
    split_ifs with hp
    · exact ⟨hP, hp⟩
    · exact hP
  · simp only [stepPc, Pc.lkStart]
    split_ifs
    · trivial
    · trivial
    · exact hP

theorem stepPc_fold_ok (hn : pc = .fldTest n ∨ pc.folds = some n)
    (hM : Meets d S) (hI : IndexOk d) (ans : Answer) (hP : PcOk arm d S pc) :
    PcOk arm (stepPc arm d pc ans).1 S (stepPc arm d pc ans).2 := by
  -- a store to the host leaves the shell alone
  have hne : ∀ {n : ℕ}, IsShell d n → n ≠ d.hostOf n := by
    intro n hn he
    have := (hI.hostOf_host hn.1).2
    rw [← he, hn.2] at this
    cases this
  cases pc with try simp only [stepPc]
  | fldTest k =>
    split_ifs with hm ha
    · trivial
    · have hr : k ≠ root := fun he => absurd hP.2 (by simp [he, hI.rootHost.2.1])
      have hl := (hI.live k hP.1 hr).mp (by simpa using hm)
      exact ⟨hP, hM.cover k hl, fun hg => absurd ha hg⟩
    · have hr : k ≠ root := fun he => absurd hP.2 (by simp [he, hI.rootHost.2.1])
      have hl := (hI.live k hP.1 hr).mp (by simpa using hm)
      exact ⟨hP, hM.cover k hl, fun hg => absurd hg ha⟩
  | fldName k =>
    have hk := hne hP.1
    have hself : (d.setIname (d.hostOf k) (d.dentry k).iname).dentry k = d.dentry k :=
      Cache.modify_of_ne _ _ _ _ hk
    have hhost := Cache.hostOf_congr hself
    show Stored arm (d.setIname (d.hostOf k) (d.dentry k).iname) S k
    refine ⟨⟨hP.1.1, by rw [hself]; exact hP.1.2⟩, hP.2.1, ?_, fun ha => ?_⟩
    · rw [hhost, hself]
      simp [Cache.setIname]
    · rw [hhost, hself]
      simpa [Cache.setIname] using hP.2.2 ha
  | fldTop =>
    split_ifs with ht ha
    · exact ⟨hP.shell, hP.mem, fun _ => hP⟩
    · exact hP
    · exact hP.shell
  | fldOwn =>
    split_ifs with ha
    · exact hP.2.2 ha
    · exact ⟨hP.1, hP.2.1, ha⟩
  | fldSwap k =>
    split_ifs with hr
    · have hk := hne hP.1
      have hself : (d.setIparent (d.hostOf k) (d.dentry k).iparent).dentry k = d.dentry k :=
        Cache.modify_of_ne _ _ _ _ hk
      have hhost := Cache.hostOf_congr hself
      refine ⟨⟨hP.1.1, by rw [hself]; exact hP.1.2⟩, hP.2.1, fun _ => ?_⟩
      rw [hhost, hself]
      simp [Cache.setIparent]
    · exact ⟨hP.1, hP.2.1, fun ha => absurd ha hP.2.2⟩
  | fldCommit =>
    split_ifs
    · trivial
    · exact hP.shell
    · trivial
  | _ => simp [Pc.folds] at hn

theorem stepPc_ok {ans : Answer} (hI : IndexOk d) (hM : Meets d S)
    (hroot : (d.dentry root).parent = root) (hP : PcOk arm d S pc)
    (hP' : pc.folds = none → PcOk arm (stepPc arm d pc ans).1 S pc) :
    PcOk arm (stepPc arm d pc ans).1 S (stepPc arm d pc ans).2 := by
  have hlt : ∀ {top parent : ℕ} {name : Name}, Latched d S top parent name → top < d.fresh :=
    fun h => (hM.settled _ h.1).1
  cases pc with
  | walk _ rest k =>
    cases rest with
    | nil => cases k <;> trivial
    | cons =>
      simp only [stepPc]
      split <;> trivial
  | addState =>
    simp only [stepPc]
    split_ifs with hn
    · trivial
    · intro ha
      simpa [ha, Cache.raw] using hn
  | addHead => exact ⟨hP, hM.head hI _⟩
  | addScan =>
    simp only [stepPc]
    split_ifs with hf
    · trivial
    · refine ⟨hP.1, clear_of_findTop hI hP.2 ?_⟩
      simpa [Cache.childLookup] using hf
  | setFind parent name negative id =>
    simp only [stepPc]
    split
    · trivial
    · rename_i top hf
      split_ifs with hg
      · trivial
      · refine ⟨(hI.hostOf_host (hlt (hM.latched hI hf))).1, fun ha hn => ?_⟩
        simpa [ha, hn] using hg
  | setRead host negative =>
    simp only [stepPc]
    by_cases hn : (d.raw host).neg = negative
    · rw [if_pos hn]
      trivial
    · rw [if_neg hn]
      split_ifs
      · exact hP
      · exact hP
  | setKids | unlKids =>
    simp only [stepPc]
    split_ifs
    · exact hP
    · trivial
  | setId | xchClearA => exact hP' rfl
  | setCommit | evCommit =>
    simp only [stepPc]
    split_ifs
    · trivial
    · exact hP
    · trivial
  | unlFind parent name =>
    simp only [stepPc]
    split
    · trivial
    · rename_i hf
      exact hM.latched hI hf
  | stkFind m =>
    simp only [stepPc]
    split
    · trivial
    · rename_i hf
      exact pcOk_ite (hM.latched hI hf) (hM.latched hI hf)
  | stkGray | xchGrayLo =>
    have hP' := hP' rfl
    simp only [stepPc] at hP' ⊢
    split_ifs at hP' ⊢
    · trivial
    · exact hP'
  | stkGuard =>
    simp only [stepPc]
    split_ifs
    · exact stackEnds_ok (by simp)
    · exact ⟨hP, rfl⟩
  | stkHead =>
    simp only [stepPc]
    split_ifs
    · exact stackEnds_ok (by simp)
    · exact ⟨hP.1, hP.2, hM.head hI _⟩
  | stkScan m top g =>
    simp only [stepPc]
    split
    · rename_i hf
      exact ⟨hP.1, fun _ => clear_of_findTop hI hP.2.2 hf, fun a ha => by simp [hP.2.1] at ha⟩
    · rename_i cur hf
      split_ifs with he
      · exact stackEnds_ok (by simp)
      · exact ⟨hP.1, hM.latched hI hf, he⟩
  | stkJudge =>
    simp only [stepPc]
    split_ifs with hj
    · simp only [Bool.and_eq_true, decide_eq_true_eq, Bool.not_eq_true'] at hj
      exact ⟨hP.1, hP.2.1, hP.2.2, hj.1.1, hj.2⟩
    · exact stackEnds_ok (by simp)
  | stkNeg =>
    simp only [stepPc]
    split_ifs
    · exact stackEnds_ok (by simp)
    · refine ⟨hP.1, fun hn => by simp at hn, fun a ha => ?_⟩
      obtain rfl := Option.some.inj ha
      exact hP.2
  | stkSib =>
    simp only [stepPc]
    split_ifs
    · exact stackEnds_ok (by simp)
    · exact stackEnds_ok (by simp)
    · exact ⟨hP.latched, hP.clear, hP.neg⟩
    · exact ⟨hP.latched, hP.clear, hP.neg⟩
  | stkWalk =>
    simp only [stepPc]
    split
    · exact stackEnds_ok (by simp)
    · exact stackEnds_ok (by simp)
    · exact hP
    · exact hP
  | stkCommit =>
    simp only [stepPc]
    split_ifs
    · exact stackEnds_ok (by simp)
    · exact stackEnds_ok (by simp)
    · refine stackEnds_ok fun n hn => ?_
      obtain rfl : d.fresh = n := by simpa using hn
      refine ⟨by simp, ?_⟩
      rw [Cache.stackCommit_new (hI.hostOf_host (hlt hP.latched)).1]
      rfl
  | stkClear => exact afterStack_ok (hP' rfl)
  | xchLookB =>
    simp only [stepPc]
    (repeat' split) <;> trivial
  | xchFindA x =>
    simp only [stepPc]
    cases hf : d.findTop x.pa x.na with
    | none => trivial
    | some => exact hM.latched hI hf
  | xchFindB x topa =>
    cases topa with
    | none => trivial
    | some topa =>
      simp only [stepPc]
      split
      · rename_i ta tb hta htb
        obtain rfl := Option.some.inj hta
        have hboth : BothLatched d S x topa tb := ⟨hP, hM.latched hI htb⟩
        exact pcOk_ite hboth hboth
      · trivial
  | xchGrayHi =>
    have hP' := hP' rfl
    simp only [stepPc] at hP' ⊢
    split_ifs at hP' ⊢
    · exact hP'
    · trivial
    · exact hP'
  | xchLinks =>
    simp only [stepPc]
    split_ifs with hm
    · exact exchangeEnds_ok (by simp)
    · simp only [Bool.or_eq_true, not_or, decide_eq_true_eq] at hm
      exact ⟨hP, hm.2⟩
    · simp only [Bool.or_eq_true, not_or, decide_eq_true_eq] at hm
      exact ⟨hP, hm.2⟩
  | xchOld =>
    simp only [stepPc]
    split_ifs
    · exact exchangeEnds_ok (by simp)
    · exact hP
  | xchWalk =>
    simp only [stepPc]
    split
    · exact exchangeEnds_ok (by simp)
    · exact exchangeEnds_ok (by simp)
    · exact pcOk_ite hP hP
    · exact hP
  | xchCommit x topa topb g olda oldb =>
    simp only [stepPc]
    split_ifs with ho hh
    · exact exchangeEnds_ok (by simp)
    · exact exchangeEnds_ok (by simp)
    · refine exchangeEnds_ok fun s hs => ?_
      obtain rfl : (d.fresh, d.fresh + 1) = s := by simpa using hs
      have hok : ans ≠ .abort ∧ d.exchangeHolds x topa topb g olda oldb = true := by
        simpa using hh
      obtain ⟨hma, hmb⟩ := Cache.exchangeHolds_spec hok.2
      obtain ⟨hsa, hsb⟩ := hI.exchangeCommit_shells arm ⟨hP.1.1.linked hI hM.settled hma,
        hP.1.2.linked hI hM.settled hmb, hP.2, hP.1.1.2, hP.1.2.2⟩
      exact ⟨⟨by simp, by rw [hsa]; rfl⟩, ⟨by simp, by rw [hsb]; rfl⟩⟩
  | xchClearB => exact afterExchange_ok (hP' rfl)
  | xchQueueA => exact hP.2
  | evTop a =>
    simp only [stepPc]
    split_ifs with h
    · trivial
    · refine ⟨hP, ?_⟩
      cases hs : (d.dentry a).shell with
      | false => rfl
      | true =>
        obtain ⟨k, hk, -⟩ := hI.shell a hP hs
        simp [hk] at h
  | evParent =>
    simp only [stepPc]
    split_ifs with h
    · trivial
    · exact ⟨hP.1, hP.2, fun he => h (by rw [he]; exact hroot)⟩
  | evKids =>
    simp only [stepPc]
    split_ifs
    · trivial
    · exact hP
  | fldTest => exact stepPc_fold_ok (.inl rfl) hM hI ans hP
  | fldSwap | fldName | fldTop | fldOwn | fldCommit => exact stepPc_fold_ok (.inr rfl) hM hI ans hP
  | lkHop _ _ cur rest =>
    cases rest with
    | nil =>
      simp only [stepPc]
      split_ifs <;> trivial
    | cons name =>
      simp only [stepPc]
      cases hh : (d.hash (d.bucketOf cur name)).head? with
      | none => trivial
      | some n => exact hM.head hI _ n hh
  | lkScan h node =>
    cases node with
    | none =>
      simp only [stepPc]
      split_ifs <;> trivial
    | some n => exact stepPc_lookup_ok ⟨h, n, d.raw n, 0, by simp⟩ hM ans hP
  | lkName h n raw => exact stepPc_lookup_ok ⟨h, n, raw, 0, by simp⟩ hM ans hP
  | lkNext h n => exact stepPc_lookup_ok ⟨h, n, d.raw n, 0, by simp⟩ hM ans hP
  | lkConfirm h top raw stamp => exact stepPc_lookup_ok ⟨h, top, raw, stamp, by simp⟩ hM ans hP
  | lkUp _ _ todo =>
    cases todo with
    | nil => trivial
    | cons =>
      simp only [stepPc, Pc.lkStart]
      split_ifs <;> trivial
  | _ =>
    first
      | trivial
      | exact hP
      | (simp only [stepPc, Pc.lkStart]; (repeat' split) <;> trivial)

end TrieBenchmark.Txn
