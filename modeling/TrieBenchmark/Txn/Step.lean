import TrieBenchmark.Txn.Effect

/-!
Inversion of one step of a thread: given what its program counter says about the dentries it
holds, the step is one of the listed effects.
-/

namespace TrieBenchmark.Txn

open Edits

variable {Name : Type} {d d' : Cache Name} {arm : Arm} {S : Set ℕ}

def IsShell (d : Cache Name) (n : ℕ) : Prop :=
  n < d.fresh ∧ (d.dentry n).shell = true

def Latched (d : Cache Name) (S : Set ℕ) (top parent : ℕ) (name : Name) : Prop :=
  top ∈ S ∧ (d.dentry top).iparent = parent ∧ (d.dentry top).iname = name

def Settled (d : Cache Name) (S : Set ℕ) : Prop :=
  ∀ a ∈ S, a < d.fresh ∧ a ≠ root

/-- Where the recorded head still stands in its chain, the name can only be before it. -/
def Clear (d : Cache Name) (S : Set ℕ) (parent : ℕ) (name : Name) (head : Option ℕ) : Prop :=
  ∀ h, head = some h → h ∈ S ∧ ∀ a, d.linked a → (d.dentry a).iparent = parent →
    (d.dentry a).iname = name → h ∈ d.hash (d.bucketOf parent name) →
    Before (d.hash (d.bucketOf parent name)) a h

structure Replaceable (d : Cache Name) (S : Set ℕ) (m : Move Name) (top cur : ℕ) : Prop where
  latched : Latched d S cur m.newParent m.newName
  ne : cur ≠ top
  host : d.hostOf cur = cur
  file : (d.dentry cur).isdir = false

structure Ready (d : Cache Name) (S : Set ℕ) (m : Move Name) (top : ℕ) (g : Guards) : Prop where
  latched : Latched d S top m.fromParent m.fromName
  clear : g.neg = none → Clear d S m.newParent m.newName g.head
  neg : ∀ a, g.neg = some a → Replaceable d S m top a

def HeadIn (S : Set ℕ) (head : Option ℕ) : Prop :=
  ∀ h, head = some h → h ∈ S

structure Stored (arm : Arm) (d : Cache Name) (S : Set ℕ) (n : ℕ) : Prop where
  shell : IsShell d n
  mem : n ∈ S
  name : (d.dentry (d.hostOf n)).iname = (d.dentry n).iname
  parent : arm ≠ .mark → (d.dentry (d.hostOf n)).iparent = (d.dentry n).iparent

def BothLatched (d : Cache Name) (S : Set ℕ) (x : Xchg Name) (topa topb : ℕ) : Prop :=
  Latched d S topa x.pa x.na ∧ Latched d S topb x.pb x.nb

/-- The flip of a state word is on an allocated host, and outside the mark arm never makes a
directory negative. -/
def Flippable (arm : Arm) (d : Cache Name) (host : ℕ) (negative : Bool) : Prop :=
  host < d.fresh ∧ (arm ≠ .mark → negative = true → (d.dentry host).isdir = false)

def PcOk (arm : Arm) (d : Cache Name) (S : Set ℕ) : Pc Name → Prop
  | .addHead _ raw => arm = .mark → raw.neg = false
  | .addScan _ raw head => (arm = .mark → raw.neg = false) ∧ HeadIn S head
  | .addCommit e raw head => (arm = .mark → raw.neg = false) ∧ Clear d S e.parent e.name head
  | .setRead host negative _ | .setKids host negative _ _ | .setId host negative _ _
  | .setCommit host negative _ _ => Flippable arm d host negative
  | .unlKids p n top | .unlCommit p n top => Latched d S top p n
  | .stkGray m top | .stkGuard m top => Latched d S top m.fromParent m.fromName
  | .stkHead m top g => Latched d S top m.fromParent m.fromName ∧ g.neg = none
  | .stkScan m top g => Latched d S top m.fromParent m.fromName ∧ g.neg = none ∧ HeadIn S g.head
  | .stkJudge m top _ cur => Latched d S top m.fromParent m.fromName ∧
      Latched d S cur m.newParent m.newName ∧ cur ≠ top
  | .stkNeg m top _ cur => Latched d S top m.fromParent m.fromName ∧ Replaceable d S m top cur
  | .stkSib m top g | .stkOld m top g | .stkWalk m top g _ _ _ | .stkHop m top g _ _ _
  | .stkCommit m top g _ => Ready d S m top g
  | .stkClear _ _ o => ∀ n, o = .done n → IsShell d n
  | .stkQueue n => IsShell d n
  | .xchFindB x (some topa) => Latched d S topa x.pa x.na
  | .xchGrayLo x topa topb | .xchGrayHi x topa topb | .xchGuardA x topa topb
  | .xchGuardB x topa topb _ | .xchLinks x topa topb _ => BothLatched d S x topa topb
  | .xchOld x topa topb _ | .xchWalk x topa topb _ _ _ _ _ _ | .xchHop x topa topb _ _ _ _ _ _
  | .xchCommit x topa topb _ _ _ => BothLatched d S x topa topb ∧ topa ≠ topb
  | .xchClearA _ _ _ o | .xchClearB _ _ _ o => ∀ s, o = .done s → IsShell d s.1 ∧ IsShell d s.2
  | .xchQueueA sa sb => IsShell d sa ∧ IsShell d sb
  | .xchQueueB sb => IsShell d sb
  | .evTop a => a < d.fresh
  | .evParent a => a < d.fresh ∧ (d.dentry a).shell = false
  | .evKids a | .evCommit a => a < d.fresh ∧ (d.dentry a).shell = false ∧ a ≠ root
  | .fldTest n => IsShell d n
  | .fldOwn n => IsShell d n ∧ n ∈ S ∧ (arm = .mark → Stored arm d S n)
  | .fldSwap n _ => IsShell d n ∧ n ∈ S ∧ arm ≠ .mark
  | .fldName n => IsShell d n ∧ n ∈ S ∧
      (arm ≠ .mark → (d.dentry (d.hostOf n)).iparent = (d.dentry n).iparent)
  | .fldTop n | .fldCommit n _ => Stored arm d S n
  | .lkScan _ (some n) => n ∈ S
  | .lkName h n _ => n ∈ S ∧ (d.dentry n).iparent = h.cur
  | .lkNext _ n => n ∈ S
  | .lkStamp h top _ | .lkConfirm h top _ _ | .lkState h top _ _ => Latched d S top h.cur h.name
  | _ => True

def Pc.folds : Pc Name → Option ℕ
  | .fldSwap n _ | .fldName n | .fldTop n | .fldOwn n | .fldCommit n _ => some n
  | _ => none

@[grind =] def Pc.dir : Pc Name → Option ℕ
  | .walk cur _ _ => some cur
  | .addCheck e | .addState e | .addHead e _ | .addScan e _ _ | .addCommit e _ _ => some e.parent
  | .renDest _ _ _ toParent _ | .renDestPos _ _ _ toParent _ _ | .renCross _ _ _ toParent _ =>
    some toParent
  | .stkState m | .stkFind m | .stkGray m _ | .stkGuard m _ | .stkHead m _ _ | .stkScan m _ _
  | .stkJudge m _ _ _ | .stkNeg m _ _ _ | .stkSib m _ _ | .stkOld m _ _ | .stkWalk m _ _ _ _ _
  | .stkHop m _ _ _ _ _ | .stkCommit m _ _ _ | .stkClear m _ _ => some m.newParent
  | _ => none

theorem Latched.linked (hI : IndexOk d) (hS : Settled d S) {top parent : ℕ} {name : Name}
    (hL : Latched d S top parent name) (hm : d.mark top = false) : d.linked top :=
  (hI.live top (hS top hL.1).1 (hS top hL.1).2).mp hm

theorem Clear.free (hI : IndexOk d) {parent : ℕ} {name : Name} {head : Option ℕ}
    (hC : Clear d S parent name head) (hhead : (d.hash (d.bucketOf parent name)).head? = head) :
    ∀ a, d.linked a → ¬ ((d.dentry a).iparent = parent ∧ (d.dentry a).iname = name) := by
  rintro a ha ⟨hp, hn⟩
  have hmem : a ∈ d.hash (d.bucketOf parent name) := by
    unfold Cache.linked Cache.bucket at ha
    rwa [hp, hn] at ha
  cases head with
  | none => simp [List.head?_eq_none_iff.mp hhead] at hmem
  | some h =>
    have hh : h ∈ d.hash (d.bucketOf parent name) := List.mem_of_mem_head? hhead
    exact not_before_head (hI.nodup _) hhead ((hC h rfl).2 a ha hp hn hh)

theorem Ready.claim (hI : IndexOk d) (hS : Settled d S) {m : Move Name} {top : ℕ} {g : Guards}
    (hR : Ready d S m top g) (hneg : g.neg.all (fun a => !d.mark a) = true)
    (hhead : (d.hash (d.bucketOf m.newParent m.newName)).head? = g.head) :
    Claim d m top g.neg := by
  cases hg : g.neg with
  | none => exact ⟨fun a ha hp hn => absurd ⟨hp, hn⟩ ((hR.clear hg).free hI hhead a ha), by simp⟩
  | some c =>
    have hr := hR.neg c hg
    have hl : d.linked c := hr.latched.linked hI hS (by simpa [hg] using hneg)
    refine ⟨fun a ha hp hn => ?_, fun a ha => ?_⟩
    · rw [hI.unique a c ha hl (hp.trans hr.latched.2.1.symm) (hn.trans hr.latched.2.2.symm)]
    · obtain rfl := Option.some.inj ha
      exact ⟨hl, hr.ne⟩

namespace Cache

variable {m : Move Name} {x : Xchg Name} {top topa topb oldp olda oldb : ℕ} {g : Guards}
  {r : Reads}

theorem stackHolds_spec (h : d.stackHolds m top g oldp = true) :
    d.mark top = false ∧ g.neg.all (fun a => !d.mark a) = true ∧
      (d.hash (d.bucketOf m.newParent m.newName)).head? = g.head ∧ d.sealed m.newParent = false ∧
      ∀ p ∈ g.words, d.raw p.1 = p.2 := by
  simp only [stackHolds, holds, Bool.and_eq_true, decide_eq_true_eq, Bool.not_eq_true',
    List.all_eq_true] at h
  exact ⟨h.1.1.1.1.1.1.2, h.1.1.1.1.1.2, h.1.1.1.1.2, h.1.1.2, h.1.1.1.1.1.1.1.1.1.1.1⟩

theorem exchangeHolds_spec (h : d.exchangeHolds x topa topb r olda oldb = true) :
    d.mark topa = false ∧ d.mark topb = false := by
  simp only [exchangeHolds, Bool.and_eq_true, Bool.not_eq_true'] at h
  exact ⟨h.1.1.1.1.2, h.1.1.1.2⟩

end Cache

inductive Commits (d : Cache Name) : Pc Name → Checked Name → Prop where
  | rename {m : Move Name} {top oldp : ℕ} {g : Guards} : d.stackHolds m top g oldp = true →
      Commits d (.stkCommit m top g oldp) (.rename m g.neg)
  | flip {host id : ℕ} {negative : Bool} {raw : StateWord} :
      Commits d (.setCommit host negative id raw) (.flip host)
  | add {e : Entry Name} {raw : StateWord} {head : Option ℕ} :
      Commits d (.addCommit e raw head) (.add e.parent)

theorem Commits.ofRename {P : Move Name → Option ℕ → Prop} {pc : Pc Name} {c : Checked Name}
    (hc : Commits d pc c) (hP : ∀ m top g oldp, pc = .stkCommit m top g oldp →
      d.stackHolds m top g oldp = true → P m g.neg) : c.OfRename P := by
  cases hc with
  | rename hh => exact hP _ _ _ _ rfl hh
  | flip | add => trivial

def Pc.reads : Pc Name → Bool
  | .addCommit .. | .setId .. | .setCommit .. | .unlCommit .. | .stkGray .. | .stkCommit ..
  | .stkClear .. | .xchGrayLo .. | .xchGrayHi .. | .xchDropLo .. | .xchCommit .. | .xchClearA ..
  | .xchClearB .. | .evCommit .. | .fldName .. | .fldSwap .. | .fldCommit .. => false
  | _ => true

variable [DecidableEq Name]

attribute [local simp] stepPc in
theorem stepPc_reads {pc : Pc Name} {ans : Answer} (h : pc.reads = true) :
    (stepPc arm d pc ans).1 = d := by
  cases pc
  case' walk _ rest _ => cases rest
  case' lkHop rest _ _ => cases rest
  case' lkScan _ node => cases node
  case' lkUp todo _ => cases todo
  all_goals first
    | rfl
    | (cases h; done)
    | (simp only [stepPc]; (repeat' split) <;> rfl)

theorem stepPc_effect {pc : Pc Name} {C : Checked Name → Prop}
    (hI : IndexOk d) (hS : Settled d S) (hP : PcOk arm d S pc)
    (hdir : ∀ p, pc.dir = some p → p < d.fresh)
    (hfold : ∀ n, pc.folds = some n → ¬ d.linked (d.hostOf n))
    (hC : ∀ c, Commits d pc c → C c) (ans : Answer) :
    ∃ touched back, Effect arm C d touched back (stepPc arm d pc ans).1 ∧
      (∀ h, touched = some h → ∃ n, pc.folds = some n ∧ h = d.hostOf n) ∧
      (∀ h, back = some h → (stepPc arm d pc ans).2.folds = none ∧
        ∃ n, pc.folds = some n ∧ d.linked n ∧ h = d.hostOf n) := by
  have quiet : ∀ {d' : Cache Name}, Effect arm C d none none d' →
      (stepPc arm d pc ans).1 = d' → ∃ touched back,
      Effect arm C d touched back (stepPc arm d pc ans).1 ∧
      (∀ h, touched = some h → ∃ n, pc.folds = some n ∧ h = d.hostOf n) ∧
      (∀ h, back = some h → (stepPc arm d pc ans).2.folds = none ∧
        ∃ n, pc.folds = some n ∧ d.linked n ∧ h = d.hostOf n) := by
    rintro d' hE he
    exact ⟨none, none, he ▸ hE, by simp, by simp⟩
  cases pc with
  | addCommit e raw head =>
    by_cases hs : d.sealed e.parent = true
    · exact quiet .read (by simp [stepPc, hs])
    · by_cases ho : ans = .oom
      · exact quiet .read (by simp [stepPc, hs, ho])
      · by_cases hh : (decide (ans = .abort) || !d.addHolds arm e raw head) = true
        · exact quiet .read (by simp only [stepPc, if_neg hs, if_neg ho, if_pos hh])
        · have hok : ans ≠ .abort ∧ d.addHolds arm e raw head = true := by simpa using hh
          simp only [Cache.addHolds, Bool.and_eq_true, Bool.or_eq_true, decide_eq_true_eq] at hok
          refine quiet (.add e.parent e.name e.id e.isdir e.positive (hdir _ rfl) (hC _ .add)
            (fun ha => ?_)
            (by simpa using hs) (hP.2.free hI hok.2.2))
            (by simp only [stepPc, if_neg hs, if_neg ho, if_neg hh])
          have hraw : d.raw e.parent = raw := hok.2.1.resolve_left (by simp [ha])
          have := hP.1 ha
          rw [← hraw] at this
          exact this
  | setId host negative id =>
    cases negative with
    | true => exact quiet .read rfl
    | false => exact quiet (.ident host id) rfl
  | setCommit host negative _ raw =>
    by_cases ho : (decide (arm = .mark) && decide (ans = .oom)) = true
    · exact quiet .read (by simp only [stepPc, if_pos ho])
    · by_cases hh : (decide (arm = .mark) && decide (ans = .abort) ||
          !d.setHolds arm host raw) = true
      · exact quiet .read (by simp only [stepPc, if_neg ho, if_pos hh])
      · have hok : d.setHolds arm host raw = true := by
          simp only [Bool.or_eq_true, not_or] at hh
          simpa using hh.2
        simp only [Cache.setHolds, Cache.childrenEmpty, Bool.and_eq_true, Bool.or_eq_true,
          decide_eq_true_eq, Bool.not_eq_true', List.isEmpty_iff] at hok
        refine quiet (.flip host negative (hC _ .flip) fun hn hd => ?_)
          (by simp only [stepPc, if_neg ho, if_neg hh])
        rcases hok.2 with (ha | hf) | hk
        · exact absurd hd (by simp [hP.2 ha hn])
        · exact absurd hd (by simp [hf])
        · exact hk.1
  | unlCommit _ _ top =>
    by_cases ho : ans = .oom
    · exact quiet .read (by simp only [stepPc, if_pos ho])
    · by_cases hh : (decide (ans = .abort) || d.mark top ||
          !d.removeHolds (d.hostOf top) (d.dentry (d.hostOf top)).isdir) = true
      · exact quiet .read (by simp only [stepPc, if_neg ho, if_pos hh])
      · simp only [Bool.or_eq_true, not_or, Bool.not_eq_true,
          Bool.not_eq_true'] at hh
        have hk : (d.dentry (d.hostOf top)).isdir = true → d.kids (d.hostOf top) = [] := by
          intro hd
          have := hh.2
          simp only [Cache.removeHolds, hd, Cache.childrenEmpty] at this
          exact (by simpa using this : _ ∧ d.sealed (d.hostOf top) = false).1
        refine quiet (.remove top (d.dentry (d.hostOf top)).isdir
          (hP.linked hI hS hh.1.2) (fun h => h) hk) ?_
        simp only [stepPc, if_neg ho]
        rw [if_neg]
        simpa [hh.1.1, hh.1.2] using hh.2
  | stkGray _ top =>
    by_cases hm : (d.dentry (d.hostOf top)).moving = true
    · exact quiet .read (by simp only [stepPc, if_pos hm])
    · exact quiet (.flag (d.hostOf top) true) (by simp only [stepPc, if_neg hm])
  | stkClear _ top => exact quiet (.flag (d.hostOf top) false) rfl
  | stkCommit m top g oldp =>
    by_cases ho : ans = .oom
    · exact quiet .read (by simp only [stepPc, if_pos ho])
    · by_cases hh : (decide (ans = .abort) || !d.stackHolds m top g oldp) = true
      · exact quiet .read (by simp only [stepPc, if_neg ho, if_pos hh])
      · have hok : ans ≠ .abort ∧ d.stackHolds m top g oldp = true := by simpa using hh
        obtain ⟨hm, hneg, hhead, hseal, -⟩ := Cache.stackHolds_spec hok.2
        refine quiet (.stack m top g.neg (hP.latched.linked hI hS hm) hP.latched.2.1
          hP.latched.2.2 (hP.claim hI hS hneg hhead) (hdir _ rfl) hseal
          (fun a ha => ⟨(hP.neg a ha).host, (hP.neg a ha).file⟩) (hC _ (.rename hok.2)))
          (by simp only [stepPc, if_neg ho, if_neg hh])
  | xchGrayLo _ topa topb =>
    by_cases hm : (d.dentry (d.lo topa topb)).moving = true
    · exact quiet .read (by simp only [stepPc, if_pos hm])
    · exact quiet (.flag (d.lo topa topb) true) (by simp only [stepPc, if_neg hm])
  | xchGrayHi _ topa topb =>
    by_cases he : d.hi topa topb = d.lo topa topb
    · exact quiet .read (by simp only [stepPc, if_pos he])
    by_cases hm : (d.dentry (d.hi topa topb)).moving = true
    · exact quiet .read (by simp only [stepPc, if_neg he, if_pos hm])
    · exact quiet (.flag (d.hi topa topb) true) (by simp only [stepPc, if_neg he, if_neg hm])
  | xchDropLo _ topa topb => exact quiet (.flag (d.lo topa topb) false) rfl
  | xchClearA _ topa => exact quiet (.flag (d.hostOf topa) false) rfl
  | xchClearB _ _ topb => exact quiet (.flag (d.hostOf topb) false) rfl
  | xchCommit x topa topb g olda oldb =>
    by_cases ho : ans = .oom
    · exact quiet .read (by simp only [stepPc, if_pos ho])
    · by_cases hh : (decide (ans = .abort) || !d.exchangeHolds x topa topb g olda oldb) = true
      · exact quiet .read (by simp only [stepPc, if_neg ho, if_pos hh])
      · have hok : ans ≠ .abort ∧ d.exchangeHolds x topa topb g olda oldb = true := by
          simpa using hh
        obtain ⟨hma, hmb⟩ := Cache.exchangeHolds_spec hok.2
        exact quiet (.exchange x topa topb ⟨hP.1.1.linked hI hS hma, hP.1.2.linked hI hS hmb,
          hP.2, hP.1.1.2, hP.1.2.2⟩) (by simp only [stepPc, if_neg ho, if_neg hh])
  | evCommit a =>
    by_cases ho : (decide (ans = .oom) || d.mark a) = true
    · exact quiet .read (by simp only [stepPc, if_pos ho])
    · by_cases hh : (decide (ans = .abort) || !d.removeHolds a true) = true
      · exact quiet .read (by simp only [stepPc, if_neg ho, if_pos hh])
      · have hm : d.mark a = false := by
          simp only [Bool.or_eq_true, not_or, Bool.not_eq_true] at ho
          exact ho.2
        have hk : d.kids a = [] := by
          simp only [Bool.or_eq_true, not_or, Bool.not_eq_true, Bool.not_eq_false'] at hh
          exact (by simpa [Cache.removeHolds, Cache.childrenEmpty] using hh.2 :
            _ ∧ d.sealed a = false).1
        have hhost : d.hostOf a = a := Cache.hostOf_of_host hP.2.1
        have hE : Effect arm C d none none (d.removeCommit a (d.hostOf a) true) :=
          .remove a true ((hI.live a hP.1 hP.2.2).mp hm) (fun _ => rfl) fun _ => by
            rw [hhost]
            exact hk
        refine quiet hE ?_
        rw [hhost]
        simp only [stepPc, if_neg ho, if_neg hh]
  | fldName n =>
    exact ⟨some (d.hostOf n), none, .name n hP.1.1 (hfold n rfl),
      fun h he => ⟨n, rfl, (Option.some.inj he).symm⟩, by simp⟩
  | fldSwap n own =>
    by_cases hr : d.raw (d.hostOf n) = own
    · refine ⟨some (d.hostOf n), none, ?_, fun h he => ⟨n, rfl, (Option.some.inj he).symm⟩,
        by simp⟩
      simp only [stepPc, if_pos hr]
      exact .swap n hP.1.1 (hfold n rfl)
    · exact quiet .read (by simp only [stepPc, if_neg hr])
  | fldCommit n own =>
    by_cases ho : (decide (ans = .oom) || d.mark n) = true
    · exact quiet .read (by simp only [stepPc, if_pos ho])
    · by_cases hh : (decide (ans = .abort) || !d.foldHolds n own) = true
      · exact quiet .read (by simp only [stepPc, if_neg ho, if_pos hh])
      · have hm : d.mark n = false := by
          simp only [Bool.or_eq_true, not_or, Bool.not_eq_true] at ho
          exact ho.2
        have hl := (hI.live n (hS n hP.mem).1 (hS n hP.mem).2).mp hm
        refine ⟨some (d.hostOf n), some (d.hostOf n), ?_,
          fun h he => ⟨n, rfl, (Option.some.inj he).symm⟩,
          fun h he => ⟨?_, n, rfl, hl, (Option.some.inj he).symm⟩⟩
        · simp only [stepPc, if_neg ho, if_neg hh]
          exact .fold n hl hP.shell.2 hP.name hP.parent
        · simp only [stepPc, if_neg ho, if_neg hh]
          rfl
  | _ => exact quiet .read (stepPc_reads rfl)

end TrieBenchmark.Txn
