import TrieBenchmark.Bucketlock.Hold
import TrieBenchmark.Bucketlock.Successor

/-!
The invariant of the bucket-lock engine that every run keeps in which no exchange meets the
same top twice: the hash index is sound, and every thread holds what its program counter says.
-/

namespace TrieBenchmark.Bucketlock

open Function Hlist Grace

variable {Name : Type} {d d' : DCache Name} {S : Set ℕ} {folded : Option ℕ} {r : Rcu ℕ ℕ}
  {t u : ℕ} {pc pc' : Pc Name} {n : ℕ}

theorem dcCreate_hashChain (bucketOf : ℕ → Name → ℕ) (rootname : Name) :
    (dcCreate bucketOf rootname).hashChain = fun _ => [] :=
  DCache.hashChain_eq emptyLinks_family (by simp)

theorem dcCreate_hashOk (bucketOf : ℕ → Name → ℕ) (rootname : Name) :
    HashOk (dcCreate bucketOf rootname) := by
  have hchain := dcCreate_hashChain bucketOf rootname
  have hnone : ∀ {a}, ¬ (dcCreate bucketOf rootname).hashed a := by simp [DCache.hashed, hchain]
  refine ⟨hchain ▸ emptyLinks_family, by simp [hchain], fun a ha => absurd ha hnone,
    fun a _ ha => absurd ha hnone, fun a ha => absurd ha hnone, fun a ha hs => ?_,
    fun a ha hr _ => ?_, fun a _ _ n hn => ?_, Nat.zero_lt_one, rfl, rfl, rfl⟩
  · cases hs
  · exact absurd (Nat.lt_one_iff.mp ha) hr
  · cases hn

/-- The dentries that thread `t` can have met since its section began. -/
structure Seen (d : DCache Name) (r : Rcu ℕ ℕ) (t : ℕ) (S : Set ℕ) : Prop where
  settled : Settled d S
  cover : ∀ a, d.hashed a → a ∈ S
  closed : ∀ a ∈ S, ∀ b, d.hash.next a = some b → b ∈ S
  hold : ∀ a ∈ S, ∀ n, d.hashed n → (d.dentry n).shell = true → d.hostOf n = a → r.Holds t n

theorem Seen.start (hI : HashOk d) : Seen d r t {a | d.hashed a} := by
  refine ⟨fun a ha => ⟨hI.lt ha, .inl ha⟩, fun a ha => ha, fun a ha b hb => ?_,
    fun a ha n hn hs he => ?_⟩
  · exact ⟨_, hI.family.next_mem (hI.mem_bucket ha) hb⟩
  · subst he
    exact absurd ha (hI.host_not_hashed hn hs)

theorem Seen.spares (hS : Seen d r t S) (hf : ∀ n, folded = some n → d.hashed n ∧
    (d.dentry n).shell = true ∧ ¬ r.Holds t n) : Spares d folded S := by
  rintro a ha n hn rfl
  obtain ⟨hh, hs, hno⟩ := hf n hn
  exact hno (hS.hold _ ha n hh hs rfl)

theorem Seen.step (hI : HashOk d) (hI' : HashOk d') (hH : HashStep d folded d')
    (hf : ∀ n, folded = some n → d.hashed n ∧ (d.dentry n).shell = true ∧ ¬ r.Holds t n)
    (hidle : ∀ n, d.fresh ≤ n → r.callback n = .idle) (hS : Seen d r t S) :
    Seen d' r t (S ∪ {a | d'.hashed a}) := by
  have hsp := hS.spares hf
  refine ⟨?_, fun a ha => .inr ha, ?_, ?_⟩
  · rintro a (ha | ha)
    · obtain ⟨hlt, hk⟩ := hS.settled a ha
      refine ⟨Nat.lt_of_lt_of_le hlt hH.fresh, ?_⟩
      rcases hk with hh | hm
      · exact hH.stays a hh
      · exact .inr (hH.dead a hlt (hsp a ha) hm)
    · exact ⟨hI'.lt ha, .inl ha⟩
  · rintro a (ha | ha) b hb
    · obtain ⟨hlt, -⟩ := hS.settled a ha
      rcases hH.next a hlt (hsp a ha) with he | hnew
      · exact .inl (hS.closed a ha b (he ▸ hb))
      · rcases hnew b hb with hh | hh
        · exact .inr hh
        · exact .inl (hS.cover b hh)
    · exact .inr ⟨_, hI'.family.next_mem (hI'.mem_bucket ha) hb⟩
  · rintro a (ha | ha) n hn hs he
    · rcases hH.came n hn with hh | hge | ⟨k, hk, hke⟩
      · have hlt := hI.lt hh
        rw [(hH.kind n hlt).1] at hs
        rw [hH.kind.hostOf hlt] at he
        exact hS.hold a ha n hh hs he
      · exact .inl (hidle n hge)
      · -- the folded host is no shell
        have hklt := (hI.alloc k (hf k hk).1).1
        obtain ⟨hhlt, hhost⟩ := hI.hostOf_host hklt
        rw [hke, (hH.kind _ hhlt).1, hhost] at hs
        cases hs
    · subst he
      exact absurd ha (hI'.host_not_hashed hn hs)

theorem Seen.rcu {r' : Rcu ℕ ℕ} (hS : Seen d r t S) (hr : ∀ n, r.Holds t n → r'.Holds t n) :
    Seen d r' t S :=
  ⟨hS.settled, hS.cover, hS.closed, fun a ha n hn hs he => hr n (hS.hold a ha n hn hs he)⟩

theorem PcOk.of_not_busy (hb : pc.busy = false) : PcOk d S pc := by
  cases pc <;> trivial

theorem PcOk.mono {S' : Set ℕ} (hP : PcOk d S pc) (hsub : S ⊆ S') :
    PcOk d S' pc := by
  have hL : ∀ {top parent : ℕ} {name : Name}, Latched d S top parent name →
      Latched d S' top parent name := fun h => ⟨hsub h.1, h.2⟩
  cases pc with
  | xchFindB _ topa =>
    cases topa with
    | none => trivial
    | some => exact hL hP
  | lkScan _ node =>
    cases node with
    | none => trivial
    | some => exact hsub hP
  | lkNext => exact hsub hP
  | _ => first
    | trivial
    | exact hP
    | exact hL hP
    | exact ⟨hL hP.1, hL hP.2⟩

theorem PcOk.pending (hP : PcOk d S pc) : ∀ n ∈ pc.pending, IsShell d n := by
  intro n hn
  cases pc with
  | stkClear _ _ o =>
    cases o with
    | done k =>
      obtain rfl : n = k := by simpa [Pc.pending] using hn
      exact hP n rfl
    | _ => simp [Pc.pending] at hn
  | stkQueue k =>
    obtain rfl : n = k := by simpa [Pc.pending] using hn
    exact hP
  | xchClearA _ _ _ o | xchClearB _ _ _ o =>
    cases o with
    | done s =>
      obtain rfl | rfl : n = s.1 ∨ n = s.2 := by simpa [Pc.pending] using hn
      · exact (hP s rfl).1
      · exact (hP s rfl).2
    | _ => simp [Pc.pending] at hn
  | xchQueueA sa sb =>
    obtain rfl | rfl : n = sa ∨ n = sb := by simpa [Pc.pending] using hn
    · exact hP.1
    · exact hP.2
  | xchQueueB sb =>
    obtain rfl : n = sb := by simpa [Pc.pending] using hn
    exact hP
  | _ => simp [Pc.pending] at hn

theorem Pc.pending_of_queues (hn : pc.queues = some n) :
    n ∈ pc.pending := by
  cases pc <;> simp_all [Pc.queues, Pc.pending]

theorem pending_afterStack (m : Move Name) (top : ℕ) (o : Outcome ℕ) :
    (afterStack m o).pending = (Pc.stkClear m top o).pending := by
  cases o <;> rfl

theorem pending_afterExchange (x : Xchg Name) (topa topb : ℕ) (o : Outcome (ℕ × ℕ)) :
    (afterExchange x o).pending = (Pc.xchClearA x topa topb o).pending := by
  cases o <;> rfl

variable [DecidableEq Name]

theorem stkLock_pending (d : DCache Name) (m : Move Name) (top : ℕ) (oom : Bool) :
    (stepPc d (.stkLock m top) oom).2.pending =
      (Pc.stkClear m top (d.stackLocked m top oom).1).pending := by
  simp only [stepPc]
  split_ifs
  · rfl
  · rw [pending_afterStack m top]

theorem xchLock_pending (d : DCache Name) (x : Xchg Name) (topa topb : ℕ) (oom : Bool) :
    (stepPc d (.xchLock x topa topb) oom).2.pending =
      (Pc.xchClearA x topa topb (d.exchangeLocked x topa topb oom).1).pending := by
  simp only [stepPc]
  split_ifs
  · rfl
  · rw [pending_afterExchange x topa topb]

theorem stepPc_pending (d : DCache Name) (pc : Pc Name) (oom : Bool) :
    (∀ n ∈ (stepPc d pc oom).2.pending,
      n ∈ pc.pending ∨ d.fresh ≤ n ∧ n < (stepPc d pc oom).1.fresh) ∧
    (pc.pending.Nodup → (stepPc d pc oom).2.pending.Nodup ∧
      ∀ n ∈ (stepPc d pc oom).2.pending, pc.queues ≠ some n) := by
  by_cases hs : pc.stacks = false
  · rw [(stepPc_successor d pc oom).pending_nil (by simpa using hs)]
    simp
  have hsame : ∀ {pc' : Pc Name}, pc'.pending = pc.pending → pc.queues = none →
      (∀ n ∈ pc'.pending, n ∈ pc.pending ∨ d.fresh ≤ n ∧ n < (stepPc d pc oom).1.fresh) ∧
      (pc.pending.Nodup → pc'.pending.Nodup ∧ ∀ n ∈ pc'.pending, pc.queues ≠ some n) := by
    intro pc' he hq
    rw [he, hq]
    exact ⟨fun n hn => .inl hn, fun hnd => ⟨hnd, fun n _ => by simp⟩⟩
  cases pc with
  | stkLock m top =>
    have hd : (stepPc d (.stkLock m top) oom).1 = (d.stackLocked m top oom).2 := rfl
    rw [stkLock_pending, hd]
    rcases d.stackLocked_cases m top oom with ⟨o, ho, h⟩ | ⟨-, -, d₁, hc, h | h⟩ <;> rw [h]
    · cases o with
      | done s => exact absurd rfl (ho s)
      | _ => simp [Pc.pending]
    · simp [Pc.pending]
    · have hfresh := (destClaimLocked_dropped hc).spec.2.1
      simp [Pc.pending, Pc.queues, hfresh]
  | stkClear m top o => exact hsame (pending_afterStack m top o) rfl
  | xchLock x topa topb =>
    have hd : (stepPc d (.xchLock x topa topb) oom).1 = (d.exchangeLocked x topa topb oom).2 := rfl
    rw [xchLock_pending, hd]
    rcases d.exchangeLocked_cases x topa topb oom with ⟨o, ho, h⟩ | ⟨-, -, h⟩ <;> rw [h]
    · cases o with
      | done s => exact absurd rfl (ho s)
      | _ => simp [Pc.pending]
    · simp [Pc.pending, Pc.queues]
  | xchClearA _ _ _ o | xchClearB _ _ _ o => exact hsame (by cases o <;> rfl) rfl
  | xchQueueA => simp [stepPc, Pc.pending, Pc.queues]
  | _ => exact absurd rfl hs

/-- The second lookup of an exchange with one name finds what the first one found. -/
def Pc.SameTwice (d : DCache Name) : Pc Name → Prop
  | .xchLookB x hosta => x.pa = x.pb → x.na = x.nb → d.childLookup x.pb x.nb = hosta
  | _ => True

theorem Successor.xchg {x : Xchg Name} (h : Successor d pc pc') (hx : pc'.xchg = some x)
    (hst : pc.SameTwice d) : pc.xchg = some x ∨ x.NamesDiffer := by
  cases h with
  | passes h => exact .inl (eq_some_of_passes h.xchg hx)
  | lookB hf hne =>
    obtain rfl := Option.some.inj hx
    exact .inr fun h => hne (Option.some.inj (hf.symm.trans (hst h.1 h.2)).symm)
  | _ => cases hx

structure Inv (s : Sys Name) (S : ℕ → Set ℕ) : Prop where
  hash : HashOk s.d
  rootParent : (s.d.dentry root).parent = root
  shells : ∀ n, s.rcu.callback n ≠ .idle → IsShell s.d n
  reader : ∀ t, (s.pc t).busy = true → t ∈ s.rcu.readers
  seen : ∀ t, (s.pc t).busy = true → Seen s.d s.rcu t (S t)
  pcOk : ∀ t, PcOk s.d (S t) (s.pc t)
  folding : ∀ t n, s.pc t = .fldTest n ∨ s.pc t = .fldLock n → s.rcu.callback n = .invoked
  idle : ∀ t, ∀ n ∈ (s.pc t).pending, s.rcu.callback n = .idle
  apart : ∀ t u, ∀ n ∈ (s.pc t).pending, n ∈ (s.pc u).pending → t = u
  nodup : ∀ t, (s.pc t).pending.Nodup
  names : ∀ t x, (s.pc t).xchg = some x → x.NamesDiffer

namespace Sys

def meet (s : Sys Name) (S : ℕ → Set ℕ) : Act Name → ℕ → Set ℕ
  | .call t _ => update S t {a | s.d.hashed a}
  | .step t oom => fun u => S u ∪ {a | (stepPc s.d (s.pc t) oom).1.hashed a}

def SameTwice (s : Sys Name) : Act Name → Prop
  | .call _ _ => True
  | .step t _ => (s.pc t).SameTwice s.d

end Sys

namespace Inv

variable {s s' : Sys Name} {S : ℕ → Set ℕ} {C : DCache Name → Insertion Name → Prop}

theorem effect (hV : Inv s S) (oom : Bool) (ht : (s.pc t).busy = true)
    (hC : ∀ m top, s.pc t = .stkLock m top → s.d.topUnhashed top = false → C s.d (.move m))
    (hD : ∀ parent ∈ (s.pc t).addDir, C s.d (.add parent)) :
    ∃ folded, Effect C s.d folded (stepPc s.d (s.pc t) oom).1 ∧
      ∀ n, folded = some n → s.d.hashed n ∧ (s.d.dentry n).shell = true ∧
        ∀ u, ¬ s.rcu.Holds u n := by
  obtain ⟨folded, hE, hpc⟩ := stepPc_effect hV.hash (hV.seen t ht).settled (hV.pcOk t)
    (hV.names t) hC hD oom
  refine ⟨folded, hE, fun n hn => ?_⟩
  obtain ⟨hh, hs⟩ := hE.of_folded n hn
  exact ⟨hh, hs, fun u => Rcu.not_holds_of_invoked (hV.folding t n (.inr (hpc n hn)))⟩

omit [DecidableEq Name] in
theorem idle_of_fresh (hV : Inv s S) (hn : s.d.fresh ≤ n) :
    s.rcu.callback n = .idle := by
  by_contra hne
  exact Nat.not_lt.mpr hn (hV.shells n hne).1

end Inv

/-- Where a call stands at its first instruction. -/
inductive Starts : Call Name → Pc Name → Prop where
  | refuse (o : Op Name) (e : Errno) : Starts (.op o) (.ret (some e))
  | walk (o : Op Name) (rest : List Name) (k : Cont Name) (hk : k.opens = true) :
    Starts (.op o) (.walk root rest k)
  | lookup (path : List Name) : Starts (.op (.lookup path)) (.lkStart path)
  | evict (a : ℕ) : Starts (.evict a) (.evTop a)
  | fold (n : ℕ) : Starts (.fold n) (.fldTest n)

section Start

omit [DecidableEq Name]

variable {c : Call Name} {pc : Pc Name}

theorem callStart_starts (c : Call Name) : Starts c (callStart c) := by
  cases c with
  | op o =>
    simp only [callStart, opStart]
    cases h : o.start with
    | refuse e => exact .refuse o e
    | walk dir k => exact .walk o dir k (o.start_opens h)
    | lookup path => exact o.start_lookup h ▸ .lookup path
  | evict a => exact .evict a
  | fold n => exact .fold n

theorem Starts.ok {s : Sys Name} (h : Starts c pc) (hadm : s.admits c = true)
    (hshells : ∀ n, s.rcu.callback n ≠ .idle → IsShell s.d n) : PcOk s.d S pc := by
  cases h with
  | evict a => exact (of_decide_eq_true hadm : a < s.d.fresh)
  | fold n => exact hshells n (Rcu.ne_idle_of_ready hadm)
  | _ => trivial

theorem Starts.pending (h : Starts c pc) : pc.pending = [] := by
  cases h <;> rfl

theorem Starts.xchg (h : Starts c pc) : pc.xchg = none := by
  cases h <;> rfl

theorem Starts.call_eq (h : Starts c pc) (hs : pc = .fldTest n ∨ pc = .fldLock n) :
    c = .fold n := by
  cases h <;> simp_all [Pc.ret, Pc.lkStart]

end Start

namespace Sys

variable {s s' : Sys Name} {c : Call Name} {oom : Bool}

omit [DecidableEq Name] in
theorem rcuAtCall_eq (s : Sys Name) (t : ℕ) (c : Call Name) :
    s.rcuAtCall t c = s.rcu.atCall t c.folded (callStart c).busy := by
  cases c <;> rfl

omit [DecidableEq Name] in
theorem rcuAtStep_eq (s : Sys Name) (t : ℕ) (pc' : Pc Name) :
    s.rcuAtStep t pc' = s.rcu.atStep t (s.pc t).queues pc'.busy := by
  unfold rcuAtStep Rcu.atStep
  cases (s.pc t).queues <;> rfl

omit [DecidableEq Name] in
theorem readers_rcuAtCall (s : Sys Name) (t : ℕ) (c : Call Name) :
    u ∈ (s.rcuAtCall t c).readers ↔ u ∈ s.rcu.readers ∨ u = t ∧ (callStart c).busy = true := by
  rw [rcuAtCall_eq]
  exact Rcu.mem_readers_atCall

theorem callback_rcuAtCall (s : Sys Name) (t : ℕ) (c : Call Name) (n : ℕ) :
    (s.rcuAtCall t c).callback n = if c = .fold n then .invoked else s.rcu.callback n := by
  rw [rcuAtCall_eq, Rcu.callback_atCall]
  cases c <;> simp [Call.folded]

theorem holds_rcuAtCall (hadm : s.admits c = true) (hh : s.rcu.Holds u n) :
    (s.rcuAtCall t c).Holds u n := by
  have hne : c ≠ .fold n := by
    rintro rfl
    exact Rcu.not_holds_of_ready hadm hh
  simpa [Rcu.Holds, callback_rcuAtCall, hne] using hh

omit [DecidableEq Name] in
theorem holds_rcuAtStep {pc' : Pc Name} (hu : u ∈ s.rcu.readers)
    (hne : u ≠ t ∨ pc'.busy = true) (hh : s.rcu.Holds u n) :
    (s.rcuAtStep t pc').Holds u n := by
  rw [rcuAtStep_eq]
  exact Rcu.holds_atStep hu hne hh

omit [DecidableEq Name] in
theorem readers_rcuAtStep {pc' : Pc Name} (hu : u ∈ s.rcu.readers)
    (hne : u ≠ t ∨ pc'.busy = true) : u ∈ (s.rcuAtStep t pc').readers := by
  rw [rcuAtStep_eq]
  exact Rcu.mem_readers_atStep hu hne

omit [DecidableEq Name] in
theorem callback_rcuAtStep {pc' : Pc Name} (n : ℕ) (hn : (s.pc t).queues ≠ some n) :
    ((s.rcuAtStep t pc').callback n = .idle ↔ s.rcu.callback n = .idle) ∧
      ((s.rcuAtStep t pc').callback n = .invoked ↔ s.rcu.callback n = .invoked) := by
  rw [rcuAtStep_eq]
  exact Rcu.callback_atStep hn

end Sys

namespace Inv

variable {s s' : Sys Name} {S : ℕ → Set ℕ} {oom : Bool} {c : Call Name} {a : Act Name}

omit [DecidableEq Name] in
theorem init (bucketOf : ℕ → Name → ℕ) (rootname : Name) (S : ℕ → Set ℕ) :
    Inv (Sys.init bucketOf rootname) S :=
  ⟨dcCreate_hashOk bucketOf rootname, rfl, fun _ hn => absurd rfl hn, by simp [Sys.init, Pc.busy],
    by simp [Sys.init, Pc.busy], fun _ => trivial, by simp [Sys.init],
    by simp [Sys.init, Pc.pending], by simp [Sys.init, Pc.pending],
    by simp [Sys.init, Pc.pending], by simp [Sys.init, Pc.xchg]⟩

theorem call (hV : Inv s S) (hadm : s.admits c = true) :
    Inv ⟨s.d, s.rcuAtCall t c, update s.pc t (callStart c)⟩
      (update S t {a | s.d.hashed a}) := by
  refine ⟨hV.hash, hV.rootParent, fun n hn => ?_, fun u hu => ?_, fun u hu => ?_, fun u => ?_,
    fun u n hn => ?_, fun u n hn => ?_, fun u v n hn hn' => ?_, fun u => ?_, fun u x hu => ?_⟩
  · rw [Sys.callback_rcuAtCall] at hn
    split_ifs at hn with hf
    · subst hf
      exact hV.shells n (Rcu.ne_idle_of_ready hadm)
    · exact hV.shells n hn
  · rw [Sys.readers_rcuAtCall]
    rcases eq_or_ne u t with rfl | hne
    · exact .inr ⟨rfl, by simpa using hu⟩
    · exact .inl (hV.reader u (by simpa [hne] using hu))
  · rcases eq_or_ne u t with rfl | hne
    · rw [update_self]
      exact .start hV.hash
    · rw [update_of_ne hne]
      exact (hV.seen u (by simpa [hne] using hu)).rcu fun n => Sys.holds_rcuAtCall hadm
  · rcases eq_or_ne u t with rfl | hne
    · simp only [update_self]
      exact (callStart_starts c).ok hadm hV.shells
    · simp only [update_of_ne hne]
      exact hV.pcOk u
  · rw [Sys.callback_rcuAtCall]
    split_ifs with hf
    · rfl
    · rcases eq_or_ne u t with rfl | hne
      · simp only [update_self] at hn
        exact absurd ((callStart_starts c).call_eq hn) hf
      · simp only [update_of_ne hne] at hn
        exact hV.folding u n hn
  · rcases eq_or_ne u t with rfl | hne
    · simp [(callStart_starts c).pending] at hn
    · simp only [update_of_ne hne] at hn
      rw [Sys.callback_rcuAtCall, if_neg]
      · exact hV.idle u n hn
      · rintro rfl
        exact Rcu.ne_idle_of_ready hadm (hV.idle u n hn)
  · rcases eq_or_ne u t with rfl | hu
    · simp [(callStart_starts c).pending] at hn
    · rcases eq_or_ne v t with rfl | hv
      · simp [(callStart_starts c).pending] at hn'
      · simp only [update_of_ne hu] at hn
        simp only [update_of_ne hv] at hn'
        exact hV.apart u v n hn hn'
  · rcases eq_or_ne u t with rfl | hne
    · simp [(callStart_starts c).pending]
    · simpa [hne] using hV.nodup u
  · rcases eq_or_ne u t with rfl | hne
    · simp [(callStart_starts c).xchg] at hu
    · exact hV.names u x (by simpa [hne] using hu)

theorem step_pcOk (hV : Inv s S) (ht : (s.pc t).busy = true) {folded : Option ℕ}
    (hH : HashStep s.d folded (stepPc s.d (s.pc t) oom).1)
    (hf : ∀ n, folded = some n → s.d.hashed n ∧ (s.d.dentry n).shell = true ∧
      ∀ u, ¬ s.rcu.Holds u n) (u : ℕ) :
    PcOk (stepPc s.d (s.pc t) oom).1 (s.meet S (.step t oom) u)
      (update s.pc t (stepPc s.d (s.pc t) oom).2 u) := by
  have hother : ∀ u, (s.pc u).busy = true →
      PcOk (stepPc s.d (s.pc t) oom).1 (S u) (s.pc u) := by
    intro u hu
    have hS := hV.seen u hu
    exact (hV.pcOk u).step hH hS.settled
      (hS.spares fun n hn => ⟨(hf n hn).1, (hf n hn).2.1, (hf n hn).2.2 u⟩) (Set.Subset.refl _)
  rcases eq_or_ne u t with rfl | hne
  · have hS := hV.seen u ht
    rw [update_self]
    refine (stepPc_ok hV.hash hS.settled hS.cover hS.closed hV.rootParent (hV.pcOk u)
      (hother u ht)).mono ?_
    exact Set.subset_union_left
  · rw [update_of_ne hne]
    cases hb : (s.pc u).busy with
    | true => exact (hother u hb).mono Set.subset_union_left
    | false => exact PcOk.of_not_busy hb

theorem step (hV : Inv s S) (ht : (s.pc t).busy = true) (hx : (s.pc t).SameTwice s.d) :
    Inv ⟨(stepPc s.d (s.pc t) oom).1, s.rcuAtStep t (stepPc s.d (s.pc t) oom).2,
      update s.pc t (stepPc s.d (s.pc t) oom).2⟩ (s.meet S (.step t oom)) := by
  obtain ⟨folded, hE, hf⟩ := hV.effect (C := fun _ _ => True) oom ht (by simp) (by simp)
  have hI' := hE.hashOk hV.hash
  have hH := hE.hashStep hV.hash
  have hpcOk := hV.step_pcOk ht hH hf
  obtain ⟨hpend, hnd⟩ := stepPc_pending s.d (s.pc t) oom
  obtain ⟨hnd, hqueued⟩ := hnd (hV.nodup t)
  -- a pending shell of any thread after the step was pending before, or is newly allocated
  have hpend' : ∀ u, ∀ n ∈ (update s.pc t (stepPc s.d (s.pc t) oom).2 u).pending,
      n ∈ (s.pc u).pending ∧ (s.pc t).queues ≠ some n ∨ u = t ∧ s.d.fresh ≤ n := by
    intro u n hn
    rcases eq_or_ne u t with rfl | hne
    · rw [update_self] at hn
      exact (hpend n hn).imp (fun h => ⟨h, hqueued n hn⟩) fun h => ⟨rfl, h.1⟩
    · rw [update_of_ne hne] at hn
      exact .inl ⟨hn, fun hq => hne (hV.apart u t n hn (Pc.pending_of_queues hq))⟩
  have hbusy : ∀ u, (update s.pc t (stepPc s.d (s.pc t) oom).2 u).busy = true →
      (s.pc u).busy = true ∧ (u ≠ t ∨ (stepPc s.d (s.pc t) oom).2.busy = true) := by
    intro u hu
    rcases eq_or_ne u t with rfl | hne
    · exact ⟨ht, .inr (by simpa using hu)⟩
    · exact ⟨by simpa [hne] using hu, .inl hne⟩
  refine ⟨hI', (hE.root_parent hV.hash).trans hV.rootParent, fun n hn => ?_, fun u hu => ?_,
    fun u hu => ?_, hpcOk, fun u n hn => ?_, fun u n hn => ?_, fun u v n hn hn' => ?_, fun u => ?_,
    fun u x hu => ?_⟩
  · by_cases hq : (s.pc t).queues = some n
    · exact ((hV.pcOk t).pending n (Pc.pending_of_queues hq)).step hH
    · exact (hV.shells n fun h => hn ((Sys.callback_rcuAtStep n hq).1.mpr h)).step hH
  · obtain ⟨hb, hne⟩ := hbusy u hu
    exact Sys.readers_rcuAtStep (hV.reader u hb) hne
  · obtain ⟨hb, hne⟩ := hbusy u hu
    refine ((hV.seen u hb).step hV.hash hI' hH (fun n hn => ?_) fun n hn =>
      hV.idle_of_fresh hn).rcu fun n => Sys.holds_rcuAtStep (hV.reader u hb) hne
    exact ⟨(hf n hn).1, (hf n hn).2.1, (hf n hn).2.2 u⟩
  · have hinv : s.rcu.callback n = .invoked := by
      rcases eq_or_ne u t with rfl | hne
      · simp only [update_self] at hn
        refine hV.folding u n (.inl ((stepPc_successor s.d _ oom).fold_eq ?_))
        rcases hn with h | h <;> rw [h] <;> rfl
      · simp only [update_of_ne hne] at hn
        exact hV.folding u n hn
    refine (Sys.callback_rcuAtStep n fun hq => ?_).2.mpr hinv
    have := hV.idle t n (Pc.pending_of_queues hq)
    rw [hinv] at this
    cases this
  · rcases hpend' u n hn with ⟨hold, hq⟩ | ⟨-, hge⟩
    · exact (Sys.callback_rcuAtStep n hq).1.mpr (hV.idle u n hold)
    · have hlt := fun h => Nat.not_lt.mpr hge ((hV.pcOk t).pending n h).1
      exact (Sys.callback_rcuAtStep n fun hq => hlt (Pc.pending_of_queues hq)).1.mpr
        (hV.idle_of_fresh hge)
  · have hold : ∀ w, n ∈ (s.pc w).pending → n < s.d.fresh := fun w h =>
      ((hV.pcOk w).pending n h).1
    rcases hpend' u n hn with ⟨h, -⟩ | ⟨hu, hge⟩ <;> rcases hpend' v n hn' with ⟨h', -⟩ | ⟨hv, hge'⟩
    · exact hV.apart u v n h h'
    · exact absurd (hold u h) (Nat.not_lt.mpr hge')
    · exact absurd (hold v h') (Nat.not_lt.mpr hge)
    · exact hu.trans hv.symm
  · rcases eq_or_ne u t with rfl | hne
    · simpa using hnd
    · simpa [hne] using hV.nodup u
  · rcases eq_or_ne u t with rfl | hne
    · exact ((stepPc_successor _ _ oom).xchg (by simpa using hu) hx).elim (hV.names u x) id
    · exact hV.names u x (by simpa [hne] using hu)

theorem act (hV : Inv s S) (hx : s.SameTwice a) (ha : s.act a = some s') :
    Inv s' (s.meet S a) := by
  cases a with
  | call =>
    obtain ⟨-, hadm, rfl⟩ := Sys.of_act_call ha
    exact hV.call hadm
  | step =>
    obtain ⟨hb, rfl⟩ := Sys.of_act_step ha
    exact hV.step hb hx

end Inv

end TrieBenchmark.Bucketlock
