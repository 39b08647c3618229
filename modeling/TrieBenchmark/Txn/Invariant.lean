import TrieBenchmark.Txn.Hold
import TrieBenchmark.Txn.Successor

/-!
The invariant of the lock-free engine. What a thread has met in its section keeps its name and is
not linked again before the section ends: the fold that would do it waits for the section, and
two folds that write to one host do not overlap.
-/

namespace TrieBenchmark.Txn

open Option Function Edits Grace Run

variable {Name : Type} {d d' : Cache Name} {arm : Arm} {touched back : Option ℕ} {r : Rcu ℕ ℕ}
  {t u : ℕ} {S : Set ℕ} {pc : Pc Name} {n : ℕ} {s s' : Sys Name}

structure Seen (d : Cache Name) (r : Rcu ℕ ℕ) (t : ℕ) (S : Set ℕ) : Prop extends Meets d S where
  hold : ∀ a ∈ S, ∀ n, d.linked n → (d.dentry n).shell = true → d.hostOf n = d.hostOf a →
    n = a ∨ r.Holds t n

theorem Seen.start (hI : IndexOk d) : Seen d r t {a | d.linked a} :=
  ⟨⟨fun a ha => hI.alloc a ha, fun _ ha => ha, fun _ ha _ hb => hI.next_linked ha hb⟩,
    fun _ ha _ hn _ he => .inl (hI.hostOf_inj hn ha he)⟩

theorem Meets.step (hI' : IndexOk d') (hH : IndexStep d touched back d')
    (hf : Spares touched back S) (hS : Meets d S) : Meets d' (S ∪ {a | d'.linked a}) := by
  refine ⟨?_, fun a ha => .inr ha, ?_⟩
  · rintro a (ha | ha)
    · exact ⟨Nat.lt_of_lt_of_le (hS.settled a ha).1 hH.fresh, (hS.settled a ha).2⟩
    · exact hI'.alloc a ha
  · rintro a (ha | ha) b hb
    · rcases hH.next a (hf.key a ha) with he | hnew
      · exact .inl (hS.closed a ha b (he ▸ hb))
      · rcases hnew b hb with hl | hl
        · exact .inr hl
        · exact .inl (hS.cover b hl)
    · exact .inr (hI'.next_linked ha hb)

theorem Seen.step (hI : IndexOk d) (hI' : IndexOk d') (hH : IndexStep d touched back d')
    (hf : Spares touched back S) (hback : ∀ h, back = some h → h < d.fresh ∧
      (d.dentry h).shell = false)
    (hidle : ∀ n, d.fresh ≤ n → r.callback n = .idle) (hS : Seen d r t S) :
    Seen d' r t (S ∪ {a | d'.linked a}) := by
  refine ⟨hS.toMeets.step hI' hH hf, ?_⟩
  rintro a (ha | ha) n hn hs he
  · have halt := (hS.settled a ha).1
    rcases hH.came n hn with hl | hge | hb
    · have hlt := hI.lt hl
      rw [(hH.kind n hlt).1] at hs
      rw [hH.kind.hostOf hlt, hH.kind.hostOf halt] at he
      exact hS.hold a ha n hl hs he
    · exact .inr (.inl (hidle n hge))
    · -- the host that is linked again is no shell
      obtain ⟨hlt, hno⟩ := hback n hb
      rw [(hH.kind n hlt).1, hno] at hs
      cases hs
  · exact .inl (hI'.hostOf_inj hn ha he)

theorem Seen.rcu {r' : Rcu ℕ ℕ} (hS : Seen d r t S) (hr : ∀ n, r.Holds t n → r'.Holds t n) :
    Seen d r' t S :=
  ⟨hS.toMeets, fun a ha n hn hs he => (hS.hold a ha n hn hs he).imp id (hr n)⟩

namespace Pc

theorem fold_of_folds (h : pc.folds = some n) : pc.fold = some n := by
  cases pc <;> first | exact h | simp [folds] at h

theorem busy_of_fold (h : pc.fold = some n) : pc.busy = true := by
  cases pc <;> first | rfl | simp [fold, folds] at h

theorem pending_of_queues (hn : pc.queues = some n) : n ∈ pc.pending := by
  cases pc <;> simp_all [queues, pending]

end Pc

theorem PcOk.pending (hP : PcOk arm d S pc) : ∀ n ∈ pc.pending, IsShell d n := by
  intro n hn
  cases pc with
  | stkClear _ _ o =>
    cases o with
    | done k =>
      obtain rfl : n = k := by simpa [Pc.pending] using hn
      exact hP n rfl
    | _ => simp [Pc.pending] at hn
  | stkQueue k =>
    obtain rfl : n = k := by simpa [Pc.pending] using hn
    exact hP
  | xchClearA _ _ _ o | xchClearB _ _ _ o =>
    cases o with
    | done s =>
      obtain rfl | rfl : n = s.1 ∨ n = s.2 := by simpa [Pc.pending] using hn
      · exact (hP s rfl).1
      · exact (hP s rfl).2
    | _ => simp [Pc.pending] at hn
  | xchQueueA sa sb =>
    obtain rfl | rfl : n = sa ∨ n = sb := by simpa [Pc.pending] using hn
    · exact hP.1
    · exact hP.2
  | xchQueueB sb =>
    obtain rfl : n = sb := by simpa [Pc.pending] using hn
    exact hP
  | _ => simp [Pc.pending] at hn

theorem PcOk.folds_mem (hP : PcOk arm d S pc) (hn : pc.folds = some n) :
    IsShell d n ∧ n ∈ S := by
  cases pc with
  | fldSwap | fldName | fldOwn => exact some.inj hn ▸ ⟨hP.1, hP.2.1⟩
  | fldTop | fldCommit => exact some.inj hn ▸ ⟨hP.shell, hP.mem⟩
  | _ => cases hn

theorem pending_stackEnds (m : Move Name) (top : ℕ) (o : Outcome ℕ) :
    (stackEnds m top o).pending = (Pc.stkClear m top o).pending := by
  unfold stackEnds
  split_ifs
  · rfl
  · cases o <;> rfl

theorem pending_exchangeEnds (x : Xchg Name) (topa topb : ℕ) (o : Outcome (ℕ × ℕ)) :
    (exchangeEnds x topa topb o).pending = (Pc.xchClearA x topa topb o).pending := by
  unfold exchangeEnds
  split_ifs
  · rfl
  · cases o <;> rfl

section Start

/-- Where a call stands at its first instruction. -/
inductive Starts (arm : Arm) : Call Name → Pc Name → Prop where
  | refuse (o : Op Name) (e : Errno) : Starts arm (.op o) (.ret (some e))
  | walk (o : Op Name) (rest : List Name) (k : Cont Name) : Starts arm (.op o) (.walk root rest k)
  | lookup (path : List Name) : Starts arm (.op (.lookup path)) (.lkStart arm path)
  | evict (a : ℕ) : Starts arm (.evict a) (.evTop a)
  | fold (n : ℕ) : Starts arm (.fold n) (.fldTest n)

variable {c : Call Name} {pc : Pc Name}

theorem callStart_starts (arm : Arm) (c : Call Name) : Starts arm c (callStart arm c) := by
  cases c with
  | op o =>
    simp only [callStart, opStart]
    cases h : o.start with
    | refuse e => exact .refuse o e
    | walk dir k => exact .walk o dir k
    | lookup path => exact o.start_lookup h ▸ .lookup path
  | evict a => exact .evict a
  | fold n => exact .fold n

theorem Starts.ok {s : Sys Name} (h : Starts arm c pc) (hadm : s.admits c = true)
    (hshells : ∀ n, s.rcu.callback n ≠ .idle → IsShell s.d n) : PcOk arm s.d S pc := by
  cases h with
  | evict a => exact (of_decide_eq_true hadm : a < s.d.fresh)
  | fold n => exact hshells n (Rcu.ne_idle_of_ready hadm)
  | lookup => cases arm <;> trivial
  | _ => trivial

theorem Starts.parts (h : Starts arm c pc) :
    pc.pending = [] ∧ pc.folds = none ∧ pc.fold = c.folded := by
  cases arm <;> cases h <;> exact ⟨rfl, rfl, rfl⟩

theorem Starts.dir {p : ℕ} (h : Starts arm c pc) (hp : pc.dir = some p) : p = root := by
  cases h with
  | walk => exact (some.inj hp).symm
  | lookup => cases arm <;> cases hp
  | _ => cases hp

end Start

variable [DecidableEq Name]

theorem stepPc_pending (arm : Arm) (d : Cache Name) (pc : Pc Name) (ans : Answer) :
    (∀ n ∈ (stepPc arm d pc ans).2.pending,
      n ∈ pc.pending ∨ d.fresh ≤ n ∧ n < (stepPc arm d pc ans).1.fresh) ∧
    (pc.pending.Nodup → (stepPc arm d pc ans).2.pending.Nodup ∧
      ∀ n ∈ (stepPc arm d pc ans).2.pending, pc.queues ≠ some n) := by
  by_cases hs : pc.stacks = false
  · rw [(stepPc_successor arm d pc ans).pending_nil (by simpa using hs)]
    simp
  have hsame : ∀ {pc' : Pc Name}, pc'.pending = pc.pending → pc.queues = none →
      (∀ n ∈ pc'.pending, n ∈ pc.pending ∨ d.fresh ≤ n ∧ n < (stepPc arm d pc ans).1.fresh) ∧
      (pc.pending.Nodup → pc'.pending.Nodup ∧ ∀ n ∈ pc'.pending, pc.queues ≠ some n) := by
    intro pc' he hq
    rw [he, hq]
    exact ⟨fun n hn => .inl hn, fun hnd => ⟨hnd, fun n _ => by simp⟩⟩
  cases pc with
  | stkCommit =>
    simp only [stepPc]
    split_ifs <;> rw [pending_stackEnds]
    · simp [Pc.pending]
    · simp [Pc.pending]
    · simp [Pc.pending, Pc.queues]
  | stkClear _ _ o | xchClearA _ _ _ o | xchClearB _ _ _ o => exact hsame (by cases o <;> rfl) rfl
  | xchCommit =>
    simp only [stepPc]
    split_ifs <;> rw [pending_exchangeEnds]
    · simp [Pc.pending]
    · simp [Pc.pending]
    · simp [Pc.pending, Pc.queues]
  | xchQueueA => simp [stepPc, Pc.pending, Pc.queues]
  | _ => exact absurd rfl hs

theorem childLookup_lt (hI : IndexOk d) {parent host : ℕ} {name : Name}
    (h : d.childLookup parent name = some host) : host < d.fresh := by
  obtain ⟨top, ht, rfl⟩ := map_eq_some_iff.mp h
  exact (hI.hostOf_host (hI.alloc top (hI.findTop_eq_some.mp ht).1).1).1

theorem Successor.dir_eq {pc' : Pc Name} {p : ℕ} (h : Successor arm d pc pc') (hI : IndexOk d)
    (hp : pc'.dir = some p) : pc.dir = some p ∨ p < d.fresh := by
  cases h with
  | passes h => exact .inl ((h.dir.resolve_left (by simp [hp])).symm.trans hp)
  | walk hf =>
    obtain rfl := some.inj hp
    exact .inr (childLookup_lt hI hf)
  | back | victim =>
    obtain rfl := some.inj hp
    exact .inr hI.rootHost.1
  | add | cross | record | recordNeg => exact .inl hp
  | _ => cases hp

namespace Effect

variable {C : Checked Name → Prop}

omit [DecidableEq Name] in
theorem parent_eq (hE : Effect arm C d touched back d') (hI : IndexOk d) {a : ℕ} (ha : a < d.fresh)
    (hmoved : ∀ top, d.linked top → a ≠ d.hostOf top) :
    (d'.dentry a).parent = (d.dentry a).parent := by
  have hmodify : ∀ {b : ℕ} {f : Dentry Name → Dentry Name}, (∀ e, (f e).parent = e.parent) →
      ((d.modify b f).dentry a).parent = (d.dentry a).parent := by
    intro b f hf
    rcases eq_or_ne a b with rfl | hne
    · rw [Cache.modify_self, hf]
    · rw [Cache.modify_of_ne _ _ _ _ hne]
  cases hE with
  | read => rfl
  | flag | ident | flip | name | swap => exact hmodify fun e => rfl
  | add => rw [Cache.addCommit_old ha]
  | remove => rw [Cache.removeCommit_dentry]
  | stack _ top _ ht => rw [Cache.stackCommit_old ha, if_neg (hmoved top ht)]
  | exchange x topa topb hX =>
    obtain ⟨hha, hhb, hab⟩ := hX.hosts hI
    rw [Cache.exchangeCommit_dentry_eq arm x hha hhb hab, if_neg (hmoved topa hX.linkeda),
      if_neg (hmoved topb hX.linkedb), if_neg (Nat.ne_of_lt ha), if_neg (by omega)]
  | fold n hn => rw [Cache.foldCommit_of_ne (hmoved n hn)]

omit [DecidableEq Name] in
theorem root_parent (hE : Effect arm C d touched back d') (hI : IndexOk d) :
    (d'.dentry root).parent = (d.dentry root).parent :=
  hE.parent_eq hI hI.rootHost.1 fun _ ht =>
    (hI.host_ne_root ht).symm

end Effect

structure Inv (arm : Arm) (s : Sys Name) (S : ℕ → Set ℕ) : Prop where
  index : IndexOk s.d
  rootParent : (s.d.dentry root).parent = root
  shells : ∀ n, s.rcu.callback n ≠ .idle → IsShell s.d n
  reader : ∀ t, (s.pc t).busy = true → t ∈ s.rcu.readers
  seen : ∀ t, (s.pc t).busy = true → Seen s.d s.rcu t (S t)
  pcOk : ∀ t, PcOk arm s.d (S t) (s.pc t)
  parents : ParentsOk s.d
  dirs : ∀ t p, (s.pc t).dir = some p → p < s.d.fresh
  folding : ∀ t n, (s.pc t).fold = some n → s.rcu.callback n = .invoked
  once : ∀ t u n, (s.pc t).fold = some n → (s.pc u).fold = some n → t = u
  solo : ∀ t u n k, (s.pc t).folds = some n → (s.pc u).folds = some k →
    s.d.hostOf n = s.d.hostOf k → t = u
  hidden : ∀ t u n, (s.pc t).folds = some n → (s.pc u).busy = true → s.d.hostOf n ∉ S u
  idle : ∀ t, ∀ n ∈ (s.pc t).pending, s.rcu.callback n = .idle
  apart : ∀ t u, ∀ n ∈ (s.pc t).pending, n ∈ (s.pc u).pending → t = u
  nodup : ∀ t, (s.pc t).pending.Nodup

namespace Sys

def meet (arm : Arm) (s : Sys Name) (S : ℕ → Set ℕ) : Act Name → ℕ → Set ℕ
  | .call t _ => update S t {a | s.d.linked a}
  | .step t ans => fun u => S u ∪ {a | (stepPc arm s.d (s.pc t) ans).1.linked a}

end Sys

namespace Inv

variable {s s' : Sys Name} {S : ℕ → Set ℕ} {ans : Answer} {c : Call Name} {a : Act Name}
  {C : Checked Name → Prop}

omit [DecidableEq Name] in
theorem idle_of_fresh (hV : Inv arm s S) (hn : s.d.fresh ≤ n) :
    s.rcu.callback n = .idle := by
  by_contra hne
  exact Nat.not_lt.mpr hn (hV.shells n hne).1

omit [DecidableEq Name] in
theorem isShell_of_fold (hV : Inv arm s S) (hn : (s.pc t).fold = some n) :
    IsShell s.d n :=
  hV.shells n (by rw [hV.folding t n hn]; simp)

omit [DecidableEq Name] in
theorem host_not_linked (hV : Inv arm s S) (hn : (s.pc t).folds = some n) :
    ¬ s.d.linked (s.d.hostOf n) := fun hl =>
  have hb := Pc.busy_of_fold (Pc.fold_of_folds hn)
  hV.hidden t t n hn hb ((hV.seen t hb).cover _ hl)

omit [DecidableEq Name] in
theorem eq_of_linked (hV : Inv arm s S) {n b : ℕ} (hn : (s.pc t).fold = some n)
    (hl : s.d.linked n) (hu : (s.pc u).busy = true) (hb : b ∈ S u)
    (he : s.d.hostOf n = s.d.hostOf b) : n = b :=
  ((hV.seen u hu).hold b hb n hl (hV.isShell_of_fold hn).2 he).resolve_right
    (Rcu.not_holds_of_invoked (hV.folding t n hn))

theorem effect (hV : Inv arm s S) (ans : Answer) (ht : (s.pc t).busy = true)
    (hC : ∀ c, Commits s.d (s.pc t) c → C c) :
    ∃ touched back, Effect arm C s.d touched back (stepPc arm s.d (s.pc t) ans).1 ∧
      (∀ u, (s.pc u).busy = true → Spares touched back (S u)) ∧
      (∀ h, touched = some h → ∃ n, (s.pc t).folds = some n ∧ h = s.d.hostOf n) ∧
      (∀ h, back = some h → (stepPc arm s.d (s.pc t) ans).2.folds = none ∧
        ∃ n, (s.pc t).folds = some n ∧ s.d.linked n ∧ h = s.d.hostOf n) := by
  obtain ⟨touched, back, hE, htouched, hback⟩ := stepPc_effect hV.index (hV.seen t ht).settled
    (hV.pcOk t) (hV.dirs t) (fun n hn => hV.host_not_linked hn) hC ans
  refine ⟨touched, back, hE, fun u hu => ?_, htouched, hback⟩
  have hkey : ∀ a ∈ S u, touched ≠ some a := by
    intro a ha he
    obtain ⟨n, hn, rfl⟩ := htouched a he
    exact hV.hidden t u n hn hu ha
  refine ⟨hkey, fun a ha he => ?_⟩
  obtain ⟨-, n, hn, -, rfl⟩ := hback a he
  exact hV.hidden t u n hn hu ha

omit [DecidableEq Name] in
theorem init (arm : Arm) (bucketOf : ℕ → Name → ℕ) (rootname : Name) (S : ℕ → Set ℕ) :
    Inv arm (Sys.init bucketOf rootname) S := by
  refine ⟨dcCreate_indexOk bucketOf rootname, rfl, fun _ hn => absurd rfl hn, ?_, ?_,
    fun _ => trivial, ?_, ?_, ?_, ?_, ?_, ?_, ?_, ?_, ?_⟩ <;>
    simp [Sys.init, Pc.busy, Pc.fold, Pc.folds, Pc.pending, Pc.dir, ParentsOk, Cache.linked,
      dcCreate]

omit [DecidableEq Name] in
theorem call (hV : Inv arm s S) (hadm : s.admits c = true) :
    Inv arm ⟨s.d, s.rcu.atCall t (c.folded) (callStart arm c).busy,
      update s.pc t (callStart arm c)⟩ (update S t {a | s.d.linked a}) := by
  obtain ⟨hpend, hfolds, hfold⟩ := (callStart_starts arm c).parts
  have hready : ∀ n, c.folded = some n → s.rcu.ready n = true := by
    intro n hn
    cases c with
    | fold => exact some.inj hn ▸ hadm
    | _ => cases hn
  -- what is asked of a thread's folds was asked before, and is nothing for the new call
  have hfolds' : ∀ u n, (update s.pc t (callStart arm c) u).folds = some n →
      u ≠ t ∧ (s.pc u).folds = some n := by
    intro u n hn
    rcases eq_or_ne u t with rfl | hne
    · rw [update_self, hfolds] at hn
      cases hn
    · exact ⟨hne, by simpa [hne] using hn⟩
  have hfold' : ∀ u n, (update s.pc t (callStart arm c) u).fold = some n →
      u = t ∧ c.folded = some n ∨ u ≠ t ∧ (s.pc u).fold = some n := by
    intro u n hn
    rcases eq_or_ne u t with rfl | hne
    · rw [update_self, hfold] at hn
      exact .inl ⟨rfl, hn⟩
    · exact .inr ⟨hne, by simpa [hne] using hn⟩
  have hnot : ∀ u n, (s.pc u).fold = some n → c.folded ≠ some n := by
    intro u n hn hc
    have hr := hready n hc
    simp [Rcu.ready, hV.folding u n hn] at hr
  have hpend' : ∀ u, ∀ n ∈ (update s.pc t (callStart arm c) u).pending,
      n ∈ (s.pc u).pending := by
    intro u n hn
    rcases eq_or_ne u t with rfl | hne
    · rw [update_self, hpend] at hn
      cases hn
    · simpa [hne] using hn
  refine ⟨hV.index, hV.rootParent, fun n hn => ?_, fun u hu => ?_, fun u hu => ?_, fun u => ?_,
    hV.parents, fun u p hp => ?_, fun u n hn => ?_, fun u v n hn hn' => ?_, fun u v n k hn hk he => ?_,
    fun u v n hn hv => ?_,
    fun u n hn => ?_, fun u v n hn hn' => hV.apart u v n (hpend' u n hn) (hpend' v n hn'),
    fun u => ?_⟩
  · rw [Rcu.callback_atCall] at hn
    split_ifs at hn with hf
    · exact hV.shells n (Rcu.ne_idle_of_ready (hready n hf))
    · exact hV.shells n hn
  · rw [Rcu.mem_readers_atCall]
    rcases eq_or_ne u t with rfl | hne
    · exact .inr ⟨rfl, by simpa using hu⟩
    · exact .inl (hV.reader u (by simpa [hne] using hu))
  · rcases eq_or_ne u t with rfl | hne
    · rw [update_self]
      exact .start hV.index
    · rw [update_of_ne hne]
      exact (hV.seen u (by simpa [hne] using hu)).rcu fun n hn => Rcu.holds_atCall hn hready
  · rcases eq_or_ne u t with rfl | hne
    · simp only [update_self]
      exact (callStart_starts arm c).ok hadm hV.shells
    · simp only [update_of_ne hne]
      exact hV.pcOk u
  · rcases eq_or_ne u t with rfl | hne
    · obtain rfl := (callStart_starts arm c).dir (by simpa using hp)
      exact hV.index.rootHost.1
    · exact hV.dirs u p (by simpa [hne] using hp)
  · rw [Rcu.callback_atCall]
    rcases hfold' u n hn with ⟨-, hc⟩ | ⟨-, hn⟩
    · rw [if_pos hc]
    · rw [if_neg (hnot u n hn)]
      exact hV.folding u n hn
  · rcases hfold' u n hn with ⟨hu, hc⟩ | ⟨-, hu⟩ <;> rcases hfold' v n hn' with ⟨hv, hc'⟩ | ⟨-, hv⟩
    · exact hu.trans hv.symm
    · exact absurd hc (hnot v n hv)
    · exact absurd hc' (hnot u n hu)
    · exact hV.once u v n hu hv
  · exact hV.solo u v n k (hfolds' u n hn).2 (hfolds' v k hk).2 he
  · have hu := (hfolds' u n hn).2
    rcases eq_or_ne v t with rfl | hv'
    · rw [update_self]
      exact hV.host_not_linked hu
    · rw [update_of_ne hv']
      exact hV.hidden u v n hu (by simpa [hv'] using hv)
  · rw [Rcu.callback_atCall, if_neg]
    · exact hV.idle u n (hpend' u n hn)
    · intro hc
      exact Rcu.ne_idle_of_ready (hready n hc) (hV.idle u n (hpend' u n hn))
  · rcases eq_or_ne u t with rfl | hne
    · simp [hpend]
    · simpa [hne] using hV.nodup u

theorem step_pcOk (hV : Inv arm s S) (ht : (s.pc t).busy = true)
    (hH : IndexStep s.d touched back (stepPc arm s.d (s.pc t) ans).1)
    (hI' : IndexOk (stepPc arm s.d (s.pc t) ans).1)
    (hf : ∀ u, (s.pc u).busy = true → Spares touched back (S u))
    (htouched : ∀ h, touched = some h → ∃ n, (s.pc t).folds = some n ∧ h = s.d.hostOf n) (u : ℕ) :
    PcOk arm (stepPc arm s.d (s.pc t) ans).1 (s.meet arm S (.step t ans) u)
      (update s.pc t (stepPc arm s.d (s.pc t) ans).2 u) := by
  have hother : ∀ u, (s.pc u).busy = true → (u = t → (s.pc u).folds = none) →
      PcOk arm (stepPc arm s.d (s.pc t) ans).1 (S u) (s.pc u) := by
    intro u hu hself
    refine (hV.pcOk u).step hH hI' hV.index (hV.seen u hu).settled (hf u hu) fun n hn he => ?_
    obtain ⟨k, hk, heq⟩ := htouched _ he
    have hut := hV.solo u t n k hn hk heq
    rw [hself hut] at hn
    cases hn
  rcases eq_or_ne u t with rfl | hne
  · rw [update_self]
    exact (stepPc_ok hV.index (hV.seen u ht).toMeets hV.rootParent (hV.pcOk u)
      fun hno => hother u ht fun _ => hno).mono fun _ => .inl
  · rw [update_of_ne hne]
    cases hb : (s.pc u).busy with
    | true => exact (hother u hb fun he => absurd he hne).mono fun _ => .inl
    | false => exact PcOk.of_not_busy hb

theorem step_folds (hV : Inv arm s S)
    (hn : (update s.pc t (stepPc arm s.d (s.pc t) ans).2 u).folds = some n) :
    (s.pc u).folds = some n ∨
      u = t ∧ s.pc t = .fldTest n ∧ s.d.linked n ∧ (stepPc arm s.d (s.pc t) ans).1 = s.d := by
  rcases eq_or_ne u t with rfl | hne
  · rw [update_self] at hn
    obtain ⟨hfold, hpast⟩ := (stepPc_successor _ _ _ _).fold_eq (Pc.fold_of_folds hn)
    rcases hpast hn with h | ⟨hpc, hm⟩
    · exact .inl h
    · have hs := hV.isShell_of_fold hfold
      have hr : n ≠ root := fun he => absurd hs.2 (by simp [he, hV.index.rootHost.2.1])
      refine .inr ⟨rfl, hpc, (hV.index.live n hs.1 hr).mp hm, ?_⟩
      rw [hpc]
      simp only [stepPc]
      split_ifs <;> rfl
  · exact .inl (by simpa [hne] using hn)

theorem step (hV : Inv arm s S) (ht : (s.pc t).busy = true) :
    Inv arm ⟨(stepPc arm s.d (s.pc t) ans).1,
      s.rcu.atStep t (s.pc t).queues (stepPc arm s.d (s.pc t) ans).2.busy,
      update s.pc t (stepPc arm s.d (s.pc t) ans).2⟩ (s.meet arm S (.step t ans)) := by
  obtain ⟨touched, back, hE, hf, htouched, hback⟩ :
      ∃ touched back, Effect arm (fun _ => True) s.d touched back
        (stepPc arm s.d (s.pc t) ans).1 ∧ _ := hV.effect ans ht fun _ _ => trivial
  have hI' := hE.indexOk hV.index
  have hH := hE.indexStep hV.index
  obtain ⟨hpend, hnd⟩ := stepPc_pending arm s.d (s.pc t) ans
  obtain ⟨hnd, hqueued⟩ := hnd (hV.nodup t)
  -- a pending shell of any thread after the step was pending before, or is newly allocated
  have hpend' : ∀ u, ∀ n ∈ (update s.pc t (stepPc arm s.d (s.pc t) ans).2 u).pending,
      n ∈ (s.pc u).pending ∧ (s.pc t).queues ≠ some n ∨ u = t ∧ s.d.fresh ≤ n := by
    intro u n hn
    rcases eq_or_ne u t with rfl | hne
    · rw [update_self] at hn
      exact (hpend n hn).imp (fun h => ⟨h, hqueued n hn⟩) fun h => ⟨rfl, h.1⟩
    · rw [update_of_ne hne] at hn
      exact .inl ⟨hn, fun hq => hne (hV.apart u t n hn (Pc.pending_of_queues hq))⟩
  have hbusy : ∀ u, (update s.pc t (stepPc arm s.d (s.pc t) ans).2 u).busy = true →
      (s.pc u).busy = true ∧ (u ≠ t ∨ (stepPc arm s.d (s.pc t) ans).2.busy = true) := by
    intro u hu
    rcases eq_or_ne u t with rfl | hne
    · exact ⟨ht, .inr (by simpa using hu)⟩
    · exact ⟨by simpa [hne] using hu, .inl hne⟩
  have hfold' : ∀ u n, (update s.pc t (stepPc arm s.d (s.pc t) ans).2 u).fold = some n →
      (s.pc u).fold = some n := by
    intro u n hn
    rcases eq_or_ne u t with rfl | hne
    · rw [update_self] at hn
      exact ((stepPc_successor _ _ _ _).fold_eq hn).1
    · simpa [hne] using hn
  have hhost : ∀ u n, (update s.pc t (stepPc arm s.d (s.pc t) ans).2 u).folds = some n →
      (stepPc arm s.d (s.pc t) ans).1.hostOf n = s.d.hostOf n := fun u n hn =>
    hH.kind.hostOf (hV.isShell_of_fold (hfold' u n (Pc.fold_of_folds hn))).1
  refine ⟨hI', (hE.root_parent hV.index).trans hV.rootParent, fun n hn => ?_, fun u hu => ?_,
    fun u hu => ?_, hV.step_pcOk ht hH hI' hf htouched, hE.parentsOk hV.index hV.parents,
    fun u p hp => ?_, fun u n hn => ?_,
    fun u v n hn hn' => hV.once u v n (hfold' u n hn) (hfold' v n hn'),
    fun u v n k hn hk he => ?_, fun u v n hn hv => ?_, fun u n hn => ?_, fun u v n hn hn' => ?_,
    fun u => ?_⟩
  · by_cases hq : (s.pc t).queues = some n
    · exact ((hV.pcOk t).pending n (Pc.pending_of_queues hq)).step hH
    · exact (hV.shells n fun h => hn ((Rcu.callback_atStep hq).1.mpr h)).step hH
  · obtain ⟨hb, hne⟩ := hbusy u hu
    exact Rcu.mem_readers_atStep (hV.reader u hb) hne
  · obtain ⟨hb, hne⟩ := hbusy u hu
    refine ((hV.seen u hb).step hV.index hI' hH (hf u hb) (fun h hh => ?_) fun n hn =>
      hV.idle_of_fresh hn).rcu fun n => Rcu.holds_atStep (hV.reader u hb) hne
    obtain ⟨-, n, hn, -, rfl⟩ := hback h hh
    exact hV.index.hostOf_host (hV.isShell_of_fold (Pc.fold_of_folds hn)).1
  · refine Nat.lt_of_lt_of_le ?_ hH.fresh
    rcases eq_or_ne u t with rfl | hne
    · have hp' : (stepPc arm s.d (s.pc u) ans).2.dir = some p := by simpa using hp
      rcases (stepPc_successor _ _ _ _).dir_eq hV.index hp' with h | h
      · exact hV.dirs u p h
      · exact h
    · exact hV.dirs u p (by simpa [hne] using hp)
  · have hinv := hV.folding u n (hfold' u n hn)
    refine (Rcu.callback_atStep fun hq => ?_).2.mpr hinv
    have := hV.idle t n (Pc.pending_of_queues hq)
    rw [hinv] at this
    cases this
  · rw [hhost u n hn, hhost v k hk] at he
    rcases hV.step_folds hn with hu | ⟨rfl, hpc, hl, -⟩ <;>
      rcases hV.step_folds hk with hv | ⟨rfl, hpc', hl', -⟩
    · exact hV.solo u v n k hu hv he
    · have hb := Pc.busy_of_fold (Pc.fold_of_folds hu)
      have hkn : k = n := hV.eq_of_linked (by rw [hpc']; rfl) hl' hb
        ((hV.pcOk u).folds_mem hu).2 he.symm
      exact hV.once u v n (Pc.fold_of_folds hu) (by rw [hpc', hkn]; rfl)
    · have hb := Pc.busy_of_fold (Pc.fold_of_folds hv)
      have hnk : n = k := hV.eq_of_linked (by rw [hpc]; rfl) hl hb
        ((hV.pcOk v).folds_mem hv).2 he
      exact hV.once u v k (by rw [hpc, hnk]; rfl) (Pc.fold_of_folds hv)
    · rfl
  · obtain ⟨hvb, -⟩ := hbusy v hv
    show _ ∉ S v ∪ _
    rw [hhost u n hn]
    have hn₀ := hn
    rcases hV.step_folds hn with hu | ⟨rfl, hpc, hl, hd⟩
    · rintro (hmem | hmem)
      · exact hV.hidden u v n hu hvb hmem
      · rcases hH.came _ hmem with hl | hge | hb
        · exact hV.host_not_linked hu hl
        · exact Nat.not_lt.mpr hge (hV.index.hostOf_host
            (hV.isShell_of_fold (Pc.fold_of_folds hu)).1).1
        · -- only the fold's own commit links its host, and that ends the fold
          obtain ⟨hend, k, hk, -, he⟩ := hback _ hb
          obtain rfl := hV.solo u t n k hu hk he
          simp [hend] at hn₀
    · have hs := hV.isShell_of_fold (t := u) (n := n) (by rw [hpc]; rfl)
      have hmem : s.d.hostOf n ∉ S v := by
        intro hmem
        have he := hV.eq_of_linked (t := u) (by rw [hpc]; rfl) hl hvb hmem
          (hV.index.hostOf_hostOf hs.1).symm
        have hh := (hV.index.hostOf_host hs.1).2
        rw [← he, hs.2] at hh
        cases hh
      rintro (hmem' | hmem')
      · exact hmem hmem'
      · have hl' : (stepPc arm s.d (s.pc u) ans).1.linked (s.d.hostOf n) := hmem'
        rw [hd] at hl'
        exact hmem ((hV.seen v hvb).cover _ hl')
  · rcases hpend' u n hn with ⟨hold, hq⟩ | ⟨-, hge⟩
    · exact (Rcu.callback_atStep hq).1.mpr (hV.idle u n hold)
    · have hlt := fun h => Nat.not_lt.mpr hge ((hV.pcOk t).pending n h).1
      exact (Rcu.callback_atStep fun hq => hlt (Pc.pending_of_queues hq)).1.mpr
        (hV.idle_of_fresh hge)
  · have hold : ∀ w, n ∈ (s.pc w).pending → n < s.d.fresh := fun w h =>
      ((hV.pcOk w).pending n h).1
    rcases hpend' u n hn with ⟨h, -⟩ | ⟨hu, hge⟩ <;> rcases hpend' v n hn' with ⟨h', -⟩ | ⟨hv, hge'⟩
    · exact hV.apart u v n h h'
    · exact absurd (hold u h) (Nat.not_lt.mpr hge')
    · exact absurd (hold v h') (Nat.not_lt.mpr hge)
    · exact hu.trans hv.symm
  · rcases eq_or_ne u t with rfl | hne
    · simpa using hnd
    · simpa [hne] using hV.nodup u

end Inv

theorem Sys.act_cases {a : Act Name} (ha : s.act arm a = some s') :
    (∃ t c, a = .call t c ∧ (s.pc t).busy = false ∧ s.admits c = true ∧
      s' = ⟨s.d, s.rcu.atCall t (c.folded) (callStart arm c).busy,
        update s.pc t (callStart arm c)⟩) ∨
    ∃ t ans, a = .step t ans ∧ (s.pc t).busy = true ∧
      s' = ⟨(stepPc arm s.d (s.pc t) ans).1,
        s.rcu.atStep t (s.pc t).queues (stepPc arm s.d (s.pc t) ans).2.busy,
        update s.pc t (stepPc arm s.d (s.pc t) ans).2⟩ := by
  cases a with
  | call t c =>
    simp only [Sys.act] at ha
    split_ifs at ha with hc
    simp only [Bool.and_eq_true, Bool.not_eq_true'] at hc
    exact .inl ⟨t, c, rfl, hc.1, hc.2, (some.inj ha).symm⟩
  | step t ans =>
    simp only [Sys.act] at ha
    split_ifs at ha with hb
    exact .inr ⟨t, ans, rfl, hb, (some.inj ha).symm⟩

theorem Inv.act {S : ℕ → Set ℕ} {a : Act Name} (hV : Inv arm s S)
    (ha : s.act arm a = some s') : Inv arm s' (s.meet arm S a) := by
  rcases Sys.act_cases ha with ⟨t, c, rfl, -, hadm, rfl⟩ | ⟨t, ans, rfl, hb, rfl⟩
  · exact hV.call hadm
  · exact hV.step hb

theorem Inv.reach {s : Sys Name} {ok : Sys Name → Act Name → Prop} {bucketOf : ℕ → Name → ℕ}
    {rootname : Name} (hr : Reach (Sys.act arm) ok (Sys.init bucketOf rootname) s) :
    ∃ S, Inv arm s S :=
  hr.invariant (P := fun s => ∃ S, Inv arm s S) ⟨fun _ => ∅, .init arm bucketOf rootname _⟩
    fun _ _ _ ⟨_, hV⟩ _ ha => ⟨_, hV.act ha⟩

/-- An action is one of the effects; `C` is what is known of the commits. A host comes back to the
index only where a thread folds its shell. -/
theorem Inv.effect_of_act {S : ℕ → Set ℕ} {a : Act Name}
    {C : Checked Name → Prop} (hV : Inv arm s S) (ha : s.act arm a = some s')
    (hC : ∀ t ans, a = .step t ans → ∀ c, Commits s.d (s.pc t) c → C c) :
    ∃ touched back, Effect arm C s.d touched back s'.d ∧
      (∀ u, (s.pc u).busy = true → Spares touched back (S u)) ∧
      ∀ h, back = some h → ∃ u n, (s.pc u).folds = some n ∧ s.d.linked n ∧ h = s.d.hostOf n := by
  rcases Sys.act_cases ha with ⟨t, c, rfl, -, -, rfl⟩ | ⟨t, ans, rfl, hb, rfl⟩
  · exact ⟨none, none, .read, fun _ _ => ⟨by simp, by simp⟩, by simp⟩
  · obtain ⟨touched, back, hE, hf, -, hback⟩ := hV.effect ans hb (hC t ans rfl)
    exact ⟨touched, back, hE, hf, fun h hh => ⟨t, (hback h hh).2⟩⟩

end TrieBenchmark.Txn
