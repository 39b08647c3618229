import TrieBenchmark.Lib.Session
import TrieBenchmark.Bucketlock.FoldTiming

/-!
One client whose calls run one at a time, with every pending fold run before the next call:
no shell is left in the index between two calls, so every call serves the map.
-/

namespace TrieBenchmark.Bucketlock

open Option Serial Session

variable {Name : Type} [DecidableEq Name]

def driver (t : ℕ) : Driver (Sys Name) (Op Name) Ret where
  start o s := s.act (.call t (.op o))
  step s := s.act (.step t false)
  reply s := match s.pc t with
    | .done r => some r
    | _ => none
  due s := (List.range s.d.fresh).filter s.rcu.ready
  invoke n s := s.act (.call t (.fold n))

variable {s s₁ s' : Sys Name} {t fuel n : ℕ} {d : DCache Name}

theorem driver_finish (t fuel : ℕ) (s : Sys Name) :
    (driver t).finish fuel s = s.finish ⟨false, false⟩ t fuel := by
  induction fuel generalizing s with
  | zero => rfl
  | succ _ ih =>
    have hoom : (s.pc t).oom ⟨false, false⟩ = false := by cases s.pc t <;> rfl
    rw [Driver.finish, Sys.finish, hoom]
    cases hb : (s.pc t).busy with
    | true =>
      have hact := Sys.act_step hb false
      simp only [driver, hact, if_true, bind_some]
      exact ih _
    | false =>
      have hact : s.act (.step t false) = none := by simp [Sys.act, hb]
      simp [driver, hact]

theorem finish_invariant {plan : Plan} {P : Sys Name → Prop}
    (hstep : ∀ s s' oom, P s → s.act (.step t oom) = some s' → P s') (hs : P s)
    (hf : s.finish plan t fuel = some s') : P s' ∧ (s'.pc t).busy = false := by
  induction fuel generalizing s with
  | zero => cases hf
  | succ _ ih =>
    rw [Sys.finish] at hf
    split_ifs at hf with hb
    · obtain ⟨s₁, ha, hf⟩ := bind_eq_some_iff.mp hf
      exact ih (hstep _ _ _ hs ha) hf
    · obtain rfl := some.inj hf
      exact ⟨hs, by simpa using hb⟩

def Pc.allocs : Pc Name → Bool
  | .addLock .. | .stkLock .. | .xchLock .. => true
  | _ => false

omit [DecidableEq Name] in
theorem Write.fresh {pc : Pc Name} {d' : DCache Name} (hW : Write d pc d')
    (ha : pc.allocs = false) : d'.fresh = d.fresh := by
  cases hW with
  | del _ hd => exact hd.spec.2.1
  | add | stack | exchange => cases ha
  | _ => rfl

theorem stepPc_new_pending {pc : Pc Name} {oom : Bool} (hge : d.fresh ≤ n)
    (hlt : n < (stepPc d pc oom).1.fresh) (hs : ((stepPc d pc oom).1.dentry n).shell = true) :
    n ∈ (stepPc d pc oom).2.pending := by
  have hold : ∀ {d' : DCache Name}, (stepPc d pc oom).1 = d' → d'.fresh ≠ d.fresh := by
    intro d' he hfresh
    rw [he, hfresh] at hlt
    omega
  cases pc with
  | stkLock m top =>
    have hd : (stepPc d (.stkLock m top) oom).1 = (d.stackLocked m top oom).2 := rfl
    rw [stkLock_pending]
    rw [hd] at hlt hold
    rcases d.stackLocked_cases m top oom with ⟨o, -, h⟩ | ⟨-, -, d₁, hc, h | h⟩
    · exact absurd rfl (hold (by rw [h]))
    · exact absurd (destClaimLocked_dropped hc).spec.2.1 (hold (by rw [h]))
    · have hfresh := (destClaimLocked_dropped hc).spec.2.1
      rw [h, DCache.stackCommit_fresh] at hlt
      have hn : n = d₁.fresh := by omega
      simp [h, Pc.pending, hn]
  | xchLock x topa topb =>
    have hd : (stepPc d (.xchLock x topa topb) oom).1 = (d.exchangeLocked x topa topb oom).2 := rfl
    rw [xchLock_pending]
    rw [hd] at hlt hold
    rcases d.exchangeLocked_cases x topa topb oom with ⟨o, -, h⟩ | ⟨-, -, h⟩
    · exact absurd rfl (hold (by rw [h]))
    · rw [h, DCache.exchangeCommit_fresh] at hlt
      have hn : n = d.fresh ∨ n = d.fresh + 1 := by omega
      simpa [h, Pc.pending] using hn
  | addLock parent name id isdir positive =>
    rcases d.addLocked_cases parent name id isdir positive with ⟨e, he⟩ | ⟨-, -, -, he⟩
    · exact absurd rfl (hold (by simp only [stepPc, he]))
    · simp only [stepPc, he] at hlt hs
      obtain rfl : n = d.fresh := by
        have : (d.addCommit parent name id isdir positive).fresh = d.fresh + 1 := rfl
        omega
      rw [addCommit_dentry_fresh] at hs
      cases hs
  | _ => exact absurd ((stepPc_write d _ oom).fresh rfl) (hold rfl)

theorem stepPc_keeps_pending {pc : Pc Name} {oom : Bool} (hn : n ∈ pc.pending) :
    n ∈ (stepPc d pc oom).2.pending ∨ pc.queues = some n := by
  cases pc with
  | stkClear m top =>
    left
    simpa only [stepPc, pending_afterStack m top] using hn
  | xchClearA _ _ _ o | xchClearB _ _ _ o =>
    left
    cases o with
    | done => exact hn
    | _ => cases hn
  | stkQueue | xchQueueB =>
    right
    simpa [Pc.pending, Pc.queues, eq_comm] using hn
  | xchQueueA => simpa [Pc.pending, Pc.queues, stepPc, or_comm, eq_comm] using hn
  | _ => cases hn

/-- Only thread `t` runs, and it owes or has queued the fold of every shell in the index that is
not in `E`. -/
structure Lone (t : ℕ) (E : Set ℕ) (s : Sys Name) : Prop where
  sound : Sound s
  current : Current s t
  only : s.rcu.Only t (s.pc t).busy
  owed : ∀ n, s.d.hashed n → (s.d.dentry n).shell = true →
    n ∈ E ∨ n ∈ (s.pc t).pending ∨ s.rcu.Queued n

namespace Lone

variable {E : Set ℕ}

theorem step {oom : Bool} (hs : Lone t E s) (ha : s.act (.step t oom) = some s') :
    Lone t E s' := by
  have hsound := hs.sound.act (hs.current.careful hs.sound rfl) ha
  have hcurrent := hs.current.act rfl ha
  have hb : (s.pc t).busy = true := by
    by_contra hb
    simp [Sys.act, hb] at ha
  rw [Sys.act_step hb] at ha
  obtain rfl := some.inj ha
  obtain ⟨S, hV⟩ := hs.sound.inv
  obtain ⟨folded, hE, hfold⟩ := hV.effect (C := fun _ _ => True) oom hb (by simp) (by simp)
  have hH := hE.hashStep hV.hash
  have honly := hs.only
  rw [hb] at honly
  refine ⟨hsound, hcurrent, ?_, fun n hn hshell => ?_⟩
  · simp only [Function.update_self, Sys.rcuAtStep_eq]
    exact honly.atStep
  simp only [Function.update_self, Sys.rcuAtStep_eq]
  rcases hH.came n hn with hold | hge | ⟨k, hk, rfl⟩
  · rw [(hH.kind n (hV.hash.lt hold)).1] at hshell
    rcases hs.owed n hold hshell with hin | hpend | hq
    · exact .inl hin
    · have hkeep : n ∈ (stepPc s.d (s.pc t) oom).2.pending ∨ _ := stepPc_keeps_pending hpend
      rcases hkeep with hp | hq
      · exact .inr (.inl hp)
      · exact .inr (.inr (Grace.Rcu.queued_atStep.mpr (.inr hq)))
    · exact .inr (.inr (Grace.Rcu.queued_atStep.mpr (.inl hq)))
  · exact .inr (.inl (stepPc_new_pending hge (hsound.hash.lt hn) hshell))
  · -- a fold puts a host back, not a shell
    have hhost := hV.hash.hostOf_host (hV.hash.alloc k (hfold k hk).1).1
    rw [(hH.kind _ hhost.1).1, hhost.2] at hshell
    cases hshell

theorem finish (hs : Lone t E s) (hf : s.finish ⟨false, false⟩ t fuel = some s') :
    Lone t E s' ∧ (s'.pc t).busy = false :=
  finish_invariant (fun _ _ _ hs ha => hs.step ha) hs hf

theorem call {c : Call Name} (hs : Lone t E s) (hidle : (s.pc t).busy = false)
    (ha : s.act (.call t c) = some s₁) : Lone t (E ∪ {n | c = .fold n}) s₁ := by
  have hsound := hs.sound.act (hs.current.careful hs.sound rfl) ha
  have hcurrent := hs.current.act rfl ha
  have hpend : (s.pc t).pending = [] := by
    cases hpc : s.pc t <;> simp [hpc, Pc.busy] at hidle <;> rfl
  obtain ⟨-, -, rfl⟩ := Sys.of_act_call ha
  have honly := hs.only
  rw [hidle] at honly
  refine ⟨hsound, hcurrent, ?_, fun n hn hshell => ?_⟩
  · simp only [Function.update_self, Sys.rcuAtCall_eq]
    exact honly.atCall
  simp only [Sys.rcuAtCall_eq]
  rcases hs.owed n hn hshell with hin | hp | hq
  · exact .inl (.inl hin)
  · simp [hpend] at hp
  · by_cases hfold : c = .fold n
    · exact .inl (.inr hfold)
    · refine .inr (.inr (Grace.Rcu.queued_atCall.mpr ⟨hq, fun he => hfold ?_⟩))
      cases c <;> simp_all [Call.folded]

end Lone

omit [DecidableEq Name] in
theorem HashOk.foldLocked_shells (hI : HashOk d) {n m : ℕ} (hn : IsShell d n)
    (hm : (d.foldLocked n false).hashed m) (hs : ((d.foldLocked n false).dentry m).shell = true) :
    d.hashed m ∧ (d.dentry m).shell = true ∧ m ≠ n := by
  rw [DCache.foldLocked_eq, if_neg Bool.false_ne_true] at hm hs
  split_ifs at hm hs with hout
  · refine ⟨hm, hs, ?_⟩
    rintro rfl
    exact absurd hout (by simp [hI.not_marked hm])
  · have hh := hI.hashed_of_shell hn (by simpa using hout)
    have hhost := hI.hostOf_host (hI.lt hh)
    have hne : m ≠ d.hostOf n := by
      rintro rfl
      rw [foldCommit_dentry_host, hhost.2] at hs
      cases hs
    rw [foldCommit_dentry_of_ne hne] at hs
    rcases (hI.fold_edit hh hn.2).hashed_iff.mp hm with ⟨hold, hout⟩ | hin
    · exact ⟨hold, hs, by simpa using hout⟩
    · exact absurd (by simpa using hin) hne

/-- Thread `t` has returned from its call. Of the shells in the index the folds are in `ns`,
queued; the cache has the names and the allocations of `v`. -/
structure Between (t : ℕ) (ns : List ℕ) (s : Sys Name) (v : ℕ × PathMap Name) : Prop where
  lone : Lone t ∅ s
  flags : FlagsOnly s.d ∅
  idle : (s.pc t).busy = false
  nodup : ns.Nodup
  queued : ∀ n ∈ ns, s.rcu.Queued n
  shells : ∀ n, s.d.hashed n → (s.d.dentry n).shell = true → n ∈ ns
  fresh : s.d.fresh = v.1
  names : s.d.names = v.2

namespace Between

variable {ns : List ℕ} {v : ℕ × PathMap Name}

theorem atRest (hs : Between t ns s v) : AtRest t s :=
  ⟨hs.lone.sound, hs.lone.current, hs.flags⟩

theorem ready (hs : Between t ns s v) (hq : s.rcu.Queued n) : s.rcu.ready n = true := by
  have honly := hs.lone.only
  rw [hs.idle] at honly
  exact honly.ready hq

theorem act_call (hs : Between t ns s v) {c : Call Name} (hadm : s.admits c = true) :
    ∃ s₁, s.act (.call t c) = some s₁ := by
  simp [Sys.act, hs.idle, hadm]

theorem init (bucketOf : ℕ → Name → ℕ) (rootname : Name) (t : ℕ) :
    Between t [] (Sys.init bucketOf rootname)
      (1, (dcCreate bucketOf rootname).names) := by
  have hrest := AtRest.init bucketOf rootname t
  have hshell : ∀ n, ((Sys.init bucketOf rootname).d.dentry n).shell = false := fun _ => rfl
  refine ⟨⟨hrest.sound, hrest.current, .init t, fun n _ hs => ?_⟩, hrest.flags, rfl, .nil, by simp,
    fun n _ hs => ?_, rfl, rfl⟩
  · rw [hshell] at hs
    cases hs
  · rw [hshell] at hs
    cases hs

theorem fold (hs : Between t (n :: ns) s v) : ∃ s₁, s.act (.call t (.fold n)) = some s₁ ∧
    ∃ fuel s', s₁.finish ⟨false, false⟩ t fuel = some s' ∧ Between t ns s' v := by
  obtain ⟨s₁, ha⟩ := hs.act_call (c := .fold n) (hs.ready (hs.queued n (by simp)))
  obtain ⟨fuel, s', hf⟩ := hs.atRest.returns (c := .fold n) rfl ha ⟨false, false⟩
  refine ⟨s₁, ha, fuel, s', hf, ?_⟩
  obtain ⟨hrest, hnames, hfresh⟩ := hs.atRest.fold ha hf
  obtain ⟨hlone, hidle⟩ := (hs.lone.call hs.idle ha).finish hf
  obtain ⟨hd, hpc, hready⟩ := Sys.act_call ha
  obtain ⟨S, hV⟩ := hs.lone.sound.inv
  have hshell : IsShell s.d n := hV.shells n (Grace.Rcu.ne_idle_of_ready hready)
  have hrun := runs_fold ⟨false, false⟩ s.d n
  rw [← hd, ← show s₁.pc t = .fldTest n from hpc] at hrun
  obtain ⟨hd', -⟩ := finish_eq hf hrun
  rw [hd] at hd'
  have hleft : ∀ m, s'.d.hashed m → (s'.d.dentry m).shell = true →
      s.d.hashed m ∧ (s.d.dentry m).shell = true ∧ m ≠ n := by
    rw [hd']
    exact fun m => hV.hash.foldLocked_shells hshell
  obtain ⟨hnotin, hnd⟩ := List.nodup_cons.mp hs.nodup
  refine ⟨⟨hlone.sound, hlone.current, hlone.only, fun m hm hms => ?_⟩, hrest.flags, hidle, hnd,
    fun m hm => ?_, fun m hm hms => ?_, hfresh.trans hs.fresh, hnames.trans hs.names⟩
  · rcases hlone.owed m hm hms with hin | hin
    · exact absurd (by simpa [eq_comm] using hin) (hleft m hm hms).2.2
    · exact .inr hin
  · have hq₁ : s₁.rcu.Queued m := by
      obtain ⟨-, -, rfl⟩ := Sys.of_act_call ha
      rw [Sys.rcuAtCall_eq, Grace.Rcu.queued_atCall]
      refine ⟨hs.queued m (by simp [hm]), fun he => hnotin ?_⟩
      obtain rfl : n = m := by simpa [Call.folded] using he
      exact hm
    refine (finish_invariant (P := fun s => s.rcu.Queued m) (fun s s' oom hq ha => ?_) hq₁ hf).1
    obtain ⟨-, rfl⟩ := Sys.of_act_step ha
    rw [Sys.rcuAtStep_eq, Grace.Rcu.queued_atStep]
    exact .inl hq
  · obtain ⟨hold, holds, hne⟩ := hleft m hm hms
    exact (List.mem_cons.mp (hs.shells m hold holds)).resolve_left hne

theorem op (hs : Between t [] s v) {o : Op Name} (hfit : o.Fits) :
    ∃ s₁, s.act (.call t (.op o)) = some s₁ ∧ ∃ fuel s',
      s₁.finish ⟨false, false⟩ t fuel = some s' ∧
      s'.pc t = .done (serve v.1 ⟨false, false⟩ v.2 o).1 ∧
      Between t ((driver t).due s') s' (v.1 + spent v.1 ⟨false, false⟩ v.2 o,
        (serve v.1 ⟨false, false⟩ v.2 o).2) := by
  have hset : s.d.settledFor o = true := by
    cases o with
    | rename src dst =>
      simp only [DCache.settledFor, Bool.not_eq_true', DCache.destUnsettled]
      split
      · split
        · rename_i cur hcur
          have hh := (hs.lone.sound.hash.findTop_eq_some.mp hcur).1
          cases hshell : (s.d.dentry cur).shell with
          | false => simp
          | true => cases hs.shells cur hh hshell
        · rfl
      · rfl
    | _ => rfl
  have hok : s.settled (.op o) = true := by simp [Sys.settled, hfit, hset]
  obtain ⟨s₁, ha⟩ := hs.act_call (c := .op o) rfl
  obtain ⟨fuel, s', hf⟩ := hs.atRest.returns hok ha ⟨false, false⟩
  obtain ⟨hrest, hpc, hnames, hfresh⟩ := hs.atRest.op hfit hset ha hf
  obtain ⟨hlone, hidle⟩ := (hs.lone.call hs.idle ha).finish hf
  rw [hs.fresh, hs.names] at hpc hnames hfresh
  refine ⟨s₁, ha, fuel, s', hf, hpc, ?_⟩
  have hpend : (s'.pc t).pending = [] := by rw [hpc]; rfl
  have howed : ∀ n, s'.d.hashed n → (s'.d.dentry n).shell = true → s'.rcu.Queued n := by
    intro n hn hns
    rcases hlone.owed n hn hns with hin | hin | hq
    · simp at hin
    · simp [hpend] at hin
    · exact hq
  have honly := hlone.only
  rw [hidle] at honly
  refine ⟨⟨hlone.sound, hlone.current, hlone.only, fun n hn hns => .inr (.inr (howed n hn hns))⟩,
    hrest.flags, hidle, List.nodup_range.filter _, fun n hn => ?_, fun n hn hns => ?_, hfresh,
    hnames⟩
  · exact .of_ready (List.mem_filter.mp hn).2
  · exact List.mem_filter.mpr ⟨List.mem_range.mpr (hlone.sound.hash.lt hn),
      honly.ready (howed n hn hns)⟩

end Between

theorem driver_refines (t : ℕ) :
    Refines (driver t) (fun (s : Sys Name) v => Between t [] s v) Op.Fits serveNext := by
  intro s v o hs hfit
  obtain ⟨s₁, hstart, fuel₁, s₂, hf, hpc, hs₂⟩ := hs.op hfit
  obtain ⟨fuel₂, s₃, hdrain, hs₃⟩ : ∃ fuel s₃,
      (driver t).drain fuel ((driver t).due s₂) s₂ = some s₃ ∧
        Between t [] s₃ (serveNext v o).2 := by
    refine Driver.exists_drain (P := fun ns s => Between t ns s (serveNext v o).2)
      (fun n ns s hs => ?_) hs₂
    obtain ⟨s₁, ha, fuel, s', hf, hs'⟩ := hs.fold
    exact ⟨s₁, ha, fuel, s', (driver_finish ..).trans hf, hs'⟩
  refine ⟨max fuel₁ fuel₂, s₃, ?_, hs₃⟩
  refine Driver.serve_eq hstart (Driver.finish_mono ((driver_finish ..).trans hf)
    (le_max_left ..)) ?_ (Driver.drain_mono hdrain (le_max_right ..))
  simp [driver, hpc, serveNext]

/-- The calls return what the specification says, one after the other, and leave its map, which is
what the directories list. -/
theorem session_serves (bucketOf : ℕ → Name → ℕ) (rootname : Name) (t : ℕ) {ops : List (Op Name)}
    (hfit : ∀ o ∈ ops, o.Fits) : ∃ fuel s,
      (driver t).session fuel (Sys.init bucketOf rootname) ops =
        some ((answers serveNext (1, (dcCreate bucketOf rootname).names) ops).1, s) ∧
      s.d.names = (answers serveNext (1, (dcCreate bucketOf rootname).names) ops).2.2 ∧
      ∀ path, (s.d.dcReaddir path).map (fun l => {e | e ∈ l}) = s.d.names.listing path := by
  obtain ⟨fuel, s, hses, hs⟩ := (driver_refines t).session (.init bucketOf rootname t) hfit
  exact ⟨fuel, s, hses, hs.names,
    (hs.lone.sound.sib.listed hs.lone.sound.hash).readdir root⟩

theorem session_serves_rename : ∃ fuel s,
    (driver 0).session fuel (Sys.init (fun _ _ => 0) 0) [.add [1] 5, .rename [1] [2]] =
      some ((answers serveNext (1, (dcCreate (fun _ _ => 0) 0).names)
        [.add [1] 5, .rename [1] [2]]).1, s) := by
  have hfit : ∀ o ∈ ([.add [1] 5, .rename [1] [2]] : List (Op ℕ)), o.Fits := by decide
  obtain ⟨fuel, s, hses, -⟩ := session_serves (fun _ _ => 0) 0 0 hfit
  exact ⟨fuel, s, hses⟩

end TrieBenchmark.Bucketlock
