import TrieBenchmark.Lib.Session
import TrieBenchmark.Txn.SoloLookup

/-!
One client of the mark arm whose calls run one at a time, with every pending fold run before the
next call.
-/

namespace TrieBenchmark.Txn

open List Function Serial Session

variable {Name : Type} [DecidableEq Name]

/-- Thread `t` as the client of the mark arm. Its allocations succeed and its commits are not
aborted by the engine. -/
def driver (t : ℕ) : Driver (Sys Name) (Op Name) Ret where
  start o s := s.act .mark (.call t (.op o))
  step s := s.act .mark (.step t .ok)
  reply s := match s.pc t with
    | .done r => some r
    | _ => none
  due s := (List.range s.d.fresh).filter s.rcu.ready
  invoke n s := s.act .mark (.call t (.fold n))

variable {s s₁ s' : Sys Name} {t n : ℕ} {d d' : Cache Name} {pc : Pc Name} {r : Ret}
  {qs ns : List ℕ} {v : ℕ × PathMap Name}

theorem Runs.finish {pc' : Pc Name} (hr : Runs d pc qs d' pc') (hend : pc'.busy = false)
    (hd : s.d = d) (hpc : s.pc t = pc) (honly : s.rcu.Only t pc.busy) :
    ∃ fuel s', (driver t).finish fuel s = some s' ∧ s'.d = d' ∧ s'.pc t = pc' ∧
      s'.rcu.Only t false ∧ ∀ c, s'.rcu.Queued c ↔ s.rcu.Queued c ∨ c ∈ qs := by
  induction hr generalizing s with
  | refl =>
    subst hpc hd
    have hstep : (driver t).step s = none := by simp [driver, Sys.act, hend]
    refine ⟨1, s, ?_, rfl, rfl, hend ▸ honly, by simp⟩
    rw [Driver.finish, hstep]
  | step hb _ ih =>
    subst hpc hd
    rw [hb] at honly
    obtain ⟨fuel, s', hf, hd', hpc', honly', hq⟩ := ih hend rfl (update_self ..)
      (s := ⟨_, s.rcu.atStep t (s.pc t).queues _, update s.pc t _⟩) honly.atStep
    refine ⟨fuel + 1, s', ?_, hd', hpc', honly', fun c => ?_⟩
    · have hstep : (driver t).step s = _ := Sys.act_step hb .ok
      rw [Driver.finish, hstep]
      exact hf
    · rw [hq, Grace.Rcu.queued_atStep, mem_append, Option.mem_toList, or_assoc]

structure Between (t : ℕ) (ns : List ℕ) (s : Sys Name) (v : ℕ × PathMap Name) : Prop where
  fit : Fit s.d
  flags : FlagsOnly s.d ∅
  idle : (s.pc t).busy = false
  only : s.rcu.Only t false
  nodup : ns.Nodup
  queued : ∀ n, s.rcu.Queued n ↔ n ∈ ns
  kind : ∀ n ∈ ns, n < s.d.fresh ∧ (s.d.dentry n).shell = true
  shells : ∀ n, s.d.linked n → (s.d.dentry n).shell = true → n ∈ ns
  fresh : s.d.fresh = v.1
  names : s.d.names = v.2

namespace Between

theorem quiet (hs : Between t [] s v) : Quiet s.d := by
  refine ⟨hs.fit, hs.flags, fun T hT => ?_⟩
  by_contra hshell
  cases hs.shells T hT (by simpa using hshell)

theorem act_call (hs : Between t ns s v) {c : Call Name} (hadm : s.admits c = true) :
    s.act .mark (.call t c) = some ⟨s.d, s.rcu.atCall t (c.folded) (callStart .mark c).busy,
      update s.pc t (callStart .mark c)⟩ := by
  simp [Sys.act, hs.idle, hadm]

theorem init (bucketOf : ℕ → Name → ℕ) (rootname : Name) (t : ℕ) :
    Between t [] (Sys.init bucketOf rootname) (1, (dcCreate bucketOf rootname).names) := by
  refine ⟨dcCreate_fit bucketOf rootname, fun _ _ _ => rfl, rfl, .init t, .nil, fun n => ?_,
    by simp, fun n hn => ?_, rfl, rfl⟩
  · simp [Grace.Rcu.Queued, Sys.init, Grace.Rcu.init]
  · obtain ⟨b, ⟨⟩⟩ := hn

theorem fold (hs : Between t (n :: ns) s v) :
    ∃ s₁, s.act .mark (.call t (.fold n)) = some s₁ ∧
      ∃ fuel s', (driver t).finish fuel s₁ = some s' ∧ Between t ns s' v := by
  have hqn := (hs.queued n).mpr (by simp)
  obtain ⟨hlt, hshell⟩ := hs.kind n (by simp)
  obtain ⟨d', hrun, hF⟩ := hs.fit.fold hs.flags hlt hshell
  have hact := hs.act_call (c := .fold n) (hs.only.ready hqn)
  refine ⟨_, hact, ?_⟩
  have honly : (s.rcu.atCall t (some n) true).Only t true := hs.only.atCall
  obtain ⟨fuel, s', hf, hd', hpc', honly, hq⟩ := hrun.finish (t := t) rfl
    (s := ⟨s.d, s.rcu.atCall t (some n) true, update s.pc t (.fldTest n)⟩) rfl
    (update_self ..) honly
  refine ⟨fuel, s', hf, ?_⟩
  obtain ⟨hnotin, hnd⟩ := nodup_cons.mp hs.nodup
  have hqueued : ∀ c, s'.rcu.Queued c ↔ s.rcu.Queued c ∧ n ≠ c := by
    intro c
    rw [hq, Grace.Rcu.queued_atCall]
    simp
  subst hd'
  refine ⟨hF.fit, hF.flags, by rw [hpc']; rfl, honly, hnd, fun m => ?_, fun m hm => ?_,
    fun m hm hms => ?_, hF.fresh.trans hs.fresh, hF.names.trans hs.names⟩
  · rw [hqueued, hs.queued, mem_cons]
    constructor
    · rintro ⟨rfl | hm, hne⟩
      · exact absurd rfl hne
      · exact hm
    · intro hm
      refine ⟨.inr hm, ?_⟩
      rintro rfl
      exact hnotin hm
  · obtain ⟨hlt, hms⟩ := hs.kind m (by simp [hm])
    exact ⟨hF.fresh ▸ hlt, (hF.kind m hlt).1.trans hms⟩
  · obtain ⟨hold, holds, hne⟩ := hF.shells m hm hms
    exact (mem_cons.mp (hs.shells m hold holds)).resolve_left hne

theorem op (hs : Between t [] s v) {o : Op Name} (hfit : o.Fits) :
    ∃ s₁, s.act .mark (.call t (.op o)) = some s₁ ∧ ∃ fuel s',
      (driver t).finish fuel s₁ = some s' ∧ s'.pc t = .done (served v.1 v.2 o).1 ∧
      Between t ((driver t).due s') s' (v.1 + spent v.1 ⟨false, false⟩ v.2 o,
        (served v.1 v.2 o).2) := by
  obtain ⟨qs, d', hd'⟩ := hs.quiet.serve hfit
  rw [hs.fresh, hs.names] at hd'
  have honly : (s.rcu.atCall t none (opStart .mark o).busy).Only t (opStart .mark o).busy :=
    hs.only.atCall
  obtain ⟨fuel, s', hf, rfl, hpc', honly', hq⟩ := hd'.runs.finish (t := t) rfl
    (s := ⟨s.d, s.rcu.atCall t none (opStart .mark o).busy,
      update s.pc t (opStart .mark o)⟩) rfl (update_self ..) honly
  refine ⟨_, hs.act_call rfl, fuel, s', hf, hpc', ?_⟩
  have hqueued : ∀ n, s'.rcu.Queued n ↔ n ∈ qs := by
    intro n
    rw [hq, Grace.Rcu.queued_atCall, hs.queued]
    simp
  have hdue : ∀ n, n ∈ (driver t).due s' ↔ n ∈ qs := by
    intro n
    rw [← hqueued]
    constructor
    · exact fun hn => .of_ready (mem_filter.mp hn).2
    · exact fun hn => mem_filter.mpr ⟨mem_range.mpr (hd'.queued n ((hqueued n).mp hn)).1,
        honly'.ready hn⟩
  refine ⟨hd'.fit, hd'.flags, by rw [hpc']; rfl, honly', nodup_range.filter _, fun n => ?_,
    fun n hn => hd'.queued n ((hdue n).mp hn), fun n hn hns => (hdue n).mpr (hd'.shells n hn hns),
    hd'.fresh.trans (by rw [hs.fresh]), hd'.names⟩
  rw [hqueued, hdue]

end Between

noncomputable def servedNext (v : ℕ × PathMap Name) (o : Op Name) : Ret × (ℕ × PathMap Name) :=
  ((served v.1 v.2 o).1, (v.1 + spent v.1 ⟨false, false⟩ v.2 o, (served v.1 v.2 o).2))

theorem driver_refines (t : ℕ) :
    Refines (driver t) (fun (s : Sys Name) v => Between t [] s v) Op.Fits servedNext := by
  intro s v o hs hfit
  obtain ⟨s₁, hstart, fuel₁, s₂, hf, hpc, hs₂⟩ := hs.op hfit
  obtain ⟨fuel₂, s₃, hdrain, hs₃⟩ : ∃ fuel s₃,
      (driver t).drain fuel ((driver t).due s₂) s₂ = some s₃ ∧
        Between t [] s₃ (servedNext v o).2 :=
    Driver.exists_drain (P := fun ns s => Between t ns s (servedNext v o).2)
      (fun n ns s hs => hs.fold) hs₂
  refine ⟨max fuel₁ fuel₂, s₃, ?_, hs₃⟩
  refine Driver.serve_eq hstart (Driver.finish_mono hf (le_max_left ..)) ?_
    (Driver.drain_mono hdrain (le_max_right ..))
  simp [driver, hpc, servedNext]

/-- The calls return what the specification of this engine says, one after the other, and leave its
map, which is what the directories list. -/
theorem mark_session_serves (bucketOf : ℕ → Name → ℕ) (rootname : Name) (t : ℕ)
    {ops : List (Op Name)} (hfit : ∀ o ∈ ops, o.Fits) : ∃ fuel s,
      (driver t).session fuel (Sys.init bucketOf rootname) ops =
        some ((answers servedNext (1, (dcCreate bucketOf rootname).names) ops).1, s) ∧
      s.d.names = (answers servedNext (1, (dcCreate bucketOf rootname).names) ops).2.2 ∧
      ∀ path, (s.d.dcReaddir path).map (fun l => {e | e ∈ l}) = s.d.names.listing path := by
  obtain ⟨fuel, s, hses, hs⟩ := (driver_refines t).session (.init bucketOf rootname t) hfit
  exact ⟨fuel, s, hses, hs.names, hs.fit.index.listed.readdir root⟩

theorem mark_session_serves_rename : ∃ fuel s,
    (driver 0).session fuel (Sys.init (fun _ _ => 0) 0) [.add [1] 5, .rename [1] [2]] =
      some ((answers servedNext (1, (dcCreate (fun _ _ => 0) 0).names)
        [.add [1] 5, .rename [1] [2]]).1, s) := by
  have hfit : ∀ o ∈ ([.add [1] 5, .rename [1] [2]] : List (Op ℕ)), o.Fits := by decide
  obtain ⟨fuel, s, hses, -⟩ := mark_session_serves (fun _ _ => 0) 0 0 hfit
  exact ⟨fuel, s, hses⟩

end TrieBenchmark.Txn
