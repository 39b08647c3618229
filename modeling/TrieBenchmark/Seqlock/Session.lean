import TrieBenchmark.Lib.Session
import TrieBenchmark.Seqlock.Account

/-!
One client of the seqlock engine whose calls run one at a time.
-/

namespace TrieBenchmark.Seqlock

open Serial Session

variable {Name : Type} [DecidableEq Name] {s s' : Sys Name} {t : ℕ}

def driver (t : ℕ) : Driver (Sys Name) (Op Name) Ret where
  start o s := s.act (.call t (.op o))
  step s := s.act (.step t false)
  reply s := match s.pc t with
    | .done r => some r
    | _ => none
  due _ := []
  invoke _ _ := none

theorem finish_of_exec {k : ℕ} (he : Run.exec Sys.act s (Act.steps t k) = some s')
    (hstop : s'.act (.step t false) = none) : (driver t).finish (k + 1) s = some s' := by
  induction k generalizing s with
  | zero =>
    obtain rfl : s = s' := Option.some.inj he
    have hnone : (driver t).step s = none := hstop
    rw [Driver.finish, hnone]
  | succ k ih =>
    rw [Act.steps, List.replicate_succ, Run.exec] at he
    obtain ⟨s₁, ha, he⟩ := Option.bind_eq_some_iff.mp he
    have hsome : (driver t).step s = some s₁ := ha
    rw [Driver.finish, hsome]
    exact ih he

structure Between (t : ℕ) (s : Sys Name) : Prop where
  index : IndexOk s.d
  mine : s.Mine t
  idle : (s.pc t).busy = false

omit [DecidableEq Name] in
theorem Between.init (bucketOf : ℕ → Name → ℕ) (rootname : Name) (t : ℕ) :
    Between t (Sys.init bucketOf rootname) :=
  ⟨.create bucketOf rootname, fun _ => rfl, rfl⟩

theorem Between.serve (hs : Between t s) (o : Op Name) : ∃ fuel s',
    (driver t).serve fuel s o = some ((served s.d.fresh s.d.names o).1, s') ∧ Between t s' ∧
      s'.d.names = (served s.d.fresh s.d.names o).2 := by
  obtain ⟨d', hS⟩ := hs.index.serves o
  have hstart : (driver t).start o s =
      some ⟨s.d, s.locks, Function.update s.pc t (opStart o)⟩ := by
    simp [driver, Sys.act, hs.idle, Sys.admits, Call.start]
  obtain ⟨k, s', he, rfl, hpc, hM⟩ := hS.leads.exec (t := t)
    (s := ⟨s.d, s.locks, Function.update s.pc t (opStart o)⟩) rfl (Function.update_self ..)
    (hs.mine.start hs.idle (.op o)) (Call.start_outside (.op o)).ordered
  have hstop : s'.act (.step t false) = none := by
    simp [Sys.act, hpc]
  refine ⟨k + 1, s', Driver.serve_eq hstart (finish_of_exec he hstop) ?_ rfl,
    ⟨hS.index, hM, by rw [hpc]; rfl⟩, hS.names⟩
  simp [driver, hpc]

end TrieBenchmark.Seqlock
