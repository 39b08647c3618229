import TrieBenchmark.Txn.Invariant

/-!
The reclaim of a folded shell. Every way out of `fold` queues it, also the one after a commit for
which there was no memory; on all others the shell has left both indexes, and no step puts a
shell back.
-/

namespace TrieBenchmark.Txn

open Option Run

variable {Name : Type} {d d' : Cache Name} {arm : Arm} {touched back : Option ℕ} {n : ℕ}

structure Retired (d : Cache Name) (n : ℕ) : Prop where
  isShell : IsShell d n
  gone : ¬ d.linked n

theorem Retired.unindexed (hR : Retired d n) (hI : IndexOk d) :
    (∀ b, n ∉ d.hash b) ∧ ∀ p, n ∉ d.kids p := by
  constructor
  · intro b hb
    exact hR.gone (hI.linked_of_mem hb)
  · intro p hp
    exact hR.gone ((hI.kids p n).mp hp).1

theorem IndexOk.ne_root_of_shell (hI : IndexOk d) (hn : IsShell d n) : n ≠ root := by
  intro he
  have hhost := hI.rootHost.2.1
  rw [← he, hn.2] at hhost
  cases hhost

theorem IndexOk.retired_of_mark (hI : IndexOk d) (hn : IsShell d n) (hm : d.mark n = true) :
    Retired d n := by
  refine ⟨hn, fun hl => ?_⟩
  have hlive := (hI.live n hn.1 (hI.ne_root_of_shell hn)).mpr hl
  rw [hm] at hlive
  cases hlive

theorem IndexOk.retired_of_fold (hI : IndexOk d) (hn : IsShell d n) (hl : d.linked n)
    (hname : (d.dentry (d.hostOf n)).iname = (d.dentry n).iname)
    (hparent : arm ≠ .mark → (d.dentry (d.hostOf n)).iparent = (d.dentry n).iparent) :
    Retired (d.foldCommit arm n) n := by
  have hE : Edited d _ (d.foldCommit arm n) := hI.fold_edited hl hn.2 hname hparent
  have hne : n ≠ d.hostOf n := by
    intro he
    have hhost := (hI.hostOf_host hn.1).2
    rw [← he, hn.2] at hhost
    cases hhost
  refine ⟨⟨Nat.lt_of_lt_of_le hn.1 hE.fresh, ?_⟩, fun hl' => ?_⟩
  · rw [(hE.kind n hn.1).1]
    exact hn.2
  · rcases (hE.linked_iff hI).mp hl' with ⟨-, ho⟩ | hi
    · exact ho (by simp [Edits.Edit.out])
    · exact hne (by simpa [Edits.Edit.inn] using hi)

theorem Retired.effect {C : Checked Name → Prop} (hR : Retired d n) (hI : IndexOk d)
    (hE : Effect arm C d touched back d')
    (hback : ∀ h, back = some h → ∃ k, IsShell d k ∧ h = d.hostOf k) : Retired d' n := by
  have hH := hE.indexStep hI
  have hlt := hR.isShell.1
  refine ⟨⟨Nat.lt_of_lt_of_le hlt hH.fresh, ?_⟩, ?_⟩
  · rw [(hH.kind n hlt).1]
    exact hR.isShell.2
  · refine (hH.dead (hE.indexOk hI) hlt (hI.ne_root_of_shell hR.isShell) ?_ hR.gone).1
    intro hb
    obtain ⟨k, hk, rfl⟩ := hback n hb
    have hhost := (hI.hostOf_host hk.1).2
    rw [hR.isShell.2] at hhost
    cases hhost

variable [DecidableEq Name] {s s' s'' : Sys Name} {t : ℕ} {ans : Answer}

theorem Retired.act {S : ℕ → Set ℕ} {a : Act Name} (hR : Retired s.d n) (hV : Inv arm s S)
    (ha : s.act arm a = some s') : Retired s'.d n := by
  obtain ⟨_, _, hE, -, hback⟩ := hV.effect_of_act (C := fun _ => True) ha fun _ _ _ _ _ => trivial
  refine hR.effect hV.index hE fun h hh => ?_
  obtain ⟨u, k, hk, -, rfl⟩ := hback h hh
  exact ⟨k, hV.isShell_of_fold (Pc.fold_of_folds hk), rfl⟩

theorem Retired.reach {ok : Sys Name → Act Name → Prop} (hR : Retired s.d n)
    (hV : ∃ S, Inv arm s S) (hr : Reach (Sys.act arm) ok s s') :
    (∃ S, Inv arm s' S) ∧ Retired s'.d n := by
  refine hr.invariant (P := fun s => (∃ S, Inv arm s S) ∧ Retired s.d n) ⟨hV, hR⟩ ?_
  intro s a s' ⟨⟨S, hV⟩, hR⟩ _ ha
  exact ⟨⟨_, hV.act ha⟩, hR.act hV ha⟩

theorem stepPc_fold_returns {S : Set ℕ} {pc : Pc Name} (hI : IndexOk d) (hP : PcOk arm d S pc)
    (hn : pc.fold = some n) (hmem : ∀ own, pc = .fldCommit n own → ans ≠ .oom)
    (hdone : (stepPc arm d pc ans).2.busy = false) : Retired (stepPc arm d pc ans).1 n := by
  cases pc with
  | fldTest k =>
    obtain rfl : k = n := some.inj hn
    by_cases hm : d.mark k = true
    · simp only [stepPc, if_pos hm]
      exact hI.retired_of_mark hP hm
    · simp only [stepPc, if_neg hm] at hdone
      split_ifs at hdone <;> cases hdone
  | fldName => cases hdone
  | fldTop | fldOwn | fldSwap =>
    simp only [stepPc] at hdone
    split_ifs at hdone <;> cases hdone
  | fldCommit k own =>
    obtain rfl : k = n := some.inj hn
    have hans : ans ≠ .oom := hmem own rfl
    by_cases hm : d.mark k = true
    · simp only [stepPc, hm, Bool.or_true, if_true]
      exact hI.retired_of_mark hP.shell hm
    · have hne := hI.ne_root_of_shell hP.shell
      have hl := (hI.live k hP.shell.1 hne).mp (by simpa using hm)
      have hfail : ¬ (decide (ans = .oom) || d.mark k) = true := by simp [hans, hm]
      simp only [stepPc, if_neg hfail] at hdone ⊢
      split_ifs at hdone ⊢ with hh
      · cases hdone
      · exact hI.retired_of_fold hP.shell hl hP.name hP.parent
  | _ => cases hn

/-- Where a fold returns, and by that queues the reclaim of its shell, the shell is in no bucket
chain and no child list, and it is in none ever after. The commit of the fold did not run out of
memory. -/
theorem fold_reclaims_unindexed {bucketOf : ℕ → Name → ℕ} {rootname : Name}
    {ok : Sys Name → Act Name → Prop}
    (hr : Reach (Sys.act arm) (fun _ _ => True) (Sys.init bucketOf rootname) s)
    (hn : (s.pc t).fold = some n) (hmem : ∀ own, s.pc t = .fldCommit n own → ans ≠ .oom)
    (ha : s.act arm (.step t ans) = some s') (hdone : (s'.pc t).busy = false)
    (hr' : Reach (Sys.act arm) ok s' s'') :
    (∀ b, n ∉ s''.d.hash b) ∧ ∀ p, n ∉ s''.d.kids p := by
  obtain ⟨S, hV⟩ := Inv.reach hr
  have hV' := hV.act ha
  rw [Sys.act_step (Pc.busy_of_fold hn)] at ha
  obtain rfl := some.inj ha
  have hR : Retired _ n := stepPc_fold_returns hV.index (hV.pcOk t) hn hmem (by simpa using hdone)
  obtain ⟨⟨S'', hV''⟩, hR''⟩ := Retired.reach hR ⟨_, hV'⟩ hr'
  exact hR''.unindexed hV''.index

def foldAtCommit : List (Act ℕ) :=
  Act.op 0 (.addFile [1] 0) 6 ++ Act.op 0 (.rename [1] [2]) 13 ++
    .call 1 (.fold 2) :: Act.steps 1 4

theorem fold_reclaims_unindexed_rename : ∃ s s' : Sys ℕ,
    Reach (Sys.act .mark) (fun _ _ => True) (Sys.init (fun _ _ => 0) 0) s ∧
      (s.pc 1).fold = some 2 ∧ s.act .mark (.step 1 .ok) = some s' ∧
      (s'.pc 1).busy = false ∧ s.d.kids 0 = [2] ∧
      (∀ b, 2 ∉ s'.d.hash b) ∧ ∀ p, 2 ∉ s'.d.kids p := by
  have he : ((exec (Sys.act .mark) (Sys.init (fun _ _ => 0) 0) foldAtCommit).bind fun s =>
      (s.act .mark (.step 1 .ok)).map fun s' =>
        ((s.pc 1).fold, (s'.pc 1).busy, s.d.kids 0)) = some (some 2, false, [2]) := by
    decide +kernel
  obtain ⟨s, hs, he⟩ := bind_eq_some_iff.mp he
  obtain ⟨s', ha, he⟩ := map_eq_some_iff.mp he
  simp only [Prod.mk.injEq] at he
  have hr := reach_exec hs
  have hr' : Reach (Sys.act .mark) (fun _ _ => True) s' s' := .start
  exact ⟨s, s', hr, he.1, ha, he.2.1, he.2.2,
    fold_reclaims_unindexed hr he.1 (fun _ _ => by decide) ha he.2.1 hr'⟩

/-- The fold's commit has no memory. The fold returns all the same and so queues the reclaim of
the shell, which a lookup of `/2` and a listing of `/` still meet. -/
theorem fold_reclaims_indexed : ∃ s s' : Sys ℕ,
    Reach (Sys.act .mark) (fun _ _ => True) (Sys.init (fun _ _ => 0) 0) s ∧
      (s.pc 1).fold = some 2 ∧ s.act .mark (.step 1 .oom) = some s' ∧
      (s'.pc 1).busy = false ∧ 2 ∈ s'.d.hash 0 ∧ s'.d.kids 0 = [2] ∧
      s'.d.findTop 0 2 = some 2 := by
  have he : ((exec (Sys.act .mark) (Sys.init (fun _ _ => 0) 0) foldAtCommit).bind fun s =>
      (s.act .mark (.step 1 .oom)).map fun s' => ((s.pc 1).fold, (s'.pc 1).busy,
        decide (2 ∈ s'.d.hash 0), s'.d.kids 0, s'.d.findTop 0 2)) =
      some (some 2, false, true, [2], some 2) := by
    decide +kernel
  obtain ⟨s, hs, he⟩ := bind_eq_some_iff.mp he
  obtain ⟨s', ha, he⟩ := map_eq_some_iff.mp he
  simp only [Prod.mk.injEq, decide_eq_true_eq] at he
  exact ⟨s, s', reach_exec hs, he.1, ha, he.2⟩

end TrieBenchmark.Txn
