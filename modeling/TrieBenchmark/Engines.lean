import TrieBenchmark.Alike
import TrieBenchmark.Bucketlock.Account
import TrieBenchmark.Bucketlock.Session
import TrieBenchmark.Seqlock.Session
import TrieBenchmark.Txn.Session

/-!
The engines compared: the same calls, one at a time, with every pending fold run before the next
call.
-/

namespace TrieBenchmark

open Serial Session

variable {Name : Type}

def Op.Clashes (N : PathMap Name) : Op Name → Prop
  | .rename src dst => N.Clash src dst
  | _ => False

theorem Txn.served_eq (fresh : ℕ) (N : PathMap Name) (o : Op Name) :
    (o.Clashes N → Txn.served fresh N o = (.code (some .EEXIST), N) ∧
      serve fresh ⟨false, false⟩ N o = (.code (some .EINVAL), N)) ∧
    (¬ o.Clashes N → Txn.served fresh N o = serve fresh ⟨false, false⟩ N o) := by
  cases o with
  | rename src dst =>
    obtain ⟨hclash, hsame⟩ := N.renameJudged_eq src dst
    refine ⟨fun hC => ?_, fun hC => ?_⟩
    · simp only [Txn.served, serve, (hclash hC).1, (hclash hC).2, and_self]
    · simp only [Txn.served, serve, hsame hC]
  | _ => exact ⟨fun hC => hC.elim, fun _ => rfl⟩

theorem Txn.servedNext_snd (v : ℕ × PathMap Name) (o : Op Name) :
    (Txn.servedNext v o).2 = (serveNext v o).2 := by
  obtain ⟨hclash, hsame⟩ := Txn.served_eq v.1 v.2 o
  by_cases hC : o.Clashes v.2
  · simp only [Txn.servedNext, serveNext, (hclash hC).1, (hclash hC).2]
  · simp only [Txn.servedNext, serveNext, hsame hC]

variable [DecidableEq Name]

/-- Thread `t` of either engine gets the same listings, and the same return of any next call but
a clashing rename. -/
structure Agree (t : ℕ) (s : Bucketlock.Sys Name) (s' : Txn.Sys Name) : Prop where
  readdir : ∀ path, (s.d.dcReaddir path).map (fun l => {e | e ∈ l}) =
    (s'.d.dcReaddir path).map fun l => {e | e ∈ l}
  call : ∀ o : Op Name, o.Fits → ∃ fuel r s₁ r' s₁',
    (Bucketlock.driver t).serve fuel s o = some (r, s₁) ∧
    (Txn.driver t).serve fuel s' o = some (r', s₁') ∧
    (¬ o.Clashes s.d.names → r = r') ∧
    (o.Clashes s.d.names → r = .code (some .EINVAL) ∧ r' = .code (some .EEXIST))

theorem agree_of_between {t : ℕ} {s : Bucketlock.Sys Name} {s' : Txn.Sys Name}
    {v : ℕ × PathMap Name} (hs : Bucketlock.Between t [] s v) (hs' : Txn.Between t [] s' v) :
    Agree t s s' := by
  refine ⟨fun path => ?_, fun o hfit => ?_⟩
  · have hl := (hs.lone.sound.sib.listed hs.lone.sound.hash).readdir root path
    have hl' := hs'.fit.index.listed.readdir root path
    refine hl.trans (Eq.trans ?_ hl'.symm)
    rw [show pathMap s.d.tree.child s.d.tree.obj root = v.2 from hs.names,
      show pathMap s'.d.tree.child s'.d.tree.obj root = v.2 from hs'.names]
  · obtain ⟨fuel, s₁, hserve, -⟩ := Bucketlock.driver_refines t s v o hs hfit
    obtain ⟨fuel', s₁', hserve', -⟩ := Txn.driver_refines t s' v o hs' hfit
    obtain ⟨hclash, hsame⟩ := Txn.served_eq v.1 v.2 o
    refine ⟨max fuel fuel', _, s₁, _, s₁', Driver.serve_mono hserve (le_max_left ..),
      Driver.serve_mono hserve' (le_max_right ..), fun hC => ?_, fun hC => ?_⟩
    · rw [hs.names] at hC
      simp only [serveNext, Txn.servedNext, hsame hC]
    · rw [hs.names] at hC
      simp only [serveNext, Txn.servedNext, (hclash hC).1, (hclash hC).2, and_self]

theorem dcCreate_names_eq (bucketOf bucketOf' : ℕ → Name → ℕ) (rootname : Name) :
    (Txn.dcCreate bucketOf' rootname).names = (Bucketlock.dcCreate bucketOf rootname).names := by
  have hl : (Bucketlock.dcCreate bucketOf rootname).names = PathMap.bind ⟨fun _ => none⟩ [] _ :=
    pathMap_leaf fun n => rfl
  have hl' : (Txn.dcCreate bucketOf' rootname).names = PathMap.bind ⟨fun _ => none⟩ [] _ :=
    pathMap_leaf fun n => rfl
  rw [hl, hl']
  rfl

/-- After any sequence of calls the bucket-lock engine and the mark arm of the txn engine list
the same directories, and give every next call the same return; only a rename of an object
below itself onto the name of a negative directory is refused with different codes. -/
theorem bucketlock_txn_agree (bucketOf bucketOf' : ℕ → Name → ℕ) (rootname : Name) (t : ℕ)
    {ops : List (Op Name)} (hfit : ∀ o ∈ ops, o.Fits) : ∃ fuel rs s rs' s',
      (Bucketlock.driver t).session fuel (Bucketlock.Sys.init bucketOf rootname) ops =
        some (rs, s) ∧
      (Txn.driver t).session fuel (Txn.Sys.init bucketOf' rootname) ops = some (rs', s') ∧
      Agree t s s' := by
  have hinit := Bucketlock.Between.init bucketOf rootname t
  have hinit' := Txn.Between.init bucketOf' rootname t
  rw [dcCreate_names_eq bucketOf] at hinit'
  obtain ⟨fuel, s, hses, hs⟩ := (Bucketlock.driver_refines t).session hinit hfit
  obtain ⟨fuel', s', hses', hs'⟩ := (Txn.driver_refines t).session hinit' hfit
  rw [answers_snd_congr (fun v o _ => Txn.servedNext_snd v o) hfit] at hs'
  exact ⟨max fuel fuel', _, s, _, s', Driver.session_mono hses (le_max_left ..),
    Driver.session_mono hses' (le_max_right ..), agree_of_between hs hs'⟩

def renameBelowItself : List (Op ℕ) :=
  [.add [1] 5, .add [1, 2] 6, .delete [1, 2], .rename [1] [1, 2]]

theorem bucketlock_txn_agree_rename : (∀ o ∈ renameBelowItself, o.Fits) ∧ ∃ fuel rs s rs' s',
    (Bucketlock.driver 0).session fuel (Bucketlock.Sys.init (fun _ _ => 0) 0) renameBelowItself =
      some (rs, s) ∧
    (Txn.driver 0).session fuel (Txn.Sys.init (fun p n => p + n) 0) renameBelowItself =
      some (rs', s') ∧ Agree 0 s s' :=
  ⟨by decide, bucketlock_txn_agree _ _ 0 0 (by decide)⟩

theorem renameBelowItself_codes_differ :
    ((Bucketlock.driver 0).session 40 (Bucketlock.Sys.init (fun _ _ => 0) 0)
      renameBelowItself).map Prod.fst =
        some [.code none, .code none, .code none, .code (some .EINVAL)] ∧
    ((Txn.driver 0).session 40 (Txn.Sys.init (fun _ _ => 0) 0) renameBelowItself).map Prod.fst =
        some [.code none, .code none, .code none, .code (some .EEXIST)] := by
  decide +kernel

/-- Thread `t` of the bucket-lock engine and of the seqlock engine: the walks visit the same, and
every next call has the same return, up to the identities of the objects that a lookup went
through. Two kinds of renames differ. -/
structure Alike (t : ℕ) (s : Bucketlock.Sys Name) (s' : Seqlock.Sys Name) : Prop where
  walk : {e | e ∈ s.d.dcWalk} = {e | e ∈ s'.d.dcWalk}
  call : ∀ o : Op Name, o.Fits → ∃ fuel r s₁ r' s₁',
    (Bucketlock.driver t).serve fuel s o = some (r, s₁) ∧
    (Seqlock.driver t).serve fuel s' o = some (r', s₁') ∧
    (¬ o.Refused s.d.names → ¬ o.OverDir s.d.names → r.blank = r'.blank) ∧
    (o.Refused s.d.names → r = .code (some .EEXIST) ∧
      (r' = .code (some .ENOENT) ∨ r' = .code (some .EINVAL))) ∧
    (o.OverDir s.d.names → r = .code (some .EEXIST) ∧ r' = .code none)

structure Abreast (t : ℕ) (v : ℕ × PathMap Name) (x : Bucketlock.Sys Name × Seqlock.Sys Name) :
    Prop where
  left : Bucketlock.Between t [] x.1 v
  right : Seqlock.Between t x.2
  alike : v.2.blank = x.2.d.names.blank
  leaf : v.2.NegLeaf

namespace Abreast

variable {t : ℕ} {v : ℕ × PathMap Name} {x : Bucketlock.Sys Name × Seqlock.Sys Name}

theorem init (bucketOf bucketOf' : ℕ → Name → ℕ) (rootname : Name) (t : ℕ) :
    ∃ v, Abreast t v (Bucketlock.Sys.init bucketOf rootname, Seqlock.Sys.init bucketOf' rootname) := by
  have hl : (Bucketlock.dcCreate bucketOf rootname).names = PathMap.bind ⟨fun _ => none⟩ [] _ :=
    pathMap_leaf fun n => rfl
  have hl' : (Seqlock.dcCreate bucketOf' rootname).names = PathMap.bind ⟨fun _ => none⟩ [] _ :=
    pathMap_leaf fun n => rfl
  refine ⟨_, Bucketlock.Between.init bucketOf rootname t, .init bucketOf' rootname t, ?_, ?_⟩
  · show (Bucketlock.dcCreate bucketOf rootname).names.blank =
      (Seqlock.dcCreate bucketOf' rootname).names.blank
    rw [hl, hl', PathMap.bind_blank, PathMap.bind_blank]
    rfl
  · show (Bucketlock.dcCreate bucketOf rootname).names.NegLeaf
    rw [hl]
    intro p o ho hneg hisdir ⟨n, hn⟩
    rw [PathMap.bind_find_of_ne (by simp)] at hn
    cases hn

theorem step (hx : Abreast t v x) {o : Op Name} (hfit : o.Fits) : ∃ fuel s s',
    (Bucketlock.driver t).serve fuel x.1 o =
      some ((serve v.1 ⟨false, false⟩ v.2 o).1, s) ∧
    (Seqlock.driver t).serve fuel x.2 o =
      some ((Seqlock.served x.2.d.fresh x.2.d.names o).1, s') ∧
    (¬ o.OverDir v.2 → ∃ v', Abreast t v' (s, s')) := by
  obtain ⟨fuel, s, hserve, hs⟩ := Bucketlock.driver_refines t x.1 v o hx.left hfit
  obtain ⟨fuel', s', hserve', hs', hnames⟩ := hx.right.serve o
  refine ⟨max fuel fuel', s, s', Driver.serve_mono hserve (le_max_left ..),
    Driver.serve_mono hserve' (le_max_right ..), fun hD => ⟨_, hs, hs', ?_, ?_⟩⟩
  · show (serve v.1 ⟨false, false⟩ v.2 o).2.blank = s'.d.names.blank
    rw [hnames]
    by_cases hR : o.Refused v.2
    · obtain ⟨hleft, hright⟩ := served_refused v.1 x.2.d.fresh hx.alike hR
      rw [hleft]
      exact (hright.elim (congrArg Prod.snd) (congrArg Prod.snd)).symm
    · exact (congrArg Prod.snd (served_agrees hx.alike hx.leaf hR hD)).symm
  · have hproper := hx.left.lone.sound.hash.proper
    rw [hx.left.names, hx.left.fresh] at hproper
    exact hx.leaf.serve hproper o

theorem agree (hx : Abreast t v x) : Alike t x.1 x.2 := by
  refine ⟨?_, fun o hfit => ?_⟩
  · have hsound := hx.left.lone.sound
    have hroot : x.1.d.tree.parent root = root :=
      hsound.tree.elim fun _ hV => hV.parentTree.1
    have hroot' : x.2.d.tree.parent root = root := hx.right.index.rootSelf.2.1
    calc {e | e ∈ x.1.d.dcWalk} = x.1.d.names.census := (hsound.sib.listed hsound.hash).walk hroot
      _ = x.2.d.names.census := by
        rw [hx.left.names, ← PathMap.census_blank, hx.alike, PathMap.census_blank]
      _ = {e | e ∈ x.2.d.dcWalk} := (hx.right.index.listed.walk hroot').symm
  · obtain ⟨fuel, s, s', hserve, hserve', -⟩ := hx.step hfit
    refine ⟨fuel, _, s, _, s', hserve, hserve', fun hR hD => ?_, fun hR => ?_, fun hD => ?_⟩
    · rw [hx.left.names] at hR hD
      exact (congrArg Prod.fst (served_agrees hx.alike hx.leaf hR hD)).symm
    · rw [hx.left.names] at hR
      obtain ⟨hleft, hright⟩ := served_refused v.1 x.2.d.fresh hx.alike hR
      refine ⟨by rw [hleft], hright.imp (fun h => ?_) fun h => ?_⟩
      · exact Ret.eq_code_of_blank (congrArg Prod.fst h)
      · exact Ret.eq_code_of_blank (congrArg Prod.fst h)
    · rw [hx.left.names] at hD
      obtain ⟨hleft, hright⟩ := served_overDir v.1 x.2.d.fresh hx.alike hD
      exact ⟨by rw [hleft], Ret.eq_code_of_blank hright⟩

end Abreast

/-- Given the same calls one at a time, none a rename over a negative directory, the bucket-lock
engine with its folds and the seqlock engine stay alike. -/
theorem bucketlock_seqlock_alike (bucketOf bucketOf' : ℕ → Name → ℕ) (rootname : Name) (t : ℕ)
    {x : Bucketlock.Sys Name × Seqlock.Sys Name}
    (hr : Run.Reach ((Bucketlock.driver t).pair (Seqlock.driver t))
      (fun x c => c.2.Fits ∧ ¬ c.2.OverDir x.1.d.names)
      (Bucketlock.Sys.init bucketOf rootname, Seqlock.Sys.init bucketOf' rootname) x) :
    Alike t x.1 x.2 := by
  have hinv : ∃ v, Abreast t v x := by
    apply hr.invariant (Abreast.init bucketOf bucketOf' rootname t)
    intro y c y' ⟨v, hy⟩ ⟨hfit, hD⟩ hact
    obtain ⟨r, r', hserve, hserve'⟩ := Driver.pair_eq_some hact
    obtain ⟨fuel, s, s', h, h', hnext⟩ := hy.step hfit
    rw [hy.left.names] at hD
    obtain ⟨-, rfl⟩ := Prod.mk.inj (Driver.serve_unique h hserve)
    obtain ⟨-, rfl⟩ := Prod.mk.inj (Driver.serve_unique h' hserve')
    exact hnext hD
  obtain ⟨v, hx⟩ := hinv
  exact hx.agree

def renameOntoNegative : List (Op ℕ) :=
  [.add [1] 5, .addNegative [2], .rename [1] [2]]

theorem bucketlock_seqlock_alike_rename : ∃ x : Bucketlock.Sys ℕ × Seqlock.Sys ℕ,
    x.1.d.dcWalk = [(5, [2])] ∧
    Run.Reach ((Bucketlock.driver 0).pair (Seqlock.driver 0))
      (fun x c => c.2.Fits ∧ ¬ c.2.OverDir x.1.d.names)
      (Bucketlock.Sys.init (fun p n => p + n) 0, Seqlock.Sys.init (fun _ _ => 0) 0) x ∧
    Alike 0 x.1 x.2 := by
  have he : (Run.exec (Run.guarded ((Bucketlock.driver 0).pair (Seqlock.driver 0))
      fun x c => c.2.Fits ∧ ∀ p ∈ c.2.paths, ((x.1.d.names.find p).all fun o => o.neg && !o.isdir ||
        !o.neg) = true)
      (Bucketlock.Sys.init (fun p n => p + n) 0, Seqlock.Sys.init (fun _ _ => 0) 0)
      (renameOntoNegative.map fun o => (40, o))).map (fun x => x.1.d.dcWalk) = some [(5, [2])] := by
    rfl
  obtain ⟨x, hr, hwalk⟩ := Run.reach_exec_map he
  have hr' : Run.Reach ((Bucketlock.driver 0).pair (Seqlock.driver 0))
      (fun x c => c.2.Fits ∧ ¬ c.2.OverDir x.1.d.names)
      (Bucketlock.Sys.init (fun p n => p + n) 0, Seqlock.Sys.init (fun _ _ => 0) 0) x := by
    refine hr.of_guarded.mono fun x c hok => ⟨hok.1, fun hD => ?_⟩
    obtain ⟨fuel, o⟩ := c
    cases o with
    | rename _ dst =>
      obtain ⟨-, -, -, -, -, o, ho, -, hneg, hisdir⟩ := hD
      have hdst := hok.2 dst (by simp [Op.paths])
      rw [ho] at hdst
      simp [hneg, hisdir] at hdst
    | _ => exact hD
  exact ⟨x, hwalk, hr', bucketlock_seqlock_alike _ _ 0 0 hr'⟩

/-- A rename onto the name of a deleted directory; a rename below itself onto a name that is
taken; a rename onto a taken name below a negative. -/
theorem bucketlock_seqlock_codes_differ :
    (let ops : List (Op ℕ) := [.add [1] 5, .add [2] 6, .delete [2], .rename [1] [2]]
     ((Bucketlock.driver 0).session 40 (Bucketlock.Sys.init (fun _ _ => 0) 0) ops).map Prod.fst =
        some [.code none, .code none, .code none, .code (some .EEXIST)] ∧
     ((Seqlock.driver 0).session 40 (Seqlock.Sys.init (fun _ _ => 0) 0) ops).map Prod.fst =
        some [.code none, .code none, .code none, .code none]) ∧
    (let ops : List (Op ℕ) := [.add [1] 5, .add [1, 2] 6, .rename [1] [1, 2]]
     ((Bucketlock.driver 0).session 40 (Bucketlock.Sys.init (fun _ _ => 0) 0) ops).map Prod.fst =
        some [.code none, .code none, .code (some .EEXIST)] ∧
     ((Seqlock.driver 0).session 40 (Seqlock.Sys.init (fun _ _ => 0) 0) ops).map Prod.fst =
        some [.code none, .code none, .code (some .EINVAL)]) ∧
    (let ops : List (Op ℕ) := [.addFile [3] 7, .add [1] 5, .rename [1] [3, 1], .delete [3],
      .add [2] 6, .rename [2] [3, 1]]
     ((Bucketlock.driver 0).session 40 (Bucketlock.Sys.init (fun _ _ => 0) 0) ops).map Prod.fst =
        some [.code none, .code none, .code none, .code none, .code none, .code (some .EEXIST)] ∧
     ((Seqlock.driver 0).session 40 (Seqlock.Sys.init (fun _ _ => 0) 0) ops).map Prod.fst =
        some [.code none, .code none, .code none, .code none, .code none,
          .code (some .ENOENT)]) := by
  decide +kernel

end TrieBenchmark
