import TrieBenchmark.Bucketlock.SoloLookup

/-!
Calls one at a time, with queued folds run anywhere between them: what the calls return and the
names they leave do not depend on when the folds run.
-/

namespace TrieBenchmark.Bucketlock

open Option Hlist Namei Serial Run

variable {Name : Type} [DecidableEq Name]

namespace Sys

def finish (plan : Plan) (t : ℕ) : ℕ → Sys Name → Option (Sys Name)
  | 0, _ => none
  | fuel + 1, s =>
    if (s.pc t).busy then (s.act (.step t ((s.pc t).oom plan))).bind (finish plan t fuel)
    else some s

def reply (s : Sys Name) (t : ℕ) : Call Name → List Ret
  | .op _ => match s.pc t with
    | .done r => [r]
    | _ => []
  | _ => []

def play (ok : Sys Name → Call Name → Bool) (fuel t : ℕ) :
    Sys Name → List (Call Name × Plan) → Option (List Ret × Sys Name)
  | s, [] => some ([], s)
  | s, (c, plan) :: cs =>
    if ok s c then
      (s.act (.call t c)).bind fun s₁ => (s₁.finish plan t fuel).bind fun s₂ =>
        (play ok fuel t s₂ cs).map fun r => (s₂.reply t c ++ r.1, r.2)
    else none

/-- Operations with paths that fit and folds; no rename to the name of an unsettled negative
file. -/
def settled (s : Sys Name) : Call Name → Bool
  | .op o => o.Fits && s.d.settledFor o
  | .fold _ => true
  | .evict _ => false

def fits (_ : Sys Name) : Call Name → Bool
  | .op o => o.Fits
  | .fold _ => true
  | .evict _ => false

end Sys

def opsOf : List (Call Name × Plan) → List (Op Name × Plan)
  | [] => []
  | (.op o, plan) :: cs => (o, plan) :: opsOf cs
  | _ :: cs => opsOf cs

variable {s s₁ s' : Sys Name} {t fuel : ℕ} {plan : Plan} {d' : DCache Name} {r : Ret}

theorem exists_finish {pc : Pc Name} (hr : Runs plan s.d pc d' (.done r)) (hpc : s.pc t = pc) :
    ∃ fuel s', s.finish plan t fuel = some s' := by
  generalize hd : s.d = d at hr
  generalize he : (Pc.done r : Pc Name) = pc' at hr
  induction hr generalizing s with
  | refl =>
    refine ⟨1, s, ?_⟩
    rw [Sys.finish, hpc, ← he]
    rfl
  | step hb _ ih =>
    subst hpc hd
    obtain ⟨fuel, s', hs'⟩ := ih (s := ⟨_, s.rcuAtStep t _, Function.update s.pc t _⟩)
      (Function.update_self t _ _) rfl he
    refine ⟨fuel + 1, s', ?_⟩
    rw [Sys.finish, if_pos hb, Sys.act_step hb]
    exact hs'

theorem finish_eq (hf : s.finish plan t fuel = some s')
    (hr : Runs plan s.d (s.pc t) d' (.done r)) : s'.d = d' ∧ s'.pc t = .done r := by
  induction fuel generalizing s with
  | zero => cases hf
  | succ _ ih =>
    rw [Sys.finish] at hf
    split_ifs at hf with hb
    · rw [Sys.act_step hb, bind_some] at hf
      generalize hpc : s.pc t = pc at hr
      generalize he : (Pc.done r : Pc Name) = pc' at hr
      cases hr with
      | refl => simp [hpc, ← he, Pc.busy] at hb
      | step _ hr =>
        subst hpc he
        refine ih hf ?_
        simp only [Function.update_self]
        exact hr
    · obtain rfl := some.inj hf
      generalize hpc : s.pc t = pc at hr hb
      generalize he : (Pc.done r : Pc Name) = pc' at hr
      cases hr with
      | refl => exact ⟨rfl, rfl⟩
      | step hb' => exact absurd hb' hb

structure AtRest (t : ℕ) (s : Sys Name) : Prop where
  sound : Sound s
  current : Current s t
  flags : FlagsOnly s.d ∅

theorem AtRest.quiet (hs : AtRest t s) : Quiet s.d :=
  ⟨hs.sound.hash, hs.sound.sib, hs.sound.places.sited, hs.flags⟩

theorem AtRest.init (bucketOf : ℕ → Name → ℕ) (rootname : Name) (t : ℕ) :
    AtRest t (Sys.init bucketOf rootname) := by
  refine ⟨.init bucketOf rootname, ?_, fun _ _ _ => rfl⟩
  intro f hf
  cases hf

theorem finish_sound (hs : Sound s) (hc : Current s t) (hf : s.finish plan t fuel = some s') :
    Sound s' ∧ Current s' t := by
  induction fuel generalizing s with
  | zero => cases hf
  | succ _ ih =>
    rw [Sys.finish] at hf
    split_ifs at hf with hb
    · obtain ⟨s₁, ha, hf⟩ := bind_eq_some_iff.mp hf
      exact ih (hs.act (hc.careful hs rfl) ha) (hc.act rfl ha) hf
    · obtain rfl := some.inj hf
      exact ⟨hs, hc⟩

theorem AtRest.finish (hs : AtRest t s) {c : Call Name} (ha : s.act (.call t c) = some s₁)
    (hf : s₁.finish plan t fuel = some s') (hflags : FlagsOnly s'.d ∅) : AtRest t s' := by
  obtain ⟨hS, hC⟩ := finish_sound (hs.sound.act (hs.current.careful hs.sound rfl) ha)
    (hs.current.act rfl ha) hf
  exact ⟨hS, hC, hflags⟩

theorem AtRest.op (hs : AtRest t s) {o : Op Name} (hfit : o.Fits)
    (hset : s.d.settledFor o = true) (ha : s.act (.call t (.op o)) = some s₁)
    (hf : s₁.finish plan t fuel = some s') :
    AtRest t s' ∧ s'.pc t = .done (serve s.d.fresh plan s.d.names o).1 ∧
      s'.d.names = (serve s.d.fresh plan s.d.names o).2 ∧
      s'.d.fresh = s.d.fresh + spent s.d.fresh plan s.d.names o := by
  obtain ⟨hd, hpc, -⟩ := Sys.act_call ha
  obtain ⟨d', hd'⟩ : ∃ d', Served plan s.d (opStart o) _ _ _ d' := hs.quiet.serve hfit hset
  have hrun : Runs plan s₁.d (s₁.pc t) d' (.done (serve s.d.fresh plan s.d.names o).1) := by
    rw [hd, hpc]
    exact hd'.runs
  obtain ⟨rfl, hret⟩ := finish_eq hf hrun
  exact ⟨hs.finish ha hf hd'.flags, hret, hd'.names, hd'.fresh⟩

theorem runs_fold (plan : Plan) (d : DCache Name) (n : ℕ) :
    Runs plan d (.fldTest n) (d.foldLocked n plan.entry) (.ret none) := by
  by_cases hm : d.topUnhashed n = true
  · have hsame : d.foldLocked n plan.entry = d := by simp [DCache.foldLocked, hm]
    rw [hsame]
    exact .single rfl (by simp [stepPc, hm])
  · have htest : Runs plan d (.fldTest n) d (.fldLock n) := .single rfl (by simp [stepPc, hm])
    exact htest.trans (.single rfl rfl)

theorem AtRest.fold (hs : AtRest t s) {n : ℕ} (ha : s.act (.call t (.fold n)) = some s₁)
    (hf : s₁.finish plan t fuel = some s') :
    AtRest t s' ∧ s'.d.names = s.d.names ∧ s'.d.fresh = s.d.fresh := by
  obtain ⟨hd, hpc, hready⟩ := Sys.act_call ha
  obtain ⟨S, hV⟩ := hs.sound.inv
  have hshell : IsShell s.d n := hV.shells n (Grace.Rcu.ne_idle_of_ready hready)
  have hrun := runs_fold plan s.d n
  rw [← hd, ← show s₁.pc t = .fldTest n from hpc] at hrun
  obtain ⟨hd', -⟩ := finish_eq hf hrun
  rw [hd] at hd'
  have hflags : FlagsOnly s'.d ∅ := hd' ▸ hs.flags.foldLocked n plan.entry
  refine ⟨hs.finish ha hf hflags, ?_, ?_⟩
  · rw [hd', hs.sound.hash.names_foldLocked hshell]
  · rw [hd', DCache.foldLocked_eq]
    split_ifs <;> rfl

/-- The calls return what the serial specification says of their operations, and leave its
map. -/
theorem AtRest.play (hs : AtRest t s) {cs : List (Call Name × Plan)} {rs : List Ret}
    (hp : Sys.play Sys.settled fuel t s cs = some (rs, s')) :
    AtRest t s' ∧ (rs, s'.d.names) = serveAll s.d.fresh s.d.names (opsOf cs) := by
  induction cs generalizing s rs with
  | nil =>
    obtain ⟨rfl, rfl⟩ := Prod.mk.inj (some.inj hp)
    exact ⟨hs, rfl⟩
  | cons c _ ih =>
    obtain ⟨c, plan⟩ := c
    rw [Sys.play] at hp
    split_ifs at hp with hok
    obtain ⟨s₁, ha, hp⟩ := bind_eq_some_iff.mp hp
    obtain ⟨s₂, hf, hp⟩ := bind_eq_some_iff.mp hp
    obtain ⟨⟨rs', s₃⟩, hrest, he⟩ := map_eq_some_iff.mp hp
    simp only [Prod.mk.injEq] at he
    obtain ⟨rfl, rfl⟩ := he
    cases c with
    | op =>
      simp only [Sys.settled, Bool.and_eq_true, decide_eq_true_eq] at hok
      obtain ⟨hs₂, hret, hnames, hfresh⟩ := hs.op hok.1 hok.2 ha hf
      obtain ⟨hs₃, hrest⟩ := ih hs₂ hrest
      rw [hnames, hfresh] at hrest
      refine ⟨hs₃, ?_⟩
      simp only [opsOf, serveAll, ← hrest, Sys.reply, hret]
      rfl
    | fold =>
      obtain ⟨hs₂, hnames, hfresh⟩ := hs.fold ha hf
      obtain ⟨hs₃, hrest⟩ := ih hs₂ hrest
      rw [hnames, hfresh] at hrest
      exact ⟨hs₃, hrest⟩
    | evict => cases hok

theorem AtRest.returns (hs : AtRest t s) {c : Call Name} (hok : s.settled c = true)
    (ha : s.act (.call t c) = some s₁) (plan : Plan) :
    ∃ fuel s', s₁.finish plan t fuel = some s' := by
  obtain ⟨hd, hpc, -⟩ := Sys.act_call ha
  cases c with
  | op o =>
    simp only [Sys.settled, Bool.and_eq_true, decide_eq_true_eq] at hok
    obtain ⟨d', hd'⟩ : ∃ d', Served plan s.d (opStart o) _ _ _ d' :=
      hs.quiet.serve hok.1 hok.2
    exact exists_finish (hd ▸ hd'.runs) hpc
  | fold n => exact exists_finish (runs_fold plan s₁.d n) hpc
  | evict => cases hok

/-- Two sequences of calls with the same operations, whatever folds they run in between, return
the same and leave the same map; and every call returns. -/
theorem play_folds_invisible (bucketOf : ℕ → Name → ℕ) (rootname : Name)
    {cs cs' : List (Call Name × Plan)} (hops : opsOf cs = opsOf cs') {t t' fuel fuel' : ℕ}
    {rs rs' : List Ret} {s s' : Sys Name}
    (hp : (Sys.init bucketOf rootname).play Sys.settled fuel t cs = some (rs, s))
    (hp' : (Sys.init bucketOf rootname).play Sys.settled fuel' t' cs' = some (rs', s')) :
    rs = rs' ∧ s.d.names = s'.d.names ∧
      ∀ c s₁, s.settled c = true → s.act (.call t c) = some s₁ → ∀ plan,
        ∃ fuel s₂, s₁.finish plan t fuel = some s₂ := by
  obtain ⟨hs, he⟩ := (AtRest.init bucketOf rootname t).play hp
  obtain ⟨-, he'⟩ := (AtRest.init bucketOf rootname t').play hp'
  rw [hops, ← he'] at he
  exact ⟨congrArg Prod.fst he, congrArg Prod.snd he, fun c s₁ hok ha plan => hs.returns hok ha plan⟩

def foldedOrNot (folds : List (Call ℕ × Plan)) : List (Call ℕ × Plan) :=
  [(.op (.addFile [1] 5), ⟨false, false⟩), (.op (.rename [1] [2]), ⟨false, false⟩)] ++ folds ++
    [(.op (.addFile [1] 6), ⟨false, false⟩), (.op (.rename [1] [3]), ⟨false, false⟩),
      (.op (.lookup [3]), ⟨false, false⟩)]

theorem foldedOrNot_play (folds : List (Call ℕ × Plan))
    (hf : folds = [] ∨ folds = [(.fold 2, ⟨false, false⟩)]) :
    ((Sys.init (fun _ _ => 0) 0).play Sys.settled 20 0 (foldedOrNot folds)).map Prod.fst =
      some [.code none, .code none, .code none, .code none, .lookup .positive [3]] := by
  rcases hf with rfl | rfl <;> rfl

theorem play_folds_invisible_rename : ∃ rs s s',
    (Sys.init (fun _ _ => 0) 0).play Sys.settled 20 0 (foldedOrNot []) = some (rs, s) ∧
    (Sys.init (fun _ _ => 0) 0).play Sys.settled 20 0
      (foldedOrNot [(.fold 2, ⟨false, false⟩)]) = some (rs, s') ∧ s.d.names = s'.d.names := by
  obtain ⟨⟨rs, s⟩, hp, -⟩ := map_eq_some_iff.mp (foldedOrNot_play [] (.inl rfl))
  obtain ⟨⟨rs', s'⟩, hp', -⟩ := map_eq_some_iff.mp
    (foldedOrNot_play [(.fold 2, ⟨false, false⟩)] (.inr rfl))
  obtain ⟨rfl, hnames, -⟩ := play_folds_invisible (fun _ _ => 0) 0 (by rfl) hp hp'
  exact ⟨rs, s, s', hp, hp', hnames⟩

def renameOverMoved (folds : List (Call ℕ × Plan)) : List (Call ℕ × Plan) :=
  [(.op (.addFile [1] 5), ⟨false, false⟩), (.op (.delete [1]), ⟨false, false⟩),
    (.op (.rename [1] [2]), ⟨false, false⟩)] ++ folds ++
    [(.op (.addFile [3] 6), ⟨false, false⟩), (.op (.rename [3] [2]), ⟨false, false⟩)]

theorem renameOverMoved_folds_differ :
    opsOf (renameOverMoved []) = opsOf (renameOverMoved [(.fold 2, ⟨false, false⟩)]) ∧
    ((Sys.init (fun _ _ => 0) 0).play Sys.fits 20 0 (renameOverMoved [])).map Prod.fst =
      some [.code none, .code none, .code none, .code none, .code (some .EEXIST)] ∧
    ((Sys.init (fun _ _ => 0) 0).play Sys.fits 20 0
        (renameOverMoved [(.fold 2, ⟨false, false⟩)])).map Prod.fst =
      some [.code none, .code none, .code none, .code none, .code none] := by
  decide +kernel

end TrieBenchmark.Bucketlock
