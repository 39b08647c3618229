import TrieBenchmark.Bucketlock.Names
import TrieBenchmark.Walker

/-!
An operation that runs alone, step by step to its return: it answers and edits the map from
paths to objects as the serial specification says.
-/

namespace TrieBenchmark.Bucketlock

open Option List Hlist Namei Serial

variable {Name : Type} [DecidableEq Name] {d d' d'' : DCache Name} {pc pc' pc'' : Pc Name}
  {plan : Plan}

def Pc.oom (plan : Plan) : Pc Name → Bool
  | .stkLock .. => plan.commit
  | .xchLock .. => plan.commit
  | _ => plan.entry

inductive Runs (plan : Plan) : DCache Name → Pc Name → DCache Name → Pc Name → Prop where
  | refl (d : DCache Name) (pc : Pc Name) : Runs plan d pc d pc
  | step {d d' : DCache Name} {pc pc' : Pc Name} : pc.busy = true →
      Runs plan (stepPc d pc (pc.oom plan)).1 (stepPc d pc (pc.oom plan)).2 d' pc' →
      Runs plan d pc d' pc'

theorem Runs.head {d₁ : DCache Name} {pc₁ : Pc Name} (hb : pc.busy = true)
    (he : stepPc d pc (pc.oom plan) = (d₁, pc₁)) (hr : Runs plan d₁ pc₁ d' pc') :
    Runs plan d pc d' pc' := by
  refine .step hb ?_
  rw [he]
  exact hr

theorem Runs.single {d₁ : DCache Name} {pc₁ : Pc Name} (hb : pc.busy = true)
    (he : stepPc d pc (pc.oom plan) = (d₁, pc₁)) : Runs plan d pc d₁ pc₁ :=
  .head hb he (.refl d₁ pc₁)

theorem Runs.trans (h₁ : Runs plan d pc d' pc') (h₂ : Runs plan d' pc' d'' pc'') :
    Runs plan d pc d'' pc'' := by
  induction h₁ with
  | refl => exact h₂
  | step hb _ ih => exact .step hb (ih h₂)

def FlagsOnly (d : DCache Name) (S : Set ℕ) : Prop :=
  ∀ a < d.fresh, a ∉ S → (d.dentry a).moving = false

structure Quiet (d : DCache Name) : Prop where
  hash : HashOk d
  sib : SibOk d
  site : Sited d
  flags : FlagsOnly d ∅

namespace FlagsOnly

omit [DecidableEq Name]

variable {S : Set ℕ} {top topa topb : ℕ} {m : Move Name} {x : Xchg Name} {h : ℕ}

theorem of_grows (hf : FlagsOnly d S) (hG : Grows d d')
    (hnew : ∀ a < d'.fresh, d.fresh ≤ a → (d'.dentry a).moving = false) : FlagsOnly d' S := by
  intro a ha hS
  by_cases hlt : a < d.fresh
  · rw [hG.moving a hlt]
    exact hf a hlt hS
  · exact hnew a ha (Nat.not_lt.mp hlt)

theorem add (hf : FlagsOnly d S) (parent : ℕ) (name : Name) (id : ℕ) (isdir positive : Bool) :
    FlagsOnly (d.addCommit parent name id isdir positive) S := by
  refine hf.of_grows (addCommit_grows parent name id isdir positive).1 fun a ha hge => ?_
  obtain rfl : a = d.fresh := Nat.le_antisymm (Nat.lt_succ_iff.mp ha) hge
  rw [addCommit_dentry_fresh]

theorem stack (hf : FlagsOnly d S) (hlt : d.hostOf top < d.fresh) :
    FlagsOnly (d.stackCommit m top) S := by
  refine hf.of_grows (stackCommit_grows m hlt) fun a ha hge => ?_
  rw [DCache.stackCommit_fresh] at ha
  obtain rfl : a = d.fresh := Nat.le_antisymm (Nat.lt_succ_iff.mp ha) hge
  rw [DCache.stackCommit_dentry_shell (Nat.ne_of_lt hlt)]
  rfl

theorem exchange (hf : FlagsOnly d S) (ha : d.hostOf topa < d.fresh)
    (hb : d.hostOf topb < d.fresh) : FlagsOnly (d.exchangeCommit x topa topb) S := by
  refine hf.of_grows (exchangeCommit_grows d x topa topb) fun a hlt hge => ?_
  rw [DCache.exchangeCommit_fresh] at hlt
  obtain rfl | rfl : a = d.fresh ∨ a = d.fresh + 1 := by omega
  · rw [DCache.exchangeCommit_dentry_sa ha hb]
    rfl
  · rw [DCache.exchangeCommit_dentry_sb ha hb]
    rfl

theorem foldLocked (hf : FlagsOnly d S) (n : ℕ) (oom : Bool) :
    FlagsOnly (d.foldLocked n oom) S := by
  rw [DCache.foldLocked_eq]
  split_ifs
  · exact hf
  · exact hf.of_grows foldScratch_grows.1 fun a ha hge => absurd ha (Nat.not_lt.mpr hge)
  · exact hf.of_grows foldCommit_grows.1 fun a ha hge => absurd ha (Nat.not_lt.mpr hge)

theorem flip (hf : FlagsOnly d S) (h : ℕ) (negative : Bool) (id : ℕ) :
    FlagsOnly (d.flip h negative id) S :=
  hf.of_grows (.modify d h _ fun _ => ⟨rfl, rfl, rfl⟩) fun _ ha hge =>
    absurd ha (Nat.not_lt.mpr hge)

theorem set (hf : FlagsOnly d S) (h : ℕ) : FlagsOnly (d.setMoving h true) (insert h S) := by
  intro a ha hS
  simp only [Set.mem_insert_iff, not_or] at hS
  rw [setMoving_dentry, if_neg hS.1]
  exact hf a ha hS.2

theorem clear (hf : FlagsOnly d (insert h S)) : FlagsOnly (d.setMoving h false) S := by
  intro a ha hS
  simp only [setMoving_dentry]
  split_ifs with hne
  · rfl
  · exact hf a ha (by simp [hne, hS])

end FlagsOnly

section Walk

variable {cur : ℕ} {dir path : List Name} {name : Name} {k : Cont Name} {e : Errno}

def walker (plan : Plan) (d : DCache Name) : Walker Name (Pc Name) where
  child := d.childLookup
  obj := d.obj
  oom := plan.entry
  run pc pc' := Runs plan d pc d pc'
  start := opStart
  walk := .walk
  arrive := arrive
  ret := .ret
  cross := .renToPos
  find := .stkFind
  findA := .xchFindA
  refl := .refl d
  trans := .trans
  start_refuse h := by simp [opStart, h]
  start_walk h := by simp [opStart, h]
  walk_nil _ _ := .single rfl rfl
  walk_cons cur n _ _ := .single rfl (by
    cases h : d.childLookup cur n <;> simp [stepPc, h])
  rename_from fp sn _ _ := .single rfl (by
    cases h : d.childLookup fp sn <;> simp [arrive, stepPc, h])
  rename_to fp sn v tp dn := by
    cases hh : d.childLookup tp dn with
    | none => exact .single rfl (by simp [arrive, stepPc, hh])
    | some h =>
      by_cases hv : h = v
      · exact .single rfl (by simp [arrive, stepPc, hh, hv])
      · have hdest : Runs plan d (.renDest fp sn v tp dn) d (.renDestPos fp sn v tp dn h) :=
          .single rfl (by simp [stepPc, hh, hv])
        refine hdest.trans (.single rfl ?_)
        cases hneg : (d.dentry h).neg <;>
          simp [stepPc, DCache.isPositive, DCache.obj, hneg, hv]
  exchange_a _ _ _ _ := rfl
  exchange_b pa na pb nb := by
    have hlook : Runs plan d (.xchLookA ⟨pa, na, pb, nb⟩) d
        (.xchLookB ⟨pa, na, pb, nb⟩ (d.childLookup pa na)) := .single rfl rfl
    refine hlook.trans (.single rfl ?_)
    cases d.childLookup pa na <;> cases hb : d.childLookup pb nb <;> simp only [stepPc, hb, Pc.oom]
    split_ifs <;> simp_all

theorem runs_walk_from (hr : Namei.resolve d.childLookup cur dir = some h) :
    Runs plan d (.walk cur dir k) d (arrive h k) :=
  (walker plan d).walk_of_resolve hr

theorem runs_walk_fails (hr : Namei.resolve d.childLookup cur dir = none) :
    Runs plan d (.walk cur dir k) d (.ret (some .ENOENT)) :=
  (walker plan d).walk_of_none hr

theorem names_eq_none : d.names.find path = none ↔ d.resolve path = none := by
  simp [DCache.names]

theorem names_eq_some {o : Obj} :
    d.names.find path = some o ↔ ∃ h, d.resolve path = some h ∧ d.obj h = o := by
  simp [DCache.names, map_eq_some_iff]

theorem resolve_dir (hdir : d.resolve dir = some h) (name : Name) :
    d.resolve (dir ++ [name]) = d.childLookup h name :=
  Namei.resolve_dir hdir name

theorem resolve_dir_none (hdir : d.resolve dir = none) (name : Name) :
    d.resolve (dir ++ [name]) = none :=
  Namei.resolve_dir_none hdir name

theorem runs_missing (hnone : d.resolve (dir ++ [name]) = none)
    (hfind : ∀ parent, d.findTop parent name = none →
      Runs plan d (arrive parent k) d (.ret (some .ENOENT))) :
    Runs plan d (.walk root dir k) d (.ret (some .ENOENT)) :=
  (walker plan d).missing hnone fun parent h => hfind parent (map_eq_none_iff.mp h)

structure Holds (d : DCache Name) (dir : List Name) (name : Name) (parent top : ℕ) : Prop where
  dir : d.resolve dir = some parent
  find : d.findTop parent name = some top
  hashed : d.hashed top
  iparent : (d.dentry top).iparent = parent
  iname : (d.dentry top).iname = name

theorem HashOk.exists_holds (hI : HashOk d) (hr : d.resolve (dir ++ [name]) = some h) :
    ∃ parent top, Holds d dir name parent top ∧ d.hostOf top = h := by
  cases hdir : d.resolve dir with
  | none =>
    rw [resolve_dir_none hdir] at hr
    cases hr
  | some parent =>
    rw [resolve_dir hdir] at hr
    obtain ⟨top, htop, he⟩ := map_eq_some_iff.mp hr
    obtain ⟨hh, hp, hn⟩ := hI.findTop_eq_some.mp htop
    exact ⟨parent, top, ⟨hdir, htop, hh, hp, hn⟩, he⟩

theorem Holds.resolve {parent top : ℕ} (hH : Holds d dir name parent top) :
    d.resolve (dir ++ [name]) = some (d.hostOf top) := by
  rw [resolve_dir hH.dir, DCache.childLookup, hH.find]
  rfl

end Walk

structure Served (plan : Plan) (d : DCache Name) (pc : Pc Name) (r : Ret) (N : PathMap Name)
    (spent : ℕ) (d' : DCache Name) : Prop where
  runs : Runs plan d pc d' (.done r)
  names : d'.names = N
  flags : FlagsOnly d' ∅
  fresh : d'.fresh = d.fresh + spent

theorem Served.unchanged {r : Ret} (hQ : Quiet d) (hr : Runs plan d pc d (.done r)) :
    Served plan d pc r d.names 0 d :=
  ⟨hr, rfl, hQ.flags, rfl⟩

theorem Served.after {r : Ret} {N : PathMap Name} {spent : ℕ}
    (hs : Served plan d pc' r N spent d') (hr : Runs plan d pc d pc') :
    Served plan d pc r N spent d' :=
  ⟨hr.trans hs.runs, hs.names, hs.flags, hs.fresh⟩

section Ops

variable {path : List Name} {id : ℕ} {isdir positive : Bool}

theorem Quiet.addTyped (hQ : Quiet d) (path : List Name) (id : ℕ) (isdir positive : Bool) :
    ∃ d', Served plan d (opStart (.addTyped path id isdir positive))
      (.code (d.names.addTyped d.fresh plan path id isdir positive).1)
      (d.names.addTyped d.fresh plan path id isdir positive).2
      (if (d.names.addTyped d.fresh plan path id isdir positive).1 = none then 1 else 0) d' := by
  rcases eq_nil_or_concat' path with rfl | ⟨dir, name, rfl⟩
  · exact ⟨d, .unchanged hQ (.refl ..)⟩
  rw [opStart, Op.start, startAt_concat]
  unfold PathMap.addTyped
  simp only [dropLast_concat, append_eq_nil_iff, cons_ne_nil, and_false, if_false]
  cases hdir : d.resolve dir with
  | none =>
    rw [names_eq_none.mpr hdir]
    exact ⟨d, .unchanged hQ (runs_walk_fails hdir)⟩
  | some parent =>
    have hfind : (d.names.find (dir ++ [name])).isSome = (d.childLookup parent name).isSome := by
      simp [DCache.names, resolve_dir hdir]
    have hwalk : Runs plan d (.walk root dir (.add name id isdir positive)) d
        (.addCheck parent name id isdir positive) := runs_walk_from hdir
    rw [names_eq_some.mpr ⟨parent, hdir, rfl⟩, hfind]
    by_cases hd : (d.dentry parent).isdir = false
    · refine ⟨d, ?_⟩
      simp only [DCache.obj, hd, if_true]
      exact .unchanged hQ (hwalk.trans (.single rfl (by simp [stepPc, hd, Pc.ret])))
    by_cases hdup : (d.childLookup parent name).isSome = true
    · refine ⟨d, ?_⟩
      simp only [DCache.obj, hd, hdup, if_true]
      exact .unchanged hQ (hwalk.trans (.single rfl (by simp [stepPc, hd, hdup, Pc.ret])))
    by_cases hoom : plan.entry = true
    · refine ⟨d, ?_⟩
      simp only [DCache.obj, hd, hdup, hoom, if_true]
      exact .unchanged hQ (hwalk.trans (.single rfl (by
        simp [stepPc, hd, hdup, Pc.oom, hoom, Pc.ret])))
    have hcheck : Runs plan d (.addCheck parent name id isdir positive) d
        (.addLock parent name id isdir positive) :=
      .single rfl (by simp [stepPc, hd, hdup, Pc.oom, hoom])
    by_cases hneg : (d.dentry parent).neg = true
    · refine ⟨d, ?_⟩
      simp only [DCache.obj, hd, hdup, hoom, hneg, if_true]
      exact .unchanged hQ (hwalk.trans (hcheck.trans (.single rfl (by
        simp [stepPc, DCache.addLocked, DCache.isPositive, hneg, Pc.ret]))))
    have halive := hQ.hash.entryAlive_of_alive (hQ.hash.resolve_alive hdir)
    have hfree : d.childLookup parent name = none := by simpa using hdup
    have hlock : stepPc d (.addLock parent name id isdir positive) false =
        (d.addCommit parent name id isdir positive, .ret none) := by
      simp [stepPc, DCache.addLocked, DCache.isPositive, hneg, halive, hfree, DCache.addCommit]
    refine ⟨d.addCommit parent name id isdir positive, ?_⟩
    simp only [DCache.obj, hd, hdup, hoom, hneg]
    exact ⟨hwalk.trans (hcheck.trans (.single rfl hlock)),
      hQ.hash.names_add hQ.site hdir (hQ.hash.childLookup_eq_none.mp hfree),
      hQ.flags.add _ _ _ _ _, rfl⟩

theorem Quiet.instantiate (hQ : Quiet d) (path : List Name) (id : ℕ) :
    ∃ d', Served plan d (opStart (.instantiate path id)) (.code (d.names.instantiate path id).1)
      (d.names.instantiate path id).2 0 d' := by
  rcases eq_nil_or_concat' path with rfl | ⟨dir, name, rfl⟩
  · exact ⟨d, .unchanged hQ (.refl ..)⟩
  rw [opStart, Op.start, startAt_concat]
  unfold PathMap.instantiate
  simp only [append_eq_nil_iff, cons_ne_nil, and_false, if_false]
  cases hr : d.resolve (dir ++ [name]) with
  | none =>
    rw [names_eq_none.mpr hr]
    exact ⟨d, .unchanged hQ (runs_missing hr fun parent hf =>
      .single rfl (by simp [arrive, stepPc, hf, Pc.ret]))⟩
  | some =>
    obtain ⟨parent, top, hH, rfl⟩ := hQ.hash.exists_holds hr
    rw [names_eq_some.mpr ⟨_, hr, rfl⟩]
    have hfind : Runs plan d (.walk root dir (.instantiate name id)) d
        (.instLock parent name id top) :=
      (runs_walk_from hH.dir).trans (.single rfl (by simp [arrive, stepPc, hH.find]))
    have hlive := hQ.hash.not_marked hH.hashed
    by_cases hneg : (d.dentry (d.hostOf top)).neg = false
    · refine ⟨d, ?_⟩
      simp only [DCache.obj, hneg, if_true]
      exact .unchanged hQ (hfind.trans (.single rfl (by
        simp [stepPc, hlive, DCache.setNegative, hneg, Pc.ret])))
    · refine ⟨d.flip (d.hostOf top) false id, ?_⟩
      simp only [DCache.obj, hneg]
      refine ⟨hfind.trans (.single rfl ?_), hQ.hash.names_flip hr false id,
        hQ.flags.flip _ _ _, rfl⟩
      simp [stepPc, hlive, DCache.setNegative, hneg, Pc.ret, DCache.flip]

theorem SibOk.childrenEmpty_names (hS : SibOk d) (hI : HashOk d) {path : List Name}
    (hr : d.resolve path = some h) : d.childrenEmpty h = true ↔ ¬ d.names.HasChild path := by
  rw [iff_comm]
  constructor
  · intro hno
    rw [hS.childrenEmpty_iff]
    apply eq_nil_iff_forall_not_mem.mpr
    intro a ha
    obtain ⟨hh, rfl⟩ := (hS.mem h a).mp ha
    apply hno
    refine ⟨(d.dentry a).iname, ?_⟩
    simp [DCache.names, resolve_dir hr, hI.childLookup_of_hashed hh]
  · rintro hempty ⟨n, hn⟩
    have hnone := hI.childLookup_none (fun a ha => hS.not_child hempty ha) n
    simp [DCache.names, resolve_dir hr, hnone] at hn

theorem Quiet.childrenEmpty_iff (hQ : Quiet d) {path : List Name}
    (hr : d.resolve path = some h) : d.childrenEmpty h = true ↔ ¬ d.names.HasChild path :=
  hQ.sib.childrenEmpty_names hQ.hash hr

theorem Quiet.delete (hQ : Quiet d) (path : List Name) :
    ∃ d', Served plan d (opStart (.delete path)) (.code (d.names.delete path).1)
      (d.names.delete path).2 0 d' := by
  rcases eq_nil_or_concat' path with rfl | ⟨dir, name, rfl⟩
  · exact ⟨d, .unchanged hQ (.refl ..)⟩
  rw [opStart, Op.start, startAt_concat]
  unfold PathMap.delete
  simp only [append_eq_nil_iff, cons_ne_nil, and_false, if_false]
  cases hr : d.resolve (dir ++ [name]) with
  | none =>
    rw [names_eq_none.mpr hr]
    exact ⟨d, .unchanged hQ (runs_missing hr fun parent hf =>
      .single rfl (by simp [arrive, stepPc, hf, Pc.ret]))⟩
  | some h =>
    obtain ⟨parent, top, hH, rfl⟩ := hQ.hash.exists_holds hr
    rw [names_eq_some.mpr ⟨_, hr, rfl⟩]
    have hlive := hQ.hash.not_marked hH.hashed
    -- on a directory the first round only learns which child head to lock
    obtain ⟨l, hl, hfind⟩ : ∃ l, ((d.dentry (d.hostOf top)).isdir = true → l = some (d.hostOf top)) ∧
        Runs plan d (.walk root dir (.delete name)) d (.delLock parent name l top) := by
      have hfirst : Runs plan d (.walk root dir (.delete name)) d (.delLock parent name none top) :=
        (runs_walk_from hH.dir).trans (.single rfl (by simp [arrive, stepPc, hH.find]))
      by_cases hd : (d.dentry (d.hostOf top)).isdir = true
      · refine ⟨some (d.hostOf top), fun _ => rfl, hfirst.trans ?_⟩
        have hround : Runs plan d (.delLock parent name none top) d
            (.delFind parent name (some (d.hostOf top))) :=
          .single rfl (by simp [stepPc, hlive, hd])
        exact hround.trans (.single rfl (by simp [stepPc, hH.find]))
      · exact ⟨none, fun h => absurd h hd, hfirst⟩
    by_cases hkids : (d.dentry (d.hostOf top)).isdir = true ∧ d.names.HasChild (dir ++ [name])
    · refine ⟨d, ?_⟩
      have hne : d.childrenEmpty (d.hostOf top) = false := by
        rw [← Bool.not_eq_true, hQ.childrenEmpty_iff hr, not_not]
        exact hkids.2
      simp only [DCache.obj, hkids, and_self, if_true]
      exact .unchanged hQ (hfind.trans (.single rfl (by
        simp [stepPc, hlive, hl hkids.1, hkids.1, hne, Pc.ret])))
    have hpass : (d.dentry (d.hostOf top)).isdir = true → d.childrenEmpty (d.hostOf top) = true :=
      fun hd => (hQ.childrenEmpty_iff hr).mpr fun hc => hkids ⟨hd, hc⟩
    have hstep : stepPc d (.delLock parent name l top) plan.entry =
        ((d.setNegative (d.hostOf top) true 0).2, .ret (d.setNegative (d.hostOf top) true 0).1) := by
      by_cases hd : (d.dentry (d.hostOf top)).isdir = true
      · simp [stepPc, hlive, hd, hl hd, hpass hd]
      · simp [stepPc, hlive, hd]
    by_cases hneg : (d.dentry (d.hostOf top)).neg = true
    · refine ⟨d, ?_⟩
      simp only [DCache.obj, hkids, hneg, if_true, if_false]
      exact .unchanged hQ (hfind.trans (.single rfl (hstep.trans (by
        simp [DCache.setNegative, hneg, Pc.ret]))))
    · refine ⟨d.flip (d.hostOf top) true (d.dentry (d.hostOf top)).id, ?_⟩
      simp only [DCache.obj, hkids, hneg, if_false]
      refine ⟨hfind.trans (.single rfl (hstep.trans ?_)), hQ.hash.names_flip hr true _,
        hQ.flags.flip _ _ _, rfl⟩
      simp [DCache.setNegative, hneg, Pc.ret, DCache.flip, DCache.modify]

theorem Quiet.unlink (hQ : Quiet d) (path : List Name) :
    ∃ d', Served plan d (opStart (.unlink path)) (.code (d.names.unlink path).1)
      (d.names.unlink path).2 0 d' := by
  rcases eq_nil_or_concat' path with rfl | ⟨dir, name, rfl⟩
  · exact ⟨d, .unchanged hQ (.refl ..)⟩
  rw [opStart, Op.start, startAt_concat]
  unfold PathMap.unlink
  simp only [append_eq_nil_iff, cons_ne_nil, and_false, if_false]
  cases hr : d.resolve (dir ++ [name]) with
  | none =>
    rw [names_eq_none.mpr hr]
    exact ⟨d, .unchanged hQ (runs_missing hr fun parent hf =>
      .single rfl (by simp [arrive, stepPc, hf, Pc.ret]))⟩
  | some =>
    obtain ⟨parent, top, hH, rfl⟩ := hQ.hash.exists_holds hr
    rw [names_eq_some.mpr ⟨_, hr, rfl⟩]
    have hlive := hQ.hash.not_marked hH.hashed
    have hfind : Runs plan d (.walk root dir (.unlink name)) d (.unlKids parent name top) :=
      (runs_walk_from hH.dir).trans (.single rfl (by simp [arrive, stepPc, hH.find]))
    by_cases hkids : d.names.HasChild (dir ++ [name])
    · refine ⟨d, ?_⟩
      have hne : d.childrenEmpty (d.hostOf top) = false := by
        rw [← Bool.not_eq_true, hQ.childrenEmpty_iff hr, not_not]
        exact hkids
      simp only [hkids, if_true]
      exact .unchanged hQ (hfind.trans (.single rfl (by simp [stepPc, hne, Pc.ret])))
    · have hempty := (hQ.childrenEmpty_iff hr).mpr hkids
      refine ⟨d.delLocked top, ?_⟩
      simp only [hkids, if_false]
      have hkids' : Runs plan d (.unlKids parent name top) d (.unlLock parent name top) :=
        .single rfl (by simp [stepPc, hempty])
      have hlock : Runs plan d (.unlLock parent name top) (d.delLocked top) (.ret none) :=
        .single rfl (by simp [stepPc, DCache.unlinkLocked, hlive, hempty])
      have hnames := hQ.hash.names_del hH.hashed (by rw [hH.iparent]; exact hH.dir)
      rw [hH.iname] at hnames
      exact ⟨hfind.trans (hkids'.trans hlock), hnames, hQ.flags, rfl⟩

end Ops

end TrieBenchmark.Bucketlock
