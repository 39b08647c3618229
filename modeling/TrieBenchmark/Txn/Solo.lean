import TrieBenchmark.Txn.Names
import TrieBenchmark.Txn.Fit
import TrieBenchmark.Walker

/-!
An operation of the mark arm that runs alone, step by step to its return: it answers and edits
the map from paths to objects as the serial specification says.
-/

namespace TrieBenchmark.Txn

open Option Cache Edits Namei Serial

variable {Name : Type} [DecidableEq Name] {d d' d'' d₁ : Cache Name} {pc pc' pc'' pc₁ : Pc Name}
  {qs qs' : List ℕ}

/-- The thread alone takes the cache from `d` to `d'` and queues the folds of `qs`: memory is
there, and no commit meets a conflict. -/
inductive Runs : Cache Name → Pc Name → List ℕ → Cache Name → Pc Name → Prop where
  | refl (d : Cache Name) (pc : Pc Name) : Runs d pc [] d pc
  | step {d d' : Cache Name} {pc pc' : Pc Name} {qs : List ℕ} : pc.busy = true →
      Runs (stepPc .mark d pc .ok).1 (stepPc .mark d pc .ok).2 qs d' pc' →
      Runs d pc (pc.queues.toList ++ qs) d' pc'

theorem Runs.queue (hb : pc.busy = true) (he : stepPc .mark d pc .ok = (d₁, pc₁))
    (hr : Runs d₁ pc₁ qs d' pc') : Runs d pc (pc.queues.toList ++ qs) d' pc' := by
  refine .step hb ?_
  rw [he]
  exact hr

theorem Runs.head (hb : pc.busy = true ∧ pc.queues = none)
    (he : stepPc .mark d pc .ok = (d₁, pc₁)) (hr : Runs d₁ pc₁ qs d' pc') :
    Runs d pc qs d' pc' := by
  have h := Runs.queue hb.1 he hr
  rwa [hb.2] at h

theorem Runs.single (hb : pc.busy = true ∧ pc.queues = none)
    (he : stepPc .mark d pc .ok = (d₁, pc₁)) : Runs d pc [] d₁ pc₁ :=
  .head hb he (.refl d₁ pc₁)

theorem Runs.trans (h₁ : Runs d pc qs d' pc') (h₂ : Runs d' pc' qs' d'' pc'') :
    Runs d pc (qs ++ qs') d'' pc'' := by
  induction h₁ with
  | refl => exact h₂
  | step hb _ ih =>
    rw [List.append_assoc]
    exact .step hb (ih h₂)

theorem Runs.andThen (h₁ : Runs d pc [] d' pc') (h₂ : Runs d' pc' qs d'' pc'') :
    Runs d pc qs d'' pc'' :=
  h₁.trans h₂

def FlagsOnly (d : Cache Name) (S : Set ℕ) : Prop :=
  ∀ a < d.fresh, a ∉ S → (d.dentry a).moving = false

structure Quiet (d : Cache Name) : Prop extends Fit d where
  flags : FlagsOnly d ∅
  settled : ∀ T, d.linked T → (d.dentry T).shell = false

namespace FlagsOnly

omit [DecidableEq Name]

variable {S : Set ℕ} {a : ℕ} {h : ℕ}

theorem modify (hf : FlagsOnly d S) (f : Dentry Name → Dentry Name)
    (hm : ∀ e, (f e).moving = e.moving) : FlagsOnly (d.modify a f) S := by
  intro b hb hS
  rcases eq_or_ne b a with rfl | hne
  · rw [modify_self, hm]
    exact hf b hb hS
  · rw [modify_of_ne _ _ _ _ hne]
    exact hf b hb hS

theorem set (hf : FlagsOnly d S) (h : ℕ) : FlagsOnly (d.setMoving h true) (insert h S) := by
  intro a ha hS
  simp only [Set.mem_insert_iff, not_or] at hS
  rw [Cache.setMoving, modify_of_ne _ _ _ _ hS.1]
  exact hf a ha hS.2

theorem clear (hf : FlagsOnly d (insert h S)) : FlagsOnly (d.setMoving h false) S := by
  intro a ha hS
  rcases eq_or_ne a h with rfl | hne
  · simp [Cache.setMoving]
  · rw [Cache.setMoving, modify_of_ne _ _ _ _ hne]
    exact hf a ha (by simp [hne, hS])

end FlagsOnly

section Walk

variable {cur : ℕ} {dir path : List Name} {name : Name} {k : Cont Name} {e : Errno}

def walker (d : Cache Name) : Walker Name (Pc Name) where
  child := d.childLookup
  obj := d.obj
  oom := false
  run pc pc' := Runs d pc [] d pc'
  start := opStart .mark
  walk := .walk
  arrive := arrive
  ret := .ret
  cross := .renCross
  find := .stkFind
  findA := .xchFindA
  refl := .refl d
  trans := .andThen
  start_refuse h := by simp [opStart, h]
  start_walk h := by simp [opStart, h]
  walk_nil _ _ := .single ⟨rfl, rfl⟩ rfl
  walk_cons cur n _ _ := .single ⟨rfl, rfl⟩ (by
    cases h : d.childLookup cur n <;> simp [stepPc, h])
  rename_from fp sn _ _ := .single ⟨rfl, rfl⟩ (by
    cases h : d.childLookup fp sn <;> simp [arrive, stepPc, h])
  rename_to fp sn v tp dn := by
    cases hh : d.childLookup tp dn with
    | none => exact .single ⟨rfl, rfl⟩ (by simp [arrive, stepPc, hh])
    | some h =>
      by_cases hv : h = v
      · exact .single ⟨rfl, rfl⟩ (by simp [arrive, stepPc, hh, hv])
      · have hdest : Runs d (.renDest fp sn v tp dn) [] d (.renDestPos fp sn v tp dn h) :=
          .single ⟨rfl, rfl⟩ (by simp [stepPc, hh, hv])
        refine hdest.andThen (.single ⟨rfl, rfl⟩ ?_)
        cases hneg : (d.dentry h).neg <;> simp [stepPc, Cache.raw, Cache.obj, hneg, hv]
  exchange_a _ _ _ _ := rfl
  exchange_b pa na pb nb := by
    have hlook : Runs d (.xchLookA ⟨pa, na, pb, nb⟩) [] d
        (.xchLookB ⟨pa, na, pb, nb⟩ (d.childLookup pa na)) := .single ⟨rfl, rfl⟩ rfl
    refine hlook.andThen (.single ⟨rfl, rfl⟩ ?_)
    cases d.childLookup pa na <;> cases hb : d.childLookup pb nb <;> simp only [stepPc, hb]
    split_ifs <;> simp_all

theorem runs_walk_from (hr : Namei.resolve d.childLookup cur dir = some h) :
    Runs d (.walk cur dir k) [] d (arrive h k) :=
  (walker d).walk_of_resolve hr

theorem runs_walk_fails (hr : Namei.resolve d.childLookup cur dir = none) :
    Runs d (.walk cur dir k) [] d (.ret (some .ENOENT)) :=
  (walker d).walk_of_none hr

theorem names_eq_none : d.names.find path = none ↔ d.resolve path = none :=
  pathMap_eq_none

theorem names_eq_some {o : Obj} :
    d.names.find path = some o ↔ ∃ h, d.resolve path = some h ∧ d.obj h = o :=
  pathMap_eq_some

theorem resolve_dir (hdir : d.resolve dir = some h) (name : Name) :
    d.resolve (dir ++ [name]) = d.childLookup h name :=
  Namei.resolve_dir hdir name

theorem resolve_dir_none (hdir : d.resolve dir = none) (name : Name) :
    d.resolve (dir ++ [name]) = none :=
  Namei.resolve_dir_none hdir name

theorem runs_missing (hnone : d.resolve (dir ++ [name]) = none)
    (hfind : ∀ parent, d.findTop parent name = none →
      Runs d (arrive parent k) [] d (.ret (some .ENOENT))) :
    Runs d (.walk root dir k) [] d (.ret (some .ENOENT)) :=
  (walker d).missing hnone fun parent h => hfind parent (map_eq_none_iff.mp h)

structure Holds (d : Cache Name) (dir : List Name) (name : Name) (parent top : ℕ) : Prop where
  dir : d.resolve dir = some parent
  find : d.findTop parent name = some top
  linked : d.linked top
  iparent : (d.dentry top).iparent = parent
  iname : (d.dentry top).iname = name

theorem IndexOk.exists_holds (hI : IndexOk d) (hr : d.resolve (dir ++ [name]) = some h) :
    ∃ parent top, Holds d dir name parent top ∧ d.hostOf top = h := by
  cases hdir : d.resolve dir with
  | none =>
    rw [resolve_dir_none hdir] at hr
    cases hr
  | some parent =>
    rw [resolve_dir hdir] at hr
    obtain ⟨top, htop, he⟩ := map_eq_some_iff.mp hr
    obtain ⟨hl, hp, hn⟩ := hI.findTop_eq_some.mp htop
    exact ⟨parent, top, ⟨hdir, htop, hl, hp, hn⟩, he⟩

theorem Holds.resolve {parent top : ℕ} (hH : Holds d dir name parent top) :
    d.resolve (dir ++ [name]) = some (d.hostOf top) := by
  rw [resolve_dir hH.dir, Cache.childLookup, hH.find]
  rfl

end Walk

structure Served (d : Cache Name) (pc : Pc Name) (r : Ret) (N : PathMap Name) (spent : ℕ)
    (qs : List ℕ) (d' : Cache Name) : Prop where
  runs : Runs d pc qs d' (.done r)
  names : d'.names = N
  fit : Fit d'
  flags : FlagsOnly d' ∅
  fresh : d'.fresh = d.fresh + spent
  shells : ∀ T, d'.linked T → (d'.dentry T).shell = true → T ∈ qs
  queued : ∀ n ∈ qs, n < d'.fresh ∧ (d'.dentry n).shell = true

theorem Served.unchanged {r : Ret} (hQ : Quiet d) (hr : Runs d pc [] d (.done r)) :
    Served d pc r d.names 0 [] d := by
  refine ⟨hr, rfl, hQ.toFit, hQ.flags, rfl, fun T hT hs => ?_, by simp⟩
  rw [hQ.settled T hT] at hs
  cases hs

theorem Served.after {r : Ret} {N : PathMap Name} {spent : ℕ}
    (hs : Served d pc' r N spent qs d') (hr : Runs d pc [] d pc') :
    Served d pc r N spent qs d' :=
  ⟨hr.andThen hs.runs, hs.names, hs.fit, hs.flags, hs.fresh, hs.shells, hs.queued⟩

theorem Served.plain {r : Ret} {N : PathMap Name} {spent : ℕ} {touched back : Option ℕ}
    (hQ : Quiet d) (hr : Runs d pc [] d' (.done r)) (hn : d'.names = N)
    (hE : Effect .mark (Apt d) d touched back d') (hf : FlagsOnly d' ∅)
    (hfresh : d'.fresh = d.fresh + spent)
    (hs : ∀ T, d'.linked T → (d'.dentry T).shell = false) : Served d pc r N spent [] d' := by
  refine ⟨hr, hn, hQ.toFit.effect hE, hf, hfresh, fun T hT h => ?_, by simp⟩
  rw [hs T hT] at h
  cases h

section Ops

variable {path : List Name} {id : ℕ} {isdir positive : Bool}

theorem Fit.unsealed (hF : Fit d) (hr : d.resolve path = some h) :
    d.sealed h = false := by
  cases hs : d.sealed h with
  | false => rfl
  | true =>
    obtain ⟨-, hroot, hno⟩ := hF.seals h hs
    rcases hF.index.resolve_cases hr with he | hb
    · exact absurd he hroot
    · exact absurd hb hno

theorem Quiet.addTyped (hQ : Quiet d) (plan : Plan) (hplan : plan.entry = false)
    (path : List Name) (id : ℕ) (isdir positive : Bool) :
    ∃ d', Served d (opStart .mark (.addTyped path id isdir positive))
      (.code (d.names.addTyped d.fresh plan path id isdir positive).1)
      (d.names.addTyped d.fresh plan path id isdir positive).2
      (if (d.names.addTyped d.fresh plan path id isdir positive).1 = none then 1 else 0) [] d' := by
  rcases List.eq_nil_or_concat' path with rfl | ⟨dir, name, rfl⟩
  · exact ⟨d, .unchanged hQ (.refl ..)⟩
  rw [opStart, Op.start, startAt_concat]
  unfold PathMap.addTyped
  simp only [List.dropLast_concat, List.append_eq_nil_iff, List.cons_ne_nil, and_false, if_false]
  cases hdir : d.resolve dir with
  | none =>
    rw [names_eq_none.mpr hdir]
    exact ⟨d, .unchanged hQ (runs_walk_fails hdir)⟩
  | some parent =>
    have hfind : (d.names.find (dir ++ [name])).isSome = (d.childLookup parent name).isSome := by
      have hres := resolve_dir hdir name
      unfold Cache.resolve at hres
      simp [Cache.names, pathMap, hres]
    generalize he : (⟨parent, name, id, isdir, positive⟩ : Entry Name) = e
    have hwalk : Runs d (.walk root dir (.add name id isdir positive)) [] d (.addCheck e) := by
      rw [← he]
      exact runs_walk_from hdir
    have hep : e.parent = parent := by rw [← he]
    have hen : e.name = name := by rw [← he]
    rw [names_eq_some.mpr ⟨parent, hdir, rfl⟩, hfind]
    by_cases hd : (d.dentry parent).isdir = false
    · refine ⟨d, ?_⟩
      simp only [Cache.obj, hd, if_true]
      exact .unchanged hQ (hwalk.andThen (.single ⟨rfl, rfl⟩ (by
        simp [stepPc, hep, hd, Pc.ret])))
    by_cases hdup : (d.childLookup parent name).isSome = true
    · refine ⟨d, ?_⟩
      simp only [Cache.obj, hd, hdup, if_true]
      exact .unchanged hQ (hwalk.andThen (.single ⟨rfl, rfl⟩ (by
        simp [stepPc, hep, hen, hd, hdup, Pc.ret])))
    have hcheck : Runs d (.addCheck e) [] d (.addState e) :=
      .single ⟨rfl, rfl⟩ (by simp [stepPc, hep, hen, hd, hdup])
    by_cases hneg : (d.dentry parent).neg = true
    · refine ⟨d, ?_⟩
      simp only [Cache.obj, hd, hdup, hplan, hneg, if_true]
      exact .unchanged hQ (hwalk.andThen (hcheck.andThen (.single ⟨rfl, rfl⟩ (by
        simp [stepPc, Cache.raw, hep, hneg, Pc.ret]))))
    have hfree : d.childLookup parent name = none := by simpa using hdup
    have hname := (childLookup_eq_none hQ.index).mp hfree
    have hhead : Runs d (.addState e) [] d (.addCommit e (d.raw parent)
        (d.hash (d.bucketOf parent name)).head?) := by
      have h₁ : Runs d (.addState e) [] d (.addHead e (d.raw parent)) :=
        .single ⟨rfl, rfl⟩ (by simp [stepPc, Cache.raw, hep, hneg])
      have h₂ : Runs d (.addHead e (d.raw parent)) [] d (.addScan e (d.raw parent)
          (d.hash (d.bucketOf parent name)).head?) :=
        .single ⟨rfl, rfl⟩ (by simp [stepPc, hep, hen])
      exact h₁.andThen (h₂.andThen (.single ⟨rfl, rfl⟩ (by simp [stepPc, hep, hen, hdup])))
    have hunsealed := hQ.toFit.unsealed hdir
    have hcommit : Runs d (.addCommit e (d.raw parent) (d.hash (d.bucketOf parent name)).head?) []
        (d.addCommit parent name id isdir positive) (.ret none) :=
      .single ⟨rfl, rfl⟩ (by simp [stepPc, ← he, hunsealed, Cache.addHolds])
    have hE : Effect .mark (Apt d) d none none (d.addCommit parent name id isdir positive) :=
      .add parent name id isdir positive (hQ.index.resolve_lt hdir) trivial
        (fun _ => by simpa using hneg) hunsealed hname
    have hEd : Edited d _ (d.addCommit parent name id isdir positive) :=
      hQ.index.add_edited hname
    have hnew := d.addCommit_new parent id name isdir positive
    refine ⟨d.addCommit parent name id isdir positive, ?_⟩
    simp only [Cache.obj, hd, hdup, hplan, hneg]
    refine .plain hQ (hwalk.andThen (hcheck.andThen (hhead.andThen hcommit)))
      (hQ.index.names_add hQ.parents hdir hfree) hE (fun a ha _ => ?_) rfl (fun T hT => ?_)
    · rcases Nat.lt_or_ge a d.fresh with hlt | hge
      · rw [addCommit_old hlt]
        exact hQ.flags a hlt (Set.notMem_empty a)
      · obtain rfl : a = d.fresh := Nat.le_antisymm (Nat.lt_succ_iff.mp ha) hge
        rw [hnew]
    · rcases (hEd.linked_iff hQ.index).mp hT with ⟨hl, -⟩ | hi
      · rw [addCommit_old (hQ.index.lt hl)]
        exact hQ.settled T hl
      · obtain rfl : T = d.fresh := by simpa [Edit.inn] using hi
        rw [hnew]

theorem IndexOk.childrenEmpty_iff (hI : IndexOk d)
    (hr : d.resolve path = some h) : d.childrenEmpty h = true ↔ ¬ d.names.HasChild path := by
  have hfind : ∀ n, (d.names.find (path ++ [n])).isSome = (d.childLookup h n).isSome := by
    intro n
    have hres := resolve_dir hr n
    unfold Cache.resolve at hres
    simp [Cache.names, pathMap, hres]
  rw [Cache.childrenEmpty, List.isEmpty_iff]
  constructor
  · rintro hnil ⟨n, hn⟩
    rw [hfind, childLookup_of_kids_nil hI hnil] at hn
    cases hn
  · intro hno
    apply List.eq_nil_iff_forall_not_mem.mpr
    intro a ha
    obtain ⟨hl, rfl⟩ := (hI.kids h a).mp ha
    apply hno
    refine ⟨(d.dentry a).iname, ?_⟩
    rw [hfind, childLookup_of_linked hI hl]
    rfl

omit [DecidableEq Name] in
theorem Quiet.settled_modify (hQ : Quiet d) {a : ℕ} {f : Dentry Name → Dentry Name}
    (hf : ∀ e, (f e).shell = e.shell) (T : ℕ) (hT : (d.modify a f).linked T) :
    ((d.modify a f).dentry T).shell = false := by
  have hl : d.linked T := hQ.index.linked_of_mem (b := (d.modify a f).bucket T) hT
  rcases eq_or_ne T a with rfl | hne
  · rw [modify_self, hf]
    exact hQ.settled T hl
  · rw [modify_of_ne _ _ _ _ hne]
    exact hQ.settled T hl

theorem Quiet.set_commit (hQ : Quiet d) {negative : Bool}
    (hr : d.resolve path = some h) (hempty : (d.dentry h).isdir = true → d.kids h = []) :
    ∃ d', Served d (.setId h negative id (d.raw h)) (.code none) (d.names.bind path
      { d.obj h with neg := negative, id := if negative then (d.dentry h).id else id }) 0 [] d' := by
  generalize hd₁ : (if negative then d else d.modify h fun e => { e with id := id }) = d₁
  -- the two stores as one
  obtain ⟨f, hone, hf⟩ : ∃ f : Dentry Name → Dentry Name, d₁.flip h negative = d.modify h f ∧
      ∀ e, f e = { e with neg := negative, id := if negative then e.id else id } := by
    refine ⟨_, ?_, fun e => rfl⟩
    cases negative <;> simp [← hd₁, Cache.flip, Cache.modify]
  have hset : Runs d (.setId h negative id (d.raw h)) [] d₁ (.setCommit h negative id (d.raw h)) :=
    .single ⟨rfl, rfl⟩ (by simp [stepPc, hd₁])
  have hholds : d₁.setHolds .mark h (d.raw h) = true := by
    have hraw : d₁.raw h = d.raw h := by
      cases negative <;> simp [← hd₁, Cache.raw]
    have hdir : (d₁.dentry h).isdir = (d.dentry h).isdir := by
      cases negative <;> simp [← hd₁]
    have hkids : d₁.childrenEmpty h = d.childrenEmpty h ∧ d₁.sealed h = d.sealed h := by
      cases negative <;> simp [← hd₁, Cache.childrenEmpty, Cache.modify]
    rw [Cache.setHolds, hraw, hdir, hkids.1, hkids.2, hQ.toFit.unsealed hr]
    cases hd : (d.dentry h).isdir with
    | false => simp
    | true => simp [Cache.childrenEmpty, hempty hd]
  have hcommit : Runs d₁ (.setCommit h negative id (d.raw h)) [] (d₁.flip h negative) (.ret none) :=
    .single ⟨rfl, rfl⟩ (by simp [stepPc, hholds])
  have hF₁ : Fit d₁ := by
    cases negative
    · rw [← hd₁]
      exact hQ.toFit.effect (.ident h id)
    · rw [← hd₁]
      exact hQ.toFit
  have hkids₁ : d₁.kids h = d.kids h := by cases negative <;> simp [← hd₁, Cache.modify]
  have hdir₁ : (d₁.dentry h).isdir = (d.dentry h).isdir := by cases negative <;> simp [← hd₁]
  have hF' : Fit (d₁.flip h negative) := by
    refine hF₁.effect (.flip h negative trivial fun _ hd => ?_)
    rw [hkids₁]
    exact hempty (hdir₁ ▸ hd)
  refine ⟨d₁.flip h negative, hset.andThen hcommit, ?_, hF', ?_, ?_, fun T hT hs => ?_, by simp⟩
  · rw [hone] at hF' ⊢
    rw [hQ.index.names_set hF'.index hr (by simp [hf]) (by simp [hf])]
    simp [Cache.obj, hf]
  · rw [hone]
    exact hQ.flags.modify f (by simp [hf])
  · rw [hone]
    rfl
  · rw [hone] at hT hs
    rw [hQ.settled_modify (by simp [hf]) T hT] at hs
    cases hs

theorem runs_setRead {dir : List Name} {name : Name} {parent top : ℕ} {negative : Bool}
    {k : Cont Name} (hk : ∀ p, arrive p k = .setFind p name negative id)
    (hH : Holds d dir name parent top) :
    Runs d (.walk root dir k) [] d (.setRead (d.hostOf top) negative id) :=
  (runs_walk_from hH.dir).andThen (by
    rw [hk]
    exact .single ⟨rfl, rfl⟩ (by simp [stepPc, hH.find]))

theorem Quiet.instantiate (hQ : Quiet d) (path : List Name) (id : ℕ) :
    ∃ d', Served d (opStart .mark (.instantiate path id)) (.code (d.names.instantiate path id).1)
      (d.names.instantiate path id).2 0 [] d' := by
  rcases List.eq_nil_or_concat' path with rfl | ⟨dir, name, rfl⟩
  · exact ⟨d, .unchanged hQ (.refl ..)⟩
  rw [opStart, Op.start, startAt_concat]
  unfold PathMap.instantiate
  simp only [List.append_eq_nil_iff, List.cons_ne_nil, and_false, if_false]
  cases hr : d.resolve (dir ++ [name]) with
  | none =>
    rw [names_eq_none.mpr hr]
    exact ⟨d, .unchanged hQ (runs_missing hr fun parent hf =>
      .single ⟨rfl, rfl⟩ (by simp [arrive, stepPc, hf, Pc.ret]))⟩
  | some =>
    obtain ⟨parent, top, hH, rfl⟩ := hQ.index.exists_holds hr
    rw [names_eq_some.mpr ⟨_, hr, rfl⟩]
    have hread : Runs d _ [] d (.setRead (d.hostOf top) false id) :=
      runs_setRead (k := .instantiate name id) (fun _ => rfl) hH
    by_cases hneg : (d.dentry (d.hostOf top)).neg = false
    · refine ⟨d, ?_⟩
      simp only [Cache.obj, hneg, if_true]
      exact .unchanged hQ (hread.andThen (.single ⟨rfl, rfl⟩ (by
        simp [stepPc, Cache.raw, hneg, Pc.ret])))
    -- a negative directory has no child
    have hempty : (d.dentry (d.hostOf top)).isdir = true → d.kids (d.hostOf top) = [] :=
      fun hd => hQ.negEmpty _ (hQ.index.resolve_lt hr) hd (by simpa using hneg)
    have hid : Runs d (.setRead (d.hostOf top) false id) [] d
        (.setId (d.hostOf top) false id (d.raw (d.hostOf top))) := by
      by_cases hd : (d.dentry (d.hostOf top)).isdir = true
      · have hkids : Runs d (.setRead (d.hostOf top) false id) [] d
            (.setKids (d.hostOf top) false id (d.raw (d.hostOf top))) :=
          .single ⟨rfl, rfl⟩ (by simp [stepPc, Cache.raw, hneg, hd])
        exact hkids.andThen (.single ⟨rfl, rfl⟩ (by
          simp [stepPc, Cache.childrenEmpty, hempty hd]))
      · exact .single ⟨rfl, rfl⟩ (by simp [stepPc, Cache.raw, hneg, hd])
    obtain ⟨d', hd'⟩ : ∃ d', Served d (.setId (d.hostOf top) false id _) (.code none) _ 0 [] d' :=
      hQ.set_commit hr hempty
    refine ⟨d', ?_⟩
    simp only [Cache.obj, hneg] at hd' ⊢
    exact hd'.after (hread.andThen hid)

theorem Quiet.delete (hQ : Quiet d) (path : List Name) :
    ∃ d', Served d (opStart .mark (.delete path)) (.code (d.names.delete path).1)
      (d.names.delete path).2 0 [] d' := by
  rcases List.eq_nil_or_concat' path with rfl | ⟨dir, name, rfl⟩
  · exact ⟨d, .unchanged hQ (.refl ..)⟩
  rw [opStart, Op.start, startAt_concat]
  unfold PathMap.delete
  simp only [List.append_eq_nil_iff, List.cons_ne_nil, and_false, if_false]
  cases hr : d.resolve (dir ++ [name]) with
  | none =>
    rw [names_eq_none.mpr hr]
    exact ⟨d, .unchanged hQ (runs_missing hr fun parent hf =>
      .single ⟨rfl, rfl⟩ (by simp [arrive, stepPc, hf, Pc.ret]))⟩
  | some h =>
    obtain ⟨parent, top, hH, rfl⟩ := hQ.index.exists_holds hr
    rw [names_eq_some.mpr ⟨_, hr, rfl⟩]
    have hread : Runs d _ [] d (.setRead (d.hostOf top) true 0) :=
      runs_setRead (k := .delete name) (fun _ => rfl) hH
    have hlt := hQ.index.resolve_lt hr
    by_cases hneg : (d.dentry (d.hostOf top)).neg = true
    · -- a negative directory has no child, so the order of the two tests does not show
      have hkids : ¬ ((d.dentry (d.hostOf top)).isdir = true ∧
          d.names.HasChild (dir ++ [name])) := by
        rintro ⟨hd, hc⟩
        refine (hQ.index.childrenEmpty_iff hr).mp ?_ hc
        simp [Cache.childrenEmpty, hQ.negEmpty _ hlt hd hneg]
      refine ⟨d, ?_⟩
      simp only [Cache.obj, hkids, hneg, if_true, if_false]
      exact .unchanged hQ (hread.andThen (.single ⟨rfl, rfl⟩ (by
        simp [stepPc, Cache.raw, hneg, Pc.ret])))
    by_cases hd : (d.dentry (d.hostOf top)).isdir = true
    · have htest : Runs d (.setRead (d.hostOf top) true 0) [] d
          (.setKids (d.hostOf top) true 0 (d.raw (d.hostOf top))) :=
        .single ⟨rfl, rfl⟩ (by simp [stepPc, Cache.raw, hneg, hd])
      by_cases hc : d.names.HasChild (dir ++ [name])
      · have hne : d.childrenEmpty (d.hostOf top) = false := by
          rw [← Bool.not_eq_true, hQ.index.childrenEmpty_iff hr, not_not]
          exact hc
        refine ⟨d, ?_⟩
        simp only [Cache.obj, hd, hc, and_self, if_true]
        exact .unchanged hQ (hread.andThen (htest.andThen (.single ⟨rfl, rfl⟩ (by
          simp [stepPc, hne, Pc.ret]))))
      · have hempty := (hQ.index.childrenEmpty_iff hr).mpr hc
        have hid : Runs d (.setKids (d.hostOf top) true 0 (d.raw (d.hostOf top))) [] d
            (.setId (d.hostOf top) true 0 (d.raw (d.hostOf top))) :=
          .single ⟨rfl, rfl⟩ (by simp [stepPc, hempty])
        obtain ⟨d', hd'⟩ : ∃ d', Served d (.setId (d.hostOf top) true 0 _) (.code none) _ 0 [] d' :=
          hQ.set_commit hr fun _ => List.isEmpty_iff.mp hempty
        refine ⟨d', ?_⟩
        simp only [Cache.obj, hd, hc, hneg, and_false, if_false] at hd' ⊢
        exact hd'.after (hread.andThen (htest.andThen hid))
    · have hid : Runs d (.setRead (d.hostOf top) true 0) [] d
          (.setId (d.hostOf top) true 0 (d.raw (d.hostOf top))) :=
        .single ⟨rfl, rfl⟩ (by simp [stepPc, Cache.raw, hneg, hd])
      obtain ⟨d', hd'⟩ : ∃ d', Served d (.setId (d.hostOf top) true 0 _) (.code none) _ 0 [] d' :=
        hQ.set_commit hr fun h => absurd h hd
      refine ⟨d', ?_⟩
      have hkids : ¬ ((d.dentry (d.hostOf top)).isdir = true ∧
          d.names.HasChild (dir ++ [name])) := fun h => hd h.1
      simp only [Cache.obj, hkids, hneg, if_false] at hd' ⊢
      exact hd'.after (hread.andThen hid)

theorem Quiet.unlink (hQ : Quiet d) (path : List Name) :
    ∃ d', Served d (opStart .mark (.unlink path)) (.code (d.names.unlink path).1)
      (d.names.unlink path).2 0 [] d' := by
  rcases List.eq_nil_or_concat' path with rfl | ⟨dir, name, rfl⟩
  · exact ⟨d, .unchanged hQ (.refl ..)⟩
  rw [opStart, Op.start, startAt_concat]
  unfold PathMap.unlink
  simp only [List.append_eq_nil_iff, List.cons_ne_nil, and_false, if_false]
  cases hr : d.resolve (dir ++ [name]) with
  | none =>
    rw [names_eq_none.mpr hr]
    exact ⟨d, .unchanged hQ (runs_missing hr fun parent hf =>
      .single ⟨rfl, rfl⟩ (by simp [arrive, stepPc, hf, Pc.ret]))⟩
  | some =>
    obtain ⟨parent, top, hH, rfl⟩ := hQ.index.exists_holds hr
    rw [names_eq_some.mpr ⟨_, hr, rfl⟩]
    have hfind : Runs d (.walk root dir (.unlink name)) [] d (.unlKids parent name top) :=
      (runs_walk_from hH.dir).andThen (.single ⟨rfl, rfl⟩ (by
        simp [arrive, stepPc, hH.find]))
    by_cases hkids : d.names.HasChild (dir ++ [name])
    · refine ⟨d, ?_⟩
      have hne : d.childrenEmpty (d.hostOf top) = false := by
        rw [← Bool.not_eq_true, hQ.index.childrenEmpty_iff hr, not_not]
        exact hkids
      simp only [hkids, if_true]
      exact .unchanged hQ (hfind.andThen (.single ⟨rfl, rfl⟩ (by simp [stepPc, hne, Pc.ret])))
    · have hempty := (hQ.index.childrenEmpty_iff hr).mpr hkids
      generalize hsl : (d.dentry (d.hostOf top)).isdir = sealIt
      have htest : Runs d (.unlKids parent name top) [] d (.unlCommit parent name top) :=
        .single ⟨rfl, rfl⟩ (by simp [stepPc, hempty])
      have hcommit : Runs d (.unlCommit parent name top) []
          (d.removeCommit top (d.hostOf top) sealIt) (.ret none) := by
        refine .single ⟨rfl, rfl⟩ ?_
        simp [stepPc, hQ.index.not_mark hH.linked, Cache.removeHolds, hempty,
          hQ.toFit.unsealed hr, hsl]
      have hE : Effect .mark (Apt d) d none none (d.removeCommit top (d.hostOf top) sealIt) :=
        .remove top sealIt hH.linked (fun hd => hsl.symm.trans hd)
          fun _ => List.isEmpty_iff.mp hempty
      have hEd : Edited d _ (d.removeCommit top (d.hostOf top) sealIt) :=
        hQ.index.remove_edited hH.linked
      have hnames := hQ.index.names_remove (d.hostOf top) sealIt hH.linked
        (by rw [hH.iparent]; exact hH.dir)
      rw [hH.iname] at hnames
      refine ⟨d.removeCommit top (d.hostOf top) sealIt, ?_⟩
      simp only [hkids, if_false]
      refine .plain hQ (hfind.andThen (htest.andThen hcommit)) hnames hE (fun a ha _ => ?_)
        (by simp) fun T hT => ?_
      · rw [removeCommit_dentry]
        exact hQ.flags a (by simpa using ha) (Set.notMem_empty a)
      · obtain ⟨hl, -⟩ : d.linked T ∧ T ≠ top := by
          simpa [Edit.out, Edit.inn] using (hEd.linked_iff hQ.index).mp hT
        rw [removeCommit_dentry]
        exact hQ.settled T hl

end Ops

end TrieBenchmark.Txn
