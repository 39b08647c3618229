import TrieBenchmark.Seqlock.Names

/-!
The operations of the seqlock engine when nothing else runs: each returns what the map from paths
to objects says and leaves the map it says. A lock is then always free.
-/

namespace TrieBenchmark

open Option List

namespace Serial.PathMap

variable {Name : Type} (N : PathMap Name)

open Classical in
/-- An add that judges the state of the directory before it looks for the name. -/
noncomputable def addJudged (fresh : ℕ) (path : List Name) (id : ℕ) (isdir positive : Bool) :
    Option Errno × PathMap Name :=
  if path = [] then (some .EEXIST, N)
  else match N.find path.dropLast with
    | none => (some .ENOENT, N)
    | some dir =>
      if dir.isdir = false then (some .ENOTDIR, N)
      else if dir.neg then (some .ENOENT, N)
      else if (N.find path).isSome then (some .EEXIST, N)
      else (none, N.bind path ⟨fresh, isdir, !positive, id⟩)

open Classical in
/-- A delete that judges the state of the object before it looks for children. -/
noncomputable def deleteJudged (path : List Name) : Option Errno × PathMap Name :=
  if path = [] then (some .EISDIR, N)
  else match N.find path with
    | none => (some .ENOENT, N)
    | some o =>
      if o.neg then (some .ENOENT, N)
      else if o.isdir = true ∧ N.HasChild path then (some .ENOTEMPTY, N)
      else (none, N.bind path { o with neg := true })

open Classical in
/-- A rename that looks for a loop before it judges what holds the destination, and replaces a
negative of either type. -/
noncomputable def renameOver (src dst : List Name) : Option Errno × PathMap Name :=
  if src = [] ∨ dst = [] then (some .EINVAL, N)
  else match N.find src, N.find dst.dropLast with
    | some _, some dir =>
      if dir.neg then (some .ENOENT, N)
      else if src <+: dst.dropLast then (some .EINVAL, N)
      else if ∃ o, N.find dst = some o ∧ (dst = src ∨ o.neg = false) then (some .EEXIST, N)
      else (none, N.graft src dst)
    | _, _ => (some .ENOENT, N)

open Classical in
theorem renameOver_clear {N : PathMap Name} {sdir ddir : List Name} {sn dn : Name} {o dir : Obj}
    (hs : N.find (sdir ++ [sn]) = some o) (hd : N.find ddir = some dir) (hneg : dir.neg = false)
    (hloop : ¬ sdir ++ [sn] <+: ddir) : N.renameOver (sdir ++ [sn]) (ddir ++ [dn]) =
      if ∃ o, N.find (ddir ++ [dn]) = some o ∧ (ddir ++ [dn] = sdir ++ [sn] ∨ o.neg = false)
      then (some .EEXIST, N) else (none, N.graft (sdir ++ [sn]) (ddir ++ [dn])) := by
  have hne : ¬ (sdir ++ [sn] = [] ∨ ddir ++ [dn] = []) := by simp
  unfold renameOver
  rw [if_neg hne, dropLast_concat, hs, hd]
  simp only [hneg, hloop, if_false, Bool.false_eq_true]

end Serial.PathMap

namespace Seqlock

open Namei Serial

variable {Name : Type} [DecidableEq Name] {d d' d₁ : Cache Name}

noncomputable def served (fresh : ℕ) (N : PathMap Name) : Op Name → Ret × PathMap Name
  | .addTyped path id isdir positive =>
    let r := N.addJudged fresh path id isdir positive
    (.code r.1, r.2)
  | .delete path =>
    let r := N.deleteJudged path
    (.code r.1, r.2)
  | .rename src dst =>
    let r := N.renameOver src dst
    (.code r.1, r.2)
  | o => serve fresh ⟨false, false⟩ N o

@[grind =] def soloStep (oom : Bool) (x : Cache Name × Pc Name) : Cache Name × Pc Name :=
  match x.2 with
  | .idle => x
  | .done _ => x
  | .walk cur rest k => (x.1, walkStep x.1 cur k rest)
  | .lkHop cur rest hosts res => (x.1, lkStep x.1 cur hosts res rest)
  | .sect (l :: todo) held stage => (x.1, .sect todo (l :: held) stage)
  | .sect [] held stage => ((stageStep x.1 stage oom).1, (stageStep x.1 stage oom).2.pc held)
  | .drop _ e => (x.1, e.pc)

def Leads (d : Cache Name) (pc : Pc Name) (d' : Cache Name) (r : Ret) : Prop :=
  ∃ k, (soloStep false)^[k] (d, pc) = (d', .done r)

def StageLeads (d : Cache Name) (stage : Stage Name) (d' : Cache Name) (r : Ret) : Prop :=
  ∀ todo held, Leads d (.sect todo held stage) d' r

section Rules

variable {pc pc₁ : Pc Name} {stage stage₁ : Stage Name} {r : Ret} {more : List Lock}
  {path rest : List Name} {k : Cont Name} {cur a : ℕ} {e : Exit Name}

theorem Leads.done (d : Cache Name) (r : Ret) : Leads d (.done r) d r :=
  ⟨0, rfl⟩

theorem Leads.head (hs : soloStep false (d, pc) = (d₁, pc₁)) (h : Leads d₁ pc₁ d' r) :
    Leads d pc d' r := by
  obtain ⟨n, hn⟩ := h
  refine ⟨n + 1, ?_⟩
  rw [Function.iterate_succ_apply, hs, hn]

theorem Leads.tail (hs : soloStep false (d, pc) = (d₁, pc₁)) (h : Leads d pc d' r) :
    Leads d₁ pc₁ d' r := by
  obtain ⟨n, hn⟩ := h
  cases n with
  | zero =>
    obtain ⟨rfl, rfl⟩ := Prod.mk.inj hn
    obtain ⟨rfl, rfl⟩ := Prod.mk.inj hs
    exact .done d _
  | succ n =>
    rw [Function.iterate_succ_apply, hs] at hn
    exact ⟨n, hn⟩

theorem Leads.out (held : List Lock) (h : Leads d e.pc d' r) :
    Leads d ((Next.out e).pc held) d' r := by
  unfold Next.pc
  split_ifs
  · exact h
  · exact .head rfl h

theorem StageLeads.of_next (h : ∀ held, Leads (stageStep d stage false).1
    ((stageStep d stage false).2.pc held) d' r) : StageLeads d stage d' r := by
  intro todo
  induction todo with
  | nil => exact fun held => .head rfl (h held)
  | cons l _ ih => exact fun held => .head rfl (ih (l :: held))

theorem StageLeads.go (hs : stageStep d stage false = (d₁, .go more stage₁))
    (h : StageLeads d₁ stage₁ d' r) : StageLeads d stage d' r := by
  apply StageLeads.of_next
  intro held
  rw [hs]
  exact h more held

theorem StageLeads.out (hs : stageStep d stage false = (d', .out (.ret r))) :
    StageLeads d stage d' r := by
  apply StageLeads.of_next
  intro held
  rw [hs]
  exact .out held (.done d' r)

theorem Leads.walk (hr : Namei.resolve d.childLookup cur rest = some a)
    (h : Leads d (k.arrive d a) d' r) : Leads d (.walk cur rest k) d' r := by
  induction rest generalizing cur with
  | nil =>
    obtain rfl := some.inj hr
    exact .head rfl h
  | cons n rest ih =>
    obtain ⟨v, hv, hr⟩ := bind_eq_some_iff.mp hr
    have hs : soloStep false (d, .walk cur (n :: rest) k) = (d, .walk v rest k) := by
      simp [soloStep, walkStep, hv]
    exact .head hs (ih hr)

theorem Leads.walk_none (hr : Namei.resolve d.childLookup cur rest = none)
    (h : Leads d (k.missing d) d' r) : Leads d (.walk cur rest k) d' r := by
  induction rest generalizing cur with
  | nil => cases hr
  | cons n rest ih =>
    cases hv : d.childLookup cur n with
    | none =>
      have hs : soloStep false (d, .walk cur (n :: rest) k) = (d, k.missing d) := by
        simp [soloStep, walkStep, hv]
      exact .head hs h
    | some v =>
      rw [Namei.resolve, hv, bind_some] at hr
      have hs : soloStep false (d, .walk cur (n :: rest) k) = (d, .walk v rest k) := by
        simp [soloStep, walkStep, hv]
      exact .head hs (ih hr)

end Rules

/-- An operation from a whole index: it returns as the map says, and leaves a whole index with
the map's names. -/
structure Serves (d : Cache Name) (o : Op Name) (d' : Cache Name) : Prop where
  leads : Leads d (opStart o) d' (served d.fresh d.names o).1
  index : IndexOk d'
  names : d'.names = (served d.fresh d.names o).2

section Paths

variable {path dir : List Name} {n : Name} {a p : ℕ}

theorem names_eq_some {o : Obj} : d.names.find path = some o ↔
    ∃ a, d.resolve path = some a ∧ d.obj a = o :=
  pathMap_eq_some

theorem names_eq_none : d.names.find path = none ↔ d.resolve path = none :=
  pathMap_eq_none

theorem names_of_resolve (h : d.resolve path = some a) : d.names.find path = some (d.obj a) :=
  names_eq_some.mpr ⟨a, h, rfl⟩

theorem resolve_dir (h : d.resolve dir = some p) (n : Name) :
    d.resolve (dir ++ [n]) = d.childLookup p n := by
  rw [Cache.resolve, resolve_concat, ← Cache.resolve, h, bind_some]

theorem resolve_dir_none (h : d.resolve dir = none) (n : Name) : d.resolve (dir ++ [n]) = none := by
  rw [Cache.resolve, resolve_concat, ← Cache.resolve, h, bind_none]

theorem IndexOk.resolve_parent (hI : IndexOk d) (h : d.resolve (dir ++ [n]) = some a) :
    d.Live a ∧ d.resolve dir = some (d.parent a) ∧ (d.dentry a).name = n := by
  rw [Cache.resolve, resolve_concat] at h
  obtain ⟨p, hp, hc⟩ := bind_eq_some_iff.mp h
  obtain ⟨hl, rfl, hn⟩ := hI.childLookup_eq_some.mp hc
  exact ⟨hl, hp, hn⟩

theorem IndexOk.hasChild_iff (hI : IndexOk d) (h : d.resolve path = some a) :
    d.names.HasChild path ↔ d.hasChildren a = true := by
  rw [hI.hasChildren_iff]
  constructor
  · rintro ⟨n, hn⟩
    obtain ⟨o, ho⟩ := isSome_iff_exists.mp hn
    obtain ⟨c, hc, -⟩ := names_eq_some.mp ho
    obtain ⟨hl, hp, -⟩ := hI.resolve_parent hc
    exact ⟨c, hl, some.inj (hp.symm.trans h)⟩
  · rintro ⟨c, hl, rfl⟩
    refine ⟨(d.dentry c).name, ?_⟩
    rw [names_of_resolve ((resolve_dir h _).trans (hI.childLookup_self hl))]
    rfl

theorem IndexOk.climb (hI : IndexOk d) {G : ℕ → Prop} {pre : List Name} {v cur : ℕ}
    (hv : d.resolve pre = some v) (hend : G v)
    (hup : ∀ mid c, mid <+: dir → pre <+: mid → mid ≠ pre → d.resolve mid = some c →
      d.parent c ≠ c → G (d.parent c) → G c)
    (hpre : pre <+: dir) (hcur : d.resolve dir = some cur) : G cur := by
  induction dir using reverseRecOn generalizing cur with
  | nil =>
    obtain rfl := prefix_nil.mp hpre
    obtain rfl := some.inj (hv.symm.trans hcur)
    exact hend
  | append_singleton dir n ih =>
    rcases prefix_concat_iff.mp hpre with rfl | hpre'
    · obtain rfl := some.inj (hv.symm.trans hcur)
      exact hend
    · obtain ⟨hl, hp, hn⟩ := hI.resolve_parent hcur
      have hne : dir ++ [n] ≠ pre := by
        rintro rfl
        exact not_append_prefix_self dir n hpre'
      have hself : d.parent cur ≠ cur := by
        intro he
        rw [he] at hp
        have := hI.rooted.resolve_inj hp hcur
        simp at this
      refine hup (dir ++ [n]) cur (prefix_refl _) hpre hne hcur hself ?_
      exact ih (fun mid c hm => hup mid c (hm.trans (prefix_append _ _))) hpre' hp

end Paths

section Operations

variable {o : Op Name} {r : Ret} {path dir : List Name} {n : Name} {id a p : ℕ}
  {isdir positive : Bool}

theorem Serves.of (hI' : IndexOk d') (hs : served d.fresh d.names o = (r, d'.names))
    (hl : Leads d (opStart o) d' r) : Serves d o d' := by
  refine ⟨?_, hI', ?_⟩
  · rwa [hs]
  · rw [hs]

omit [DecidableEq Name] in
theorem opStart_add (dir : List Name) (n : Name) (id : ℕ) (isdir positive : Bool) :
    opStart (.addTyped (dir ++ [n]) id isdir positive) =
      .walk root dir (.add n id isdir positive) := by
  simp [opStart, startAt]

theorem IndexOk.unhashed_of_resolve (hI : IndexOk d) (hdir : d.resolve dir = some p) :
    (d.dentry p).unhashed = false := by
  rcases hI.resolve_cases hdir with rfl | hl
  · exact hI.rootSelf.2.2
  · exact hl.2.2

theorem IndexOk.serves_add (hI : IndexOk d) (path : List Name) (id : ℕ) (isdir positive : Bool) :
    ∃ d', Serves d (.addTyped path id isdir positive) d' := by
  rcases eq_nil_or_concat' path with rfl | ⟨dir, n, rfl⟩
  · exact ⟨d, .of hI (by simp [served, PathMap.addJudged]) (.done d _)⟩
  cases hdir : d.resolve dir with
  | none =>
    have hl : Leads d (.walk root dir (.add n id isdir positive)) d (.code (some .ENOENT)) :=
      .walk_none hdir (.done d _)
    rw [← opStart_add] at hl
    refine ⟨d, .of hI ?_ hl⟩
    simp [served, PathMap.addJudged, names_eq_none.mpr hdir]
  | some p =>
    have hfind := names_of_resolve hdir
    cases hisdir : (d.dentry p).isdir with
    | false =>
      have hl : Leads d (.walk root dir (.add n id isdir positive)) d (.code (some .ENOTDIR)) := by
        apply Leads.walk hdir
        simp only [Cont.arrive, hisdir]
        exact .done d _
      rw [← opStart_add] at hl
      refine ⟨d, .of hI ?_ hl⟩
      simp [served, PathMap.addJudged, hfind, Cache.obj, hisdir]
    | true =>
      have harrive : ∀ {d' r}, StageLeads d (.addTest p n id isdir positive) d' r →
          Leads d (opStart (.addTyped (dir ++ [n]) id isdir positive)) d' r := by
        intro d' r h
        rw [opStart_add]
        apply Leads.walk hdir
        simp only [Cont.arrive, hisdir]
        exact h _ _
      cases hneg : (d.dentry p).neg with
      | true =>
        refine ⟨d, .of hI ?_ (harrive (.out (r := .code (some .ENOENT)) ?_))⟩
        · simp [served, PathMap.addJudged, hfind, Cache.obj, hisdir, hneg]
        · simp [stageStep, Cache.isPositive, hneg, Next.fail]
      | false =>
        have htest : stageStep d (.addTest p n id isdir positive) false =
            (d, .go [] (.addFind p n id isdir positive)) := by
          simp [stageStep, Cache.isPositive, hneg, hI.unhashed_of_resolve hdir]
        cases hc : d.childLookup p n with
        | some =>
          have hchild := names_of_resolve ((resolve_dir hdir n).trans hc)
          refine ⟨d, .of hI ?_ (harrive (.go htest (.out (r := .code (some .EEXIST)) ?_)))⟩
          · simp [served, PathMap.addJudged, hfind, hchild, Cache.obj, hisdir, hneg]
          · simp [stageStep, hc, Next.fail]
        | none =>
          have hchild := names_eq_none.mpr ((resolve_dir hdir n).trans hc)
          have hfree : stageStep d (.addFind p n id isdir positive) false =
              (d, .go [] (.addLink p n id isdir positive)) := by
            simp [stageStep, hc]
          refine ⟨_, .of (hI.link (hI.resolve_lt hdir) hc) ?_
            (harrive (.go htest (.go hfree (.out (r := .code none) rfl))))⟩
          rw [hI.names_link hdir hc]
          simp [served, PathMap.addJudged, hfind, hchild, Cache.obj, hisdir, hneg]

omit [DecidableEq Name] in
theorem opStart_instantiate (dir : List Name) (n : Name) (id : ℕ) :
    opStart (.instantiate (dir ++ [n]) id) = .walk root dir (.instantiate n id) := by
  simp [opStart, startAt]

theorem IndexOk.serves_instantiate (hI : IndexOk d) (path : List Name) (id : ℕ) :
    ∃ d', Serves d (.instantiate path id) d' := by
  rcases eq_nil_or_concat' path with rfl | ⟨dir, n, rfl⟩
  · exact ⟨d, .of hI (by simp [served, serve, PathMap.instantiate]) (.done d _)⟩
  cases hdir : d.resolve dir with
  | none =>
    have hl : Leads d (.walk root dir (.instantiate n id)) d (.code (some .ENOENT)) :=
      .walk_none hdir (.done d _)
    rw [← opStart_instantiate] at hl
    refine ⟨d, .of hI ?_ hl⟩
    simp [served, serve, PathMap.instantiate, names_eq_none.mpr (resolve_dir_none hdir n)]
  | some p =>
    have harrive : ∀ {d' r}, StageLeads d (.instFind p n id) d' r →
        Leads d (opStart (.instantiate (dir ++ [n]) id)) d' r := by
      intro d' r h
      rw [opStart_instantiate]
      exact .walk hdir (h _ _)
    have hat := resolve_dir hdir n
    cases hc : d.childLookup p n with
    | none =>
      rw [hc] at hat
      refine ⟨d, .of hI ?_ (harrive (.out (r := .code (some .ENOENT)) ?_))⟩
      · simp [served, serve, PathMap.instantiate, names_eq_none.mpr hat]
      · simp [stageStep, hc, Next.fail]
    | some a =>
      rw [hc] at hat
      have hfind := names_of_resolve hat
      cases hneg : (d.dentry a).neg with
      | false =>
        refine ⟨d, .of hI ?_ (harrive (.out (r := .code (some .EEXIST)) ?_))⟩
        · simp [served, serve, PathMap.instantiate, hfind, Cache.obj, hneg]
        · simp [stageStep, hc, Cache.isPositive, hneg, Next.fail]
      | true =>
        have hset : stageStep d (.instFind p n id) false = (d, .go [] (.instSet a id)) := by
          simp [stageStep, hc, Cache.isPositive, hneg]
        have hI' : IndexOk (d.setPositive a id) := hI.modify a fun _ => ⟨rfl, rfl, rfl⟩
        refine ⟨_, .of hI' ?_ (harrive (.go hset (.out (r := .code none) rfl)))⟩
        rw [hI.names_setPositive hat]
        simp [served, serve, PathMap.instantiate, hfind, Cache.obj, hneg]

omit [DecidableEq Name] in
theorem opStart_delete (dir : List Name) (n : Name) :
    opStart (.delete (dir ++ [n])) = .walk root dir (.delete n (dir ++ [n])) := by
  simp [opStart, startAt]

theorem Leads.delete (hdir : d.resolve dir = some p)
    (h : ∀ peek, (∀ a, peek = some a → d.childLookup p n = some a) →
      StageLeads d (.delFind p n (dir ++ [n]) peek) d' r) :
    Leads d (opStart (.delete (dir ++ [n]))) d' r := by
  rw [opStart_delete]
  apply Leads.walk hdir
  have hat := resolve_dir hdir n
  show Leads d (.walk root (dir ++ [n]) (.deletePeek p n (dir ++ [n]))) d' r
  cases hc : d.childLookup p n with
  | none =>
    rw [hc] at hat
    exact .walk_none hat (h none nofun _ _)
  | some a =>
    rw [hc] at hat
    apply Leads.walk hat
    simp only [Cont.arrive]
    split_ifs
    · exact h (some a) (fun b hb => hc.trans hb) _ _
    · exact h none nofun _ _

theorem delFind_some {peek : Option ℕ} (hc : d.childLookup p n = some a)
    (hpeek : ∀ a, peek = some a → d.childLookup p n = some a) :
    stageStep d (.delFind p n path peek) false = (d, .go [] (.delState a peek)) := by
  cases peek with
  | none => simp [stageStep, hc]
  | some b =>
    obtain rfl : a = b := some.inj (hc.symm.trans (hpeek b rfl))
    simp [stageStep, hc]

theorem IndexOk.serves_delete (hI : IndexOk d) (path : List Name) :
    ∃ d', Serves d (.delete path) d' := by
  rcases eq_nil_or_concat' path with rfl | ⟨dir, n, rfl⟩
  · exact ⟨d, .of hI (by simp [served, PathMap.deleteJudged]) (.done d _)⟩
  cases hdir : d.resolve dir with
  | none =>
    have hl : Leads d (.walk root dir (.delete n (dir ++ [n]))) d (.code (some .ENOENT)) :=
      .walk_none hdir (.done d _)
    rw [← opStart_delete] at hl
    refine ⟨d, .of hI ?_ hl⟩
    simp [served, PathMap.deleteJudged, names_eq_none.mpr (resolve_dir_none hdir n)]
  | some p =>
    have hat := resolve_dir hdir n
    cases hc : d.childLookup p n with
    | none =>
      rw [hc] at hat
      refine ⟨d, .of (r := .code (some .ENOENT)) hI ?_ (.delete hdir fun peek hpeek => .out ?_)⟩
      · simp [served, PathMap.deleteJudged, names_eq_none.mpr hat]
      · cases peek with
        | none => simp [stageStep, hc, Next.fail]
        | some b => exact absurd (hc.symm.trans (hpeek b rfl)) (by simp)
    | some a =>
      rw [hc] at hat
      have hfind := names_of_resolve hat
      have hkids := hI.hasChild_iff hat
      cases hneg : (d.dentry a).neg with
      | true =>
        refine ⟨d, .of (r := .code (some .ENOENT)) hI ?_ (.delete hdir fun peek hpeek =>
          .go (delFind_some hc hpeek) (.out ?_))⟩
        · simp [served, PathMap.deleteJudged, hfind, Cache.obj, hneg]
        · simp [stageStep, Cache.isPositive, hneg, Next.fail]
      | false =>
        have hstate : ∀ peek, stageStep d (.delState a peek) false =
            (d, .go [] (.delKids a peek)) := by
          intro peek
          simp [stageStep, Cache.isPositive, hneg]
        by_cases hfull : (d.dentry a).isdir = true ∧ d.hasChildren a = true
        · refine ⟨d, .of (r := .code (some .ENOTEMPTY)) hI ?_ (.delete hdir fun peek hpeek =>
            .go (delFind_some hc hpeek) (.go (hstate peek) (.out ?_)))⟩
          · simp [served, PathMap.deleteJudged, hfind, Cache.obj, hneg, hkids, hfull]
          · simp [stageStep, hfull, Next.fail]
        · have hempty : ∀ peek, stageStep d (.delKids a peek) false =
              (d, .go [] (.delSet a peek)) := by
            intro peek
            have hno : ((d.dentry a).isdir && d.hasChildren a) = false := by
              simpa using hfull
            simp [stageStep, hno]
          have hI' : IndexOk (d.setNegative a) := hI.modify a fun _ => ⟨rfl, rfl, rfl⟩
          refine ⟨_, .of (r := .code none) hI' ?_ (.delete hdir fun peek hpeek =>
            .go (delFind_some hc hpeek) (.go (hstate peek) (.go (hempty peek) (.out rfl))))⟩
          rw [hI.names_setNegative hat]
          simp [served, PathMap.deleteJudged, hfind, Cache.obj, hneg, hkids, hfull]

omit [DecidableEq Name] in
theorem opStart_unlink (dir : List Name) (n : Name) :
    opStart (.unlink (dir ++ [n])) = .walk root (dir ++ [n]) (.unlink (dir ++ [n])) := by
  simp [opStart, startAt]

theorem IndexOk.serves_unlink (hI : IndexOk d) (path : List Name) :
    ∃ d', Serves d (.unlink path) d' := by
  rcases eq_nil_or_concat' path with rfl | ⟨dir, n, rfl⟩
  · exact ⟨d, .of hI (by simp [served, serve, PathMap.unlink]) (.done d _)⟩
  cases hat : d.resolve (dir ++ [n]) with
  | none =>
    have hl : Leads d (.walk root (dir ++ [n]) (.unlink (dir ++ [n]))) d
        (.code (some .ENOENT)) := .walk_none hat (.done d _)
    rw [← opStart_unlink] at hl
    refine ⟨d, .of hI ?_ hl⟩
    simp [served, serve, PathMap.unlink, names_eq_none.mpr hat]
  | some a =>
    obtain ⟨hl, hdir, hn⟩ := hI.resolve_parent hat
    have hfind := names_of_resolve hat
    have hkids := hI.hasChild_iff hat
    have harrive : ∀ {d' r}, StageLeads d (.unlKids a (d.parent a)) d' r →
        Leads d (opStart (.unlink (dir ++ [n]))) d' r := by
      intro d' r h
      rw [opStart_unlink]
      apply Leads.walk hat
      have htest : stageStep d (.unlTest (dir ++ [n]) a (d.parent a)) false =
          (d, .go [.bucket (d.bucketOf (d.parent a) (d.dentry a).name)]
            (.unlKids a (d.parent a))) := by
        simp [stageStep, hl.2.2]
      have hread : StageLeads d (.unlRead (dir ++ [n]) a) d' r := .go rfl (.go htest h)
      exact hread [] []
    cases hc : d.hasChildren a with
    | true =>
      refine ⟨d, .of hI ?_ (harrive (.out (r := .code (some .ENOTEMPTY)) ?_))⟩
      · simp [served, serve, PathMap.unlink, hfind, hkids, hc]
      · simp [stageStep, hc, Next.fail]
    | false =>
      have hempty : stageStep d (.unlKids a (d.parent a)) false =
          (d, .go [] (.unlDel a (d.parent a))) := by
        simp [stageStep, hc]
      refine ⟨_, .of (hI.unhash hl) ?_ (harrive (.go hempty (.out (r := .code none) rfl)))⟩
      rw [hI.names_unhash hl hdir, hn]
      simp [served, serve, PathMap.unlink, hfind, hkids, hc]

theorem leads_lookup (cur : ℕ) (rest : List Name) (hosts : List ℕ) (res : DcResult) :
    Leads d (.lkHop cur rest hosts res) d (.lookup
      (answer d.childLookup (fun h => (d.dentry h).neg) cur rest res)
      (hosts ++ through d.childLookup cur rest)) := by
  induction rest generalizing cur hosts res with
  | nil =>
    have hs : soloStep false (d, .lkHop cur [] hosts res) = (d, .done (.lookup res hosts)) := rfl
    simpa [answer, through] using Leads.head hs (.done d _)
  | cons n rest ih =>
    cases hc : d.childLookup cur n with
    | none =>
      have hs : soloStep false (d, .lkHop cur (n :: rest) hosts res) =
          (d, .done (.lookup .absent hosts)) := by
        simp [soloStep, lkStep, hc]
      have hend := Leads.head hs (.done d _)
      rw [through_cons_none rest hc]
      simpa [answer, Namei.resolve, hc] using hend
    | some a =>
      have hs : soloStep false (d, .lkHop cur (n :: rest) hosts res) =
          (d, .lkHop a rest (hosts ++ [a])
            (if (d.dentry a).neg then .negative else .positive)) := by
        cases hneg : (d.dentry a).neg <;> simp [soloStep, lkStep, hc, Cache.isPositive, hneg]
      rw [through_cons_some rest hc, answer_cons_some rest res hc]
      simpa using Leads.head hs (ih a (hosts ++ [a]) _)

theorem IndexOk.serves_lookup (hI : IndexOk d) (path : List Name) :
    Serves d (.lookup path) d := by
  have hlook : d.names.lookup path = (answer d.childLookup (fun h => (d.dentry h).neg) root path
      .positive, through d.childLookup root path) :=
    pathMap_lookup path (fun _ => rfl) fun _ => rfl
  refine .of hI ?_ (leads_lookup root path [] .positive)
  simp [served, serve, hlook]

end Operations

section Moves

variable {res : Ret} {sdir ddir adir bdir : List Name} {sn dn an bn : Name} {v tp da db : ℕ}

omit [DecidableEq Name] in
theorem opStart_rename (sdir ddir : List Name) (sn dn : Name) :
    opStart (.rename (sdir ++ [sn]) (ddir ++ [dn])) =
      .walk root (sdir ++ [sn]) (.renameFrom ddir dn) := by
  simp [opStart, startAt]

theorem IndexOk.climb_hit (hI : IndexOk d) {loop : ℕ → Stage Name}
    (hup : ∀ c, c ≠ v → d.parent c ≠ c →
      stageStep d (loop c) false = (d, .go [] (loop (d.parent c))))
    (hhit : StageLeads d (loop v) d' res) (hsrc : d.resolve (sdir ++ [sn]) = some v)
    (hdst : d.resolve ddir = some tp) (hloop : sdir ++ [sn] <+: ddir) :
    StageLeads d (loop tp) d' res := by
  refine hI.climb (G := fun c => StageLeads d (loop c) d' res) hsrc hhit ?_ hloop hdst
  intro mid c _ _ hne hc hp h
  refine .go (hup c ?_ hp) h
  rintro rfl
  exact hne (hI.rooted.resolve_inj hc hsrc)

theorem IndexOk.climb_clear (hI : IndexOk d) {loop : ℕ → Stage Name}
    (hup : ∀ c, c ≠ v → d.parent c ≠ c →
      stageStep d (loop c) false = (d, .go [] (loop (d.parent c))))
    (hstop : StageLeads d (loop root) d' res) (hsrc : d.resolve (sdir ++ [sn]) = some v)
    (hdst : d.resolve ddir = some tp) (hloop : ¬ sdir ++ [sn] <+: ddir) :
    StageLeads d (loop tp) d' res := by
  have hroot : d.resolve [] = some root := rfl
  refine hI.climb (G := fun c => StageLeads d (loop c) d' res) hroot hstop ?_ nil_prefix hdst
  intro mid c hmid _ _ hc hp h
  refine .go (hup c ?_ hp) h
  rintro rfl
  exact hloop (hI.rooted.resolve_inj hc hsrc ▸ hmid)

theorem renLoop_up {r : Ren Name} (c : ℕ) (hv : c ≠ r.victim) (hp : d.parent c ≠ c) :
    stageStep d (.renLoop r c) false = (d, .go [] (.renLoop r (d.parent c))) := by
  simp [stageStep, hv, hp]

theorem IndexOk.renState_loop (hI : IndexOk d) (hsrc : d.resolve (sdir ++ [sn]) = some v)
    (hdst : d.resolve ddir = some tp) (hpos : (d.dentry tp).neg = false)
    (hloop : sdir ++ [sn] <+: ddir) :
    StageLeads d (.renState ⟨v, d.parent v, tp, dn⟩) d (.code (some .EINVAL)) := by
  obtain ⟨-, hdir, -⟩ := hI.resolve_parent hsrc
  have hcross : d.parent v ≠ tp := by
    rintro rfl
    rw [hI.rooted.resolve_inj hdst hdir] at hloop
    exact not_append_prefix_self sdir sn hloop
  have hstate : stageStep d (.renState ⟨v, d.parent v, tp, dn⟩) false =
      (d, .go [] (.renLoop ⟨v, d.parent v, tp, dn⟩ tp)) := by
    simp [stageStep, Cache.isPositive, hpos, Ren.cross, hcross]
  have hhit : StageLeads d (.renLoop ⟨v, d.parent v, tp, dn⟩ v) d (.code (some .EINVAL)) :=
    .out (by simp [stageStep, Next.fail])
  exact .go hstate (hI.climb_hit renLoop_up hhit hsrc hdst hloop)

theorem IndexOk.renState_clear (hI : IndexOk d) (hsrc : d.resolve (sdir ++ [sn]) = some v)
    (hdst : d.resolve ddir = some tp) (hpos : (d.dentry tp).neg = false)
    (hloop : ¬ sdir ++ [sn] <+: ddir)
    (h : StageLeads d (.renTarget ⟨v, d.parent v, tp, dn⟩) d' res) :
    StageLeads d (.renState ⟨v, d.parent v, tp, dn⟩) d' res := by
  obtain ⟨hl, -, -⟩ := hI.resolve_parent hsrc
  have hpass : stageStep d (.renAgain ⟨v, d.parent v, tp, dn⟩) false =
      (d, .go [] (.renTarget ⟨v, d.parent v, tp, dn⟩)) := by
    simp [stageStep, Cache.isPositive, hpos]
  have hagain : StageLeads d (.renAgain ⟨v, d.parent v, tp, dn⟩) d' res := .go hpass h
  by_cases hcross : d.parent v = tp
  · have hstate : stageStep d (.renState ⟨v, d.parent v, tp, dn⟩) false =
        (d, .go (dirsWlock2 (d.parent v) tp) (.renAgain ⟨v, d.parent v, tp, dn⟩)) := by
      simp [stageStep, Cache.isPositive, hpos, Ren.cross, hcross]
    exact .go hstate hagain
  · have hstate : stageStep d (.renState ⟨v, d.parent v, tp, dn⟩) false =
        (d, .go [] (.renLoop ⟨v, d.parent v, tp, dn⟩ tp)) := by
      simp [stageStep, Cache.isPositive, hpos, Ren.cross, hcross]
    have hstop : stageStep d (.renLoop ⟨v, d.parent v, tp, dn⟩ root) false =
        (d, .go (dirsWlock2 (d.parent v) tp) (.renAgain ⟨v, d.parent v, tp, dn⟩)) := by
      simp [stageStep, hl.2.1.symm, hI.rootSelf.2.1]
    exact .go hstate (hI.climb_clear renLoop_up (.go hstop hagain) hsrc hdst hloop)

theorem stageLeads_move {target : Option ℕ}
    (hs : stageStep d (.renTarget ⟨v, d.parent v, tp, dn⟩) false =
      (d, .go [.rename] (.renBuckets ⟨v, d.parent v, tp, dn⟩ target))) :
    StageLeads d (.renTarget ⟨v, d.parent v, tp, dn⟩) (d.dMove v (d.parent v) tp dn target)
      (.code none) :=
  .go hs (.go rfl (.out rfl))

theorem IndexOk.serves_rename (hI : IndexOk d) (src dst : List Name) :
    ∃ d', Serves d (.rename src dst) d' := by
  rcases eq_nil_or_concat' src with rfl | ⟨sdir, sn, rfl⟩
  · exact ⟨d, .of hI (by simp [served, PathMap.renameOver]) (.done d _)⟩
  rcases eq_nil_or_concat' dst with rfl | ⟨ddir, dn, rfl⟩
  · refine ⟨d, .of hI (r := .code (some .EINVAL)) (by simp [served, PathMap.renameOver]) ?_⟩
    simp only [opStart, startAt, getLast?_concat]
    exact .done d _
  cases hsrc : d.resolve (sdir ++ [sn]) with
  | none =>
    refine ⟨d, .of hI (r := .code (some .ENOENT)) ?_ ?_⟩
    · cases hf : d.names.find ddir <;>
        simp [served, PathMap.renameOver, names_eq_none.mpr hsrc, hf]
    · rw [opStart_rename]
      exact .walk_none hsrc (.done d _)
  | some v =>
    obtain ⟨hl, hdir, hn⟩ := hI.resolve_parent hsrc
    have hfs := names_of_resolve hsrc
    cases hdst : d.resolve ddir with
    | none =>
      refine ⟨d, .of hI (r := .code (some .ENOENT)) ?_ ?_⟩
      · simp [served, PathMap.renameOver, hfs, names_eq_none.mpr hdst]
      · rw [opStart_rename]
        exact .walk hsrc (.walk_none hdst (.done d _))
    | some tp =>
      have hfd := names_of_resolve hdst
      have harrive : ∀ {d' r}, StageLeads d (.renState ⟨v, d.parent v, tp, dn⟩) d' r →
          Leads d (opStart (.rename (sdir ++ [sn]) (ddir ++ [dn]))) d' r := by
        intro d' r h
        rw [opStart_rename]
        have hread : StageLeads d (.renRead v tp dn) d' r := .go rfl h
        exact .walk hsrc (.walk hdst (hread [] []))
      cases hneg : (d.dentry tp).neg with
      | true =>
        refine ⟨d, .of hI ?_ (harrive (.out (r := .code (some .ENOENT)) ?_))⟩
        · simp [served, PathMap.renameOver, hfs, hfd, Cache.obj, hneg]
        · simp [stageStep, Cache.isPositive, hneg, Next.fail]
      | false =>
        by_cases hloop : sdir ++ [sn] <+: ddir
        · refine ⟨d, .of hI ?_ (harrive (hI.renState_loop hsrc hdst hneg hloop))⟩
          simp [served, PathMap.renameOver, hfs, hfd, Cache.obj, hneg, hloop]
        have hat := resolve_dir hdst dn
        have hclear : ∀ {d' r}, StageLeads d (.renTarget ⟨v, d.parent v, tp, dn⟩) d' r →
            Leads d (opStart (.rename (sdir ++ [sn]) (ddir ++ [dn]))) d' r := fun h =>
          harrive (hI.renState_clear hsrc hdst hneg hloop h)
        have hmove : ∀ target, d.childLookup tp dn = target → target ≠ some v →
            (¬ ∃ o, d.names.find (ddir ++ [dn]) = some o ∧
              (ddir ++ [dn] = sdir ++ [sn] ∨ o.neg = false)) →
            stageStep d (.renTarget ⟨v, d.parent v, tp, dn⟩) false =
              (d, .go [.rename] (.renBuckets ⟨v, d.parent v, tp, dn⟩ target)) →
            ∃ d', Serves d (.rename (sdir ++ [sn]) (ddir ++ [dn])) d' := by
          intro target ht hne hfree hs
          refine ⟨_, .of (hI.dMove hl (hI.resolve_lt hdst) ht hne) ?_
            (hclear (stageLeads_move hs))⟩
          have hgraft := hI.names_dMove hl ht hne hdir hdst (by rwa [hn])
          rw [hn] at hgraft
          rw [hgraft]
          simp only [served]
          rw [PathMap.renameOver_clear hfs hfd hneg hloop, if_neg hfree]
        cases ht : d.childLookup tp dn with
        | none =>
          rw [ht] at hat
          refine hmove none ht (by simp) ?_ (by simp [stageStep, ht])
          rintro ⟨o, ho, -⟩
          rw [names_eq_none.mpr hat] at ho
          cases ho
        | some t =>
          rw [ht] at hat
          have hft := names_of_resolve hat
          by_cases hbusy : t = v ∨ (d.dentry t).neg = false
          · refine ⟨d, .of hI ?_ (hclear (.out (r := .code (some .EEXIST)) ?_))⟩
            · have hex : ∃ o, d.names.find (ddir ++ [dn]) = some o ∧
                  (ddir ++ [dn] = sdir ++ [sn] ∨ o.neg = false) := by
                refine ⟨_, hft, hbusy.imp (fun he => ?_) id⟩
                exact hI.rooted.resolve_inj hat (he ▸ hsrc)
              simp only [served]
              rw [PathMap.renameOver_clear hfs hfd hneg hloop, if_pos hex]
            · rcases hbusy with rfl | hb
              · simp [stageStep, ht, Next.fail]
              · simp [stageStep, ht, Cache.isPositive, hb, Next.fail]
          · rw [not_or] at hbusy
            refine hmove (some t) ht (fun he => hbusy.1 (some.inj he)) ?_ ?_
            · rintro ⟨o, ho, hbad⟩
              obtain rfl := some.inj (hft.symm.trans ho)
              rcases hbad with he | he
              · rw [he] at hat
                exact hbusy.1 (some.inj (hat.symm.trans hsrc))
              · exact hbusy.2 he
            · have hneg' : (d.dentry t).neg = true := by simpa using hbusy.2
              simp [stageStep, ht, hbusy.1, Cache.isPositive, hneg']

omit [DecidableEq Name] in
theorem opStart_exchange (adir bdir : List Name) (an bn : Name) :
    opStart (.exchange (adir ++ [an]) (bdir ++ [bn])) =
      .walk root (adir ++ [an]) (.exchangeA (bdir ++ [bn])) := by
  simp [opStart, startAt]

theorem stageLeads_swap (x : Xchg) : StageLeads d (.xchNames x)
    (d.exchange x.da x.db x.pa x.pb (d.dentry x.da).name (d.dentry x.db).name) (.code none) :=
  .go rfl (.out rfl)

section Exchange

variable (hI : IndexOk d) (ha : d.resolve (adir ++ [an]) = some da)
  (hb : d.resolve (bdir ++ [bn]) = some db)
include hI ha hb

theorem IndexOk.xchRead_loop (hloop : adir ++ [an] <+: bdir ∨ bdir ++ [bn] <+: adir) :
    StageLeads d (.xchRead da db) d (.code (some .EINVAL)) := by
  obtain ⟨hla, hpa, -⟩ := hI.resolve_parent ha
  obtain ⟨hlb, hpb, -⟩ := hI.resolve_parent hb
  have hcross : d.parent da ≠ d.parent db := by
    intro he
    rw [he] at hpa
    rw [hI.rooted.resolve_inj hpa hpb] at hloop
    exact hloop.elim (not_append_prefix_self bdir an) (not_append_prefix_self bdir bn)
  have hread : stageStep d (.xchRead da db) false =
      (d, .go [.mutex] (.xchLoopA ⟨da, db, d.parent da, d.parent db⟩ (d.parent db))) := by
    simp [stageStep, Xchg.cross, hcross]
  have hupA : ∀ c, c ≠ da → d.parent c ≠ c →
      stageStep d (.xchLoopA ⟨da, db, d.parent da, d.parent db⟩ c) false =
        (d, .go [] (.xchLoopA ⟨da, db, d.parent da, d.parent db⟩ (d.parent c))) := by
    intro c hc hp
    simp [stageStep, hc, hp]
  have hupB : ∀ c, c ≠ db → d.parent c ≠ c →
      stageStep d (.xchLoopB ⟨da, db, d.parent da, d.parent db⟩ c) false =
        (d, .go [] (.xchLoopB ⟨da, db, d.parent da, d.parent db⟩ (d.parent c))) := by
    intro c hc hp
    simp [stageStep, hc, hp]
  refine .go hread ?_
  by_cases hab : adir ++ [an] <+: bdir
  · exact hI.climb_hit hupA (.out (by simp [stageStep, Next.fail])) ha hpb hab
  · have hba := hloop.resolve_left hab
    have hturn : stageStep d (.xchLoopA ⟨da, db, d.parent da, d.parent db⟩ root) false =
        (d, .go [] (.xchLoopB ⟨da, db, d.parent da, d.parent db⟩ (d.parent da))) := by
      simp [stageStep, hla.2.1.symm, hI.rootSelf.2.1]
    have hhit : StageLeads d (.xchLoopB ⟨da, db, d.parent da, d.parent db⟩ db) d
        (.code (some .EINVAL)) := .out (by simp [stageStep, Next.fail])
    exact hI.climb_clear hupA (.go hturn (hI.climb_hit hupB hhit hb hpa hba)) ha hpb hab

theorem IndexOk.xchRead_clear (hab : ¬ adir ++ [an] <+: bdir) (hba : ¬ bdir ++ [bn] <+: adir) :
    StageLeads d (.xchRead da db)
      (d.exchange da db (d.parent da) (d.parent db) (d.dentry da).name (d.dentry db).name)
      (.code none) := by
  obtain ⟨hla, hpa, -⟩ := hI.resolve_parent ha
  obtain ⟨hlb, hpb, -⟩ := hI.resolve_parent hb
  have hswap : StageLeads d (.xchNames ⟨da, db, d.parent da, d.parent db⟩) _ (.code none) :=
    stageLeads_swap _
  by_cases hcross : d.parent da = d.parent db
  · have hread : stageStep d (.xchRead da db) false =
        (d, .go [] (.xchNames ⟨da, db, d.parent da, d.parent db⟩)) := by
      simp [stageStep, Xchg.cross, hcross]
    exact .go hread hswap
  · have hread : stageStep d (.xchRead da db) false =
        (d, .go [.mutex] (.xchLoopA ⟨da, db, d.parent da, d.parent db⟩ (d.parent db))) := by
      simp [stageStep, Xchg.cross, hcross]
    have hturn : stageStep d (.xchLoopA ⟨da, db, d.parent da, d.parent db⟩ root) false =
        (d, .go [] (.xchLoopB ⟨da, db, d.parent da, d.parent db⟩ (d.parent da))) := by
      simp [stageStep, hla.2.1.symm, hI.rootSelf.2.1]
    have hstop : stageStep d (.xchLoopB ⟨da, db, d.parent da, d.parent db⟩ root) false =
        (d, .go [] (.xchNames ⟨da, db, d.parent da, d.parent db⟩)) := by
      simp [stageStep, hlb.2.1.symm, hI.rootSelf.2.1]
    refine .go hread (hI.climb_clear ?_ (.go hturn (hI.climb_clear ?_ (.go hstop hswap) hb hpa
      hba)) ha hpb hab)
    · intro c hc hp
      simp [stageStep, hc, hp]
    · intro c hc hp
      simp [stageStep, hc, hp]

end Exchange

theorem IndexOk.serves_exchange (hI : IndexOk d) (a b : List Name) :
    ∃ d', Serves d (.exchange a b) d' := by
  rcases eq_nil_or_concat' a with rfl | ⟨adir, an, rfl⟩
  · exact ⟨d, .of hI (by simp [served, serve, PathMap.exchange]) (.done d _)⟩
  rcases eq_nil_or_concat' b with rfl | ⟨bdir, bn, rfl⟩
  · refine ⟨d, .of hI (r := .code (some .EINVAL)) (by simp [served, serve, PathMap.exchange]) ?_⟩
    simp only [opStart, startAt, getLast?_concat]
    exact .done d _
  cases ha : d.resolve (adir ++ [an]) with
  | none =>
    refine ⟨d, .of hI (r := .code (some .ENOENT)) ?_ ?_⟩
    · cases hf : d.names.find (bdir ++ [bn]) <;>
        simp [served, serve, PathMap.exchange, names_eq_none.mpr ha, hf]
    · rw [opStart_exchange]
      refine .walk_none ha ?_
      show Leads d (.walk root (bdir ++ [bn]) (.exchangeB none)) d _
      cases hb : d.resolve (bdir ++ [bn]) with
      | none => exact .walk_none hb (.done d _)
      | some => exact .walk hb (.done d _)
  | some da =>
    have hfa := names_of_resolve ha
    cases hb : d.resolve (bdir ++ [bn]) with
    | none =>
      refine ⟨d, .of hI (r := .code (some .ENOENT)) ?_ ?_⟩
      · simp [served, serve, PathMap.exchange, hfa, names_eq_none.mpr hb]
      · rw [opStart_exchange]
        exact .walk ha (.walk_none hb (.done d _))
    | some db =>
      have hfb := names_of_resolve hb
      by_cases hsame : da = db
      · subst hsame
        have hpath := hI.rooted.resolve_inj ha hb
        refine ⟨d, .of hI (r := .code none) ?_ ?_⟩
        · rw [← hpath]
          simp [served, serve, PathMap.exchange, hfa]
        · rw [opStart_exchange]
          refine .walk ha (.walk hb ?_)
          simp only [Cont.arrive, if_true]
          exact .done d _
      have hpath : adir ++ [an] ≠ bdir ++ [bn] := by
        intro he
        rw [he] at ha
        exact hsame (some.inj (ha.symm.trans hb))
      have harrive : ∀ {d' r}, StageLeads d (.xchRead da db) d' r →
          Leads d (opStart (.exchange (adir ++ [an]) (bdir ++ [bn]))) d' r := by
        intro d' r h
        rw [opStart_exchange]
        refine .walk ha (.walk hb ?_)
        simp only [Cont.arrive, if_neg hsame]
        exact h [] []
      by_cases hloop : adir ++ [an] <+: bdir ∨ bdir ++ [bn] <+: adir
      · refine ⟨d, .of hI ?_ (harrive (hI.xchRead_loop ha hb hloop))⟩
        simp [served, serve, PathMap.exchange, hfa, hfb, hpath, hloop]
      · obtain ⟨hla, hpa, hna⟩ := hI.resolve_parent ha
        obtain ⟨hlb, hpb, hnb⟩ := hI.resolve_parent hb
        rw [not_or] at hloop
        refine ⟨_, .of (hI.exchange hla hlb hsame rfl rfl rfl rfl) ?_
          (harrive (hI.xchRead_clear ha hb hloop.1 hloop.2))⟩
        rw [hna, hnb, hI.names_exchange hla hlb hsame rfl rfl hna hnb hpa hpb hloop.1 hloop.2]
        simp [served, serve, PathMap.exchange, hfa, hfb, hpath, hloop]

end Moves

theorem IndexOk.serves (hI : IndexOk d) (o : Op Name) : ∃ d', Serves d o d' := by
  cases o with
  | addTyped path id isdir positive => exact hI.serves_add path id isdir positive
  | instantiate path id => exact hI.serves_instantiate path id
  | delete path => exact hI.serves_delete path
  | unlink path => exact hI.serves_unlink path
  | rename src dst => exact hI.serves_rename src dst
  | exchange a b => exact hI.serves_exchange a b
  | lookup path => exact ⟨d, hI.serves_lookup path⟩

end Seqlock

end TrieBenchmark
