import TrieBenchmark.Txn.Solo

/-!
Renames, exchanges and folds of the mark arm that run alone.
-/

namespace TrieBenchmark.Txn

open Cache List Edits Namei Serial

variable {Name : Type} [DecidableEq Name] {d d' : Cache Name} {qs : List ℕ}

section Climb

variable {W H : ℕ → ℕ → Pc Name} {L B A : Pc Name} {host : ℕ} {src : List Name}

/-- The ancestry walk alone: it climbs from `cur` along the path to `cur` and meets the moved
host iff that path goes through it. -/
theorem Fit.runs_climb (hF : Fit d)
    (hW : ∀ cur hops, ((W cur hops).busy = true ∧ (W cur hops).queues = none) ∧
      stepPc .mark d (W cur hops) .ok = (d, match reparentHop d host cur hops with
        | .loop => L
        | .busy => B
        | .arrived => A
        | .climb => H cur (hops + 1)))
    (hH : ∀ cur hops, ((H cur hops).busy = true ∧ (H cur hops).queues = none) ∧
      stepPc .mark d (H cur hops) .ok = (d, W (d.dentry cur).parent hops))
    (hsrc : d.resolve src = some host) (hne : src ≠ []) {q : List Name}
    (hflags : ∀ p v, p <+: q → d.resolve p = some v → v ≠ host → (d.dentry v).moving = false)
    {cur hops : ℕ} (hr : d.resolve q = some cur) (hlen : q.length + hops ≤ loopMax) :
    (src <+: q → Runs d (W cur hops) [] d L) ∧ (¬ src <+: q → Runs d (W cur hops) [] d A) := by
  have hI := hF.index
  have hroot : host ≠ root := by
    rintro rfl
    exact hne (hI.rooted.resolve_inj hsrc (show d.resolve [] = some root from rfl))
  refine hI.rooted.climb (S := fun x y => Runs d x [] d y) (W := W) Runs.andThen hsrc hne
    (fun _ => .single (hW _ _).1 ?_) (fun _ => .single (hW _ _).1 ?_) ?_ hr hlen
  · rw [(hW _ _).2, reparentHop, if_neg hroot, if_pos rfl]
  · rw [(hW _ _).2, reparentHop, if_pos rfl]
  intro dir n parent cur i hp hdir hcur hne hi
  obtain ⟨_, top, hHolds, rfl⟩ := hI.exists_holds hcur
  obtain rfl := Option.some.inj (hHolds.dir.symm.trans hdir)
  have hcroot : d.hostOf top ≠ root :=
    hI.host_ne_root hHolds.linked
  have hup : Runs d (W (d.hostOf top) i) [] d (H (d.hostOf top) (i + 1)) := by
    refine .single (hW _ _).1 ?_
    rw [(hW _ _).2, reparentHop, if_neg hcroot, if_neg hne, if_neg (by simp [hflags _ _ hp hcur hne]),
      if_neg (Nat.not_lt_of_le hi)]
  refine hup.andThen (.single (hH _ _).1 ?_)
  rw [(hH _ _).2, hF.agree top hHolds.linked, hHolds.iparent]

end Climb

section Flag

variable {h a : ℕ} {b : Bool}

omit [DecidableEq Name] in
theorem setMoving_dentry : (d.setMoving h b).dentry a =
    { d.dentry a with moving := if a = h then b else (d.dentry a).moving } := by
  rcases eq_or_ne a h with rfl | hne
  · simp [Cache.setMoving]
  · simp [Cache.setMoving, modify_of_ne _ _ _ _ hne, hne]

omit [DecidableEq Name] in
theorem setMoving_hostOf : (d.setMoving h b).hostOf a = d.hostOf a := by
  simp [Cache.hostOf, setMoving_dentry]

omit [DecidableEq Name] in
theorem setMoving_linked : (d.setMoving h b).linked a ↔ d.linked a := by
  simp [Cache.linked, Cache.bucket, setMoving_dentry]
  simp [Cache.setMoving, Cache.modify]

omit [DecidableEq Name] in
theorem Fit.setMoving (hF : Fit d) (h : ℕ) (b : Bool) : Fit (d.setMoving h b) :=
  hF.effect (.flag h b)

theorem Fit.setMoving_bindings (hF : Fit d) (h : ℕ) (b : Bool) (v : ℕ) (n : Name) :
    (d.setMoving h b).childLookup v n = d.childLookup v n :=
  hF.index.modify_bindings (hF.setMoving h b).index (fun _ => ⟨rfl, rfl⟩) (.inr fun _ => ⟨rfl, rfl⟩)
    v n

theorem Fit.setMoving_resolve (hF : Fit d) (path : List Name) :
    (d.setMoving h b).resolve path = d.resolve path := by
  unfold Cache.resolve
  rw [show (d.setMoving h b).childLookup = d.childLookup from
    funext fun v => funext (hF.setMoving_bindings h b v)]

theorem Fit.names_setMoving (hF : Fit d) (h : ℕ) (b : Bool) : (d.setMoving h b).names = d.names :=
  hF.index.names_modify (hF.setMoving h b).index (fun _ => ⟨rfl, rfl⟩) (.inr fun _ => ⟨rfl, rfl⟩)
    fun _ => ⟨rfl, rfl, rfl⟩

theorem Holds.setMoving {dir : List Name} {name : Name} {parent top : ℕ}
    (hH : Holds d dir name parent top) (hF : Fit d) (h : ℕ) (b : Bool) :
    Holds (d.setMoving h b) dir name parent top := by
  have hl := setMoving_linked (h := h) (b := b).mpr hH.linked
  have hp : ((d.setMoving h b).dentry top).iparent = parent := by
    rw [setMoving_dentry]
    exact hH.iparent
  have hn : ((d.setMoving h b).dentry top).iname = name := by
    rw [setMoving_dentry]
    exact hH.iname
  exact ⟨hF.setMoving_resolve _ |>.trans hH.dir,
    (hF.setMoving h b).index.findTop_eq_some.mpr ⟨hl, hp, hn⟩, hl, hp, hn⟩

end Flag

/-- A rename or an exchange has come to its end `pc` and has still to queue the folds of `qs`, the
`k` shells it has stacked; the flags of `S` are set. -/
structure Moved (d : Cache Name) (k : ℕ) (S : Set ℕ) (r : Option Errno × PathMap Name)
    (pc : Pc Name) (qs : List ℕ) (d' : Cache Name) : Prop where
  fit : Fit d'
  names : d'.names = r.2
  flags : FlagsOnly d' S
  host : ∀ a, d.linked a → d'.hostOf a = d.hostOf a
  ret : ∀ e, Runs e pc qs e (.ret r.1)
  fresh : d'.fresh = d.fresh + if r.1 = none then k else 0
  shells : ∀ T, d'.linked T → (d'.dentry T).shell = true → T ∈ qs
  queued : ∀ n ∈ qs, n < d'.fresh ∧ (d'.dentry n).shell = true

namespace Moved

variable {k h : ℕ} {S : Set ℕ} {r : Option Errno × PathMap Name} {pc pc' : Pc Name}

theorem fails (hF : Fit d) (hf : FlagsOnly d S)
    (hset : ∀ T, d.linked T → (d.dentry T).shell = false) (e : Errno) :
    Moved d k S (some e, d.names) (.ret (some e)) [] d := by
  refine ⟨hF, rfl, hf, fun _ _ => rfl, fun e => .refl e _, rfl, fun T hT hs => ?_, by simp⟩
  rw [hset T hT] at hs
  cases hs

theorem served {d₀ : Cache Name} (hM : Moved d k ∅ r pc' qs d') (hfresh : d₀.fresh = d.fresh)
    (hrun : Runs d₀ pc [] d' pc') :
    Served d₀ pc (.code r.1) r.2 (if r.1 = none then k else 0) qs d' :=
  ⟨hrun.andThen (hM.ret d'), hM.names, hM.fit, hM.flags, hfresh ▸ hM.fresh, hM.shells, hM.queued⟩

theorem clear (hM : Moved d k (insert h S) r pc qs d') :
    Moved d k S r pc qs (d'.setMoving h false) := by
  refine ⟨hM.fit.setMoving _ _, (hM.fit.names_setMoving _ _).trans hM.names, hM.flags.clear,
    fun a ha => setMoving_hostOf.trans (hM.host a ha), hM.ret, hM.fresh, fun T hT hs => ?_, ?_⟩
  · rw [setMoving_dentry] at hs
    exact hM.shells T (setMoving_linked.mp hT) hs
  · intro n hn
    rw [setMoving_dentry]
    exact hM.queued n hn

end Moved

section Stack

variable {m : Move Name} {top : ℕ} {g : Guards} {sdir ddir : List Name} {S : Set ℕ}
  {r : Option Errno × PathMap Name}

def DestOk (d : Cache Name) (m : Move Name) (top : ℕ) : Prop :=
  ∀ cur, d.linked cur → (d.dentry cur).iparent = m.newParent → (d.dentry cur).iname = m.newName →
    cur ≠ top ∧ (d.dentry cur).shell = false ∧ (d.dentry cur).neg = true

omit [DecidableEq Name] in
theorem DestOk.setMoving (hD : DestOk d m top) (h : ℕ) (b : Bool) :
    DestOk (d.setMoving h b) m top := by
  intro cur hc
  simpa only [setMoving_dentry] using hD cur (setMoving_linked.mp hc)

structure Prepared (d : Cache Name) (m : Move Name) (top : ℕ) (g : Guards) : Prop where
  claim : Claim d m top g.neg
  file : ∀ a, g.neg = some a → ((d.dentry a).iparent = m.newParent ∧
    (d.dentry a).iname = m.newName) ∧ d.hostOf a = a ∧ (d.dentry a).isdir = false
  holds : d.holds g.toReads = true
  head : (d.hash (d.bucketOf m.newParent m.newName)).head? = g.head

/-- What `stack_one_prepare` makes of the destination: a directory is refused, anything else is
free or taken out. -/
theorem DestOk.runs_prepare (hD : DestOk d m top) (hI : IndexOk d) (ht : d.linked top) :
    ((∃ h, d.childLookup m.newParent m.newName = some h ∧ (d.dentry h).isdir = true) ∧
      Runs d (.stkGuard m top) [] d (stackEnds m top (.fail .EEXIST))) ∨
    (∀ h, d.childLookup m.newParent m.newName = some h → (d.dentry h).isdir = false) ∧
      ∃ g, Prepared d m top g ∧ Runs d (.stkGuard m top) [] d (.stkSib m top g) := by
  have hroot : d.hostOf top ≠ root := hI.host_ne_root ht
  obtain ⟨g, hg, hguard⟩ : ∃ g : Guards, g = ⟨⟨d.recordWord .mark m.newParent, none,
      [], [(top, d.hashNear top)], []⟩, (d.hash (d.bucketOf m.newParent m.newName)).head?, none, none⟩ ∧
      Runs d (.stkGuard m top) [] d (.stkScan m top g) := by
    have h₁ : Runs d (.stkGuard m top) [] d (.stkHead m top ⟨⟨d.recordWord .mark m.newParent,
        none, [], [], []⟩, none, none, none⟩) :=
      .single ⟨rfl, rfl⟩ (by simp [stepPc, hroot, Cache.recordGen, Cache.recordSeqs])
    exact ⟨_, rfl, h₁.andThen (.single ⟨rfl, rfl⟩ (by simp [stepPc, hI.not_mark ht]))⟩
  cases hf : d.findTop m.newParent m.newName with
  | none =>
    right
    have hscan : Runs d (.stkScan m top g) [] d (.stkSib m top g) :=
      .single ⟨rfl, rfl⟩ (by simp [stepPc, hf])
    refine ⟨by simp [Cache.childLookup, hf], g, ⟨⟨fun a ha hp hn => ?_, by simp [hg]⟩,
      by simp [hg], by simp [hg, Cache.holds, Cache.recordWord], by simp [hg]⟩,
      hguard.andThen hscan⟩
    exact absurd ⟨hp, hn⟩ (hI.findTop_eq_none.mp hf a ha)
  | some cur =>
    obtain ⟨hl, hp, hn⟩ := hI.findTop_eq_some.mp hf
    obtain ⟨hne, hs, hneg⟩ := hD cur hl hp hn
    have hhost : d.hostOf cur = cur := hostOf_of_host hs
    have hlook : d.childLookup m.newParent m.newName = some cur := by
      simp [Cache.childLookup, hf, hhost]
    have hscan : Runs d (.stkScan m top g) [] d (.stkJudge m top g cur) :=
      .single ⟨rfl, rfl⟩ (by simp [stepPc, hf, hne])
    by_cases hdir : (d.dentry cur).isdir = true
    · left
      have hjudge : Runs d (.stkJudge m top g cur) [] d (stackEnds m top (.fail .EEXIST)) :=
        .single ⟨rfl, rfl⟩ (by simp [stepPc, hdir])
      exact ⟨⟨cur, hlook, hdir⟩, hguard.andThen (hscan.andThen hjudge)⟩
    · right
      have hjudge : Runs d (.stkJudge m top g cur) [] d (.stkNeg m top g cur) :=
        .single ⟨rfl, rfl⟩ (by simp [stepPc, hhost, Cache.raw, hneg, hdir])
      have hrec : Runs d (.stkNeg m top g cur) [] d (.stkSib m top { g with
          words := g.words ++ d.recordWord .mark cur
          hash := g.hash ++ [(cur, d.hashNear cur)]
          sib := [(cur, d.sibNear cur)]
          neg := some cur }) := .single ⟨rfl, rfl⟩ (by simp [stepPc, hI.not_mark hl])
      refine ⟨fun h hh => ?_, _, ⟨⟨fun a ha hpa hna => ?_, ?_⟩, ?_, ?_, ?_⟩,
        hguard.andThen (hscan.andThen (hjudge.andThen hrec))⟩
      · obtain rfl : cur = h := Option.some.inj (hlook.symm.trans hh)
        simpa using hdir
      · show some cur = some a
        rw [hI.unique a cur ha hl (hpa.trans hp.symm) (hna.trans hn.symm)]
      · rintro a ⟨⟩
        exact ⟨hl, hne⟩
      · rintro a ⟨⟩
        exact ⟨⟨hp, hn⟩, hhost, by simpa using hdir⟩
      · simp [hg, Cache.holds, Cache.recordWord]
      · simp [hg]

theorem Prepared.runs_sib (hP : Prepared d m top g) (hI : IndexOk d) (ht : d.linked top)
    (hs : d.sealed m.newParent = false) :
    ∃ g', g'.neg = g.neg ∧ (∀ oldp, (m.cross = true → (d.dentry (d.hostOf top)).parent = oldp) →
        d.stackHolds m top g' oldp = true) ∧
      Runs d (.stkSib m top g) [] d
        (if m.cross then .stkOld m top g' else .stkCommit m top g' 0) := by
  refine ⟨{ g with
    sib := g.sib ++ [(top, d.sibNear top)]
    first := (d.kids m.newParent).head? }, rfl, fun oldp hold => ?_,
    .single ⟨rfl, rfl⟩ (by simp [stepPc, hI.not_mark ht, hs])⟩
  have hholds : d.holds { g.toReads with sib := g.sib ++ [(top, d.sibNear top)] } = true := by
    simpa [Cache.holds] using hP.holds
  have hlive : g.neg.all (fun a => !d.mark a) = true := by
    cases hn : g.neg with
    | none => rfl
    | some a => simp [hI.not_mark (hP.claim.linked a hn).1]
  have hcross : (!m.cross || decide ((d.dentry (d.hostOf top)).parent = oldp)) = true := by
    cases hc : m.cross with
    | false => rfl
    | true => simp [hold hc]
  simp only [Cache.stackHolds, hholds, hI.not_mark ht, hlive, hP.head, hs, hI.top top ht, hcross]
  simp

theorem Fit.runs_stkWalk (hF : Fit d) (m : Move Name) (g : Guards) (oldp : ℕ) {src q : List Name}
    {cur : ℕ} (hsrc : d.resolve src = some (d.hostOf top)) (hne : src ≠ [])
    (hflags : ∀ v < d.fresh, v ≠ d.hostOf top → (d.dentry v).moving = false)
    (hr : d.resolve q = some cur) (hlen : q.length ≤ loopMax) :
    (src <+: q → Runs d (.stkWalk m top g oldp cur 0) [] d (stackEnds m top (.fail .EINVAL))) ∧
      (¬ src <+: q → Runs d (.stkWalk m top g oldp cur 0) [] d (.stkCommit m top g oldp)) := by
  apply hF.runs_climb (W := .stkWalk m top g oldp) (H := .stkHop m top g oldp)
    (B := stackEnds m top .retry) _ (fun _ _ => ⟨⟨rfl, rfl⟩, rfl⟩) hsrc hne
    (fun _ v _ hv => hflags v (hF.index.resolve_lt hv)) hr hlen
  intro cur hops
  refine ⟨⟨rfl, rfl⟩, ?_⟩
  simp only [stepPc]
  cases reparentHop d (d.hostOf top) cur hops <;> rfl

theorem Prepared.stacked (hP : Prepared d m top g) (hF : Fit d) (hf : FlagsOnly d S)
    (hset : ∀ T, d.linked T → (d.dentry T).shell = false)
    (hH : Holds d sdir m.fromName m.fromParent top) (hdd : d.resolve ddir = some m.newParent)
    (hcross : m.CrossFits) (hpos : (d.dentry m.newParent).neg = false)
    (hne : ¬ (m.fromParent = m.newParent ∧ m.fromName = m.newName))
    (hloop : ¬ sdir ++ [m.fromName] <+: ddir) :
    Moved d 1 S (none, d.names.graft (sdir ++ [m.fromName]) (ddir ++ [m.newName]))
      (.stkQueue d.fresh) [d.fresh] (d.stackCommit .mark m top g.neg) := by
  have hI := hF.index
  have hlt := hI.host_lt hH.linked
  have hE : Effect .mark (Apt d) d none none (d.stackCommit .mark m top g.neg) :=
    .stack m top g.neg hH.linked hH.iparent hH.iname hP.claim (hI.resolve_lt hdd)
      (hF.unsealed hdd) (fun a ha => (hP.file a ha).2) ⟨hcross, hpos⟩
  have hEd : Edited d _ (d.stackCommit .mark m top g.neg) := hI.stack_edited hH.linked hP.claim
  have hnew : (d.stackCommit .mark m top g.neg).dentry d.fresh = _ := stackCommit_new hlt
  refine ⟨hF.effect hE, hI.names_stack hH.linked hH.iparent hH.iname hP.claim
    (fun a ha => (hP.file a ha).1) hH.dir hdd hne hloop, fun a ha hS => ?_,
    fun a ha => hEd.kind.hostOf (hI.lt ha), fun e => .queue rfl rfl (.refl e _), by simp,
    fun T hT hs => ?_, by simp [hnew, newShell]⟩
  · rcases Nat.lt_or_ge a d.fresh with hal | hge
    · rw [stackCommit_old hal]
      split_ifs <;> exact hf a hal hS
    · obtain rfl : a = d.fresh := Nat.le_antisymm (by simpa [Nat.lt_succ_iff] using ha) hge
      rw [hnew]
      rfl
  · rcases (hEd.linked_iff hI).mp hT with ⟨hl, -⟩ | hi
    · rw [(hEd.kind T (hI.lt hl)).1, hset T hl] at hs
      cases hs
    · cases hn : g.neg <;> simpa [hn, Edit.inn] using hi

open Classical in
noncomputable def stackSpec (N : PathMap Name) (src dst : List Name) :
    Option Errno × PathMap Name :=
  if ∃ o, N.find dst = some o ∧ o.isdir = true then (some .EEXIST, N)
  else if src <+: dst.dropLast then (some .EINVAL, N)
  else (none, N.graft src dst)

theorem DestOk.stack (hD : DestOk d m top) (hF : Fit d) (hf : FlagsOnly d S)
    (hset : ∀ T, d.linked T → (d.dentry T).shell = false)
    (hH : Holds d sdir m.fromName m.fromParent top) (hdd : d.resolve ddir = some m.newParent)
    (hcross : m.CrossFits) (hpos : (d.dentry m.newParent).neg = false)
    (hflags : m.cross = true → ∀ v < d.fresh, v ≠ d.hostOf top → (d.dentry v).moving = false)
    (hlen : ddir.length ≤ loopMax) :
    ∃ o qs d', Runs d (.stkGuard m top) [] d' (stackEnds m top o) ∧ Moved d 1 S
      (stackSpec d.names (sdir ++ [m.fromName]) (ddir ++ [m.newName])) (afterStack m o) qs d' := by
  have hI := hF.index
  have ht := hH.linked
  have hlook : (∃ o, d.names.find (ddir ++ [m.newName]) = some o ∧ o.isdir = true) ↔
      ∃ h, d.childLookup m.newParent m.newName = some h ∧ (d.dentry h).isdir = true := by
    have hres := resolve_dir hdd m.newName
    unfold Cache.resolve at hres
    simp [Cache.names, pathMap, hres, Cache.obj]
  have hne : ¬ (m.fromParent = m.newParent ∧ m.fromName = m.newName) := by
    rintro ⟨hp, hn⟩
    exact (hD top ht (hH.iparent.trans hp) (hH.iname.trans hn)).1 rfl
  unfold stackSpec
  rw [dropLast_concat]
  rcases hD.runs_prepare hI ht with ⟨hex, hrun⟩ | ⟨hfile, g, hP, hrun⟩
  · rw [if_pos (hlook.mpr hex)]
    exact ⟨_, _, d, hrun, .fails hF hf hset _⟩
  have hno : ¬ ∃ o, d.names.find (ddir ++ [m.newName]) = some o ∧ o.isdir = true := by
    rw [hlook]
    rintro ⟨h, hh, hd⟩
    simp [hfile h hh] at hd
  rw [if_neg hno]
  obtain ⟨g', hneg, hholds, hsib⟩ := hP.runs_sib hI ht (hF.unsealed hdd)
  have hcommit : ∀ oldp, (m.cross = true → (d.dentry (d.hostOf top)).parent = oldp) →
      Runs d (.stkCommit m top g' oldp) [] (d.stackCommit .mark m top g.neg)
        (stackEnds m top (.done d.fresh)) := fun oldp hold =>
    .single ⟨rfl, rfl⟩ (by simp [stepPc, hholds oldp hold, hneg])
  cases hc : m.cross with
  | false =>
    -- two names of one directory are not below each other
    have hloop : ¬ sdir ++ [m.fromName] <+: ddir := by
      have he : m.fromParent = m.newParent := by
        by_contra hdiff
        rw [hcross.mpr hdiff] at hc
        cases hc
      rw [hI.rooted.resolve_inj hdd (he ▸ hH.dir)]
      exact not_append_prefix_self _ _
    rw [if_neg hloop]
    rw [hc, if_neg (by simp)] at hsib
    exact ⟨_, _, _, hrun.andThen (hsib.andThen (hcommit 0 (by simp [hc]))),
      hP.stacked hF hf hset hH hdd hcross hpos hne hloop⟩
  | true =>
    rw [hc, if_pos rfl] at hsib
    have hold : Runs d (.stkOld m top g') [] d
        (.stkWalk m top g' (d.dentry (d.hostOf top)).parent m.newParent 0) :=
      .single ⟨rfl, rfl⟩ rfl
    have hwalk := hF.runs_stkWalk m g' (d.dentry (d.hostOf top)).parent hH.resolve (by simp)
      (hflags hc) hdd hlen
    have hstart := hrun.andThen (hsib.andThen hold)
    by_cases hloop : sdir ++ [m.fromName] <+: ddir
    · rw [if_pos hloop]
      exact ⟨_, _, d, hstart.andThen (hwalk.1 hloop), .fails hF hf hset _⟩
    · rw [if_neg hloop]
      exact ⟨_, _, _, hstart.andThen ((hwalk.2 hloop).andThen (hcommit _ fun _ => rfl)),
        hP.stacked hF hf hset hH hdd hcross hpos hne hloop⟩

theorem Quiet.stack (hQ : Quiet d) (hD : DestOk d m top)
    (hH : Holds d sdir m.fromName m.fromParent top) (hdd : d.resolve ddir = some m.newParent)
    (hcross : m.CrossFits) (hpos : (d.dentry m.newParent).neg = false)
    (hlen : ddir.length ≤ loopMax)
    (hr : stackSpec d.names (sdir ++ [m.fromName]) (ddir ++ [m.newName]) = r) :
    ∃ qs d', Served d (.stkFind m) (.code r.1) r.2 (if r.1 = none then 1 else 0) qs d' := by
  subst hr
  have hF := hQ.toFit
  cases hc : m.cross with
  | false =>
    obtain ⟨o, qs, d', hrun, hM⟩ := hD.stack hF hQ.flags hQ.settled hH hdd hcross hpos
      (by simp [hc]) hlen
    have hfind : Runs d (.stkFind m) [] d (.stkGuard m top) :=
      .single ⟨rfl, rfl⟩ (by simp [stepPc, hH.find, hc])
    have hends : stackEnds m top o = afterStack m o := by simp [stackEnds, hc]
    rw [hends] at hrun
    exact ⟨qs, d', hM.served rfl (hfind.andThen hrun)⟩
  | true =>
    generalize hh : d.hostOf top = h
    have hlt : h < d.fresh := hh ▸ (hF.index.host_lt hH.linked)
    have hfind : Runs d (.stkFind m) [] d (.stkGray m top) :=
      .single ⟨rfl, rfl⟩ (by simp [stepPc, hH.find, hc])
    have hgray : Runs d (.stkGray m top) [] (d.setMoving h true) (.stkGuard m top) :=
      .single ⟨rfl, rfl⟩ (by simp [stepPc, hh, hQ.flags h hlt (Set.notMem_empty _)])
    have hhost : (d.setMoving h true).hostOf top = h := setMoving_hostOf.trans hh
    obtain ⟨o, qs, d', hrun, hM⟩ := (hD.setMoving h true).stack (hF.setMoving h true)
      (hQ.flags.set h) (fun T hT => by
        rw [setMoving_dentry]
        exact hQ.settled T (setMoving_linked.mp hT))
      (hH.setMoving hF h true) ((hF.setMoving_resolve _).trans hdd) hcross
      (by rw [setMoving_dentry]; exact hpos)
      (fun _ v hv hne => hQ.flags.set h v hv (by simpa [hhost] using hne)) hlen
    rw [hF.names_setMoving] at hM
    have hends : stackEnds m top o = .stkClear m top o := by simp [stackEnds, hc]
    rw [hends] at hrun
    have hclear : Runs d' (.stkClear m top o) [] (d'.setMoving h false) (afterStack m o) :=
      .single ⟨rfl, rfl⟩ (by
        simp [stepPc, hM.host top (setMoving_linked.mpr hH.linked), hhost])
    exact ⟨qs, _, hM.clear.served rfl (hfind.andThen (hgray.andThen (hrun.andThen hclear)))⟩

end Stack

section Rename

variable {src dst : List Name}

theorem Quiet.runs_cross (hQ : Quiet d) {fp tp h : ℕ} {sn : Name} (dn : Name)
    (hh : d.childLookup fp sn = some h) : Runs d (.renCross fp sn h tp dn) [] d
      (if (d.obj tp).neg then .ret (some .ENOENT) else .stkFind ⟨fp, sn, tp, dn, fp ≠ tp⟩) := by
  obtain ⟨top, hl, hp, -, rfl⟩ := (childLookup_eq_some hQ.index).mp hh
  have hparent := hQ.agree top hl
  rw [hp] at hparent
  have hstate : Runs d (.renCross fp sn (d.hostOf top) tp dn) [] d
      (.stkState ⟨fp, sn, tp, dn, fp ≠ tp⟩) := .single ⟨rfl, rfl⟩ (by simp [stepPc, hparent])
  refine hstate.andThen (.single ⟨rfl, rfl⟩ ?_)
  cases hneg : (d.dentry tp).neg <;> simp [stepPc, Cache.raw, Cache.obj, hneg]

theorem Quiet.rename (hQ : Quiet d) (hlen : dst.length ≤ loopMax) :
    ∃ qs d', Served d (opStart .mark (.rename src dst)) (.code (d.names.renameJudged src dst).1)
      (d.names.renameJudged src dst).2
      (if (d.names.renameJudged src dst).1 = none then 1 else 0) qs d' := by
  rw [PathMap.renameJudged_elim]
  rcases (walker d).rename hQ.index.rooted (fun _ _ _ _ dn => hQ.runs_cross dn) src dst with
    ⟨e, he, hrun⟩ | ⟨hnone, m, sdir, ddir, h, hM, rfl, rfl⟩
  · have he : d.names.refused false src dst = some e := he
    rw [he]
    exact ⟨[], d, .unchanged hQ hrun⟩
  have hnone : d.names.refused false (sdir ++ [m.fromName]) (ddir ++ [m.newName]) = none := hnone
  obtain ⟨fp, top, hH, rfl⟩ := hQ.index.exists_holds ((resolve_dir hM.fromDir _).trans hM.moved)
  obtain rfl : fp = m.fromParent := Option.some.inj (hH.dir.symm.trans hM.fromDir)
  have hD : DestOk d m top := by
    intro cur hc hp hn
    have hs := hQ.settled cur hc
    have hb := hM.free _ ((childLookup_eq_some hQ.index).mpr ⟨cur, hc, hp, hn, rfl⟩)
    rw [hostOf_of_host hs] at hb
    refine ⟨?_, hs, hb.2⟩
    rintro rfl
    exact hb.1 (hostOf_of_host hs).symm
  rw [length_append, length_singleton] at hlen
  obtain ⟨qs, d', hd'⟩ := hQ.stack hD hH hM.toDir (by simp [Move.CrossFits, hM.cross]) hM.positive
    (by omega) rfl
  refine ⟨qs, d', ?_⟩
  rw [stackSpec, dropLast_concat] at hd'
  simp only [hnone, dropLast_concat, Option.elim_none]
  exact hd'.after hM.run

end Rename

section Exchange

variable {x : Xchg Name} {topa topb : ℕ} {adir bdir : List Name} {S : Set ℕ}

structure XchgHolds (d : Cache Name) (x : Xchg Name) (adir bdir : List Name)
    (topa topb : ℕ) : Prop where
  a : Holds d adir x.na x.pa topa
  b : Holds d bdir x.nb x.pb topb
  ne : topa ≠ topb

theorem XchgHolds.tops (hX : XchgHolds d x adir bdir topa topb) : XchgTops d x topa topb :=
  ⟨hX.a.linked, hX.b.linked, hX.ne, ⟨hX.a.iparent, hX.a.iname⟩, hX.b.iparent, hX.b.iname⟩

theorem XchgHolds.setMoving (hX : XchgHolds d x adir bdir topa topb) (hF : Fit d) (h : ℕ)
    (b : Bool) : XchgHolds (d.setMoving h b) x adir bdir topa topb :=
  ⟨hX.a.setMoving hF h b, hX.b.setMoving hF h b, hX.ne⟩

theorem XchgHolds.paths_ne (hX : XchgHolds d x adir bdir topa topb) (hI : IndexOk d) :
    adir ++ [x.na] ≠ bdir ++ [x.nb] := by
  intro he
  have hr := hX.a.resolve
  rw [he, hX.b.resolve] at hr
  exact (hX.tops.hosts hI).2.2 (Option.some.inj hr).symm

theorem XchgHolds.runs_links (hX : XchgHolds d x adir bdir topa topb) (hI : IndexOk d) :
    ∃ g, (∀ olda oldb, (x.cross = true → (d.dentry (d.hostOf topa)).parent = olda ∧
        (d.dentry (d.hostOf topb)).parent = oldb) →
        d.exchangeHolds x topa topb g olda oldb = true) ∧
      Runs d (.xchGuardA x topa topb) [] d
        (if x.cross then .xchOld x topa topb g else .xchCommit x topa topb g 0 0) := by
  have hla := hI.not_mark hX.a.linked
  have hlb := hI.not_mark hX.b.linked
  obtain ⟨g, hg, hguard⟩ : ∃ g : Reads, (g.words.all fun p => d.raw p.1 = p.2) = true ∧
      (g.gen = none ∧ g.seqs = []) ∧
        Runs d (.xchGuardA x topa topb) [] d (.xchLinks x topa topb g) := by
    have h₁ : Runs d (.xchGuardA x topa topb) [] d
        (.xchGuardB x topa topb ⟨d.recordWord .mark x.pa, none, [], [], []⟩) :=
      .single ⟨rfl, rfl⟩ (by simp [stepPc, Cache.recordGen, Cache.recordSeqs])
    by_cases he : x.pb = x.pa
    · exact ⟨⟨d.recordWord .mark x.pa, none, [], [], []⟩, by simp [Cache.recordWord], ⟨rfl, rfl⟩,
        h₁.andThen (.single ⟨rfl, rfl⟩ (by simp [stepPc, he]))⟩
    · exact ⟨⟨d.recordWord .mark x.pa ++ d.recordWord .mark x.pb, none, [], [], []⟩,
        by simp [Cache.recordWord], ⟨rfl, rfl⟩,
        h₁.andThen (.single ⟨rfl, rfl⟩ (by simp [stepPc, he]))⟩
  refine ⟨{ g with
    hash := [(topa, d.hashNear topa), (topb, d.hashNear topb)]
    sib := [(topa, d.sibNear topa), (topb, d.sibNear topb)] }, fun olda oldb hold => ?_,
    hguard.2.andThen (.single ⟨rfl, rfl⟩ (by simp [stepPc, hla, hlb, hX.ne]))⟩
  have hholds : d.holds { g with
      hash := [(topa, d.hashNear topa), (topb, d.hashNear topb)]
      sib := [(topa, d.sibNear topa), (topb, d.sibNear topb)] } = true := by
    simp only [Cache.holds, hg, hguard.1.1, hguard.1.2]
    simp
  have hcross : (!x.cross || decide ((d.dentry (d.hostOf topa)).parent = olda) &&
      decide ((d.dentry (d.hostOf topb)).parent = oldb)) = true := by
    cases hc : x.cross with
    | false => rfl
    | true => simp [hold hc]
  simp only [Cache.exchangeHolds, hholds, hla, hlb, hI.top topa hX.a.linked,
    hI.top topb hX.b.linked, hcross]
  simp

theorem Fit.runs_xchWalk (hF : Fit d) (x : Xchg Name) (topa topb : ℕ) (g : Reads)
    (olda oldb : ℕ) (second : Bool) {src q : List Name} {cur : ℕ}
    (hsrc : d.resolve src = some (d.hostOf (if second then topb else topa))) (hne : src ≠ [])
    (hflags : ∀ p v, p <+: q → d.resolve p = some v →
      v ≠ d.hostOf (if second then topb else topa) → (d.dentry v).moving = false)
    (hr : d.resolve q = some cur) (hlen : q.length ≤ loopMax) :
    (src <+: q → Runs d (.xchWalk x topa topb g olda oldb second cur 0) [] d
      (exchangeEnds x topa topb (.fail .EINVAL))) ∧
    (¬ src <+: q → Runs d (.xchWalk x topa topb g olda oldb second cur 0) [] d
      (if second then .xchCommit x topa topb g olda oldb
        else .xchWalk x topa topb g olda oldb true x.pa 0)) := by
  apply hF.runs_climb (W := .xchWalk x topa topb g olda oldb second)
    (H := .xchHop x topa topb g olda oldb second) (B := exchangeEnds x topa topb .retry) _
    (fun _ _ => ⟨⟨rfl, rfl⟩, rfl⟩) hsrc hne hflags hr hlen
  intro cur hops
  refine ⟨⟨rfl, rfl⟩, ?_⟩
  simp only [stepPc]
  cases reparentHop d (d.hostOf (if second then topb else topa)) cur hops <;> rfl

theorem IndexOk.unflagged (hI : IndexOk d) {h h' v : ℕ} {dir p : List Name} {name : Name}
    (hf : FlagsOnly d (insert h (insert h' ∅))) (hh' : d.resolve (dir ++ [name]) = some h')
    (hp : p <+: dir) (hv : d.resolve p = some v) (hne : v ≠ h) : (d.dentry v).moving = false := by
  refine hf v (hI.resolve_lt hv) ?_
  simp only [Set.mem_insert_iff, Set.mem_empty_iff_false, or_false, not_or]
  refine ⟨hne, ?_⟩
  rintro rfl
  rw [hI.rooted.resolve_inj hv hh'] at hp
  exact not_append_prefix_self _ _ hp

theorem XchgHolds.runs_walks (hX : XchgHolds d x adir bdir topa topb) (hF : Fit d) (g : Reads)
    (olda oldb : ℕ) (hf : FlagsOnly d (insert (d.hostOf topa) (insert (d.hostOf topb) ∅)))
    (ha : adir.length ≤ loopMax) (hb : bdir.length ≤ loopMax) :
    (adir ++ [x.na] <+: bdir ∨ bdir ++ [x.nb] <+: adir →
      Runs d (.xchWalk x topa topb g olda oldb false x.pb 0) [] d
        (exchangeEnds x topa topb (.fail .EINVAL))) ∧
    (¬ (adir ++ [x.na] <+: bdir ∨ bdir ++ [x.nb] <+: adir) →
      Runs d (.xchWalk x topa topb g olda oldb false x.pb 0) [] d
        (.xchCommit x topa topb g olda oldb)) := by
  have hI := hF.index
  have hwalkA := hF.runs_xchWalk x topa topb g olda oldb false hX.a.resolve (by simp)
    (fun p v hp hv hne => hI.unflagged hf hX.b.resolve hp hv hne) hX.b.dir hb
  have hwalkB := hF.runs_xchWalk x topa topb g olda oldb true hX.b.resolve (by simp)
    (fun p v hp hv hne => hI.unflagged (Set.insert_comm _ _ _ ▸ hf) hX.a.resolve hp hv hne)
    hX.a.dir ha
  by_cases hloopA : adir ++ [x.na] <+: bdir
  · exact ⟨fun _ => hwalkA.1 hloopA, fun hno => absurd (.inl hloopA) hno⟩
  · have hsecond := hwalkA.2 hloopA
    exact ⟨fun hl => hsecond.andThen (hwalkB.1 (hl.resolve_left hloopA)),
      fun hno => hsecond.andThen (hwalkB.2 fun hl => hno (.inr hl))⟩

theorem XchgHolds.exchanged (hX : XchgHolds d x adir bdir topa topb) (hF : Fit d)
    (hf : FlagsOnly d S) (hset : ∀ T, d.linked T → (d.dentry T).shell = false)
    (hloop : ¬ (adir ++ [x.na] <+: bdir ∨ bdir ++ [x.nb] <+: adir)) :
    Moved d 2 S (none, d.names.swap (adir ++ [x.na]) (bdir ++ [x.nb]))
      (.xchQueueA d.fresh (d.fresh + 1)) [d.fresh, d.fresh + 1]
      (d.exchangeCommit .mark x topa topb) := by
  have hI := hF.index
  rw [not_or] at hloop
  have hE : Effect .mark (Apt d) d none none (d.exchangeCommit .mark x topa topb) :=
    .exchange x topa topb hX.tops
  have hEd : Edited d _ (d.exchangeCommit .mark x topa topb) := hI.exchange_edited hX.tops
  obtain ⟨hsa, hsb⟩ := hI.exchangeCommit_shells .mark hX.tops
  obtain ⟨hha, hhb, hab⟩ := hX.tops.hosts hI
  refine ⟨hF.effect hE, hI.names_exchange hX.tops hX.a.dir hX.b.dir (hX.paths_ne hI) hloop.1
    hloop.2, fun a ha hS => ?_, fun a ha => hEd.kind.hostOf (hI.lt ha),
    fun e => .queue rfl rfl (.queue rfl rfl (.refl e _)), by simp, fun T hT hs => ?_,
    by simp [hsa, hsb, newShell]⟩
  · rw [exchangeCommit_fresh] at ha
    rcases Nat.lt_or_ge a d.fresh with hlt | hge
    · have h₁ : a ≠ d.fresh := Nat.ne_of_lt hlt
      have h₂ : a ≠ d.fresh + 1 := by omega
      have hkeep := hf a hlt hS
      rw [exchangeCommit_dentry_eq .mark x hha hhb hab]
      split_ifs <;> exact hkeep
    · obtain rfl | rfl : a = d.fresh ∨ a = d.fresh + 1 := by omega
      · rw [hsa]
        rfl
      · rw [hsb]
        rfl
  · rcases (hEd.linked_iff hI).mp hT with ⟨hl, -⟩ | hi
    · rw [(hEd.kind T (hI.lt hl)).1, hset T hl] at hs
      cases hs
    · simpa [Edit.inn, or_comm] using hi

open Classical in
noncomputable def exchangeSpec (N : PathMap Name) (a b : List Name) :
    Option Errno × PathMap Name :=
  if a <+: b.dropLast ∨ b <+: a.dropLast then (some .EINVAL, N) else (none, N.swap a b)

theorem XchgHolds.exchange (hX : XchgHolds d x adir bdir topa topb) (hF : Fit d)
    (hf : FlagsOnly d S) (hset : ∀ T, d.linked T → (d.dentry T).shell = false)
    (hflags : x.cross = true →
      FlagsOnly d (insert (d.hostOf topa) (insert (d.hostOf topb) ∅)))
    (ha : adir.length ≤ loopMax) (hb : bdir.length ≤ loopMax) :
    ∃ o qs d', Runs d (.xchGuardA x topa topb) [] d' (exchangeEnds x topa topb o) ∧ Moved d 2 S
      (exchangeSpec d.names (adir ++ [x.na]) (bdir ++ [x.nb])) (afterExchange x o) qs d' := by
  have hI := hF.index
  obtain ⟨g, hholds, hlinks⟩ := hX.runs_links hI
  have hcommit : ∀ olda oldb, (x.cross = true → (d.dentry (d.hostOf topa)).parent = olda ∧
      (d.dentry (d.hostOf topb)).parent = oldb) →
      Runs d (.xchCommit x topa topb g olda oldb) [] (d.exchangeCommit .mark x topa topb)
        (exchangeEnds x topa topb (.done (d.fresh, d.fresh + 1))) := fun olda oldb hold =>
    .single ⟨rfl, rfl⟩ (by simp [stepPc, hholds olda oldb hold])
  unfold exchangeSpec
  rw [dropLast_concat, dropLast_concat]
  cases hc : x.cross with
  | false =>
    -- two names of one directory are not below each other
    have hloop : ¬ (adir ++ [x.na] <+: bdir ∨ bdir ++ [x.nb] <+: adir) := by
      have he : x.pa = x.pb := by
        by_contra hne
        simp [Xchg.cross, hne] at hc
      rw [hI.rooted.resolve_inj hX.a.dir (he ▸ hX.b.dir)]
      exact fun h => h.elim (not_append_prefix_self _ _) (not_append_prefix_self _ _)
    rw [if_neg hloop]
    rw [hc, if_neg (by simp)] at hlinks
    exact ⟨_, _, _, hlinks.andThen (hcommit 0 0 (by simp [hc])), hX.exchanged hF hf hset hloop⟩
  | true =>
    rw [hc, if_pos rfl] at hlinks
    have hra := hI.host_ne_root hX.a.linked
    have hrb := hI.host_ne_root hX.b.linked
    have hold : Runs d (.xchOld x topa topb g) [] d (.xchWalk x topa topb g
        (d.dentry (d.hostOf topa)).parent (d.dentry (d.hostOf topb)).parent false x.pb 0) :=
      .single ⟨rfl, rfl⟩ (by simp [stepPc, hra, hrb])
    have hwalk := hX.runs_walks hF g (d.dentry (d.hostOf topa)).parent
      (d.dentry (d.hostOf topb)).parent (hflags hc) ha hb
    by_cases hloop : adir ++ [x.na] <+: bdir ∨ bdir ++ [x.nb] <+: adir
    · rw [if_pos hloop]
      exact ⟨_, _, d, hlinks.andThen (hold.andThen (hwalk.1 hloop)), .fails hF hf hset _⟩
    · rw [if_neg hloop]
      exact ⟨_, _, _, hlinks.andThen (hold.andThen ((hwalk.2 hloop).andThen
        (hcommit _ _ fun _ => ⟨rfl, rfl⟩))), hX.exchanged hF hf hset hloop⟩

theorem Quiet.runs_gray (hQ : Quiet d) (hX : XchgTops d x topa topb) :
    Runs d (.xchGrayLo x topa topb) []
      ((d.setMoving (d.lo topa topb) true).setMoving (d.hi topa topb) true)
      (.xchGuardA x topa topb) := by
  obtain ⟨hha, hhb, hab⟩ := hX.hosts hQ.index
  have hlo : d.lo topa topb < d.fresh := Nat.lt_of_le_of_lt (Nat.min_le_left _ _) hha
  have hhi : d.hi topa topb < d.fresh := Nat.max_lt.mpr ⟨hha, hhb⟩
  have hne : d.hi topa topb ≠ d.lo topa topb := by
    unfold Cache.hi Cache.lo
    omega
  have hfirst : Runs d (.xchGrayLo x topa topb) [] (d.setMoving (d.lo topa topb) true)
      (.xchGrayHi x topa topb) :=
    .single ⟨rfl, rfl⟩ (by simp [stepPc, hQ.flags _ hlo (Set.notMem_empty _)])
  have hsame : (d.setMoving (d.lo topa topb) true).hi topa topb = d.hi topa topb ∧
      (d.setMoving (d.lo topa topb) true).lo topa topb = d.lo topa topb := by
    simp [Cache.hi, Cache.lo, setMoving_hostOf]
  refine hfirst.andThen (.single ⟨rfl, rfl⟩ ?_)
  simp [stepPc, hsame.1, hsame.2, setMoving_dentry, hne, hQ.flags _ hhi (Set.notMem_empty _)]

theorem runs_xchClear (x : Xchg Name) (o : Outcome (ℕ × ℕ)) (topa topb : ℕ) :
    Runs d (.xchClearA x topa topb o) []
      ((d.setMoving (d.hostOf topa) false).setMoving (d.hostOf topb) false)
      (afterExchange x o) := by
  have ha : Runs d (.xchClearA x topa topb o) [] (d.setMoving (d.hostOf topa) false)
      (.xchClearB x topa topb o) := .single ⟨rfl, rfl⟩ rfl
  exact ha.andThen (.single ⟨rfl, rfl⟩ (by simp [stepPc, setMoving_hostOf]))

theorem Quiet.exchange_tops (hQ : Quiet d) (hX : XchgHolds d x adir bdir topa topb)
    (ha : adir.length ≤ loopMax) (hb : bdir.length ≤ loopMax)
    (hr : exchangeSpec d.names (adir ++ [x.na]) (bdir ++ [x.nb]) = r) :
    ∃ qs d', Served d (.xchFindA x) (.code r.1) r.2 (if r.1 = none then 2 else 0) qs d' := by
  subst hr
  have hF := hQ.toFit
  have hfa : Runs d (.xchFindA x) [] d (.xchFindB x (some topa)) :=
    .single ⟨rfl, rfl⟩ (by simp [stepPc, hX.a.find])
  cases hc : x.cross with
  | false =>
    obtain ⟨o, qs, d', hrun, hM⟩ := hX.exchange hF hQ.flags hQ.settled (by simp [hc]) ha hb
    have hfb : Runs d (.xchFindB x (some topa)) [] d (.xchGuardA x topa topb) :=
      .single ⟨rfl, rfl⟩ (by simp [stepPc, hX.b.find, hc])
    have hends : exchangeEnds x topa topb o = afterExchange x o := by simp [exchangeEnds, hc]
    rw [hends] at hrun
    exact ⟨qs, d', hM.served rfl (hfa.andThen (hfb.andThen hrun))⟩
  | true =>
    have hfb : Runs d (.xchFindB x (some topa)) [] d (.xchGrayLo x topa topb) :=
      .single ⟨rfl, rfl⟩ (by simp [stepPc, hX.b.find, hc])
    have hgray := hQ.runs_gray hX.tops
    generalize hlo : d.lo topa topb = lo at hgray
    generalize hhi : d.hi topa topb = hi at hgray
    have hflags := (hQ.flags.set lo).set hi
    have hset := insert_max_min (d.hostOf topa) (d.hostOf topb)
    rw [show max _ _ = hi from hhi, show min _ _ = lo from hlo] at hset
    rw [hset] at hflags
    have hF₁ := hF.setMoving lo true
    have hhost : ∀ a, ((d.setMoving lo true).setMoving hi true).hostOf a = d.hostOf a :=
      fun a => setMoving_hostOf.trans setMoving_hostOf
    obtain ⟨o, qs, d', hrun, hM⟩ := ((hX.setMoving hF lo true).setMoving hF₁ hi true).exchange
      (hF₁.setMoving hi true) hflags (fun T hT => by
        rw [setMoving_dentry, setMoving_dentry]
        exact hQ.settled T (setMoving_linked.mp (setMoving_linked.mp hT)))
      (fun _ => by rw [hhost, hhost]; exact hflags) ha hb
    rw [hF₁.names_setMoving, hF.names_setMoving] at hM
    have hends : exchangeEnds x topa topb o = .xchClearA x topa topb o := by
      simp [exchangeEnds, hc]
    rw [hends] at hrun
    have hclear := runs_xchClear (d := d') x o topa topb
    have hkeep : ∀ a, d.linked a → d'.hostOf a = d.hostOf a := fun a ha =>
      (hM.host a (setMoving_linked.mpr (setMoving_linked.mpr ha))).trans (hhost a)
    rw [hkeep topa hX.a.linked, hkeep topb hX.b.linked] at hclear
    exact ⟨qs, _, hM.clear.clear.served rfl
      (hfa.andThen (hfb.andThen (hgray.andThen (hrun.andThen hclear))))⟩

theorem IndexOk.exists_xchgHolds (hI : IndexOk d) {ha hb : ℕ} (hda : d.resolve adir = some x.pa)
    (hdb : d.resolve bdir = some x.pb) (hra : d.resolve (adir ++ [x.na]) = some ha)
    (hrb : d.resolve (bdir ++ [x.nb]) = some hb) (hne : adir ++ [x.na] ≠ bdir ++ [x.nb]) :
    ∃ topa topb, XchgHolds d x adir bdir topa topb := by
  obtain ⟨pa, topa, hHa, -⟩ := hI.exists_holds hra
  obtain ⟨pb, topb, hHb, -⟩ := hI.exists_holds hrb
  obtain rfl : pa = x.pa := Option.some.inj (hHa.dir.symm.trans hda)
  obtain rfl : pb = x.pb := Option.some.inj (hHb.dir.symm.trans hdb)
  refine ⟨topa, topb, hHa, hHb, ?_⟩
  rintro rfl
  exact hne (hI.rooted.resolve_inj hHa.resolve hHb.resolve)

theorem Quiet.exchange (hQ : Quiet d) {a b : List Name} (hla : a.length ≤ loopMax)
    (hlb : b.length ≤ loopMax) :
    ∃ qs d', Served d (opStart .mark (.exchange a b))
      (.code (d.names.exchange ⟨false, false⟩ a b).1) (d.names.exchange ⟨false, false⟩ a b).2
      (if (d.names.exchange ⟨false, false⟩ a b).1 = none ∧ a ≠ b then 2 else 0) qs d' := by
  rcases (walker d).exchange hQ.index.rooted ⟨false, false⟩ rfl a b with
    ⟨hrun, hN, hsame⟩ | ⟨x, adir, bdir, hS, rfl, rfl, hspec⟩
  · have hN : (d.names.exchange ⟨false, false⟩ a b).2 = d.names := hN
    rw [hN, if_neg fun h => h.2 (hsame h.1)]
    exact ⟨[], d, .unchanged hQ hrun⟩
  have hspec : d.names.exchange ⟨false, false⟩ (adir ++ [x.na]) (bdir ++ [x.nb]) = _ := hspec
  obtain ⟨⟨ha, hra⟩, hb, hrb⟩ := hS.found
  obtain ⟨topa, topb, hX⟩ := hQ.index.exists_xchgHolds hS.a hS.b ((resolve_dir hS.a _).trans hra)
    ((resolve_dir hS.b _).trans hrb) hS.ne
  rw [length_append, length_singleton] at hla hlb
  obtain ⟨qs, d', hd'⟩ := hQ.exchange_tops hX (by omega) (by omega) rfl
  refine ⟨qs, d', ?_⟩
  rw [exchangeSpec, dropLast_concat, dropLast_concat] at hd'
  simp only [hspec, hS.ne, ne_eq, not_false_eq_true, and_true]
  exact hd'.after hS.run

end Exchange

section Fold

variable {n : ℕ}

structure Folded (d : Cache Name) (n : ℕ) (d' : Cache Name) : Prop where
  fit : Fit d'
  names : d'.names = d.names
  flags : FlagsOnly d' ∅
  fresh : d'.fresh = d.fresh
  kind : SameKind d d'
  shells : ∀ T, d'.linked T → (d'.dentry T).shell = true →
    d.linked T ∧ (d.dentry T).shell = true ∧ T ≠ n

theorem Fit.fold (hF : Fit d) (hf : FlagsOnly d ∅) (hn : n < d.fresh)
    (hs : (d.dentry n).shell = true) :
    ∃ d', Runs d (.fldTest n) [] d' (.ret none) ∧ Folded d n d' := by
  have hI := hF.index
  have hroot : n ≠ root := by
    rintro rfl
    rw [hI.rootHost.2.1] at hs
    cases hs
  cases hm : d.mark n with
  | true =>
    refine ⟨d, .single ⟨rfl, rfl⟩ (by simp [stepPc, hm]), hF, rfl, hf, rfl,
      fun _ _ => ⟨rfl, rfl, rfl⟩, fun T hT hTs => ⟨hT, hTs, ?_⟩⟩
    rintro rfl
    rw [hI.not_mark hT] at hm
    cases hm
  | false =>
    have hl := (hI.live n hn hroot).mp hm
    obtain ⟨hhlt, hhs⟩ := hI.hostOf_host hn
    have hne : n ≠ d.hostOf n := by
      intro he
      rw [← he, hs] at hhs
      cases hhs
    have hno : ¬ d.linked (d.hostOf n) := hI.host_not_linked hl hs
    generalize hh : d.hostOf n = h at hhlt hhs hne hno
    -- the host takes the name while it is in no index
    generalize hd₁ : d.setIname h (d.dentry n).iname = d₁
    have hname : Effect .mark (Apt d) d (some h) none d₁ := by
      have hE : Effect .mark (Apt d) d (some (d.hostOf n)) none
          (d.setIname (d.hostOf n) (d.dentry n).iname) := .name n hn (hh ▸ hno)
      rwa [hh, hd₁] at hE
    have hF₁ := hF.effect hname
    have hother : ∀ a, a ≠ h → d₁.dentry a = d.dentry a := fun a ha => by
      rw [← hd₁, Cache.setIname, modify_of_ne _ _ _ _ ha]
    have hself : d₁.dentry h = { d.dentry h with iname := (d.dentry n).iname } := by
      rw [← hd₁, Cache.setIname, modify_self]
    have hh₁ : d₁.hostOf n = h := by
      rw [hostOf_congr (hother n hne), hh]
    have hl₁ : d₁.linked n := by
      refine (hF₁.index.live n ?_ hroot).mp ?_
      · rw [← hd₁]
        exact hn
      · rw [← hd₁]
        exact hm
    have hs₁ : (d₁.dentry n).shell = true := by rw [hother n hne, hs]
    have htop : (d₁.dentry h).top = some n := by
      have ht := hF₁.index.top n hl₁
      rw [hh₁] at ht
      rw [ht, Cache.dtopVal, if_neg hne]
    have hiname : (d₁.dentry (d₁.hostOf n)).iname = (d₁.dentry n).iname := by
      rw [hh₁, hself, hother n hne]
    have hE : Effect .mark (Apt d₁) d₁ (some (d₁.hostOf n)) (some (d₁.hostOf n))
        (d₁.foldCommit .mark n) := .fold n hl₁ hs₁ hiname (by simp)
    have hEd : Edited d₁ _ (d₁.foldCommit .mark n) :=
      hF₁.index.fold_edited hl₁ hs₁ hiname (by simp)
    have hrun : Runs d (.fldTest n) [] d₁ (.fldCommit n (some (d₁.raw h))) := by
      have h₁ : Runs d (.fldTest n) [] d (.fldName n) :=
        .single ⟨rfl, rfl⟩ (by simp [stepPc, hm])
      have h₂ : Runs d (.fldName n) [] d₁ (.fldTop n) :=
        .single ⟨rfl, rfl⟩ (by simp [stepPc, hh, hd₁])
      have h₃ : Runs d₁ (.fldTop n) [] d₁ (.fldOwn n) :=
        .single ⟨rfl, rfl⟩ (by simp [stepPc, hh₁, htop])
      exact h₁.andThen (h₂.andThen (h₃.andThen (.single ⟨rfl, rfl⟩ (by simp [stepPc, hh₁]))))
    have hcommit : Runs d₁ (.fldCommit n (some (d₁.raw h))) [] (d₁.foldCommit .mark n)
        (.ret none) :=
      .single ⟨rfl, rfl⟩ (by
        simp [stepPc, hF₁.index.not_mark hl₁, Cache.foldHolds, hh₁, htop])
    have hkind₁ : SameKind d d₁ := (hname.indexStep hI).kind
    have hfresh₁ : d₁.fresh = d.fresh := by
      rw [← hd₁]
      rfl
    refine ⟨d₁.foldCommit .mark n, hrun.andThen hcommit, hF₁.effect hE, ?_, fun a ha _ => ?_,
      by rw [foldCommit_fresh, hfresh₁], fun a ha => ?_, fun T hT hTs => ?_⟩
    · rw [hF₁.index.names_fold hl₁ hs₁ hiname (by simp), ← hd₁]
      exact hI.names_modify (by rw [← hd₁] at hF₁; exact hF₁.index) (fun _ => ⟨rfl, rfl⟩)
        (.inl hno) fun _ => ⟨rfl, rfl, rfl⟩
    · rw [foldCommit_fresh, hfresh₁] at ha
      have hkeep := hf a ha (Set.notMem_empty a)
      rcases eq_or_ne a h with rfl | hah
      · rw [← hh₁, foldCommit_host, hh₁, hself]
        exact hkeep
      · rw [foldCommit_of_ne (by rw [hh₁]; exact hah), hother a hah]
        exact hkeep
    · have hk := hEd.kind a (hfresh₁.symm ▸ ha)
      obtain ⟨k₁, k₂, k₃⟩ := hkind₁ a ha
      exact ⟨hk.1.trans k₁, hk.2.1.trans k₂, hk.2.2.trans k₃⟩
    · rcases (hEd.linked_iff hF₁.index).mp hT with ⟨hlT, ho⟩ | hi
      · have hlt := hF₁.index.lt hlT
        have hsT : (d₁.dentry T).shell = true := (hEd.kind T hlt).1.symm.trans hTs
        rw [hfresh₁] at hlt
        have hroot' := (hF₁.index.alloc T hlT).2
        refine ⟨(hI.live T hlt hroot').mp ?_, (hkind₁ T hlt).1.symm.trans hsT, ?_⟩
        · have hmark := hF₁.index.not_mark hlT
          rw [← hd₁] at hmark
          exact hmark
        · rintro rfl
          exact ho (by simp [Edit.out])
      · obtain rfl : T = d₁.hostOf n := by simpa [Edit.inn] using hi
        rw [(hEd.kind _ (hF₁.index.host_lt hl₁)).1,
          (hF₁.index.hostOf_host (hF₁.index.lt hl₁)).2] at hTs
        cases hTs

end Fold

end TrieBenchmark.Txn
