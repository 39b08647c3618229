import TrieBenchmark.Bucketlock.Solo

/-!
Renames and exchanges that run alone.
-/

namespace TrieBenchmark.Bucketlock

open List Hlist Namei Serial

variable {Name : Type} [DecidableEq Name] {d d' : DCache Name} {plan : Plan}

section Climb

variable {W H : ℕ → ℕ → Pc Name} {L B A : Pc Name} {host : ℕ} {src : List Name}

/-- The loop check alone: it climbs from `cur` along the path to `cur` and meets the moved host
iff that path goes through it. -/
theorem runs_climb (hI : HashOk d) (hS : SibOk d)
    (hW : ∀ cur hops, (W cur hops).busy = true ∧ (stepPc d (W cur hops) ((W cur hops).oom plan)) =
      (d, match crossCycleHop d host cur hops with
        | .loop => L
        | .busy => B
        | .arrived => A
        | .climb => H cur (hops + 1)))
    (hH : ∀ cur hops, (H cur hops).busy = true ∧ stepPc d (H cur hops) ((H cur hops).oom plan) =
      (d, W (d.parentOf cur) hops))
    (hsrc : d.resolve src = some host) (hne : src ≠ []) {q : List Name}
    (hflags : ∀ p v, p <+: q → d.resolve p = some v → v ≠ host → (d.dentry v).moving = false)
    {cur hops : ℕ} (hr : d.resolve q = some cur) (hlen : q.length + hops ≤ loopMax) :
    (src <+: q → Runs plan d (W cur hops) d L) ∧ (¬ src <+: q → Runs plan d (W cur hops) d A) := by
  have hroot : host ≠ root := by
    rintro rfl
    exact hne (hI.rooted.resolve_inj hsrc (show d.resolve [] = some root from rfl))
  refine hI.rooted.climb (S := fun x y => Runs plan d x d y) (W := W) Runs.trans hsrc hne
    (fun _ => .single (hW _ _).1 ?_) (fun _ => .single (hW _ _).1 ?_) ?_ hr hlen
  · rw [(hW _ _).2, crossCycleHop, if_neg hroot, if_neg hroot, if_pos rfl]
  · rw [(hW _ _).2, crossCycleHop, if_neg hroot, if_pos rfl]
  intro dir n parent cur i hp hdir hcur hne hi
  obtain ⟨_, top, hHolds, rfl⟩ := hI.exists_holds hcur
  obtain rfl := Option.some.inj (hHolds.dir.symm.trans hdir)
  have hcroot : d.hostOf top ≠ root :=
    hI.host_ne_root hHolds.hashed
  have hclimb : Runs plan d (W (d.hostOf top) i) d (H (d.hostOf top) (i + 1)) := by
    refine .single (hW _ _).1 ?_
    rw [(hW _ _).2, crossCycleHop, if_neg hroot, if_neg hcroot, if_neg hne, hflags _ _ hp hcur hne]
    simp [Nat.not_lt_of_le hi]
  refine hclimb.trans (.single (hH _ _).1 ?_)
  rw [(hH _ _).2, DCache.parentOf, hS.parent top hHolds.hashed, hHolds.iparent]

end Climb

section Flag

variable {h : ℕ} {b : Bool}

omit [DecidableEq Name] in
theorem HashOk.setMoving (hI : HashOk d) (h : ℕ) (b : Bool) : HashOk (d.setMoving h b) :=
  hI.modify h _ fun _ => ⟨rfl, rfl, rfl, rfl, rfl⟩

omit [DecidableEq Name] in
theorem SibOk.setMoving (hS : SibOk d) (h : ℕ) (b : Bool) : SibOk (d.setMoving h b) :=
  hS.modify h _ fun _ => ⟨rfl, rfl, rfl, rfl⟩

theorem HashOk.setMoving_resolve (hI : HashOk d) (path : List Name) :
    (d.setMoving h b).resolve path = d.resolve path := by
  have hb := hI.modify_bindings h (fun e => { e with moving := b }) fun _ =>
    ⟨rfl, rfl, rfl, rfl, rfl⟩
  unfold DCache.resolve
  rw [show (d.setMoving h b).childLookup = d.childLookup from funext fun v => funext (hb v)]

end Flag

structure Moved (plan : Plan) (d : DCache Name) (k : ℕ) (S : Set ℕ) (r : Option Errno × PathMap Name)
    (pc : Pc Name) (d' : DCache Name) : Prop where
  hash : HashOk d'
  names : d'.names = r.2
  flags : FlagsOnly d' S
  host : ∀ a, d.hashed a → d'.hostOf a = d.hostOf a
  ret : ∀ e, Runs plan e pc e (.ret r.1)
  fresh : d'.fresh = d.fresh + if r.1 = none then k else 0

namespace Moved

variable {k h : ℕ} {S : Set ℕ} {r : Option Errno × PathMap Name} {pc pc' : Pc Name}

theorem fails (plan : Plan) (k : ℕ) (hI : HashOk d) (hf : FlagsOnly d S) (e : Errno) :
    Moved plan d k S (some e, d.names) (.ret (some e)) d :=
  ⟨hI, rfl, hf, fun _ _ => rfl, fun e => .refl e _, rfl⟩

theorem served {d₀ : DCache Name} (hM : Moved plan d k ∅ r pc' d') (hfresh : d₀.fresh = d.fresh)
    (hrun : Runs plan d₀ pc d' pc') :
    Served plan d₀ pc (.code r.1) r.2 (if r.1 = none then k else 0) d' :=
  ⟨hrun.trans (hM.ret d'), hM.names, hM.flags, hfresh ▸ hM.fresh⟩

theorem clear (hM : Moved plan d k (insert h S) r pc d') :
    Moved plan d k S r pc (d'.setMoving h false) :=
  ⟨hM.hash.setMoving _ _, (hM.hash.names_setMoving _ _).trans hM.names, hM.flags.clear,
    fun a ha => setMoving_hostOf.trans (hM.host a ha), hM.ret, hM.fresh⟩

end Moved

section Stack

variable {dir dir' : List Name} {m : Move Name} {top : ℕ} {oom : Bool} {name : Name}

theorem Claimed.names_eq {parent self : ℕ} (hC : Claimed d parent name self d')
    (hI : HashOk d) (hdir : d.resolve dir = some parent) :
    d'.names = d.names.prune (dir ++ [name]) := by
  cases hC with
  | free hfree =>
    have hnone := resolve_dir hdir name
    rw [hI.childLookup_eq_none.mpr hfree] at hnone
    apply PathMap.ext
    funext p
    by_cases hp : dir ++ [name] <+: p
    · rw [PathMap.prune_find_below hp, names_eq_none]
      by_contra hne
      obtain ⟨v, hv⟩ := Option.ne_none_iff_exists'.mp hne
      obtain ⟨w, hw⟩ := exists_of_prefix hv hp
      rw [DCache.resolve, hw] at hnone
      cases hnone
    · rw [PathMap.prune_find_of_not hp]
  | dropped hh hp hn => rw [← hn, hI.names_del hh (hp ▸ hdir)]

structure DestOk (d : DCache Name) (m : Move Name) (top : ℕ) : Prop where
  negative : ∀ cur, d.hashed cur → (d.dentry cur).iparent = m.newParent →
    (d.dentry cur).iname = m.newName →
    d.hostOf cur ≠ d.hostOf top ∧ (d.dentry (d.hostOf cur)).neg = true
  settled : ∀ cur, d.hashed cur → (d.dentry cur).iparent = m.newParent →
    (d.dentry cur).iname = m.newName → (d.dentry cur).shell = true →
    (d.dentry (d.hostOf cur)).isdir = true

omit [DecidableEq Name] in
theorem DestOk.setMoving (hD : DestOk d m top) (h : ℕ) (b : Bool) :
    DestOk (d.setMoving h b) m top := by
  constructor
  · intro cur hc
    simpa only [setMoving_dentry, setMoving_hostOf] using hD.negative cur hc
  · intro cur hc
    simpa only [setMoving_dentry, setMoving_hostOf] using hD.settled cur hc

theorem DestOk.stackLocked (hD : DestOk d m top) (hI : HashOk d) (ht : d.hashed top)
    (hpos : (d.dentry m.newParent).neg = false) (oom : Bool) :
    (∃ h, d.childLookup m.newParent m.newName = some h ∧ (d.dentry h).isdir = true) ∧
        d.stackLocked m top oom = (.fail .EEXIST, d) ∨
      (∀ h, d.childLookup m.newParent m.newName = some h → (d.dentry h).isdir = false) ∧
        ∃ d₁, Claimed d m.newParent m.newName top d₁ ∧ d.stackLocked m top oom =
          if oom then (.fail .ENOMEM, d₁) else (.done d₁.fresh, d₁.stackCommit m top) := by
  have hlive := hI.not_marked ht
  unfold DCache.stackLocked
  rw [if_neg (by simp [hlive]), if_neg (by simp [DCache.isPositive, hpos])]
  cases hf : d.findTop m.newParent m.newName with
  | none =>
    have hfree := hI.findTop_eq_none.mp hf
    right
    refine ⟨by simp [DCache.childLookup, hf], d, .free hfree, ?_⟩
    simp [DCache.destClaimLocked, hf]
  | some cur =>
    obtain ⟨hh, hp, hn⟩ := hI.findTop_eq_some.mp hf
    obtain ⟨hne, hneg⟩ := hD.negative cur hh hp hn
    have hlook : d.childLookup m.newParent m.newName = some (d.hostOf cur) := by
      simp [DCache.childLookup, hf]
    by_cases hdir : (d.dentry (d.hostOf cur)).isdir = true
    · left
      refine ⟨⟨_, hlook, hdir⟩, ?_⟩
      have hbad : cur = top ∨ d.hostOf cur ≠ cur ∨ d.isPositive cur ∨ (d.dentry cur).isdir := by
        by_cases hs : d.hostOf cur = cur
        · exact .inr (.inr (.inr (hs ▸ hdir)))
        · exact .inr (.inl hs)
      simp [DCache.destClaimLocked, hf, hbad]
    · right
      have hshell : (d.dentry cur).shell = false := by
        cases hs : (d.dentry cur).shell with
        | false => rfl
        | true => exact absurd (hD.settled cur hh hp hn hs) hdir
      have hhost := DCache.hostOf_of_host hshell
      rw [hhost] at hneg hdir hne
      have hself : cur ≠ top := by
        rintro rfl
        exact hne hhost.symm
      have hgood : ¬ (cur = top ∨ d.hostOf cur ≠ cur ∨ d.isPositive cur ∨ (d.dentry cur).isdir) := by
        simp [hself, hhost, DCache.isPositive, hneg, hdir]
      refine ⟨fun h hh' => ?_, d.delLocked cur, .dropped hh hp hn hself hhost hneg
        (by simpa using hdir), ?_⟩
      · rw [hlook, hhost] at hh'
        obtain rfl := Option.some.inj hh'
        simpa using hdir
      · simp [DCache.destClaimLocked, hf, hgood]

variable {sdir ddir : List Name} {S : Set ℕ} {r : Option Errno × PathMap Name}

open Classical in
noncomputable def stackSpec (N : PathMap Name) (plan : Plan) (src dst : List Name) :
    Option Errno × PathMap Name :=
  if ∃ o, N.find dst = some o ∧ o.isdir = true then (some .EEXIST, N)
  else if plan.commit then (some .ENOMEM, N.prune dst)
  else (none, N.graft src dst)

theorem DestOk.stacked (hD : DestOk d m top) (plan : Plan) (hI : HashOk d)
    (hH : Holds d sdir m.fromName m.fromParent top) (hdd : d.resolve ddir = some m.newParent)
    (hpos : (d.dentry m.newParent).neg = false) (hloop : ¬ sdir ++ [m.fromName] <+: ddir)
    (hf : FlagsOnly d S) :
    ∃ o d', d.stackLocked m top plan.commit = (o, d') ∧ Moved plan d 1 S
      (stackSpec d.names plan (sdir ++ [m.fromName]) (ddir ++ [m.newName])) (afterStack m o) d' := by
  have ht := hH.hashed
  have hne : ¬ (m.fromParent = m.newParent ∧ m.fromName = m.newName) := by
    rintro ⟨hp, hn⟩
    exact (hD.negative top ht (hH.iparent.trans hp) (hH.iname.trans hn)).1 rfl
  have hlook : (∃ o, d.names.find (ddir ++ [m.newName]) = some o ∧ o.isdir = true) ↔
      ∃ h, d.childLookup m.newParent m.newName = some h ∧ (d.dentry h).isdir = true := by
    simp [DCache.names, resolve_dir hdd, DCache.obj]
  unfold stackSpec
  rcases hD.stackLocked hI ht hpos plan.commit with ⟨hex, he⟩ | ⟨hfile, d₁, hC, he⟩
  · rw [if_pos (hlook.mpr hex)]
    exact ⟨_, _, he, .fails plan _ hI hf _⟩
  have hno : ¬ ∃ o, d.names.find (ddir ++ [m.newName]) = some o ∧ o.isdir = true := by
    rw [hlook]
    rintro ⟨h, hh, hd⟩
    simp [hfile h hh] at hd
  rw [if_neg hno]
  have hI₁ := hC.hashOk hI
  obtain ⟨hdent, hfresh, -, hleft⟩ := hC.spec hI
  have hf₁ : FlagsOnly d₁ S := by
    unfold FlagsOnly
    rw [hdent, hfresh]
    exact hf
  by_cases hoom : plan.commit = true
  · rw [if_pos hoom] at he ⊢
    exact ⟨_, _, he, hI₁, hC.names_eq hI hdd, hf₁, fun a _ => by rw [hC.hostOf], fun e => .refl e _,
      hfresh⟩
  · rw [if_neg hoom] at he ⊢
    have hhlt : d₁.hostOf top < d₁.fresh := by
      rw [hC.hostOf, hfresh]
      exact hI.host_lt ht
    have hfree : ∀ a, d₁.hashed a →
        ¬ ((d₁.dentry a).iparent = m.newParent ∧ (d₁.dentry a).iname = m.newName) := by
      intro a ha
      rw [hdent]
      exact ((hleft a).mp ha).2
    refine ⟨_, _, he, hI₁.stack (hC.self_hashed hI ht) (hdent ▸ hH.iparent) (hdent ▸ hH.iname)
      hfree, hI.names_stack ht hH.iparent hH.iname hC hH.dir hdd hne hloop, hf₁.stack hhlt,
      fun a ha => ?_, fun _ => .single rfl rfl, ?_⟩
    · rw [(stackCommit_keeps hhlt (hfresh ▸ hI.lt ha)).2.2.1, hC.hostOf]
    · rw [DCache.stackCommit_fresh, hfresh]
      rfl

theorem runs_stkWalk (plan : Plan) (m : Move Name) (hI : HashOk d) (hS : SibOk d)
    {src q : List Name} {cur : ℕ}
    (hsrc : d.resolve src = some (d.hostOf top)) (hne : src ≠ [])
    (hflags : ∀ v < d.fresh, v ≠ d.hostOf top → (d.dentry v).moving = false)
    (hr : d.resolve q = some cur) (hlen : q.length ≤ loopMax) :
    (src <+: q → Runs plan d (.stkWalk m top cur 0) d (.stkClear m top (.fail .EINVAL))) ∧
      (¬ src <+: q → Runs plan d (.stkWalk m top cur 0) d (.stkLock m top)) := by
  apply runs_climb (W := .stkWalk m top) (H := .stkHop m top) (B := .stkClear m top .retry) hI hS
    _ (fun _ _ => ⟨rfl, rfl⟩) hsrc hne (fun _ v _ hv => hflags v (hI.resolve_lt hv)) hr hlen
  intro cur hops
  refine ⟨rfl, ?_⟩
  simp only [stepPc]
  cases crossCycleHop d (d.hostOf top) cur hops <;> rfl

theorem Quiet.runs_cross (hQ : Quiet d) (plan : Plan) (hc : m.cross = true)
    (hH : Holds d sdir m.fromName m.fromParent top) (hdd : d.resolve ddir = some m.newParent)
    (hlen : ddir.length ≤ loopMax) :
    (sdir ++ [m.fromName] <+: ddir → Runs plan d (.stkFind m) (d.setMoving (d.hostOf top) true)
      (.stkClear m top (.fail .EINVAL))) ∧
    (¬ sdir ++ [m.fromName] <+: ddir →
      Runs plan d (.stkFind m) (d.setMoving (d.hostOf top) true) (.stkLock m top)) := by
  have hlt : d.hostOf top < d.fresh := hQ.hash.host_lt hH.hashed
  have hfind : Runs plan d (.stkFind m) d (.stkGray m top) :=
    .single rfl (by simp [stepPc, hH.find, hc])
  have hgray : Runs plan d (.stkGray m top) (d.setMoving (d.hostOf top) true)
      (.stkWalk m top m.newParent 0) :=
    .single rfl (by simp [stepPc, hQ.flags (d.hostOf top) hlt (Set.notMem_empty _)])
  have hsrc := hH.resolve
  rw [← hQ.hash.setMoving_resolve (h := d.hostOf top) (b := true)] at hsrc hdd
  have hclimb := runs_stkWalk plan m (hQ.hash.setMoving (d.hostOf top) true)
    (hQ.sib.setMoving _ _) (by rw [setMoving_hostOf]; exact hsrc) (by simp)
    (fun v hv hne => hQ.flags.set (d.hostOf top) v hv (by simpa [setMoving_hostOf] using hne))
    hdd hlen
  exact ⟨fun hp => hfind.trans (hgray.trans (hclimb.1 hp)),
    fun hp => hfind.trans (hgray.trans (hclimb.2 hp))⟩

theorem Holds.setMoving {parent : ℕ} (hH : Holds d dir name parent top)
    (hI : HashOk d) (h : ℕ) (b : Bool) : Holds (d.setMoving h b) dir name parent top := by
  have hp : ((d.setMoving h b).dentry top).iparent = parent := by
    rw [setMoving_dentry]
    exact hH.iparent
  have hn : ((d.setMoving h b).dentry top).iname = name := by
    rw [setMoving_dentry]
    exact hH.iname
  refine ⟨(hI.setMoving_resolve _).trans hH.dir, ?_, hH.hashed, hp, hn⟩
  exact (hI.setMoving h b).findTop_eq_some.mpr ⟨hH.hashed, hp, hn⟩

theorem Quiet.stack_loop (hQ : Quiet d) (plan : Plan) (hc : m.cross = true)
    (hH : Holds d sdir m.fromName m.fromParent top) (hdd : d.resolve ddir = some m.newParent)
    (hlen : ddir.length ≤ loopMax) (hloop : sdir ++ [m.fromName] <+: ddir) :
    ∃ d', Served plan d (.stkFind m) (.code (some .EINVAL)) d.names 0 d' := by
  have hM := (Moved.fails plan 0 (hQ.hash.setMoving (d.hostOf top) true)
    (hQ.flags.set _) .EINVAL).clear
  rw [hQ.hash.names_setMoving] at hM
  refine ⟨_, hM.served rfl (((hQ.runs_cross plan hc hH hdd hlen).1 hloop).trans (.single rfl ?_))⟩
  simp [stepPc, setMoving_hostOf, afterStack]

theorem Quiet.stack (hQ : Quiet d) (plan : Plan) (hD : DestOk d m top)
    (hH : Holds d sdir m.fromName m.fromParent top) (hdd : d.resolve ddir = some m.newParent)
    (hpos : (d.dentry m.newParent).neg = false) (hlen : ddir.length ≤ loopMax)
    (hloop : ¬ sdir ++ [m.fromName] <+: ddir)
    (hr : stackSpec d.names plan (sdir ++ [m.fromName]) (ddir ++ [m.newName]) = r) :
    ∃ d', Served plan d (.stkFind m) (.code r.1) r.2 (if r.1 = none then 1 else 0) d' := by
  subst hr
  cases hc : m.cross with
  | false =>
    obtain ⟨o, d', he, hM⟩ := hD.stacked plan hQ.hash hH hdd hpos hloop hQ.flags
    have hfind : Runs plan d (.stkFind m) d (.stkLock m top) :=
      .single rfl (by simp [stepPc, hH.find, hc])
    have hlock : Runs plan d (.stkLock m top) d' (afterStack m o) :=
      .single rfl (by simp [stepPc, Pc.oom, he, hc])
    exact ⟨d', hM.served rfl (hfind.trans hlock)⟩
  | true =>
    have hcheck := (hQ.runs_cross plan hc hH hdd hlen).2 hloop
    obtain ⟨o, d', he, hM⟩ := (hD.setMoving (d.hostOf top) true).stacked plan
      (hQ.hash.setMoving _ _) (hH.setMoving hQ.hash _ _) ((hQ.hash.setMoving_resolve _).trans hdd)
      (by rw [setMoving_dentry]; exact hpos) hloop (hQ.flags.set _)
    have hlock : Runs plan (d.setMoving (d.hostOf top) true) (.stkLock m top) d'
        (.stkClear m top o) := .single rfl (by simp [stepPc, Pc.oom, he, hc])
    have hclear : Runs plan d' (.stkClear m top o) (d'.setMoving (d.hostOf top) false)
        (afterStack m o) := .single rfl (by simp [stepPc, hM.host top hH.hashed, setMoving_hostOf])
    rw [hQ.hash.names_setMoving] at hM
    exact ⟨_, hM.clear.served rfl (hcheck.trans (hlock.trans hclear))⟩

end Stack

section Rename

variable {src dst : List Name}

/-- A shell holds the destination and names a negative file: not what `dest_claim_locked`
replaces, which the fold of that shell turns it into. -/
def DCache.destUnsettled (d : DCache Name) (dst : List Name) : Bool :=
  match dst.getLast?, d.resolve dst.dropLast with
  | some name, some parent =>
    match d.findTop parent name with
    | some cur => (d.dentry cur).shell && (d.dentry (d.hostOf cur)).neg &&
        !(d.dentry (d.hostOf cur)).isdir
    | none => false
  | _, _ => false

theorem HashOk.isdir_of_destUnsettled (hI : HashOk d) {dir : List Name}
    {parent cur : ℕ} (hset : d.destUnsettled (dir ++ [name]) = false)
    (hdir : d.resolve dir = some parent) (hc : d.hashed cur)
    (hp : (d.dentry cur).iparent = parent) (hn : (d.dentry cur).iname = name)
    (hs : (d.dentry cur).shell = true) (hneg : (d.dentry (d.hostOf cur)).neg = true) :
    (d.dentry (d.hostOf cur)).isdir = true := by
  simpa [DCache.destUnsettled, hdir, hI.findTop_eq_some.mpr ⟨hc, hp, hn⟩, hs, hneg] using hset

theorem Quiet.runs_cross_parent (hQ : Quiet d) (plan : Plan) {fp tp h : ℕ} {sn : Name} (dn : Name)
    (hh : d.childLookup fp sn = some h) : Runs plan d (.renToPos fp sn h tp dn) d
      (if (d.obj tp).neg then .ret (some .ENOENT)
        else if plan.entry then .ret (some .ENOMEM) else .stkFind ⟨fp, sn, tp, dn, fp ≠ tp⟩) := by
  obtain ⟨top, hl, hp, -, rfl⟩ := hQ.hash.childLookup_eq_some.mp hh
  have hparent := hQ.sib.parent top hl
  rw [hp] at hparent
  change Runs plan d _ d (if (d.dentry tp).neg then _ else _)
  cases hneg : (d.dentry tp).neg with
  | true => exact .single rfl (by simp [stepPc, DCache.isPositive, hneg])
  | false =>
    have hpos : Runs plan d (.renToPos fp sn (d.hostOf top) tp dn) d
        (.renCross fp sn (d.hostOf top) tp dn) :=
      .single rfl (by simp [stepPc, DCache.isPositive, hneg])
    refine hpos.trans (.single rfl ?_)
    cases hoom : plan.entry <;> simp [stepPc, Pc.oom, hoom, hparent]

theorem Quiet.rename (hQ : Quiet d) (hlen : dst.length ≤ loopMax)
    (hset : d.destUnsettled dst = false) :
    ∃ d', Served plan d (opStart (.rename src dst)) (.code (d.names.rename plan src dst).1)
      (d.names.rename plan src dst).2
      (if (d.names.rename plan src dst).1 = none then 1 else 0) d' := by
  rw [PathMap.rename_elim]
  rcases (walker plan d).rename hQ.hash.rooted
      (fun _ _ _ _ dn => hQ.runs_cross_parent plan dn) src dst with
    ⟨e, he, hrun⟩ | ⟨hnone, m, sdir, ddir, h, hM, rfl, rfl⟩
  · have he : d.names.refused plan.entry src dst = some e := he
    rw [he]
    exact ⟨d, .unchanged hQ hrun⟩
  have hnone : d.names.refused plan.entry (sdir ++ [m.fromName]) (ddir ++ [m.newName]) = none := hnone
  have hdd : d.resolve ddir = some m.newParent := hM.toDir
  obtain ⟨fp, top, hH, rfl⟩ := hQ.hash.exists_holds ((resolve_dir hM.fromDir _).trans hM.moved)
  obtain rfl : fp = m.fromParent := Option.some.inj (hH.dir.symm.trans hM.fromDir)
  have hone : ∀ cur, d.hashed cur → (d.dentry cur).iparent = m.newParent →
      (d.dentry cur).iname = m.newName →
      d.hostOf cur ≠ d.hostOf top ∧ (d.dentry (d.hostOf cur)).neg = true :=
    fun cur hc hp hn => hM.free _ (hQ.hash.childLookup_eq_some.mpr ⟨cur, hc, hp, hn, rfl⟩)
  have hD : DestOk d m top := ⟨hone, fun cur hc hp hn hs =>
    hQ.hash.isdir_of_destUnsettled hset hdd hc hp hn hs (hone cur hc hp hn).2⟩
  rw [length_append, length_singleton] at hlen
  rw [hnone, dropLast_concat]
  by_cases hloop : sdir ++ [m.fromName] <+: ddir
  · have hc : m.cross = true := by
      rw [hM.cross, decide_eq_true_iff]
      intro he
      exact not_append_prefix_self _ _ (hQ.hash.rooted.resolve_inj hH.dir (he ▸ hdd) ▸ hloop)
    obtain ⟨d', hd'⟩ := hQ.stack_loop plan hc hH hdd (by omega) hloop
    refine ⟨d', ?_⟩
    rw [if_pos hloop]
    exact hd'.after hM.run
  · obtain ⟨d', hd'⟩ := hQ.stack plan hD hH hdd hM.positive (by omega) hloop rfl
    refine ⟨d', ?_⟩
    rw [if_neg hloop]
    exact hd'.after hM.run

end Rename

section Exchange

variable {x : Xchg Name} {topa topb : ℕ} {adir bdir : List Name} {S : Set ℕ}

structure XchgHolds (d : DCache Name) (x : Xchg Name) (adir bdir : List Name)
    (topa topb : ℕ) : Prop where
  a : Holds d adir x.na x.pa topa
  b : Holds d bdir x.nb x.pb topb
  ne : topa ≠ topb

def DCache.grayed (d : DCache Name) (topa topb : ℕ) : DCache Name :=
  (d.setMoving (d.lo topa topb) true).setMoving (d.hi topa topb) true

theorem XchgHolds.setMoving (hX : XchgHolds d x adir bdir topa topb) (hI : HashOk d) (h : ℕ)
    (b : Bool) : XchgHolds (d.setMoving h b) x adir bdir topa topb :=
  ⟨hX.a.setMoving hI h b, hX.b.setMoving hI h b, hX.ne⟩

theorem XchgHolds.tops (hX : XchgHolds d x adir bdir topa topb) : XchgTops d x topa topb :=
  ⟨hX.a.hashed, hX.b.hashed, hX.ne, hX.a.iparent, hX.a.iname, hX.b.iparent, hX.b.iname⟩

theorem runs_xchWalk (plan : Plan) (x : Xchg Name) (topa topb : ℕ) (second : Bool)
    (hI : HashOk d) (hS : SibOk d) {src q : List Name} {cur : ℕ}
    (hsrc : d.resolve src = some (d.hostOf (if second then topb else topa))) (hne : src ≠ [])
    (hflags : ∀ p v, p <+: q → d.resolve p = some v →
      v ≠ d.hostOf (if second then topb else topa) → (d.dentry v).moving = false)
    (hr : d.resolve q = some cur) (hlen : q.length ≤ loopMax) :
    (src <+: q → Runs plan d (.xchWalk x topa topb second cur 0) d
      (.xchClearA x topa topb (.fail .EINVAL))) ∧
    (¬ src <+: q → Runs plan d (.xchWalk x topa topb second cur 0) d
      (if second then .xchLock x topa topb else .xchWalk x topa topb true x.pa 0)) := by
  apply runs_climb (W := .xchWalk x topa topb second) (H := .xchHop x topa topb second)
    (B := .xchClearA x topa topb .retry) hI hS _ (fun _ _ => ⟨rfl, rfl⟩) hsrc hne hflags hr hlen
  intro cur hops
  refine ⟨rfl, ?_⟩
  simp only [stepPc]
  cases crossCycleHop d (d.hostOf (if second then topb else topa)) cur hops <;> rfl

theorem HashOk.unflagged (hI : HashOk d) {h h' v : ℕ} {dir p : List Name}
    (hf : FlagsOnly d (insert h (insert h' ∅))) (hh' : d.resolve (dir ++ [name]) = some h')
    (hp : p <+: dir) (hv : d.resolve p = some v) (hne : v ≠ h) : (d.dentry v).moving = false := by
  refine hf v (hI.resolve_lt hv) ?_
  simp only [Set.mem_insert_iff, Set.mem_empty_iff_false, or_false, not_or]
  refine ⟨hne, ?_⟩
  rintro rfl
  rw [hI.rooted.resolve_inj hv hh'] at hp
  exact not_append_prefix_self _ _ hp

theorem XchgHolds.runs_walks (hX : XchgHolds d x adir bdir topa topb) (plan : Plan)
    (hI : HashOk d) (hS : SibOk d)
    (hf : FlagsOnly d (insert (d.hostOf topa) (insert (d.hostOf topb) ∅)))
    (ha : adir.length ≤ loopMax) (hb : bdir.length ≤ loopMax) :
    (adir ++ [x.na] <+: bdir ∨ bdir ++ [x.nb] <+: adir →
      Runs plan d (.xchWalk x topa topb false x.pb 0) d
        (.xchClearA x topa topb (.fail .EINVAL))) ∧
    (¬ (adir ++ [x.na] <+: bdir ∨ bdir ++ [x.nb] <+: adir) →
      Runs plan d (.xchWalk x topa topb false x.pb 0) d (.xchLock x topa topb)) := by
  have hwalkA := runs_xchWalk plan x topa topb false hI hS hX.a.resolve (by simp)
    (fun p v hp hv hne => hI.unflagged hf hX.b.resolve hp hv hne) hX.b.dir hb
  have hwalkB := runs_xchWalk plan x topa topb true hI hS hX.b.resolve (by simp)
    (fun p v hp hv hne => hI.unflagged (Set.insert_comm _ _ _ ▸ hf) hX.a.resolve hp hv hne)
    hX.a.dir ha
  by_cases hloopA : adir ++ [x.na] <+: bdir
  · exact ⟨fun _ => hwalkA.1 hloopA, fun hno => absurd (.inl hloopA) hno⟩
  · have hsecond := hwalkA.2 hloopA
    exact ⟨fun hl => hsecond.trans (hwalkB.1 (hl.resolve_left hloopA)),
      fun hno => hsecond.trans (hwalkB.2 fun hl => hno (.inr hl))⟩

theorem Quiet.runs_gray (hQ : Quiet d) (plan : Plan) (hc : x.cross = true)
    (hX : XchgHolds d x adir bdir topa topb) :
    Runs plan d (.xchFindA x) (d.grayed topa topb) (.xchWalk x topa topb false x.pb 0) := by
  obtain ⟨hha, hhb, hab⟩ := hX.tops.hosts hQ.hash
  have hfa : Runs plan d (.xchFindA x) d (.xchFindB x (some topa)) :=
    .single rfl (by simp [stepPc, hX.a.find])
  have hfb : Runs plan d (.xchFindB x (some topa)) d (.xchGrayLo x topa topb) :=
    .single rfl (by simp [stepPc, hX.b.find, hc])
  have hlo : Runs plan d (.xchGrayLo x topa topb) (d.setMoving (d.lo topa topb) true)
      (.xchGrayHi x topa topb) := by
    have hlt : d.lo topa topb < d.fresh := Nat.lt_of_le_of_lt (Nat.min_le_left _ _) hha
    exact .single rfl (by simp [stepPc, hQ.flags _ hlt (Set.notMem_empty _)])
  have hhi : Runs plan (d.setMoving (d.lo topa topb) true) (.xchGrayHi x topa topb)
      (d.grayed topa topb) (.xchWalk x topa topb false x.pb 0) := by
    have hlt : d.hi topa topb < d.fresh := Nat.max_lt.mpr ⟨hha, hhb⟩
    have hne : d.hi topa topb ≠ d.lo topa topb := by
      unfold DCache.hi DCache.lo
      omega
    have hflag := hQ.flags _ hlt (Set.notMem_empty _)
    have hsame : (d.setMoving (d.lo topa topb) true).hi topa topb = d.hi topa topb := by
      simp [DCache.hi, setMoving_hostOf]
    refine .single rfl ?_
    simp [stepPc, hsame, setMoving_dentry, hne, hflag, DCache.grayed]
  exact hfa.trans (hfb.trans (hlo.trans hhi))

structure Grayed (d e : DCache Name) (topa topb : ℕ) : Prop where
  hash : HashOk e
  sib : SibOk e
  host : ∀ a, e.hostOf a = d.hostOf a
  names : e.names = d.names
  fresh : e.fresh = d.fresh
  flags : FlagsOnly e (insert (e.hostOf topa) (insert (e.hostOf topb) ∅))

theorem Quiet.grayed (hQ : Quiet d) (topa topb : ℕ) : Grayed d (d.grayed topa topb) topa topb := by
  have hI := hQ.hash.setMoving (d.lo topa topb) true
  have hhost : ∀ a, (d.grayed topa topb).hostOf a = d.hostOf a := fun a => by
    rw [DCache.grayed, setMoving_hostOf, setMoving_hostOf]
  refine ⟨hI.setMoving _ _, (hQ.sib.setMoving _ _).setMoving _ _, hhost, ?_, rfl, ?_⟩
  · rw [DCache.grayed, hI.names_setMoving, hQ.hash.names_setMoving]
  · have hf := (hQ.flags.set (d.lo topa topb)).set (d.hi topa topb)
    rw [DCache.hi, DCache.lo, insert_max_min] at hf
    rw [hhost, hhost]
    exact hf

theorem runs_xchClear (plan : Plan) (x : Xchg Name) (o : Outcome (ℕ × ℕ)) (topa topb : ℕ) :
    Runs plan d (.xchClearA x topa topb o)
      ((d.setMoving (d.hostOf topa) false).setMoving (d.hostOf topb) false)
      (afterExchange x o) := by
  have ha : Runs plan d (.xchClearA x topa topb o) (d.setMoving (d.hostOf topa) false)
      (.xchClearB x topa topb o) := .single rfl rfl
  exact ha.trans (.single rfl (by simp [stepPc, setMoving_hostOf]))

open Classical in
noncomputable def exchangeSpec (N : PathMap Name) (plan : Plan) (a b : List Name) :
    Option Errno × PathMap Name :=
  if plan.commit then (some .ENOMEM, N) else (none, N.swap a b)

theorem XchgHolds.exchanged (hX : XchgHolds d x adir bdir topa topb) (plan : Plan)
    (hI : HashOk d) (hf : FlagsOnly d S)
    (hloop : ¬ (adir ++ [x.na] <+: bdir ∨ bdir ++ [x.nb] <+: adir)) :
    ∃ o d', d.exchangeLocked x topa topb plan.commit = (o, d') ∧ Moved plan d 2 S
      (exchangeSpec d.names plan (adir ++ [x.na]) (bdir ++ [x.nb])) (afterExchange x o) d' := by
  have hla := hI.not_marked hX.a.hashed
  have hlb := hI.not_marked hX.b.hashed
  obtain ⟨hha, hhb, hab⟩ := hX.tops.hosts hI
  rw [not_or] at hloop
  unfold exchangeSpec
  by_cases hoom : plan.commit = true
  · refine ⟨.fail .ENOMEM, d, by simp [DCache.exchangeLocked, hla, hlb, hoom], ?_⟩
    rw [if_pos hoom]
    exact .fails plan _ hI hf _
  · refine ⟨.done (d.fresh, d.fresh + 1), d.exchangeCommit x topa topb,
      by simp [DCache.exchangeLocked, hla, hlb, hoom], ?_⟩
    rw [if_neg hoom]
    refine ⟨hI.exchange hX.tops, hI.names_exchange hX.tops hX.a.dir hX.b.dir hloop.1 hloop.2,
      hf.exchange hha hhb, fun a ha => (exchangeCommit_keeps hha hhb hab (hI.lt ha)).2.2.1,
      fun e => ?_, ?_⟩
    · have hqueue : Runs plan e (.xchQueueA d.fresh (d.fresh + 1)) e
          (.xchQueueB (d.fresh + 1)) := .single rfl rfl
      exact hqueue.trans (.single rfl rfl)
    · exact DCache.exchangeCommit_fresh ..

theorem Quiet.exchange_loop (hQ : Quiet d) (plan : Plan) (hc : x.cross = true)
    (hX : XchgHolds d x adir bdir topa topb) (ha : adir.length ≤ loopMax)
    (hb : bdir.length ≤ loopMax) (hloop : adir ++ [x.na] <+: bdir ∨ bdir ++ [x.nb] <+: adir) :
    ∃ d', Served plan d (.xchFindA x) (.code (some .EINVAL)) d.names 0 d' := by
  have hG := hQ.grayed topa topb
  have hX' : XchgHolds (d.grayed topa topb) x adir bdir topa topb :=
    (hX.setMoving hQ.hash _ _).setMoving (hQ.hash.setMoving _ _) _ _
  have hwalk := (hX'.runs_walks plan hG.hash hG.sib hG.flags ha hb).1 hloop
  have hM := Moved.fails plan 0 hG.hash hG.flags .EINVAL
  rw [hG.names] at hM
  exact ⟨_, hM.clear.clear.served hG.fresh.symm
    ((hQ.runs_gray plan hc hX).trans (hwalk.trans (runs_xchClear plan x _ topa topb)))⟩

theorem Quiet.exchange_swap (hQ : Quiet d) (plan : Plan)
    (hX : XchgHolds d x adir bdir topa topb) (ha : adir.length ≤ loopMax) (hb : bdir.length ≤ loopMax)
    (hloop : ¬ (adir ++ [x.na] <+: bdir ∨ bdir ++ [x.nb] <+: adir))
    (hr : exchangeSpec d.names plan (adir ++ [x.na]) (bdir ++ [x.nb]) = r) :
    ∃ d', Served plan d (.xchFindA x) (.code r.1) r.2 (if r.1 = none then 2 else 0) d' := by
  subst hr
  cases hc : x.cross with
  | false =>
    obtain ⟨o, d', he, hM⟩ := hX.exchanged plan hQ.hash hQ.flags hloop
    have hfa : Runs plan d (.xchFindA x) d (.xchFindB x (some topa)) :=
      .single rfl (by simp [stepPc, hX.a.find])
    have hfb : Runs plan d (.xchFindB x (some topa)) d (.xchLock x topa topb) :=
      .single rfl (by simp [stepPc, hX.b.find, hc])
    have hlock : Runs plan d (.xchLock x topa topb) d' (afterExchange x o) :=
      .single rfl (by simp [stepPc, Pc.oom, he, hc])
    exact ⟨d', hM.served rfl (hfa.trans (hfb.trans hlock))⟩
  | true =>
    have hG := hQ.grayed topa topb
    have hX' : XchgHolds (d.grayed topa topb) x adir bdir topa topb :=
      (hX.setMoving hQ.hash _ _).setMoving (hQ.hash.setMoving _ _) _ _
    have hwalk := (hX'.runs_walks plan hG.hash hG.sib hG.flags ha hb).2 hloop
    obtain ⟨o, d', he, hM⟩ := hX'.exchanged plan hG.hash hG.flags hloop
    have hlock : Runs plan (d.grayed topa topb) (.xchLock x topa topb) d'
        (.xchClearA x topa topb o) := .single rfl (by simp [stepPc, Pc.oom, he, hc])
    rw [← hM.host topa hX'.a.hashed, ← hM.host topb hX'.b.hashed, hG.names] at hM
    exact ⟨_, hM.clear.clear.served hG.fresh.symm ((hQ.runs_gray plan hc hX).trans
      (hwalk.trans (hlock.trans (runs_xchClear plan x o topa topb))))⟩

theorem HashOk.exists_xchgHolds (hI : HashOk d) {ha hb : ℕ} (hda : d.resolve adir = some x.pa)
    (hdb : d.resolve bdir = some x.pb) (hra : d.resolve (adir ++ [x.na]) = some ha)
    (hrb : d.resolve (bdir ++ [x.nb]) = some hb) (hne : adir ++ [x.na] ≠ bdir ++ [x.nb]) :
    ∃ topa topb, XchgHolds d x adir bdir topa topb := by
  obtain ⟨pa, topa, hHa, -⟩ := hI.exists_holds hra
  obtain ⟨pb, topb, hHb, -⟩ := hI.exists_holds hrb
  obtain rfl : pa = x.pa := Option.some.inj (hHa.dir.symm.trans hda)
  obtain rfl : pb = x.pb := Option.some.inj (hHb.dir.symm.trans hdb)
  refine ⟨topa, topb, hHa, hHb, ?_⟩
  rintro rfl
  exact hne (hI.rooted.resolve_inj hHa.resolve hHb.resolve)

theorem XchgHolds.cross_of_loop (hX : XchgHolds d x adir bdir topa topb) (hI : HashOk d)
    (hloop : adir ++ [x.na] <+: bdir ∨ bdir ++ [x.nb] <+: adir) : x.cross = true := by
  apply decide_eq_true
  intro he
  have hdir : adir = bdir := hI.rooted.resolve_inj hX.a.dir (he ▸ hX.b.dir)
  rw [hdir] at hloop
  exact hloop.elim (not_append_prefix_self _ _) (not_append_prefix_self _ _)

theorem Quiet.exchange (hQ : Quiet d) {a b : List Name} (hla : a.length ≤ loopMax)
    (hlb : b.length ≤ loopMax) :
    ∃ d', Served plan d (opStart (.exchange a b)) (.code (d.names.exchange plan a b).1)
      (d.names.exchange plan a b).2
      (if (d.names.exchange plan a b).1 = none ∧ a ≠ b then 2 else 0) d' := by
  rcases (walker plan d).exchange hQ.hash.rooted plan rfl a b with
    ⟨hrun, hN, hsame⟩ | ⟨x, adir, bdir, hS, rfl, rfl, hspec⟩
  · have hN : (d.names.exchange plan a b).2 = d.names := hN
    rw [hN, if_neg fun h => h.2 (hsame h.1)]
    exact ⟨d, .unchanged hQ hrun⟩
  have hspec : d.names.exchange plan (adir ++ [x.na]) (bdir ++ [x.nb]) = _ := hspec
  obtain ⟨⟨ha, hra⟩, hb, hrb⟩ := hS.found
  obtain ⟨topa, topb, hX⟩ := hQ.hash.exists_xchgHolds hS.a hS.b ((resolve_dir hS.a _).trans hra)
    ((resolve_dir hS.b _).trans hrb) hS.ne
  rw [length_append, length_singleton] at hla hlb
  simp only [hspec, hS.ne, ne_eq, not_false_eq_true, and_true]
  by_cases hloop : adir ++ [x.na] <+: bdir ∨ bdir ++ [x.nb] <+: adir
  · rw [if_pos hloop]
    obtain ⟨d', hd'⟩ := hQ.exchange_loop plan (hX.cross_of_loop hQ.hash hloop) hX
      (by omega) (by omega) hloop
    exact ⟨d', hd'.after hS.run⟩
  · rw [if_neg hloop]
    obtain ⟨d', hd'⟩ := hQ.exchange_swap plan hX (by omega) (by omega) hloop rfl
    exact ⟨d', hd'.after hS.run⟩

end Exchange

end TrieBenchmark.Bucketlock
