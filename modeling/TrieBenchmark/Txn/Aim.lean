import TrieBenchmark.Aim
import TrieBenchmark.Txn.SoloLookup

/-!
What a thread of the lock-free engine that runs alone knows at each of its steps, and what the
step does to the map from paths to objects.
-/

namespace TrieBenchmark.Txn

open Option Edits Namei Serial

variable {Name : Type} [DecidableEq Name] {d : Cache Name} {c : Call Name} {arm : Arm}

def Cache.index (d : Cache Name) : Index Name :=
  ⟨d.findTop, d.hostOf⟩

theorem index_modify (d : Cache Name) (a : ℕ) {f : Dentry Name → Dentry Name}
    (hf : ∀ e, (f e).iparent = e.iparent ∧ (f e).iname = e.iname ∧ (f e).shell = e.shell ∧
      (f e).host = e.host) : (d.modify a f).index = d.index := by
  have hkeep : ∀ b, ((d.modify a f).dentry b).iparent = (d.dentry b).iparent ∧
      ((d.modify a f).dentry b).iname = (d.dentry b).iname ∧
      (d.modify a f).hostOf b = d.hostOf b := by
    intro b
    rw [Cache.hostOf, Cache.hostOf]
    rcases eq_or_ne b a with rfl | hne
    · obtain ⟨h₁, h₂, h₃, h₄⟩ := hf (d.dentry b)
      rw [Cache.modify_self, h₃, h₄]
      exact ⟨h₁, h₂, rfl⟩
    · rw [Cache.modify_of_ne _ _ _ _ hne]
      exact ⟨rfl, rfl, rfl⟩
  have hspells : ∀ p n, (d.modify a f).spells p n = d.spells p n := by
    intro p n
    funext b
    rw [Cache.spells, Cache.spells, (hkeep b).1, (hkeep b).2.1]
  have htop : (d.modify a f).findTop = d.findTop := by
    funext p n
    rw [Cache.findTop, hspells]
    rfl
  rw [Cache.index, htop, show (d.modify a f).hostOf = d.hostOf from funext fun b => (hkeep b).2.2]
  rfl

theorem index_setMoving (d : Cache Name) (a : ℕ) (b : Bool) :
    (d.setMoving a b).index = d.index :=
  index_modify d a fun _ => ⟨rfl, rfl, rfl, rfl⟩

def setOp (negative : Bool) (id : ℕ) (path : List Name) : Op Name :=
  if negative then .delete path else .instantiate path id

def Sets (v : Index Name) (c : Call Name) (host : ℕ) (negative : Bool) (id : ℕ) : Prop :=
  ∃ path, path ≠ [] ∧ v.resolve path = some host ∧ c = .op (setOp negative id path)

def Finds (v : Index Name) (c : Call Name) (m : Move Name) (top : ℕ) (sdir ddir : List Name) :
    Prop :=
  v.Moves c m sdir ddir ∧ v.top m.fromParent m.fromName = some top

def Dest (d : Cache Name) (m : Move Name) (neg : Option ℕ) : Prop :=
  d.findTop m.newParent m.newName = neg ∧
    ∀ a, neg = some a → d.hostOf a = a ∧ (d.dentry a).neg = true

def Pc.Aims (d : Cache Name) (c : Call Name) : Pc Name → Prop
  | .idle | .done _ => True
  | .walk cur rest k => ∃ pre, d.index.resolve pre = some cur ∧ d.index.Aims c (pre ++ rest) k
  | .addCheck e | .addState e | .addHead e _ | .addScan e _ _ =>
    d.index.At c (.addTyped · e.id e.isdir e.positive) e.parent e.name
  | .addCommit e _ _ => d.index.At c (.addTyped · e.id e.isdir e.positive) e.parent e.name ∧
      d.childLookup e.parent e.name = none
  | .setFind parent name negative id => d.index.At c (setOp negative id) parent name
  | .setRead host negative id => Sets d.index c host negative id
  | .setKids host negative id _ | .setId host negative id _ =>
    Sets d.index c host negative id ∧ (d.dentry host).neg ≠ negative
  | .setCommit host negative id _ => Sets d.index c host negative id ∧
      (negative = false → (d.dentry host).id = id)
  | .unlFind parent name => d.index.At c .unlink parent name
  | .unlKids parent name top => d.index.At c .unlink parent name ∧
      d.index.top parent name = some top
  | .unlCommit parent name top => d.index.At c .unlink parent name ∧
      d.index.top parent name = some top ∧ d.childrenEmpty (d.hostOf top) = true
  | .renVictim fromParent fromName toDir toName => ∃ sdir,
      d.index.resolve sdir = some fromParent ∧
      c = .op (.rename (sdir ++ [fromName]) (toDir ++ [toName]))
  | .renDest fromParent fromName victim toParent toName =>
    d.index.Renames c fromParent fromName victim toParent toName
  | .renDestPos fromParent fromName victim toParent toName _
  | .renCross fromParent fromName victim toParent toName =>
    d.index.Renames c fromParent fromName victim toParent toName ∧
      d.index.child toParent toName ≠ some victim
  | .stkState m | .stkFind m => ∃ sdir ddir, d.index.Moves c m sdir ddir
  | .stkGray m top | .stkGuard m top => ∃ sdir ddir, Finds d.index c m top sdir ddir
  | .stkHead m top g | .stkScan m top g =>
    ∃ sdir ddir, Finds d.index c m top sdir ddir ∧ g.neg = none
  | .stkJudge m top _ cur => ∃ sdir ddir, Finds d.index c m top sdir ddir ∧
      d.findTop m.newParent m.newName = some cur
  | .stkNeg m top _ cur => ∃ sdir ddir, Finds d.index c m top sdir ddir ∧ Dest d m (some cur)
  | .stkSib m top g | .stkOld m top g =>
    ∃ sdir ddir, Finds d.index c m top sdir ddir ∧ Dest d m g.neg
  | .stkWalk m top g _ cur _ => ∃ sdir ddir, Finds d.index c m top sdir ddir ∧ Dest d m g.neg ∧
      d.index.Climbs (d.hostOf top) ddir cur
  | .stkHop m top g _ cur _ => ∃ sdir ddir, Finds d.index c m top sdir ddir ∧ Dest d m g.neg ∧
      d.index.Climbs (d.hostOf top) ddir cur ∧ cur ≠ root ∧ cur ≠ d.hostOf top
  | .stkCommit m top g _ => ∃ sdir ddir, Finds d.index c m top sdir ddir ∧ Dest d m g.neg ∧
      ¬ sdir ++ [m.fromName] <+: ddir
  | .stkClear m _ o => Silent c ∧ (o = .retry → ∃ sdir ddir, d.index.Moves c m sdir ddir)
  | .stkQueue _ => Silent c
  | .xchLookA x => ∃ adir bdir, d.index.resolve adir = some x.pa ∧
      d.index.resolve bdir = some x.pb ∧ c = .op (.exchange (adir ++ [x.na]) (bdir ++ [x.nb]))
  | .xchLookB x hosta => ∃ adir bdir, d.index.resolve adir = some x.pa ∧
      d.index.resolve bdir = some x.pb ∧
      c = .op (.exchange (adir ++ [x.na]) (bdir ++ [x.nb])) ∧ d.index.child x.pa x.na = hosta
  | .xchFindA x => ∃ adir bdir, d.index.Swaps c x adir bdir
  | .xchFindB x topa => ∃ adir bdir, d.index.Swaps c x adir bdir ∧ d.index.top x.pa x.na = topa
  | .xchGrayLo x topa topb | .xchGrayHi x topa topb =>
    ∃ adir bdir, d.index.Pairs c x topa topb adir bdir
  | .xchDropLo x _ _ => ∃ adir bdir, d.index.Swaps c x adir bdir
  | .xchGuardA x topa topb | .xchGuardB x topa topb _ | .xchLinks x topa topb _
  | .xchOld x topa topb _ => ∃ adir bdir, d.index.Pairs c x topa topb adir bdir
  | .xchWalk x topa topb _ _ _ second cur _ => ∃ adir bdir,
      d.index.Pairs c x topa topb adir bdir ∧ d.index.Ascends x topa topb adir bdir second cur
  | .xchHop x topa topb _ _ _ second cur _ => ∃ adir bdir,
      d.index.Pairs c x topa topb adir bdir ∧ d.index.Ascends x topa topb adir bdir second cur ∧
      cur ≠ root ∧ cur ≠ d.index.host (if second then topb else topa)
  | .xchCommit x topa topb _ _ _ => ∃ adir bdir, d.index.Pairs c x topa topb adir bdir ∧
      ¬ adir ++ [x.na] <+: bdir ∧ ¬ bdir ++ [x.nb] <+: adir
  | .xchClearA x _ _ o | .xchClearB x _ _ o =>
    Silent c ∧ (o = .retry → ∃ adir bdir, d.index.Swaps c x adir bdir)
  | .xchQueueA _ _ | .xchQueueB _ => Silent c
  | .evTop a | .evParent a | .evKids a | .evCommit a => c = .evict a
  | .fldTest _ | .fldSwap _ _ | .fldName _ | .fldTop _ | .fldOwn _ | .fldCommit _ _ | .lkGen _
  | .lkHop .. | .lkScan .. | .lkName .. | .lkNext .. | .lkStamp .. | .lkConfirm .. | .lkState ..
  | .lkUp .. | .lkGenEnd .. => Silent c

section Start

variable {v : Index Name}

theorem lkStart_aims (arm : Arm) (path : List Name) (hc : Silent c) :
    (Pc.lkStart arm path).Aims d c := by
  cases arm <;> exact hc

theorem callStart_aims (arm : Arm) (d : Cache Name) (c : Call Name) : (callStart arm c).Aims d c := by
  cases c with
  | evict => rfl
  | fold => exact fun _ _ _ => rfl
  | op o =>
    simp only [callStart, opStart]
    cases h : o.start with
    | refuse => trivial
    | walk => exact ⟨[], rfl, d.index.aims_start h⟩
    | lookup path =>
      cases o.start_lookup h
      exact lkStart_aims arm path fun _ _ _ => rfl

theorem arrive_aims {k : Cont Name} {dir : List Name} {cur : ℕ} (hk : d.index.Aims c dir k)
    (hr : d.index.resolve dir = some cur) : (arrive cur k).Aims d c := by
  cases k with
  | add | instantiate | delete | unlink | renameFrom => exact ⟨dir, hr, hk⟩
  | renameTo =>
    obtain ⟨sdir, hs, hv, hc⟩ := hk
    exact ⟨sdir, dir, hs, hr, hv, hc⟩
  | exchangeA => exact ⟨[], rfl, dir, hr, hk⟩
  | exchangeB =>
    obtain ⟨adir, ha, hc⟩ := hk
    exact ⟨adir, dir, ha, hr, hc⟩

variable {m : Move Name} {x : Xchg Name} {top topa topb : ℕ}

theorem afterStack_aims {o : Outcome ℕ} (hc : Silent c)
    (hr : o = .retry → ∃ sdir ddir, d.index.Moves c m sdir ddir) : (afterStack m o).Aims d c := by
  cases o with
  | retry => exact hr rfl
  | fail => trivial
  | done => exact hc

theorem stackEnds_aims {o : Outcome ℕ} (hc : Silent c)
    (hr : o = .retry → ∃ sdir ddir, d.index.Moves c m sdir ddir) :
    (stackEnds m top o).Aims d c := by
  unfold stackEnds
  split_ifs
  · exact ⟨hc, hr⟩
  · exact afterStack_aims hc hr

theorem afterExchange_aims {o : Outcome (ℕ × ℕ)} (hc : Silent c)
    (hr : o = .retry → ∃ adir bdir, d.index.Swaps c x adir bdir) :
    (afterExchange x o).Aims d c := by
  cases o with
  | retry => exact hr rfl
  | fail => trivial
  | done => exact hc

theorem exchangeEnds_aims {o : Outcome (ℕ × ℕ)} (hc : Silent c)
    (hr : o = .retry → ∃ adir bdir, d.index.Swaps c x adir bdir) :
    (exchangeEnds x topa topb o).Aims d c := by
  unfold exchangeEnds
  split_ifs
  · exact ⟨hc, hr⟩
  · exact afterExchange_aims hc hr

end Start

section Knows

variable {pc : Pc Name} {ans : Answer} {m : Move Name} {x : Xchg Name}
  {top topa topb cur hops : ℕ} {sdir ddir adir bdir : List Name}

theorem ParentsAgree.child_parent (hA : ParentsAgree d) (hI : IndexOk d) {q h : ℕ} {n : Name}
    (hc : d.index.child q n = some h) : q = (d.dentry h).parent := by
  obtain ⟨a, ha, rfl, -, rfl⟩ := (childLookup_eq_some hI).mp hc
  exact (hA a ha).symm

omit [DecidableEq Name] in
theorem reparentHop_passes {host : ℕ} (h : reparentHop d host cur hops = .climb) :
    cur ≠ root ∧ cur ≠ host := by
  unfold reparentHop at h
  split_ifs at h with h₁ h₂
  exact ⟨h₁, h₂⟩

theorem Finds.ends (hF : Finds d.index c m top sdir ddir) (o : Outcome ℕ) :
    (stackEnds m top o).Aims d c :=
  stackEnds_aims hF.1.silent fun _ => ⟨sdir, ddir, hF.1⟩

theorem Pairs.ends (hP : d.index.Pairs c x topa topb adir bdir) (o : Outcome (ℕ × ℕ)) :
    (exchangeEnds x topa topb o).Aims d c :=
  exchangeEnds_aims hP.1.silent fun _ => ⟨adir, bdir, hP.1⟩

theorem stepPc_aims (hI : IndexOk d) (hpar : ParentsAgree d) (hA : pc.Aims d c) :
    (stepPc arm d pc ans).2.Aims (stepPc arm d pc ans).1 c := by
  have hR : Rooted d.index.child root := hI.rooted
  cases pc with try simp only [stepPc]
  | idle | done | stkQueue | xchQueueB => trivial
  | walk cur rest =>
    obtain ⟨pre, hpre, hk⟩ := hA
    cases rest with
    | nil => exact arrive_aims hk (by rwa [List.append_nil])
    | cons name =>
      simp only
      cases hc : d.childLookup cur name with
      | none => trivial
      | some =>
        refine ⟨pre ++ [name], ?_, by rwa [List.append_assoc, List.singleton_append]⟩
        exact (Index.resolve_dir hpre name).trans hc
  | addCheck =>
    split_ifs
    · trivial
    · trivial
    · trivial
    · exact hA
  | addState | renDestPos | stkState | evTop | evParent | evKids =>
    split_ifs
    · trivial
    · exact hA
  | addHead | xchGuardA | xchGuardB | xchQueueA | fldName | lkGen | lkNext | lkStamp | lkState =>
    exact hA
  | addScan =>
    split_ifs with hdup
    · trivial
    · exact ⟨hA, by simpa using hdup⟩
  | addCommit =>
    split_ifs
    · trivial
    · trivial
    · exact hA.1
    · trivial
  | setFind parent name =>
    obtain ⟨dir, hdir, hc⟩ := hA
    cases hf : d.findTop parent name with
    | none => trivial
    | some =>
      simp only
      split_ifs
      · trivial
      · exact ⟨dir ++ [name], by simp, Index.resolve_top hdir hf, hc⟩
  | setRead host negative id =>
    split
    · trivial
    · rename_i hneg
      split_ifs <;> exact ⟨hA, hneg⟩
  | setKids =>
    split_ifs
    · exact hA
    · trivial
  | setId host negative id =>
    obtain ⟨hS, -⟩ := hA
    cases negative with
    | true => exact ⟨hS, by simp⟩
    | false =>
      have he : (d.modify host fun e => { e with id := id }).index = d.index :=
        index_modify d host fun _ => ⟨rfl, rfl, rfl, rfl⟩
      refine ⟨?_, fun _ => by simp⟩
      simp only [Bool.false_eq_true, if_false, he]
      exact hS
  | setCommit | unlCommit =>
    split_ifs
    · trivial
    · exact hA.1
    · trivial
  | unlFind parent name =>
    cases hf : d.findTop parent name with
    | none => trivial
    | some => exact ⟨hA, hf⟩
  | unlKids =>
    split_ifs with hk
    · exact ⟨hA.1, hA.2, hk⟩
    · trivial
  | renVictim fromParent fromName =>
    obtain ⟨sdir, hs, hc⟩ := hA
    cases hv : d.childLookup fromParent fromName with
    | none => trivial
    | some => exact ⟨[], rfl, sdir, hs, hv, hc⟩
  | renDest _ _ _ toParent toName =>
    cases hv : d.childLookup toParent toName with
    | none =>
      refine ⟨hA, ?_⟩
      rw [show d.index.child toParent toName = none from hv]
      simp
    | some dest =>
      simp only
      split_ifs with hne
      · trivial
      · refine ⟨hA, ?_⟩
        rw [show d.index.child toParent toName = some dest from hv]
        exact fun he => hne (some.inj he)
  | renCross =>
    obtain ⟨hR', hne⟩ := hA
    obtain ⟨_, _, _, _, hv, _⟩ := id hR'
    split_ifs
    · trivial
    · exact hR'.moves hne (hpar.child_parent hI hv)
  | stkFind m =>
    obtain ⟨sdir, ddir, hM⟩ := hA
    cases hf : d.findTop m.fromParent m.fromName with
    | none => trivial
    | some =>
      cases m.cross with
      | true | false => exact ⟨sdir, ddir, hM, hf⟩
  | stkGray =>
    obtain ⟨sdir, ddir, hF⟩ := hA
    split_ifs
    · exact ⟨sdir, ddir, hF.1⟩
    · refine ⟨sdir, ddir, ?_⟩
      rw [index_setMoving]
      exact hF
  | stkGuard =>
    obtain ⟨sdir, ddir, hF⟩ := hA
    split_ifs
    · exact hF.ends _
    · exact ⟨sdir, ddir, hF, rfl⟩
  | stkHead =>
    obtain ⟨sdir, ddir, hF, hg⟩ := hA
    split_ifs
    · exact hF.ends _
    · exact ⟨sdir, ddir, hF, hg⟩
  | stkScan m =>
    obtain ⟨sdir, ddir, hF, hg⟩ := hA
    cases hf : d.findTop m.newParent m.newName with
    | none => exact ⟨sdir, ddir, hF, hf.trans hg.symm, fun a ha => by rw [hg] at ha; cases ha⟩
    | some =>
      simp only
      split_ifs
      · exact hF.ends _
      · exact ⟨sdir, ddir, hF, hf⟩
  | stkJudge =>
    obtain ⟨sdir, ddir, hF, hf⟩ := hA
    split_ifs with hj
    · simp only [Bool.and_eq_true, decide_eq_true_eq] at hj
      refine ⟨sdir, ddir, hF, hf, fun a ha => ?_⟩
      obtain rfl := some.inj ha
      exact ⟨hj.1.1, hj.1.2⟩
    · exact hF.ends _
  | stkNeg =>
    obtain ⟨sdir, ddir, hF, hD⟩ := hA
    split_ifs
    · exact hF.ends _
    · exact ⟨sdir, ddir, hF, hD⟩
  | stkSib =>
    obtain ⟨sdir, ddir, hF, hD⟩ := hA
    split_ifs with _ _ hc
    · exact hF.ends _
    · exact hF.ends _
    · exact ⟨sdir, ddir, hF, hD⟩
    · exact ⟨sdir, ddir, hF, hD, hF.1.not_below hR (by simpa using hc)⟩
  | stkOld =>
    obtain ⟨sdir, ddir, hF, hD⟩ := hA
    exact ⟨sdir, ddir, hF, hD, .start hF.1.dst⟩
  | stkWalk _ top _ _ cur hops =>
    obtain ⟨sdir, ddir, hF, hD, hC⟩ := hA
    cases hh : reparentHop d (d.hostOf top) cur hops with
    | loop | busy => exact hF.ends _
    | arrived =>
      obtain rfl := reparentHop_arrived hh
      exact ⟨sdir, ddir, hF, hD, hC.not_below hR (Index.resolve_top hF.1.src hF.2)⟩
    | climb =>
      obtain ⟨hroot, hne⟩ := reparentHop_passes hh
      exact ⟨sdir, ddir, hF, hD, hC, hroot, hne⟩
  | stkHop =>
    obtain ⟨sdir, ddir, hF, hD, hC, hroot, hne⟩ := hA
    exact ⟨sdir, ddir, hF, hD, hC.up hroot hne fun q n hc => hpar.child_parent hI hc⟩
  | stkCommit =>
    obtain ⟨sdir, ddir, hF, -, -⟩ := hA
    split_ifs
    · exact hF.ends _
    · exact hF.ends _
    · exact stackEnds_aims hF.1.silent (by simp)
  | stkClear =>
    refine afterStack_aims hA.1 ?_
    rw [index_setMoving]
    exact hA.2
  | xchLookA =>
    obtain ⟨adir, bdir, ha, hb, hc⟩ := hA
    exact ⟨adir, bdir, ha, hb, hc, rfl⟩
  | xchLookB x hosta =>
    obtain ⟨adir, bdir, ha, hb, hc, hha⟩ := hA
    split
    · rename_i ha' hb' hhb
      split_ifs with hne
      · trivial
      · trivial
      · refine ⟨adir, bdir, hc, ha, hb, fun he => hne ?_⟩
        rw [hha, show d.index.child x.pb x.nb = some hb' from hhb] at he
        exact some.inj he
    · trivial
  | xchFindA =>
    obtain ⟨adir, bdir, hX⟩ := hA
    exact ⟨adir, bdir, hX, rfl⟩
  | xchFindB x topa =>
    obtain ⟨adir, bdir, hX, hta⟩ := hA
    split
    · rename_i ta tb htb
      cases x.cross with
      | true | false => exact ⟨adir, bdir, hX, hta, htb⟩
    · trivial
  | xchGrayLo =>
    obtain ⟨adir, bdir, hP⟩ := hA
    split_ifs
    · exact ⟨adir, bdir, hP.1⟩
    · refine ⟨adir, bdir, ?_⟩
      rw [index_setMoving]
      exact hP
  | xchGrayHi =>
    obtain ⟨adir, bdir, hP⟩ := hA
    split_ifs
    · exact ⟨adir, bdir, hP⟩
    · exact ⟨adir, bdir, hP.1⟩
    · refine ⟨adir, bdir, ?_⟩
      rw [index_setMoving]
      exact hP
  | xchDropLo =>
    obtain ⟨adir, bdir, hX⟩ := hA
    refine ⟨adir, bdir, ?_⟩
    simp only [index_setMoving]
    exact hX
  | xchLinks =>
    obtain ⟨adir, bdir, hP⟩ := hA
    split_ifs with _ hc
    · exact Pairs.ends hP _
    · exact ⟨adir, bdir, hP⟩
    · exact ⟨adir, bdir, hP, hP.1.not_below hR (by simpa using hc)⟩
  | xchOld =>
    obtain ⟨adir, bdir, hP⟩ := hA
    split_ifs
    · exact Pairs.ends hP _
    · exact ⟨adir, bdir, hP, hP.ascends⟩
  | xchWalk _ topa topb _ _ _ second cur hops =>
    obtain ⟨adir, bdir, hP, hC⟩ := hA
    cases hh : reparentHop d (d.hostOf (if second then topb else topa)) cur hops with
    | loop | busy => exact Pairs.ends hP _
    | arrived =>
      obtain rfl := reparentHop_arrived hh
      cases second with
      | false => exact ⟨adir, bdir, hP, hC.turn hP hR⟩
      | true => exact ⟨adir, bdir, hP, hC.not_below hP hR⟩
    | climb =>
      obtain ⟨hroot, hne⟩ := reparentHop_passes hh
      exact ⟨adir, bdir, hP, hC, hroot, hne⟩
  | xchHop =>
    obtain ⟨adir, bdir, hP, hC, hroot, hne⟩ := hA
    exact ⟨adir, bdir, hP, hC.up hroot hne fun q n hc => hpar.child_parent hI hc⟩
  | xchCommit =>
    obtain ⟨adir, bdir, hP, -⟩ := hA
    split_ifs
    · exact Pairs.ends hP _
    · exact Pairs.ends hP _
    · exact exchangeEnds_aims hP.1.silent (by simp)
  | xchClearA =>
    refine ⟨hA.1, ?_⟩
    simp only [index_setMoving]
    exact hA.2
  | xchClearB =>
    refine afterExchange_aims hA.1 ?_
    rw [index_setMoving]
    exact hA.2
  | evCommit | fldCommit =>
    split_ifs
    · trivial
    · exact hA
    · trivial
  | fldTest =>
    split_ifs
    · trivial
    · exact hA
    · exact hA
  | fldTop | fldOwn | fldSwap =>
    split_ifs <;> exact hA
  | lkHop _ _ _ rest =>
    cases rest with
    | nil =>
      simp only
      split_ifs <;> exact hA
    | cons => exact hA
  | lkScan _ node =>
    cases node with
    | none | some =>
      simp only
      split_ifs <;> exact hA
  | lkName =>
    split_ifs
    · cases arm <;> exact hA
    · exact hA
  | lkConfirm =>
    split_ifs
    · exact lkStart_aims arm _ hA
    · exact hA
  | lkUp _ _ todo =>
    cases todo with
    | nil => trivial
    | cons =>
      simp only
      split_ifs
      · exact lkStart_aims arm _ hA
      · exact hA
  | lkGenEnd =>
    split_ifs
    · trivial
    · exact lkStart_aims arm _ hA

end Knows

def Pc.DropsLeaf (d : Cache Name) : Pc Name → Prop
  | .stkCommit m _ _ _ => ∀ h ∈ d.childLookup m.newParent m.newName,
      (d.dentry h).neg = true → d.childrenEmpty h = true
  | _ => True

def Pc.returnsZero : Pc Name → Bool
  | .done (.code none) => true
  | _ => false

section Turns

variable {pc : Pc Name} {ans : Answer} {S : Set ℕ} {a : ℕ} {K : Prop}

omit [DecidableEq Name] in
theorem returnsZero_stack (m : Move Name) (top : ℕ) (o : Outcome ℕ) :
    (afterStack m o).returnsZero = false ∧ (stackEnds m top o).returnsZero = false := by
  unfold stackEnds
  cases o <;> cases m.cross <;> exact ⟨rfl, rfl⟩

omit [DecidableEq Name] in
theorem returnsZero_exchange (x : Xchg Name) (topa topb : ℕ) (o : Outcome (ℕ × ℕ)) :
    (afterExchange x o).returnsZero = false ∧
      (exchangeEnds x topa topb o).returnsZero = false := by
  unfold exchangeEnds
  cases o <;> cases x.cross <;> exact ⟨rfl, rfl⟩

theorem stepPc_silent (hb : pc.busy = true) (hr : pc.reads = true) (hA : pc.Aims d c)
    (h0 : (stepPc arm d pc ans).2.returnsZero = true) : Silent c := by
  cases pc with
  | idle | done => cases hb
  | walk _ rest k =>
    cases rest with
    | nil => cases k <;> cases h0
    | cons =>
      simp only [stepPc] at h0
      split at h0 <;> cases h0
  | stkQueue | xchQueueB | fldTest | lkGen | lkHop | lkScan | lkName | lkConfirm | lkUp
  | lkGenEnd => exact hA
  | xchLookB =>
    obtain ⟨adir, bdir, -, -, rfl, -⟩ := hA
    exact fun _ _ _ => rfl
  | _ =>
    first
    | (cases hr; done)
    | cases h0
    | (simp only [stepPc] at h0
       (repeat' split at h0) <;> first
         | cases h0
         | (rw [(returnsZero_stack _ _ _).2] at h0; cases h0)
         | (rw [(returnsZero_exchange _ _ _ _).2] at h0; cases h0))

section Rename

variable {m : Move Name} {top : ℕ} {neg : Option ℕ} {sdir ddir : List Name}

theorem Dest.claim (hD : Dest d m neg) (hI : IndexOk d) (hF : Finds d.index c m top sdir ddir) :
    Claim d m top neg ∧
      ∀ a, neg = some a → (d.dentry a).iparent = m.newParent ∧ (d.dentry a).iname = m.newName := by
  obtain ⟨hM, ht⟩ := hF
  obtain ⟨hfind, -⟩ := hD
  have hat : ∀ a, neg = some a →
      d.linked a ∧ (d.dentry a).iparent = m.newParent ∧ (d.dentry a).iname = m.newName :=
    fun a ha => hI.findTop_eq_some.mp (hfind.trans ha)
  refine ⟨⟨fun a ha hp hn => ?_, fun a ha => ⟨(hat a ha).1, ?_⟩⟩, fun a ha => (hat a ha).2⟩
  · rw [← hfind]
    exact hI.findTop_eq_some.mpr ⟨ha, hp, hn⟩
  · rintro rfl
    apply hM.ne
    refine hI.rooted.resolve_inj (Index.resolve_top hM.src ht) ?_
    exact Index.resolve_top hM.dst (hfind.trans ha)

theorem Dest.leaf (hD : Dest d m neg) (hI : IndexOk d) (hdir : d.resolve ddir = some m.newParent) :
    (∀ o, d.names.find (ddir ++ [m.newName]) = some o → o.neg = true) ∧
      ((∀ h ∈ d.childLookup m.newParent m.newName, (d.dentry h).neg = true →
        d.childrenEmpty h = true) → ¬ d.names.HasChild (ddir ++ [m.newName])) := by
  obtain ⟨hfind, hneg⟩ := hD
  refine pathMap_dest d.obj hdir (fun h hh => ?_) fun h hr =>
    (hI.childrenEmpty_iff hr).mp
  rw [Cache.childLookup, hfind] at hh
  obtain ⟨a, ha, rfl⟩ := map_eq_some_iff.mp hh
  obtain ⟨hhost, hneg⟩ := hneg a ha
  rw [hhost]
  exact hneg

end Rename

theorem IndexOk.turn_evict (hI : IndexOk d) (hl : d.linked a) (hs : (d.dentry a).shell = false)
    (hk : d.childrenEmpty a = true) :
    Turn K d.fresh d.names (.evict a) true (d.removeCommit a a true).names := by
  have hhost : d.hostOf a = a := Cache.hostOf_of_host hs
  by_cases hr : ∃ path, d.resolve path = some a
  · obtain ⟨path, hr⟩ := hr
    rcases List.eq_nil_or_concat' path with rfl | ⟨dir, name, rfl⟩
    · exact absurd (some.inj hr).symm (hI.alloc a hl).2
    · obtain ⟨parent, top, hH, he⟩ := hI.exists_holds hr
      obtain rfl : top = a := hI.hostOf_inj hH.linked hl (he.trans hhost.symm)
      have hnames := hI.names_remove top true hl (by rw [hH.iparent]; exact hH.dir)
      rw [hnames, hH.iname]
      exact Turn.evict (o := d.obj top) (names_eq_some.mpr ⟨top, hr, rfl⟩)
        ((hI.childrenEmpty_iff hr).mp hk)
  · have hlost : ∀ p o, d.names.find p = some o → o.host ≠ a := by
      intro p o ho he
      obtain ⟨h, hp, rfl⟩ := names_eq_some.mp ho
      exact hr ⟨p, hp.trans (congrArg some he)⟩
    have hE : Edited d _ (d.removeCommit a a true) := hI.remove_edited hl
    have hI' : IndexOk (d.removeCommit a a true) := hI.remove hl
    have hsame : (d.removeCommit a a true).names = d.names := by
      apply PathMap.ext
      funext p
      refine (hI.sameObjs fun b _ => by simp [Cache.obj]).find (resolve_congr fun q n v _ hq => ?_)
      -- only the name of the dentry is dropped, and its directory is not reached
      refine hE.childLookup_keep hI hI' (fun b hb hk' => ?_) (by simp [Edit.inn])
      obtain rfl : b = a := by simpa [Edit.out] using hb
      apply hr
      refine ⟨q ++ [n], ?_⟩
      rw [resolve_dir hq, ← hk'.1, ← hk'.2, childLookup_of_linked hI hl, hhost]
    rw [hsame]
    exact .lost hlost

theorem turn_setMoving (hI : IndexOk d) (b : Bool) :
    Turn K d.fresh d.names c false (d.setMoving a b).names := by
  have hI' : IndexOk (d.setMoving a b) := hI.modify ⟨rfl, rfl, rfl⟩ (.inr ⟨rfl, rfl⟩)
  have hsame : (d.setMoving a b).names = d.names :=
    hI.names_modify hI' (fun _ => ⟨rfl, rfl⟩) (.inr fun _ => ⟨rfl, rfl⟩) fun _ => ⟨rfl, rfl, rfl⟩
  rw [hsame]
  exact .still nofun

theorem stepPc_turn (hI : IndexOk d) (hpar : ParentsOk d) (hP : PcOk arm d S pc)
    (hS : Settled d S) (hfold : ∀ n, pc.folds = some n → ¬ d.linked (d.hostOf n))
    (hb : pc.busy = true) (hA : pc.Aims d c) :
    Turn (pc.DropsLeaf d) d.fresh d.names c (stepPc arm d pc ans).2.returnsZero
      (stepPc arm d pc ans).1.names := by
  by_cases hr : pc.reads = true
  · rw [stepPc_reads hr]
    exact .still fun h0 => stepPc_silent hb hr hA h0
  cases pc with
  | addCommit e =>
    obtain ⟨⟨dir, hdir, rfl⟩, hfree⟩ := hA
    simp only [stepPc]
    split_ifs
    · exact .quiet
    · exact .quiet
    · exact .quiet
    · rw [hI.names_add hpar hdir hfree]
      exact .add (by simp) (names_eq_none.mpr ((resolve_dir hdir e.name).trans hfree))
  | setId host negative id =>
    obtain ⟨⟨path, -, hres, rfl⟩, hneg⟩ := hA
    cases negative with
    | true => exact .quiet
    | false =>
      have hI' : IndexOk (d.modify host fun e => { e with id := id }) :=
        hI.modify ⟨rfl, rfl, rfl⟩ (.inr ⟨rfl, rfl⟩)
      have hnames := hI.names_set hI' hres (fun _ => ⟨rfl, rfl⟩) fun _ => ⟨rfl, rfl⟩
      have hobj : (d.modify host fun e => { e with id := id }).obj host =
          { d.obj host with id := id } := by simp [Cache.obj]
      rw [hobj] at hnames
      simp only [stepPc, Bool.false_eq_true, if_false, hnames]
      exact .ident (names_eq_some.mpr ⟨host, hres, rfl⟩) (by simpa [Cache.obj] using hneg)
  | setCommit host negative =>
    obtain ⟨⟨path, hne, hres, rfl⟩, hid⟩ := hA
    simp only [stepPc]
    split_ifs
    · exact .quiet
    · exact .quiet
    · have hI' : IndexOk (d.flip host negative) := hI.modify ⟨rfl, rfl, rfl⟩ (.inr ⟨rfl, rfl⟩)
      have hnames := hI.names_set hI' hres (fun _ => ⟨rfl, rfl⟩) fun _ => ⟨rfl, rfl⟩
      have hobj : (d.flip host negative).obj host = { d.obj host with neg := negative } := by
        simp [Cache.obj, Cache.flip]
      rw [show d.modify host _ = d.flip host negative from rfl, hobj] at hnames
      rw [hnames]
      cases negative with
      | true => exact .delete (names_eq_some.mpr ⟨host, hres, rfl⟩)
      | false =>
        obtain rfl := hid rfl
        exact .instantiate hne (names_eq_some.mpr ⟨host, hres, rfl⟩)
  | unlCommit _ name top =>
    obtain ⟨⟨dir, hdir, rfl⟩, ht, hk⟩ := hA
    have hres : d.resolve (dir ++ [name]) = some (d.hostOf top) := Index.resolve_top hdir ht
    obtain ⟨hl, hp, hn⟩ := hI.findTop_eq_some.mp ht
    simp only [stepPc]
    split_ifs
    · exact .quiet
    · exact .quiet
    · rw [hI.names_remove _ _ hl (by rw [hp]; exact hdir), hn]
      exact .unlink (names_eq_some.mpr ⟨_, hres, rfl⟩) ((hI.childrenEmpty_iff hres).mp hk)
  | stkGray | xchGrayLo =>
    simp only [stepPc]
    split_ifs
    · exact .quiet
    · exact turn_setMoving hI true
  | stkCommit m top =>
    obtain ⟨sdir, ddir, hF, hD, hloop⟩ := hA
    obtain ⟨hM, ht⟩ := id hF
    obtain ⟨hl, hp, hn⟩ := hI.findTop_eq_some.mp ht
    simp only [stepPc]
    split_ifs
    · rw [(returnsZero_stack m top _).2]
      exact .quiet
    · rw [(returnsZero_stack m top _).2]
      exact .quiet
    · obtain ⟨hC, hat⟩ := hD.claim hI hF
      obtain ⟨hneg, hleaf⟩ := hD.leaf hI hM.dst
      rw [(returnsZero_stack m top _).2, hM.call,
        hI.names_stack hl hp hn hC hat hM.src hM.dst (hM.names_ne hI.rooted) hloop]
      refine .rename (by simp) ?_ (Index.not_prefix_concat hM.ne hloop) hneg hleaf
      rw [names_eq_some.mpr ⟨_, Index.resolve_top hM.src ht, rfl⟩]
      rfl
  | stkClear m top o =>
    simp only [stepPc, (returnsZero_stack m top o).1]
    exact turn_setMoving hI false
  | xchGrayHi =>
    simp only [stepPc]
    split_ifs
    · exact .quiet
    · exact .quiet
    · exact turn_setMoving hI true
  | xchDropLo | xchClearA => exact turn_setMoving hI false
  | xchCommit x topa topb =>
    obtain ⟨adir, bdir, hP, hab, hba⟩ := hA
    have hX := hP.1
    obtain ⟨hla, hpa, hna⟩ := hI.findTop_eq_some.mp hP.2.1
    obtain ⟨hlb, hpb, hnb⟩ := hI.findTop_eq_some.mp hP.2.2
    simp only [stepPc]
    split_ifs
    · rw [(returnsZero_exchange x topa topb _).2]
      exact .quiet
    · rw [(returnsZero_exchange x topa topb _).2]
      exact .quiet
    · rw [(returnsZero_exchange x topa topb _).2, hX.call, hI.names_exchange
        ⟨hla, hlb, hP.ne, ⟨hpa, hna⟩, hpb, hnb⟩ hX.a hX.b hX.paths_ne hab hba]
      exact .exchange (by simp) (by simp) (Index.not_prefix_concat hX.paths_ne hab)
        (Index.not_prefix_concat hX.paths_ne.symm hba)
  | xchClearB x topa topb o =>
    simp only [stepPc, (returnsZero_exchange x topa topb o).1]
    exact turn_setMoving hI false
  | evCommit a =>
    obtain ⟨hlt, hshell, hroot⟩ := hP
    obtain rfl := hA
    simp only [stepPc]
    split_ifs with hm hh
    · exact .quiet
    · exact .quiet
    · have hk : d.childrenEmpty a = true := by
        simp only [Cache.removeHolds, Bool.or_eq_true, not_or, Bool.not_eq_true,
          Bool.not_eq_false', Bool.not_true, Bool.false_or, Bool.and_eq_true] at hh
        exact hh.2.1
      have hmark : d.mark a = false := by
        simp only [Bool.or_eq_true, not_or, Bool.not_eq_true] at hm
        exact hm.2
      exact hI.turn_evict ((hI.live a hlt hroot).mp hmark) hshell hk
  | fldName n =>
    have hI' : IndexOk (d.setIname (d.hostOf n) (d.dentry n).iname) :=
      hI.modify ⟨rfl, rfl, rfl⟩ (.inl (hfold n rfl))
    have hsame : (d.setIname (d.hostOf n) (d.dentry n).iname).names = d.names :=
      hI.names_modify hI' (fun _ => ⟨rfl, rfl⟩) (.inl (hfold n rfl)) fun _ => ⟨rfl, rfl, rfl⟩
    simp only [stepPc, hsame]
    exact .quiet
  | fldSwap n =>
    have hI' : IndexOk (d.setIparent (d.hostOf n) (d.dentry n).iparent) :=
      hI.modify ⟨rfl, rfl, rfl⟩ (.inl (hfold n rfl))
    have hsame : (d.setIparent (d.hostOf n) (d.dentry n).iparent).names = d.names :=
      hI.names_modify hI' (fun _ => ⟨rfl, rfl⟩) (.inl (hfold n rfl)) fun _ => ⟨rfl, rfl, rfl⟩
    simp only [stepPc]
    split_ifs
    · rw [hsame]
      exact .quiet
    · exact .quiet
  | fldCommit n =>
    simp only [stepPc]
    split_ifs with hm
    · exact .still fun _ => hA
    · exact .quiet
    · have hmark : d.mark n = false := by
        simp only [Bool.or_eq_true, not_or, Bool.not_eq_true] at hm
        exact hm.2
      have hl := (hI.live n (hS n hP.mem).1 (hS n hP.mem).2).mp hmark
      rw [hI.names_fold hl hP.shell.2 hP.name hP.parent]
      exact .still fun _ => hA
  | _ => exact absurd rfl hr

end Turns

end TrieBenchmark.Txn
