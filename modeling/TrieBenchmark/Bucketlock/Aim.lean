import TrieBenchmark.Aim
import TrieBenchmark.Bucketlock.SoloLookup

/-!
What a thread of the bucket-lock engine that runs alone knows at each of its steps, and what the
step does to the map from paths to objects.
-/

namespace TrieBenchmark.Bucketlock

open List Hlist Namei Serial

variable {Name : Type} [DecidableEq Name] {d : DCache Name} {c : Call Name}

def DCache.index (d : DCache Name) : Index Name :=
  ⟨d.findTop, d.hostOf⟩

theorem index_setMoving (d : DCache Name) (a : ℕ) (b : Bool) :
    (d.setMoving a b).index = d.index := by
  have hspells : ∀ p n, (d.setMoving a b).spells p n = d.spells p n := by
    intro p n
    funext e
    simp only [DCache.spells, setMoving_dentry]
  have htop : (d.setMoving a b).findTop = d.findTop := by
    funext p n
    rw [DCache.findTop, hspells]
    rfl
  have hhost : (d.setMoving a b).hostOf = d.hostOf := by
    funext e
    rw [setMoving_hostOf]
  rw [DCache.index, htop, hhost]
  rfl

def Pc.Aims (v : Index Name) (c : Call Name) : Pc Name → Prop
  | .idle | .done _ => True
  | .walk cur rest k => ∃ pre, v.resolve pre = some cur ∧ v.Aims c (pre ++ rest) k
  | .addCheck parent name id isdir positive | .addLock parent name id isdir positive =>
    v.At c (.addTyped · id isdir positive) parent name
  | .instFind parent name id => v.At c (.instantiate · id) parent name
  | .instLock parent name id top => v.At c (.instantiate · id) parent name ∧
      v.top parent name = some top
  | .delFind parent name _ => v.At c .delete parent name
  | .delLock parent name _ top => v.At c .delete parent name ∧ v.top parent name = some top
  | .unlFind parent name => v.At c .unlink parent name
  | .unlKids parent name top | .unlLock parent name top =>
    v.At c .unlink parent name ∧ v.top parent name = some top
  | .renVictim fromParent fromName toDir toName => ∃ sdir, v.resolve sdir = some fromParent ∧
      c = .op (.rename (sdir ++ [fromName]) (toDir ++ [toName]))
  | .renDest fromParent fromName victim toParent toName =>
    v.Renames c fromParent fromName victim toParent toName
  | .renDestPos fromParent fromName victim toParent toName _
  | .renToPos fromParent fromName victim toParent toName
  | .renCross fromParent fromName victim toParent toName =>
    v.Renames c fromParent fromName victim toParent toName ∧
      v.child toParent toName ≠ some victim
  | .stkFind m => ∃ sdir ddir, v.Moves c m sdir ddir
  | .stkGray m top => ∃ sdir ddir, v.Moves c m sdir ddir ∧
      v.top m.fromParent m.fromName = some top
  | .stkWalk m top cur _ => ∃ sdir ddir, v.Moves c m sdir ddir ∧
      v.top m.fromParent m.fromName = some top ∧ v.Climbs (v.host top) ddir cur
  | .stkHop m top cur _ => ∃ sdir ddir, v.Moves c m sdir ddir ∧
      v.top m.fromParent m.fromName = some top ∧ v.Climbs (v.host top) ddir cur ∧
      cur ≠ root ∧ cur ≠ v.host top
  | .stkLock m top => ∃ sdir ddir, v.Moves c m sdir ddir ∧
      v.top m.fromParent m.fromName = some top ∧ ¬ sdir ++ [m.fromName] <+: ddir
  | .stkClear m _ o => Silent c ∧ (o = .retry → ∃ sdir ddir, v.Moves c m sdir ddir)
  | .stkQueue _ => Silent c
  | .xchLookA x => ∃ adir bdir, v.resolve adir = some x.pa ∧ v.resolve bdir = some x.pb ∧
      c = .op (.exchange (adir ++ [x.na]) (bdir ++ [x.nb]))
  | .xchLookB x hosta => ∃ adir bdir, v.resolve adir = some x.pa ∧ v.resolve bdir = some x.pb ∧
      c = .op (.exchange (adir ++ [x.na]) (bdir ++ [x.nb])) ∧ v.child x.pa x.na = hosta
  | .xchFindA x => ∃ adir bdir, v.Swaps c x adir bdir
  | .xchFindB x topa => ∃ adir bdir, v.Swaps c x adir bdir ∧ v.top x.pa x.na = topa
  | .xchGrayLo x topa topb | .xchGrayHi x topa topb => ∃ adir bdir, v.Pairs c x topa topb adir bdir
  | .xchDropLo x _ _ => ∃ adir bdir, v.Swaps c x adir bdir
  | .xchWalk x topa topb second cur _ => ∃ adir bdir, v.Pairs c x topa topb adir bdir ∧
      v.Ascends x topa topb adir bdir second cur
  | .xchHop x topa topb second cur _ => ∃ adir bdir, v.Pairs c x topa topb adir bdir ∧
      v.Ascends x topa topb adir bdir second cur ∧ cur ≠ root ∧
      cur ≠ v.host (if second then topb else topa)
  | .xchLock x topa topb => ∃ adir bdir, v.Pairs c x topa topb adir bdir ∧
      ¬ adir ++ [x.na] <+: bdir ∧ ¬ bdir ++ [x.nb] <+: adir
  | .xchClearA x _ _ o | .xchClearB x _ _ o =>
    Silent c ∧ (o = .retry → ∃ adir bdir, v.Swaps c x adir bdir)
  | .xchQueueA _ _ | .xchQueueB _ => Silent c
  | .evTop a | .evParent a | .evLock a => c = .evict a
  | .fldTest _ | .fldLock _ | .lkHop .. | .lkScan .. | .lkNext .. | .lkConfirm .. | .lkState ..
  | .lkUp .. => Silent c

section Start

variable {v : Index Name}

omit [DecidableEq Name] in
theorem callStart_aims (v : Index Name) (c : Call Name) : (callStart c).Aims v c := by
  cases c with
  | evict => rfl
  | fold => exact fun _ _ _ => rfl
  | op o =>
    simp only [callStart, opStart]
    cases h : o.start with
    | refuse => trivial
    | walk => exact ⟨[], rfl, v.aims_start h⟩
    | lookup =>
      cases o.start_lookup h
      exact fun _ _ _ => rfl

omit [DecidableEq Name] in
theorem arrive_aims {k : Cont Name} {dir : List Name} {cur : ℕ} (hk : v.Aims c dir k)
    (hr : v.resolve dir = some cur) : (arrive cur k).Aims v c := by
  cases k with
  | add | instantiate | delete | unlink | renameFrom => exact ⟨dir, hr, hk⟩
  | renameTo =>
    obtain ⟨sdir, hs, hv, hc⟩ := hk
    exact ⟨sdir, dir, hs, hr, hv, hc⟩
  | exchangeA => exact ⟨[], rfl, dir, hr, hk⟩
  | exchangeB =>
    obtain ⟨adir, ha, hc⟩ := hk
    exact ⟨adir, dir, ha, hr, hc⟩

omit [DecidableEq Name] in
theorem afterStack_aims {m : Move Name} {o : Outcome ℕ} (hc : Silent c)
    (hr : o = .retry → ∃ sdir ddir, v.Moves c m sdir ddir) : (afterStack m o).Aims v c := by
  cases o with
  | retry => exact hr rfl
  | fail => trivial
  | done => exact hc

omit [DecidableEq Name] in
theorem afterExchange_aims {x : Xchg Name} {o : Outcome (ℕ × ℕ)} (hc : Silent c)
    (hr : o = .retry → ∃ adir bdir, v.Swaps c x adir bdir) : (afterExchange x o).Aims v c := by
  cases o with
  | retry => exact hr rfl
  | fail => trivial
  | done => exact hc

end Start

section Knows

variable {pc : Pc Name} {oom : Bool} {m : Move Name} {x : Xchg Name} {top topa topb cur hops : ℕ}
  {sdir ddir adir bdir : List Name}

theorem SibOk.child_parent (hS : SibOk d) (hI : HashOk d) {q h : ℕ} {n : Name}
    (hc : d.index.child q n = some h) : q = (d.dentry h).parent := by
  obtain ⟨a, ha, rfl, -, rfl⟩ := hI.childLookup_eq_some.mp hc
  exact (hS.parent a ha).symm

omit [DecidableEq Name] in
theorem crossCycleHop_passes {host : ℕ} (h : crossCycleHop d host cur hops = .climb) :
    cur ≠ root ∧ cur ≠ host := by
  unfold crossCycleHop at h
  split_ifs at h with h₁ h₂ h₃
  exact ⟨h₂, h₃⟩

theorem stepPc_aims (hI : HashOk d) (hS : SibOk d) (hA : pc.Aims d.index c) :
    (stepPc d pc oom).2.Aims (stepPc d pc oom).1.index c := by
  have hR : Rooted d.index.child root := hI.rooted
  cases pc with try simp only [stepPc]
  | idle | done | addLock | stkQueue | xchQueueB | evLock | fldLock => trivial
  | walk cur rest =>
    obtain ⟨pre, hpre, hk⟩ := hA
    cases rest with
    | nil => exact arrive_aims hk (by rwa [append_nil])
    | cons name =>
      simp only
      cases hc : d.childLookup cur name with
      | none => trivial
      | some =>
        refine ⟨pre ++ [name], ?_, by rwa [append_assoc, singleton_append]⟩
        exact (Index.resolve_dir hpre name).trans hc
  | addCheck =>
    split_ifs
    · trivial
    · trivial
    · trivial
    · exact hA
  | instFind parent name | delFind parent name | unlFind parent name =>
    cases hf : d.findTop parent name with
    | none => trivial
    | some => exact ⟨hA, hf⟩
  | instLock =>
    split_ifs
    · exact hA.1
    · trivial
  | delLock =>
    split_ifs
    · exact hA.1
    · exact hA.1
    · trivial
    · trivial
  | unlKids =>
    split_ifs
    · exact hA
    · trivial
  | unlLock =>
    simp only [DCache.unlinkLocked]
    split_ifs
    · exact hA.1
    · trivial
    · trivial
  | renVictim fromParent fromName =>
    obtain ⟨sdir, hs, hc⟩ := hA
    cases hv : d.childLookup fromParent fromName with
    | none => trivial
    | some => exact ⟨[], rfl, sdir, hs, hv, hc⟩
  | renDest _ _ _ toParent toName =>
    cases hv : d.childLookup toParent toName with
    | none =>
      refine ⟨hA, ?_⟩
      rw [show d.index.child toParent toName = none from hv]
      simp
    | some dest =>
      simp only
      split_ifs with hne
      · trivial
      · refine ⟨hA, ?_⟩
        rw [show d.index.child toParent toName = some dest from hv]
        exact fun he => hne (Option.some.inj he)
  | renDestPos | renToPos | evTop | evParent | fldTest =>
    split_ifs
    · trivial
    · exact hA
  | renCross =>
    obtain ⟨hR', hne⟩ := hA
    obtain ⟨_, _, _, _, hv, _⟩ := id hR'
    split_ifs
    · trivial
    · exact hR'.moves hne (hS.child_parent hI hv)
  | stkFind m =>
    obtain ⟨sdir, ddir, hM⟩ := hA
    cases hf : d.findTop m.fromParent m.fromName with
    | none => trivial
    | some =>
      cases hc : m.cross with
      | true => exact ⟨sdir, ddir, hM, hf⟩
      | false => exact ⟨sdir, ddir, hM, hf, hM.not_below hR hc⟩
  | stkGray =>
    obtain ⟨sdir, ddir, hM, ht⟩ := hA
    split_ifs
    · exact ⟨sdir, ddir, hM⟩
    · rw [index_setMoving]
      exact ⟨sdir, ddir, hM, ht, .start hM.dst⟩
  | stkWalk _ top cur hops =>
    obtain ⟨sdir, ddir, hM, ht, hC⟩ := hA
    cases hh : crossCycleHop d (d.hostOf top) cur hops with
    | loop => exact ⟨hM.silent, by simp⟩
    | busy => exact ⟨hM.silent, fun _ => ⟨sdir, ddir, hM⟩⟩
    | arrived =>
      obtain rfl := crossCycleHop_arrived hh
      exact ⟨sdir, ddir, hM, ht, hC.not_below hR (Index.resolve_top hM.src ht)⟩
    | climb =>
      obtain ⟨hroot, hne⟩ := crossCycleHop_passes hh
      exact ⟨sdir, ddir, hM, ht, hC, hroot, hne⟩
  | stkHop =>
    obtain ⟨sdir, ddir, hM, ht, hC, hroot, hne⟩ := hA
    exact ⟨sdir, ddir, hM, ht, hC.up hroot hne fun q n hc => hS.child_parent hI hc⟩
  | stkLock m top =>
    obtain ⟨sdir, ddir, hM, -, -⟩ := hA
    have hretry : (d.stackLocked m top oom).1 = .retry →
        ∃ sdir ddir, (d.stackLocked m top oom).2.index.Moves c m sdir ddir := by
      intro hr
      rcases d.stackLocked_cases m top oom with ⟨o, -, he⟩ | ⟨-, -, d₁, -, he | he⟩
      · rw [he]
        exact ⟨sdir, ddir, hM⟩
      · rw [he] at hr
        cases hr
      · rw [he] at hr
        cases hr
    split_ifs
    · exact ⟨hM.silent, hretry⟩
    · exact afterStack_aims hM.silent hretry
  | stkClear =>
    simp only [index_setMoving]
    exact afterStack_aims hA.1 hA.2
  | xchLookA =>
    obtain ⟨adir, bdir, ha, hb, hc⟩ := hA
    exact ⟨adir, bdir, ha, hb, hc, rfl⟩
  | xchLookB x hosta =>
    obtain ⟨adir, bdir, ha, hb, hc, hha⟩ := hA
    split
    · rename_i ha' hb' hhb
      split_ifs with hne
      · trivial
      · trivial
      · refine ⟨adir, bdir, hc, ha, hb, fun he => hne ?_⟩
        rw [hha, show d.index.child x.pb x.nb = some hb' from hhb] at he
        exact Option.some.inj he
    · trivial
  | xchFindA =>
    obtain ⟨adir, bdir, hX⟩ := hA
    exact ⟨adir, bdir, hX, rfl⟩
  | xchFindB x topa =>
    obtain ⟨adir, bdir, hX, hta⟩ := hA
    split
    · rename_i ta tb htb
      cases hc : x.cross with
      | true => exact ⟨adir, bdir, hX, hta, htb⟩
      | false => exact ⟨adir, bdir, ⟨hX, hta, htb⟩, hX.not_below hR hc⟩
    · trivial
  | xchGrayLo =>
    obtain ⟨adir, bdir, hP⟩ := hA
    split_ifs
    · exact ⟨adir, bdir, hP.1⟩
    · rw [index_setMoving]
      exact ⟨adir, bdir, hP⟩
  | xchGrayHi =>
    obtain ⟨adir, bdir, hP⟩ := hA
    split_ifs
    · exact ⟨adir, bdir, hP.1⟩
    · rw [index_setMoving]
      exact ⟨adir, bdir, hP, hP.ascends⟩
  | xchDropLo | xchClearA =>
    simp only [index_setMoving]
    exact hA
  | xchWalk _ topa topb second cur hops =>
    obtain ⟨adir, bdir, hP, hC⟩ := hA
    cases hh : crossCycleHop d (d.hostOf (if second then topb else topa)) cur hops with
    | loop => exact ⟨hP.1.silent, by simp⟩
    | busy => exact ⟨hP.1.silent, fun _ => ⟨adir, bdir, hP.1⟩⟩
    | arrived =>
      obtain rfl := crossCycleHop_arrived hh
      cases second with
      | false => exact ⟨adir, bdir, hP, hC.turn hP hR⟩
      | true => exact ⟨adir, bdir, hP, hC.not_below hP hR⟩
    | climb =>
      obtain ⟨hroot, hne⟩ := crossCycleHop_passes hh
      exact ⟨adir, bdir, hP, hC, hroot, hne⟩
  | xchHop =>
    obtain ⟨adir, bdir, hP, hC, hroot, hne⟩ := hA
    exact ⟨adir, bdir, hP, hC.up hroot hne fun q n hc => hS.child_parent hI hc⟩
  | xchLock x topa topb =>
    obtain ⟨adir, bdir, hP, -⟩ := hA
    have hretry : (d.exchangeLocked x topa topb oom).1 = .retry →
        ∃ adir bdir, (d.exchangeLocked x topa topb oom).2.index.Swaps c x adir bdir := by
      intro hr
      rcases d.exchangeLocked_cases x topa topb oom with ⟨o, -, he⟩ | ⟨-, -, he⟩
      · rw [he]
        exact ⟨adir, bdir, hP.1⟩
      · rw [he] at hr
        cases hr
    split_ifs
    · exact ⟨hP.1.silent, hretry⟩
    · exact afterExchange_aims hP.1.silent hretry
  | xchClearB =>
    simp only [index_setMoving]
    exact afterExchange_aims hA.1 hA.2
  | xchQueueA | lkNext | lkState => exact hA
  | lkHop _ _ rest => cases rest <;> exact hA
  | lkScan _ node =>
    cases node with
    | none => exact hA
    | some =>
      simp only
      split_ifs <;> exact hA
  | lkConfirm =>
    split_ifs <;> exact hA
  | lkUp _ _ todo =>
    cases todo with
    | nil => trivial
    | cons =>
      simp only
      split_ifs <;> exact hA

end Knows

def Pc.DropsLeaf (d : DCache Name) : Pc Name → Prop
  | .stkLock m _ => ∀ h ∈ d.childLookup m.newParent m.newName,
      (d.dentry h).neg = true → d.childrenEmpty h = true
  | _ => True

def Pc.returnsZero : Pc Name → Bool
  | .done (.code none) => true
  | _ => false

section Turns

variable {pc : Pc Name} {oom : Bool} {S : Set ℕ} {a : ℕ} {K : Prop}

theorem stepPc_silent (hb : pc.busy = true) (hr : pc.reads = true) (hA : pc.Aims d.index c)
    (h0 : (stepPc d pc oom).2.returnsZero = true) : Silent c := by
  cases pc
  case stkQueue | xchQueueB | fldTest => exact hA
  case xchLookB =>
    obtain ⟨adir, bdir, -, -, rfl, -⟩ := hA
    exact fun _ _ _ => rfl
  case' walk _ rest k => cases rest <;> cases k
  case' lkHop rest _ _ => cases rest
  case' lkScan _ node => cases node
  case' lkUp todo _ => cases todo
  all_goals first
    | (cases hb; done)
    | (cases hr; done)
    | (simp only [stepPc] at h0; (repeat' split at h0) <;> cases h0)

omit [DecidableEq Name] in
theorem setNegative_eq (d : DCache Name) (host : ℕ) (negative : Bool) (id : ℕ) :
    (∃ e, d.setNegative host negative id = (some e, d)) ∨
      d.setNegative host negative id =
        (none, d.flip host negative (if negative then (d.dentry host).id else id)) := by
  unfold DCache.setNegative
  by_cases h : (d.dentry host).neg = negative
  · exact .inl ⟨_, if_pos h⟩
  · exact .inr (by rw [if_neg h]; rfl)

omit [DecidableEq Name] in
theorem returnsZero_stack (m : Move Name) (top : ℕ) (o : Outcome ℕ) :
    (afterStack m o).returnsZero = false ∧
      (if m.cross then .stkClear m top o else afterStack m o : Pc Name).returnsZero = false := by
  cases o <;> cases m.cross <;> exact ⟨rfl, rfl⟩

omit [DecidableEq Name] in
theorem returnsZero_exchange (x : Xchg Name) (topa topb : ℕ) (o : Outcome (ℕ × ℕ)) :
    (afterExchange x o).returnsZero = false ∧ (if x.cross then .xchClearA x topa topb o else
      afterExchange x o : Pc Name).returnsZero = false := by
  cases o <;> cases x.cross <;> exact ⟨rfl, rfl⟩

theorem Claimed.dest {dir : List Name} {parent self : ℕ} {name : Name} {d₁ : DCache Name}
    (hC : Claimed d parent name self d₁) (hI : HashOk d) (hS : SibOk d)
    (hdir : d.resolve dir = some parent) :
    (∀ o, d.names.find (dir ++ [name]) = some o → o.neg = true) ∧
      ((∀ h ∈ d.childLookup parent name, (d.dentry h).neg = true → d.childrenEmpty h = true) →
        ¬ d.names.HasChild (dir ++ [name])) := by
  refine pathMap_dest d.obj hdir (fun h hh => ?_) fun h hr =>
    (hS.childrenEmpty_names hI hr).mp
  cases hC with
  | free hfree =>
    rw [hI.childLookup_eq_none.mpr hfree] at hh
    cases hh
  | @dropped cur hc hp hn _ hhost hneg =>
    have hcur := hI.childLookup_eq_some.mpr ⟨cur, hc, hp, hn, hhost⟩
    obtain rfl : cur = h := Option.some.inj (hcur.symm.trans hh)
    exact hneg

theorem HashOk.turn_evict (hI : HashOk d) (hS : SibOk d) (hh : d.hashed a)
    (hs : (d.dentry a).shell = false) (hk : d.childrenEmpty a = true) :
    Turn K d.fresh d.names (.evict a) true (d.delLocked a).names := by
  have hhost : d.hostOf a = a := DCache.hostOf_of_host hs
  by_cases hr : ∃ path, d.resolve path = some a
  · obtain ⟨path, hr⟩ := hr
    rcases eq_nil_or_concat' path with rfl | ⟨dir, name, rfl⟩
    · exact absurd (Option.some.inj hr).symm (hI.alloc a hh).2
    · obtain ⟨parent, top, hH, he⟩ := hI.exists_holds hr
      obtain rfl : top = a := hI.hostOf_inj hH.hashed hh (he.trans hhost.symm)
      have hnames := hI.names_del hh (by rw [hH.iparent]; exact hH.dir)
      rw [hnames, hH.iname]
      exact Turn.evict (o := d.obj top) (names_eq_some.mpr ⟨top, hr, rfl⟩)
        ((hS.childrenEmpty_names hI hr).mp hk)
  · have hlost : ∀ p o, d.names.find p = some o → o.host ≠ a := by
      intro p o ho he
      obtain ⟨h, hp, rfl⟩ := names_eq_some.mp ho
      exact hr ⟨p, hp.trans (congrArg some he)⟩
    have hsame : (d.delLocked a).names = d.names := by
      apply PathMap.ext
      funext p
      show ((d.delLocked a).resolve p).map d.obj = (d.resolve p).map d.obj
      rw [DCache.resolve, DCache.resolve, resolve_congr fun q n v _ hq => ?_]
      -- only the name of the dentry is dropped, and its directory is not reached
      refine (hI.del_edit hh).childLookup_keep hI (hI.del hh) (fun _ _ _ => ⟨rfl, rfl, rfl⟩)
        (fun b hb hk' => ?_) (by simp)
      obtain rfl := mem_singleton.mp hb
      apply hr
      refine ⟨q ++ [n], ?_⟩
      rw [resolve_dir hq, ← hk'.1, ← hk'.2, hI.childLookup_of_hashed hh, hhost]
    rw [hsame]
    exact .lost hlost

theorem turn_setMoving (hI : HashOk d) (b : Bool) :
    Turn K d.fresh d.names c false (d.setMoving a b).names := by
  rw [hI.names_setMoving]
  exact .still nofun

theorem stepPc_turn (hI : HashOk d) (hS : SibOk d) (hs : Sited d) (hP : PcOk d S pc)
    (hb : pc.busy = true) (hA : pc.Aims d.index c) :
    Turn (pc.DropsLeaf d) d.fresh d.names c (stepPc d pc oom).2.returnsZero
      (stepPc d pc oom).1.names := by
  by_cases hr : pc.reads = true
  · rw [stepPc_reads hr]
    exact .still fun h0 => stepPc_silent hb hr hA h0
  cases pc with
  | addLock parent name id isdir positive =>
    obtain ⟨dir, hdir, rfl⟩ := hA
    rcases d.addLocked_cases parent name id isdir positive with ⟨e, he⟩ | ⟨-, -, hn, he⟩
    · simp only [stepPc, he]
      exact .quiet
    · simp only [stepPc, he]
      rw [hI.names_add hs hdir (hI.childLookup_eq_none.mp hn)]
      exact .add (by simp) (names_eq_none.mpr ((resolve_dir hdir name).trans hn))
  | instLock _ name id top =>
    obtain ⟨⟨dir, hdir, rfl⟩, ht⟩ := hA
    have hres : d.resolve (dir ++ [name]) = some (d.hostOf top) := Index.resolve_top hdir ht
    simp only [stepPc]
    split_ifs with hm
    · exact .quiet
    · rcases setNegative_eq d (d.hostOf top) false id with ⟨e, he⟩ | he
      · rw [he]
        exact .quiet
      · rw [he, hI.names_flip hres]
        exact .instantiate (by simp) (names_eq_some.mpr ⟨_, hres, rfl⟩)
  | delLock _ name _ top =>
    obtain ⟨⟨dir, hdir, rfl⟩, ht⟩ := hA
    have hres : d.resolve (dir ++ [name]) = some (d.hostOf top) := Index.resolve_top hdir ht
    simp only [stepPc]
    split_ifs with hm
    · exact .quiet
    · exact .quiet
    · exact .quiet
    · rcases setNegative_eq d (d.hostOf top) true 0 with ⟨e, he⟩ | he
      · rw [he]
        exact .quiet
      · rw [he, hI.names_flip hres]
        exact .delete (names_eq_some.mpr ⟨_, hres, rfl⟩)
  | unlLock _ name top =>
    obtain ⟨⟨dir, hdir, rfl⟩, ht⟩ := hA
    have hres : d.resolve (dir ++ [name]) = some (d.hostOf top) := Index.resolve_top hdir ht
    obtain ⟨hh, hp, hn⟩ := hI.findTop_eq_some.mp ht
    simp only [stepPc, DCache.unlinkLocked]
    split_ifs with hm hk
    · exact .quiet
    · exact .quiet
    · rw [hI.names_del hh (by rw [hp]; exact hdir), hn]
      refine .unlink (names_eq_some.mpr ⟨_, hres, rfl⟩) ?_
      exact (hS.childrenEmpty_names hI hres).mp (by simpa using hk)
  | stkGray | xchGrayLo | xchGrayHi =>
    simp only [stepPc]
    split_ifs
    · exact .quiet
    · exact turn_setMoving hI true
  | stkLock m top =>
    obtain ⟨sdir, ddir, hM, ht, hloop⟩ := hA
    obtain ⟨hh, hp, hn⟩ := hI.findTop_eq_some.mp ht
    simp only [stepPc, (returnsZero_stack m top _).2]
    rcases d.stackLocked_cases m top oom with ⟨o, -, he⟩ | ⟨-, -, d₁, hc, he⟩
    · rw [he]
      exact .quiet
    · have hC := DCache.destClaimLocked_claimed hI hc
      obtain ⟨hneg, hleaf⟩ := hC.dest hI hS hM.dst
      rw [hM.call]
      rcases he with he | he
      · rw [he, hC.names_eq hI hM.dst]
        exact .drop hneg hleaf
      · rw [he, hI.names_stack hh hp hn hC hM.src hM.dst (hM.names_ne hI.rooted) hloop]
        refine .rename (by simp) ?_ (Index.not_prefix_concat hM.ne hloop) hneg hleaf
        rw [names_eq_some.mpr ⟨_, Index.resolve_top hM.src ht, rfl⟩]
        rfl
  | stkClear m top o =>
    simp only [stepPc, (returnsZero_stack m top o).1]
    exact turn_setMoving hI false
  | xchDropLo | xchClearA => exact turn_setMoving hI false
  | xchLock x topa topb =>
    obtain ⟨adir, bdir, hP, hab, hba⟩ := hA
    have hX := hP.1
    obtain ⟨hha, hpa, hna⟩ := hI.findTop_eq_some.mp hP.2.1
    obtain ⟨hhb, hpb, hnb⟩ := hI.findTop_eq_some.mp hP.2.2
    simp only [stepPc, (returnsZero_exchange x topa topb _).2]
    rcases d.exchangeLocked_cases x topa topb oom with ⟨o, -, he⟩ | ⟨-, -, he⟩
    · rw [he]
      exact .quiet
    · rw [he, hX.call, hI.names_exchange ⟨hha, hhb, hP.ne, hpa, hna, hpb, hnb⟩ hX.a hX.b hab hba]
      exact .exchange (by simp) (by simp) (Index.not_prefix_concat hX.paths_ne hab)
        (Index.not_prefix_concat hX.paths_ne.symm hba)
  | xchClearB x topa topb o =>
    simp only [stepPc, (returnsZero_exchange x topa topb o).1]
    exact turn_setMoving hI false
  | evLock a =>
    obtain ⟨hlt, hshell, hroot⟩ := hP
    obtain rfl := hA
    simp only [stepPc, DCache.evictLocked]
    split_ifs with he
    · exact .quiet
    · obtain ⟨⟨hm, hk⟩, ht⟩ : (d.topUnhashed a = false ∧ d.childrenEmpty a = true) ∧
          (d.dentry a).top = none := by simpa using he
      refine hI.turn_evict hS ?_ hshell hk
      rcases hI.marked a hlt hroot (.inr ht) with hh | hm'
      · exact hh
      · rw [hm] at hm'
        cases hm'
  | fldLock =>
    simp only [stepPc]
    rw [hI.names_foldLocked hP]
    exact .still fun _ => hA
  | _ => exact absurd rfl hr

end Turns

end TrieBenchmark.Bucketlock
