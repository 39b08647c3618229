import TrieBenchmark.Txn.Index

/-!
Every commit of the lock-free engine keeps the indexes sound.
-/

namespace TrieBenchmark.Txn

open Function Edits

variable {Name : Type} {d d' d₂ : Cache Name} {e : Edit ℕ}

namespace Cache

section Parts

variable (d) (a b : ℕ) (f : Dentry Name → Dentry Name) (arm : Arm)

@[simp] theorem modify_self : (d.modify a f).dentry a = f (d.dentry a) := by
  simp [modify]

theorem modify_of_ne (h : b ≠ a) : (d.modify a f).dentry b = d.dentry b := by
  simp [modify, h]

@[simp] theorem bumpGen_dentry : (d.bumpGen arm a).dentry = d.dentry := rfl

@[simp] theorem bumpGen_bucketOf : (d.bumpGen arm a).bucketOf = d.bucketOf := rfl

@[simp] theorem bumpGen_hash : (d.bumpGen arm a).hash = d.hash := rfl

@[simp] theorem bumpGen_kids : (d.bumpGen arm a).kids = d.kids := rfl

@[simp] theorem bumpGen_mark : (d.bumpGen arm a).mark = d.mark := rfl

@[simp] theorem bumpGen_after : (d.bumpGen arm a).after = d.after := rfl

@[simp] theorem bumpGen_sealed : (d.bumpGen arm a).sealed = d.sealed := rfl

@[simp] theorem bumpGen_fresh : (d.bumpGen arm a).fresh = d.fresh := rfl

end Parts

section Commits

variable (d) (arm : Arm) (m : Move Name) (x : Xchg Name) (top topa topb n a : ℕ) (neg : Option ℕ)
  (parent id : ℕ) (name : Name) (isdir positive : Bool)

@[simp] theorem addCommit_fresh :
    (d.addCommit parent name id isdir positive).fresh = d.fresh + 1 := rfl

@[simp] theorem addCommit_bucketOf :
    (d.addCommit parent name id isdir positive).bucketOf = d.bucketOf := rfl

@[simp] theorem addCommit_sealed :
    (d.addCommit parent name id isdir positive).sealed = d.sealed := rfl

theorem addCommit_new : (d.addCommit parent name id isdir positive).dentry d.fresh =
    ⟨parent, false, !positive, name, none, none, isdir, parent, false, id⟩ := by
  simp [addCommit, alloc, edit]

@[simp] theorem removeCommit_dentry (host : ℕ) (sealIt : Bool) :
    (d.removeCommit top host sealIt).dentry = d.dentry := by
  cases sealIt <;> rfl

@[simp] theorem removeCommit_fresh (host : ℕ) (sealIt : Bool) :
    (d.removeCommit top host sealIt).fresh = d.fresh := by
  cases sealIt <;> rfl

theorem removeCommit_sealed (host : ℕ) (sealIt : Bool) :
    (d.removeCommit top host sealIt).sealed a = (d.sealed a || sealIt && decide (a = host)) := by
  cases sealIt
  · simp [removeCommit, edit]
  · rcases eq_or_ne a host with rfl | hne <;> simp_all [removeCommit, edit, sealHead]

@[simp] theorem stackCommit_fresh : (d.stackCommit arm m top neg).fresh = d.fresh + 1 := by
  unfold stackCommit
  cases m.cross <;> simp [edit, setParent, setTop, modify, alloc]

@[simp] theorem stackCommit_sealed : (d.stackCommit arm m top neg).sealed = d.sealed := by
  unfold stackCommit
  cases m.cross <;> simp [edit, setParent, setTop, modify, alloc]

theorem stackCommit_dentry : (d.stackCommit arm m top neg).dentry =
    update (update d.dentry d.fresh
      (newShell m.newParent m.newName (d.hostOf top))) (d.hostOf top)
      { update d.dentry d.fresh (newShell m.newParent m.newName (d.hostOf top))
          (d.hostOf top) with
        top := some d.fresh
        parent := if m.cross then m.newParent
          else (update d.dentry d.fresh (newShell m.newParent m.newName (d.hostOf top))
            (d.hostOf top)).parent } := by
  unfold stackCommit
  cases m.cross <;> simp [edit, setParent, setTop, modify, alloc]

@[simp] theorem exchangeCommit_fresh :
    (d.exchangeCommit arm x topa topb).fresh = d.fresh + 2 := by
  unfold exchangeCommit
  cases x.cross <;> simp [edit, setParent, setTop, modify, alloc]

@[simp] theorem exchangeCommit_sealed :
    (d.exchangeCommit arm x topa topb).sealed = d.sealed := by
  unfold exchangeCommit
  cases x.cross <;> simp [edit, setParent, setTop, modify, alloc]

@[simp] theorem foldCommit_fresh : (d.foldCommit arm n).fresh = d.fresh := by
  cases arm <;> rfl

@[simp] theorem foldCommit_sealed : (d.foldCommit arm n).sealed = d.sealed := by
  cases arm <;> rfl

theorem foldCommit_host : (d.foldCommit arm n).dentry (d.hostOf n) =
    { d.dentry (d.hostOf n) with
      iparent := if arm = .mark then (d.dentry n).iparent else (d.dentry (d.hostOf n)).iparent
      top := none } := by
  cases arm <;> simp [foldCommit, edit, setTop, setIparent, modify]

variable {d arm m x top topa topb n a neg parent id name isdir positive}

theorem addCommit_old (ha : a < d.fresh) :
    (d.addCommit parent name id isdir positive).dentry a = d.dentry a := by
  simp [addCommit, alloc, edit, Nat.ne_of_lt ha]

theorem stackCommit_old (ha : a < d.fresh) :
    (d.stackCommit arm m top neg).dentry a =
      if a = d.hostOf top then
        { d.dentry a with
          top := some d.fresh
          parent := if m.cross then m.newParent else (d.dentry a).parent }
      else d.dentry a := by
  rw [stackCommit_dentry]
  rcases eq_or_ne a (d.hostOf top) with rfl | he
  · simp [Nat.ne_of_lt ha]
  · simp [he, Nat.ne_of_lt ha]

theorem stackCommit_new (hh : d.hostOf top < d.fresh) : (d.stackCommit arm m top neg).dentry d.fresh =
    newShell m.newParent m.newName (d.hostOf top) := by
  simp [stackCommit_dentry, Nat.ne_of_gt hh]

theorem ne_fresh (ha : a < d.fresh) : a ≠ d.fresh ∧ a ≠ d.fresh + 1 := by
  omega

theorem exchangeCommit_dentry_eq (arm : Arm) (x : Xchg Name)
    (ha : d.hostOf topa < d.fresh) (hb : d.hostOf topb < d.fresh)
    (hab : d.hostOf topa ≠ d.hostOf topb) (c : ℕ) :
    (d.exchangeCommit arm x topa topb).dentry c =
      if c = d.hostOf topa then
        { d.dentry c with
          top := some d.fresh
          parent := if x.cross then x.pb else (d.dentry c).parent }
      else if c = d.hostOf topb then
        { d.dentry c with
          top := some (d.fresh + 1)
          parent := if x.cross then x.pa else (d.dentry c).parent }
      else if c = d.fresh then newShell x.pb x.nb (d.hostOf topa)
      else if c = d.fresh + 1 then newShell x.pa x.na (d.hostOf topb)
      else d.dentry c := by
  obtain ⟨h₁, h₃⟩ := ne_fresh ha
  obtain ⟨h₂, h₄⟩ := ne_fresh hb
  unfold exchangeCommit
  rcases eq_or_ne c (d.hostOf topa) with rfl | c₁
  · cases x.cross <;> simp [edit, setParent, setTop, modify, alloc, hab, h₁, h₃]
  · rcases eq_or_ne c (d.hostOf topb) with rfl | c₂
    · cases x.cross <;> simp [edit, setParent, setTop, modify, alloc, hab.symm, h₂, h₄]
    · rcases eq_or_ne c d.fresh with rfl | c₃
      · cases x.cross <;> simp [edit, setParent, setTop, modify, alloc, c₁, c₂]
      · rcases eq_or_ne c (d.fresh + 1) with rfl | c₄
        · cases x.cross <;> simp [edit, setParent, setTop, modify, alloc, c₁, c₂]
        · cases x.cross <;> simp [edit, setParent, setTop, modify, alloc, c₁, c₂, c₃, c₄]

theorem foldCommit_of_ne (ha : a ≠ d.hostOf n) :
    (d.foldCommit arm n).dentry a = d.dentry a := by
  cases arm <;> simp [foldCommit, edit, setTop, setIparent, modify, ha]

end Commits

structure SameLists (d d₂ : Cache Name) : Prop where
  bucketOf : d₂.bucketOf = d.bucketOf
  hash : d₂.hash = d.hash
  kids : d₂.kids = d.kids
  mark : d₂.mark = d.mark
  after : d₂.after = d.after

theorem SameLists.edited (hL : SameLists d d₂) (hI : IndexOk d) (hfresh : d.fresh ≤ d₂.fresh)
    (hkind : SameKind d d₂)
    (hkey : ∀ a < d.fresh, a ∉ e.inn → (d₂.dentry a).iparent = (d.dentry a).iparent ∧
      (d₂.dentry a).iname = (d.dentry a).iname)
    (hout : ∀ a ∈ e.out, d.linked a) (houtNodup : e.out.Nodup)
    (hinn : ∀ a ∈ e.inn, ¬ d.linked a ∧ a < d₂.fresh ∧ a ≠ root) (hinnNodup : e.inn.Nodup)
    (hplace : ∀ a b, (a, some b) ∈ e.gone → (d₂.dentry b).iparent = (d.dentry a).iparent ∧
      (d₂.dentry b).iname = (d.dentry a).iname)
    (hfree : ∀ b ∈ e.new, ∀ a, d.linked a → e.slot a ≠ none →
      ¬ ((d.dentry a).iparent = (d₂.dentry b).iparent ∧
        (d.dentry a).iname = (d₂.dentry b).iname))
    (hsingle : ∀ b ∈ e.new, ∀ b' ∈ e.new, b = b') : Edited d e (d₂.edit e) := by
  have hnext : ∀ a ∈ e.out, d₂.next a = d.next a := by
    intro a ha
    have hl := hout a ha
    obtain ⟨hp, hn⟩ := hkey a (hI.lt hl) fun hi => (hinn a hi).1 hl
    have hb : d₂.bucket a = d.bucket a := by
      rw [Cache.bucket, Cache.bucket, hL.bucketOf, hp, hn]
    simp only [Cache.next, hb, hL.hash, hL.after]
  refine ⟨hL.bucketOf, fun b => ?_, fun p => ?_, fun a => ?_, fun a => ?_, hfresh, hkind, hkey, hout,
    houtNodup, hinn, hinnNodup, hplace, hfree, hsingle⟩
  · show e.apply _ (d₂.hash b) = e.apply _ (d.hash b)
    rw [hL.hash]
    rfl
  · show e.apply _ (d₂.kids p) = e.apply _ (d.kids p)
    rw [hL.kids]
    rfl
  · show (if a ∈ e.out then true else if a ∈ e.inn then false else d₂.mark a) = _
    rw [hL.mark]
  · show (if a ∈ e.out then d₂.next a else d₂.after a) = _
    split_ifs with ho
    · exact hnext a ho
    · rw [hL.after]

end Cache

open Cache

namespace IndexOk

theorem not_linked_fresh (hI : IndexOk d) {a : ℕ} (ha : d.fresh ≤ a) : ¬ d.linked a :=
  fun h => Nat.not_lt.mpr ha (hI.lt h)

theorem ne_root_of_fresh (hI : IndexOk d) {a : ℕ} (ha : d.fresh ≤ a) : a ≠ root :=
  Nat.ne_of_gt (Nat.lt_of_lt_of_le hI.rootHost.1 ha)

/-! Adding an entry. -/

section Add

variable {parent id : ℕ} {name : Name} {isdir positive : Bool}

theorem add_edited (hI : IndexOk d) (hname : ∀ a, d.linked a →
    ¬ ((d.dentry a).iparent = parent ∧ (d.dentry a).iname = name)) :
    Edited d ⟨[], [d.fresh]⟩ (d.addCommit parent name id isdir positive) := by
  have hold : ∀ a < d.fresh, (d.addCommit parent name id isdir positive).dentry a = d.dentry a :=
    fun a ha => addCommit_old ha
  have hnew := d.addCommit_new parent id name isdir positive
  refine SameLists.edited ⟨rfl, rfl, rfl, rfl, rfl⟩ hI (Nat.le_succ _) (fun a ha => ?_)
    (fun a ha _ => ?_) (by simp [Edit.out]) (by simp [Edit.out]) (fun a ha => ?_)
    (by simp [Edit.inn]) (by simp) (fun b hb a ha _ hk => ?_) (by simp)
  · rw [show (d.alloc _).dentry a = d.dentry a from hold a ha]
    exact ⟨rfl, rfl, rfl⟩
  · rw [show (d.alloc _).dentry a = d.dentry a from hold a ha]
    exact ⟨rfl, rfl⟩
  · obtain rfl : a = d.fresh := by simpa [Edit.inn] using ha
    exact ⟨hI.not_linked_fresh (Nat.le_refl _), Nat.lt_succ_self _,
      hI.ne_root_of_fresh (Nat.le_refl _)⟩
  · obtain rfl : b = d.fresh := by simpa using hb
    rw [show (d.alloc _).dentry d.fresh = _ from hnew] at hk
    exact hname a ha hk

theorem add (hI : IndexOk d) (hname : ∀ a, d.linked a →
    ¬ ((d.dentry a).iparent = parent ∧ (d.dentry a).iname = name)) :
    IndexOk (d.addCommit parent name id isdir positive) := by
  have hE : Edited d _ (d.addCommit parent name id isdir positive) := hI.add_edited hname
  have hold : ∀ a < d.fresh, (d.addCommit parent name id isdir positive).dentry a = d.dentry a :=
    fun a ha => addCommit_old ha
  have hnew := d.addCommit_new parent id name isdir positive
  refine hE.indexOk hI (fun a ha hge => ?_) (fun a ha => ?_) (fun a ha hs n hn => ?_) ?_
  · obtain rfl : a = d.fresh := Nat.le_antisymm (Nat.lt_succ_iff.mp ha) hge
    refine ⟨by simp [Edit.inn], fun hs => ?_⟩
    rw [hnew] at hs
    cases hs
  · rcases (hE.linked_iff hI).mp ha with ⟨hl, -⟩ | hi
    · have hlt := hI.lt hl
      rw [hE.kind.hostOf hlt, hold _ (hI.hostOf_host hlt).1]
      exact hI.top a hl
    · obtain rfl : a = d.fresh := by simpa [Edit.inn] using hi
      rw [hostOf_of_host (by rw [hnew]), hnew]
      simp [dtopVal]
  · rcases Nat.lt_or_ge a d.fresh with hlt | hge
    · rw [hold a hlt] at hs hn
      obtain ⟨hnlt, hns, hnh⟩ := hI.topShell a hlt hs n hn
      rw [hold n hnlt]
      exact ⟨Nat.lt_succ_of_lt hnlt, hns, hnh⟩
    · obtain rfl : a = d.fresh := Nat.le_antisymm (Nat.lt_succ_iff.mp ha) hge
      rw [hnew] at hn
      cases hn
  · rw [hold root hI.rootHost.1]
    exact hI.rootHost.2.2.1

end Add

/-! Removing a named top. -/

section Remove

variable {top host : ℕ} {sealIt : Bool}

theorem remove_edited (hI : IndexOk d) (ht : d.linked top) :
    Edited d ⟨[(top, none)], []⟩ (d.removeCommit top host sealIt) := by
  have hL : SameLists d (if sealIt then d.sealHead host else d) := by
    cases sealIt <;> exact ⟨rfl, rfl, rfl, rfl, rfl⟩
  have hd : (if sealIt then d.sealHead host else d).dentry = d.dentry := by
    cases sealIt <;> rfl
  have hf : (if sealIt then d.sealHead host else d).fresh = d.fresh := by
    cases sealIt <;> rfl
  refine hL.edited hI (Nat.le_of_eq hf.symm) (fun a ha => ?_) (fun a ha _ => ?_) (fun a ha => ?_)
    (by simp [Edit.out]) (by simp [Edit.inn]) (by simp [Edit.inn]) (by simp) (by simp) (by simp)
  · rw [hd]
    exact ⟨rfl, rfl, rfl⟩
  · rw [hd]
    exact ⟨rfl, rfl⟩
  · obtain rfl : a = top := by simpa [Edit.out] using ha
    exact ht

theorem remove (hI : IndexOk d) (ht : d.linked top) :
    IndexOk (d.removeCommit top host sealIt) := by
  have hE : Edited d _ (d.removeCommit top host sealIt) := hI.remove_edited ht
  refine hE.indexOk hI (fun a ha hge => ?_) (fun a ha => ?_) (fun a ha hs n hn => ?_) ?_
  · exact absurd ha (by simpa using hge)
  · rcases (hE.linked_iff hI).mp ha with ⟨hl, -⟩ | hi
    · rw [hE.kind.hostOf (hI.lt hl), removeCommit_dentry]
      exact hI.top a hl
    · simp [Edit.inn] at hi
  · simp only [removeCommit_dentry, removeCommit_fresh] at *
    exact hI.topShell a ha hs n hn
  · rw [removeCommit_dentry]
    exact hI.rootHost.2.2.1

end Remove

end IndexOk

structure Claim (d : Cache Name) (m : Move Name) (top : ℕ) (neg : Option ℕ) : Prop where
  taken : ∀ a, d.linked a → (d.dentry a).iparent = m.newParent →
    (d.dentry a).iname = m.newName → neg = some a
  linked : ∀ a, neg = some a → d.linked a ∧ a ≠ top

namespace IndexOk

/-! Stacking a shell. -/

section Stack

variable {arm : Arm} {m : Move Name} {top : ℕ} {neg : Option ℕ}

theorem stack_edited (hI : IndexOk d) (ht : d.linked top) (hC : Claim d m top neg) :
    Edited d ⟨(top, none) :: neg.toList.map (·, none), [d.fresh]⟩
      (d.stackCommit arm m top neg) := by
  have hlt := hI.host_lt ht
  have hold : ∀ a < d.fresh, ((d.stackCommit arm m top neg).dentry a).iparent =
      (d.dentry a).iparent ∧ ((d.stackCommit arm m top neg).dentry a).iname = (d.dentry a).iname ∧
      ((d.stackCommit arm m top neg).dentry a).shell = (d.dentry a).shell ∧
      ((d.stackCommit arm m top neg).dentry a).host = (d.dentry a).host ∧
      ((d.stackCommit arm m top neg).dentry a).isdir = (d.dentry a).isdir := by
    intro a ha
    rw [stackCommit_old ha]
    split_ifs <;> exact ⟨rfl, rfl, rfl, rfl, rfl⟩
  have hnew : (d.stackCommit arm m top neg).dentry d.fresh = _ := stackCommit_new hlt
  have hfresh : (d.stackCommit arm m top neg).fresh = d.fresh + 1 := d.stackCommit_fresh arm m top neg
  have hout : ∀ a, a ∈ (⟨(top, none) :: neg.toList.map (·, none), [d.fresh]⟩ : Edit ℕ).out ↔
      a = top ∨ neg = some a := by
    intro a
    cases neg <;> simp [Edit.out, eq_comm]
  refine SameLists.edited ?_ hI (hfresh ▸ Nat.le_succ _) (fun a ha => (hold a ha).2.2)
    (fun a ha _ => ⟨(hold a ha).1, (hold a ha).2.1⟩) (fun a ha => ?_) ?_ (fun a ha => ?_)
    (by cases neg <;> simp [Edit.inn]) (by cases neg <;> simp) (fun b hb a ha hs hk => ?_) (by simp)
  · constructor <;> cases m.cross <;> simp [setParent, setTop, Cache.modify, Cache.alloc]
  · rcases (hout a).mp ha with rfl | hn
    · exact ht
    · exact (hC.linked a hn).1
  · cases neg with
    | none => simp [Edit.out]
    | some a => simpa [Edit.out] using (hC.linked a rfl).2.symm
  · obtain rfl : a = d.fresh := by cases neg <;> simpa [Edit.inn] using ha
    exact ⟨hI.not_linked_fresh (Nat.le_refl _), hfresh ▸ Nat.lt_succ_self _,
      hI.ne_root_of_fresh (Nat.le_refl _)⟩
  · obtain rfl : b = d.fresh := by simpa using hb
    have hkey : (d.dentry a).iparent = ((d.stackCommit arm m top neg).dentry d.fresh).iparent ∧
        (d.dentry a).iname = ((d.stackCommit arm m top neg).dentry d.fresh).iname := hk
    rw [hnew] at hkey
    have hn := hC.taken a ha hkey.1 hkey.2
    subst hn
    have hne := (hC.linked a rfl).2
    exact hs (by simp [Edit.slot, List.lookup_cons, beq_false_of_ne hne])

theorem stack (hI : IndexOk d) (ht : d.linked top) (hC : Claim d m top neg) :
    IndexOk (d.stackCommit arm m top neg) := by
  have hE : Edited d _ (d.stackCommit arm m top neg) := hI.stack_edited ht hC
  have hlt := hI.host_lt ht
  have hnew : (d.stackCommit arm m top neg).dentry d.fresh = _ := stackCommit_new hlt
  have hhost : (d.stackCommit arm m top neg).hostOf d.fresh = d.hostOf top := by
    simp [Cache.hostOf, hnew, newShell]
  refine hE.indexOk hI (fun a ha hge => ?_) (fun a ha => ?_) (fun a ha hs n hn => ?_) ?_
  · obtain rfl : a = d.fresh := Nat.le_antisymm (by simpa [Nat.lt_succ_iff] using ha) hge
    refine ⟨by simp [Edit.inn], fun _ => ⟨d.hostOf top, by rw [hnew]; rfl, hlt,
      hI.host_ne_root ht,
      (hI.hostOf_host (hI.lt ht)).2⟩⟩
  · rcases (hE.linked_iff hI).mp ha with ⟨hl, ho⟩ | hi
    · have halt := hI.lt hl
      have hne : d.hostOf a ≠ d.hostOf top := by
        intro he
        exact ho (by simp [Edit.out, hI.hostOf_inj hl ht he])
      rw [hE.kind.hostOf halt, stackCommit_old (hI.hostOf_host halt).1, if_neg hne]
      exact hI.top a hl
    · obtain rfl : a = d.fresh := by
        cases neg <;> simpa [Edit.inn] using hi
      rw [hhost, stackCommit_old hlt, if_pos rfl]
      simp [dtopVal, Nat.ne_of_gt hlt]
  · rcases Nat.lt_or_ge a d.fresh with hal | hge
    · rw [(hE.kind a hal).1] at hs
      rw [stackCommit_old hal] at hn
      rcases eq_or_ne a (d.hostOf top) with rfl | he
      · obtain rfl : d.fresh = n := by simpa using hn
        rw [hnew]
        exact ⟨by simp, rfl, rfl⟩
      · rw [if_neg he] at hn
        obtain ⟨hnlt, hns, hnh⟩ := hI.topShell a hal hs n hn
        rw [(hE.kind n hnlt).1, (hE.kind n hnlt).2.1]
        exact ⟨Nat.lt_of_lt_of_le hnlt hE.fresh, hns, hnh⟩
    · obtain rfl : a = d.fresh := Nat.le_antisymm (by simpa [Nat.lt_succ_iff] using ha) hge
      rw [hnew] at hs
      cases hs
  · rw [stackCommit_old hI.rootHost.1,
      if_neg (hI.host_ne_root ht).symm]
    exact hI.rootHost.2.2.1

end Stack

end IndexOk

structure XchgTops (d : Cache Name) (x : Xchg Name) (topa topb : ℕ) : Prop where
  linkeda : d.linked topa
  linkedb : d.linked topb
  ne : topa ≠ topb
  keya : (d.dentry topa).iparent = x.pa ∧ (d.dentry topa).iname = x.na
  keyb : (d.dentry topb).iparent = x.pb ∧ (d.dentry topb).iname = x.nb

theorem XchgTops.hosts {x : Xchg Name} {topa topb : ℕ} (hX : XchgTops d x topa topb)
    (hI : IndexOk d) : d.hostOf topa < d.fresh ∧ d.hostOf topb < d.fresh ∧
      d.hostOf topa ≠ d.hostOf topb :=
  ⟨hI.host_lt hX.linkeda, hI.host_lt hX.linkedb,
    fun he => hX.ne (hI.hostOf_inj hX.linkeda hX.linkedb he)⟩

namespace IndexOk

/-! Exchanging two entries. -/

section Exchange

variable {arm : Arm} {x : Xchg Name} {topa topb : ℕ}

theorem exchangeCommit_kept (hI : IndexOk d) (arm : Arm) (hX : XchgTops d x topa topb) {a : ℕ}
    (ha : a < d.fresh) : ((d.exchangeCommit arm x topa topb).dentry a).iparent =
      (d.dentry a).iparent ∧
      ((d.exchangeCommit arm x topa topb).dentry a).iname = (d.dentry a).iname ∧
      ((d.exchangeCommit arm x topa topb).dentry a).shell = (d.dentry a).shell ∧
      ((d.exchangeCommit arm x topa topb).dentry a).host = (d.dentry a).host ∧
      ((d.exchangeCommit arm x topa topb).dentry a).isdir = (d.dentry a).isdir := by
  obtain ⟨hha, hhb, hab⟩ := hX.hosts hI
  rw [exchangeCommit_dentry_eq arm x hha hhb hab]
  have h₁ : a ≠ d.fresh := Nat.ne_of_lt ha
  have h₂ : a ≠ d.fresh + 1 := by omega
  split_ifs <;> exact ⟨rfl, rfl, rfl, rfl, rfl⟩

theorem exchangeCommit_shells (hI : IndexOk d) (arm : Arm) (hX : XchgTops d x topa topb) :
    (d.exchangeCommit arm x topa topb).dentry d.fresh = newShell x.pb x.nb (d.hostOf topa) ∧
    (d.exchangeCommit arm x topa topb).dentry (d.fresh + 1) =
      newShell x.pa x.na (d.hostOf topb) := by
  obtain ⟨hha, hhb, hab⟩ := hX.hosts hI
  rw [exchangeCommit_dentry_eq arm x hha hhb hab, exchangeCommit_dentry_eq arm x hha hhb hab]
  have h₁ : d.fresh + 1 ≠ d.hostOf topa := by omega
  have h₂ : d.fresh + 1 ≠ d.hostOf topb := by omega
  simp [Nat.ne_of_gt hha, Nat.ne_of_gt hhb, h₁, h₂]

theorem exchange_edited (hI : IndexOk d) (hX : XchgTops d x topa topb) :
    Edited d ⟨[(topa, some (d.fresh + 1)), (topb, some d.fresh)], []⟩
      (d.exchangeCommit arm x topa topb) := by
  have hkept := fun a (ha : a < d.fresh) => hI.exchangeCommit_kept arm hX ha
  obtain ⟨hsa, hsb⟩ := hI.exchangeCommit_shells arm hX
  have hfresh : (d.exchangeCommit arm x topa topb).fresh = d.fresh + 2 :=
    d.exchangeCommit_fresh arm x topa topb
  refine SameLists.edited ?_ hI (hfresh ▸ by omega) (fun a ha => (hkept a ha).2.2)
    (fun a ha _ => ⟨(hkept a ha).1, (hkept a ha).2.1⟩) (fun a ha => ?_)
    (by simpa [Edit.out] using hX.ne) (fun a ha => ?_) (by simp [Edit.inn]) (fun a b hab => ?_)
    (by simp) (by simp)
  · constructor <;> cases x.cross <;> simp [setParent, setTop, Cache.modify, Cache.alloc]
  · obtain rfl | rfl : a = topa ∨ a = topb := by simpa [Edit.out] using ha
    · exact hX.linkeda
    · exact hX.linkedb
  · have hge : d.fresh ≤ a ∧ a < d.fresh + 2 := by
      have : a = d.fresh + 1 ∨ a = d.fresh := by simpa [Edit.inn] using ha
      omega
    exact ⟨hI.not_linked_fresh hge.1, hfresh ▸ hge.2, hI.ne_root_of_fresh hge.1⟩
  · obtain ⟨rfl, rfl⟩ | ⟨rfl, rfl⟩ : a = topa ∧ b = d.fresh + 1 ∨ a = topb ∧ b = d.fresh := by
      simpa using hab
    · show ((d.exchangeCommit arm x a topb).dentry (d.fresh + 1)).iparent = _ ∧
        ((d.exchangeCommit arm x a topb).dentry (d.fresh + 1)).iname = _
      rw [hsb]
      exact ⟨hX.keya.1.symm, hX.keya.2.symm⟩
    · show ((d.exchangeCommit arm x topa a).dentry d.fresh).iparent = _ ∧
        ((d.exchangeCommit arm x topa a).dentry d.fresh).iname = _
      rw [hsa]
      exact ⟨hX.keyb.1.symm, hX.keyb.2.symm⟩

theorem exchange (hI : IndexOk d) (hX : XchgTops d x topa topb) :
    IndexOk (d.exchangeCommit arm x topa topb) := by
  have hE : Edited d _ (d.exchangeCommit arm x topa topb) := hI.exchange_edited hX
  obtain ⟨hha, hhb, hab⟩ := hX.hosts hI
  have hdentry := exchangeCommit_dentry_eq arm x hha hhb hab
  obtain ⟨hsa, hsb⟩ := hI.exchangeCommit_shells arm hX
  have hla := hI.alloc topa hX.linkeda
  have hlb := hI.alloc topb hX.linkedb
  refine hE.indexOk hI (fun a ha hge => ?_) (fun a ha => ?_) (fun a ha hs n hn => ?_) ?_
  · rw [exchangeCommit_fresh] at ha
    obtain rfl | rfl : a = d.fresh ∨ a = d.fresh + 1 := by omega
    · exact ⟨by simp [Edit.inn], fun _ => ⟨d.hostOf topa, by rw [hsa]; rfl, hha,
        hI.hostOf_ne_root hla.1 hla.2, (hI.hostOf_host hla.1).2⟩⟩
    · exact ⟨by simp [Edit.inn], fun _ => ⟨d.hostOf topb, by rw [hsb]; rfl, hhb,
        hI.hostOf_ne_root hlb.1 hlb.2, (hI.hostOf_host hlb.1).2⟩⟩
  · rcases (hE.linked_iff hI).mp ha with ⟨hl, ho⟩ | hi
    · have halt := hI.lt hl
      have h₁ : d.hostOf a ≠ d.hostOf topa := fun he =>
        ho (by simp [Edit.out, hI.hostOf_inj hl hX.linkeda he])
      have h₂ : d.hostOf a ≠ d.hostOf topb := fun he =>
        ho (by simp [Edit.out, hI.hostOf_inj hl hX.linkedb he])
      have h₃ := (hI.hostOf_host halt).1
      rw [hE.kind.hostOf halt, hdentry, if_neg h₁, if_neg h₂, if_neg (Nat.ne_of_lt h₃),
        if_neg (by omega)]
      exact hI.top a hl
    · obtain rfl | rfl : a = d.fresh + 1 ∨ a = d.fresh := by simpa [Edit.inn] using hi
      · have hhost : (d.exchangeCommit arm x topa topb).hostOf (d.fresh + 1) = d.hostOf topb := by
          simp [Cache.hostOf, hsb, newShell]
        have hne : d.fresh + 1 ≠ d.hostOf topb := by omega
        rw [hhost, hdentry, if_neg hab.symm, if_pos rfl]
        simp [dtopVal, hne]
      · have hhost : (d.exchangeCommit arm x topa topb).hostOf d.fresh = d.hostOf topa := by
          simp [Cache.hostOf, hsa, newShell]
        rw [hhost, hdentry, if_pos rfl]
        simp [dtopVal, Nat.ne_of_gt hha]
  · rcases Nat.lt_or_ge a d.fresh with hal | hge
    · rw [(hE.kind a hal).1] at hs
      rw [hdentry] at hn
      rcases eq_or_ne a (d.hostOf topa) with rfl | h₁
      · obtain rfl : d.fresh = n := by simpa using hn
        rw [hsa]
        exact ⟨by simp, rfl, rfl⟩
      rw [if_neg h₁] at hn
      rcases eq_or_ne a (d.hostOf topb) with rfl | h₂
      · obtain rfl : d.fresh + 1 = n := by simpa using hn
        rw [hsb]
        exact ⟨by simp, rfl, rfl⟩
      · rw [if_neg h₂, if_neg (Nat.ne_of_lt hal), if_neg (by omega)] at hn
        obtain ⟨hnlt, hns, hnh⟩ := hI.topShell a hal hs n hn
        rw [(hE.kind n hnlt).1, (hE.kind n hnlt).2.1]
        exact ⟨Nat.lt_of_lt_of_le hnlt hE.fresh, hns, hnh⟩
    · rw [exchangeCommit_fresh] at ha
      obtain rfl | rfl : a = d.fresh ∨ a = d.fresh + 1 := by omega
      · rw [hsa] at hs
        cases hs
      · rw [hsb] at hs
        cases hs
  · have hr := hI.rootHost
    rw [hdentry, if_neg (hI.hostOf_ne_root hla.1 hla.2).symm,
      if_neg (hI.hostOf_ne_root hlb.1 hlb.2).symm, if_neg (Nat.ne_of_lt hr.1), if_neg (by omega)]
    exact hr.2.2.1

end Exchange

/-! Folding a shell into its host. -/

section Fold

variable {arm : Arm} {n : ℕ}

theorem fold_edited (hI : IndexOk d) (hn : d.linked n) (hs : (d.dentry n).shell = true)
    (hname : (d.dentry (d.hostOf n)).iname = (d.dentry n).iname)
    (hparent : arm ≠ .mark → (d.dentry (d.hostOf n)).iparent = (d.dentry n).iparent) :
    Edited d ⟨[(n, some (d.hostOf n))], []⟩ (d.foldCommit arm n) := by
  have hlt := hI.lt hn
  refine SameLists.edited ?_ hI ?_ (fun a _ => ?_) (fun a _ hi => ?_) (fun a ha => ?_)
    (by simp [Edit.out]) (fun a ha => ?_) (by simp [Edit.inn]) (fun a b hab => ?_) (by simp) (by simp)
  · cases arm <;> exact ⟨rfl, rfl, rfl, rfl, rfl⟩
  · cases arm <;> exact Nat.le_refl _
  · show ((d.foldCommit arm n).dentry a).shell = _ ∧ ((d.foldCommit arm n).dentry a).host = _ ∧
      ((d.foldCommit arm n).dentry a).isdir = _
    rcases eq_or_ne a (d.hostOf n) with rfl | hne
    · rw [foldCommit_host]
      exact ⟨rfl, rfl, rfl⟩
    · rw [foldCommit_of_ne hne]
      exact ⟨rfl, rfl, rfl⟩
  · show ((d.foldCommit arm n).dentry a).iparent = _ ∧ ((d.foldCommit arm n).dentry a).iname = _
    rw [foldCommit_of_ne (by simpa [Edit.inn] using hi)]
    exact ⟨rfl, rfl⟩
  · obtain rfl : a = n := by simpa [Edit.out] using ha
    exact hn
  · obtain rfl : a = d.hostOf n := by simpa [Edit.inn] using ha
    refine ⟨hI.host_not_linked hn hs, ?_, hI.hostOf_ne_root hlt (hI.alloc n hn).2⟩
    cases arm <;> exact (hI.hostOf_host hlt).1
  · obtain ⟨rfl, rfl⟩ : a = n ∧ b = d.hostOf n := by simpa using hab
    show ((d.foldCommit arm a).dentry (d.hostOf a)).iparent = _ ∧
      ((d.foldCommit arm a).dentry (d.hostOf a)).iname = _
    rw [foldCommit_host]
    refine ⟨?_, hname⟩
    cases arm
    · rfl
    · exact hparent nofun
    · exact hparent nofun

theorem fold (hI : IndexOk d) (hn : d.linked n) (hs : (d.dentry n).shell = true)
    (hname : (d.dentry (d.hostOf n)).iname = (d.dentry n).iname)
    (hparent : arm ≠ .mark → (d.dentry (d.hostOf n)).iparent = (d.dentry n).iparent) :
    IndexOk (d.foldCommit arm n) := by
  have hE : Edited d _ (d.foldCommit arm n) := hI.fold_edited hn hs hname hparent
  have hlt := hI.lt hn
  have hhost := (hI.hostOf_host hlt).2
  refine hE.indexOk hI (fun a ha hge => ?_) (fun a ha => ?_) (fun a ha hs' k hk => ?_) ?_
  · exact absurd ha (by simpa using hge)
  · rcases (hE.linked_iff hI).mp ha with ⟨hl, ho⟩ | hi
    · have halt := hI.lt hl
      have hne : d.hostOf a ≠ d.hostOf n := fun he =>
        ho (by simp [Edit.out, hI.hostOf_inj hl hn he])
      rw [hE.kind.hostOf halt, foldCommit_of_ne hne]
      exact hI.top a hl
    · obtain rfl : a = d.hostOf n := by simpa [Edit.inn] using hi
      rw [hE.kind.hostOf (hI.hostOf_host hlt).1, hostOf_of_host hhost, foldCommit_host]
      simp [dtopVal]
  · rw [foldCommit_fresh] at ha
    rw [(hE.kind a ha).1] at hs'
    rcases eq_or_ne a (d.hostOf n) with rfl | hne
    · rw [foldCommit_host] at hk
      cases hk
    · rw [foldCommit_of_ne hne] at hk
      obtain ⟨hklt, hks, hkh⟩ := hI.topShell a ha hs' k hk
      rw [(hE.kind k hklt).1, (hE.kind k hklt).2.1]
      exact ⟨by simpa using hklt, hks, hkh⟩
  · rw [foldCommit_of_ne (hI.hostOf_ne_root hlt (hI.alloc n hn).2).symm]
    exact hI.rootHost.2.2.1

end Fold

/-! Stores that leave the lists alone. -/

/-- A store to a dentry keeps the indexes when it keeps what they rest on; the inline name of a
dentry that is in neither index is free. -/
theorem modify (hI : IndexOk d) {a : ℕ} {f : Dentry Name → Dentry Name}
    (hkind : (f (d.dentry a)).shell = (d.dentry a).shell ∧
      (f (d.dentry a)).host = (d.dentry a).host ∧ (f (d.dentry a)).top = (d.dentry a).top)
    (hkey : ¬ d.linked a ∨
      (f (d.dentry a)).iparent = (d.dentry a).iparent ∧
      (f (d.dentry a)).iname = (d.dentry a).iname) : IndexOk (d.modify a f) := by
  have hkept : ∀ b, ((d.modify a f).dentry b).shell = (d.dentry b).shell ∧
      ((d.modify a f).dentry b).host = (d.dentry b).host ∧
      ((d.modify a f).dentry b).top = (d.dentry b).top := by
    intro b
    rcases eq_or_ne b a with rfl | hne
    · rw [modify_self]
      exact hkind
    · rw [modify_of_ne _ _ _ _ hne]
      exact ⟨rfl, rfl, rfl⟩
  have hin : ∀ b c, b ∈ d.hash c → ((d.modify a f).dentry b).iparent = (d.dentry b).iparent ∧
      ((d.modify a f).dentry b).iname = (d.dentry b).iname := by
    intro b c hb
    rcases eq_or_ne b a with rfl | hne
    · rcases hkey with hno | hk
      · exact absurd (hI.linked_of_mem hb) hno
      · rw [modify_self]
        exact hk
    · rw [modify_of_ne _ _ _ _ hne]
      exact ⟨rfl, rfl⟩
  have hhost : (d.modify a f).hostOf = d.hostOf := by
    funext b
    simp [Cache.hostOf, (hkept b).1, (hkept b).2.1]
  have hlinked : ∀ b, (d.modify a f).linked b ↔ d.linked b := by
    intro b
    constructor
    · intro hb
      have hm : b ∈ d.hash ((d.modify a f).bucket b) := hb
      exact hI.linked_of_mem hm
    · intro hb
      obtain ⟨hp, hn⟩ := hin b _ hb
      show b ∈ d.hash (d.bucketOf _ _)
      rw [hp, hn]
      exact hb
  refine ⟨hI.nodup, fun b c hc => ?_, hI.kidsNodup, fun p c => ?_,
    fun c hc => hI.alloc c ((hlinked c).mp hc), fun c hc hr => ?_, fun c c' hc hc' hp hn => ?_,
    fun c hc => ?_, fun c hc hs => ?_, fun c hc hs n hn => ?_, ?_⟩
  · obtain ⟨hp, hn⟩ := hin c b hc
    show d.bucketOf _ _ = b
    rw [hp, hn]
    exact hI.home b c hc
  · rw [hlinked]
    constructor
    · intro hc
      obtain ⟨hl, hp⟩ := (hI.kids p c).mp hc
      exact ⟨hl, (hin c _ hl).1.trans hp⟩
    · rintro ⟨hl, hp⟩
      exact (hI.kids p c).mpr ⟨hl, (hin c _ hl).1.symm.trans hp⟩
  · rw [hlinked]
    exact hI.live c hc hr
  · rw [hlinked] at hc hc'
    rw [(hin c _ hc).1, (hin c' _ hc').1] at hp
    rw [(hin c _ hc).2, (hin c' _ hc').2] at hn
    exact hI.unique c c' hc hc' hp hn
  · rw [hhost, (hkept _).2.2]
    exact hI.top c ((hlinked c).mp hc)
  · rw [(hkept c).1] at hs
    obtain ⟨h, hh, hlt, hne, hhs⟩ := hI.shell c hc hs
    exact ⟨h, (hkept c).2.1.trans hh, hlt, hne, (hkept h).1.trans hhs⟩
  · rw [(hkept c).1] at hs
    rw [(hkept c).2.2] at hn
    obtain ⟨hnlt, hns, hnh⟩ := hI.topShell c hc hs n hn
    exact ⟨hnlt, (hkept n).1.trans hns, (hkept n).2.1.trans hnh⟩
  · obtain ⟨h₁, h₂, h₃, h₄⟩ := hI.rootHost
    exact ⟨h₁, (hkept root).1.trans h₂, (hkept root).2.2.trans h₃, h₄⟩

end IndexOk

theorem dcCreate_indexOk (bucketOf : ℕ → Name → ℕ) (rootname : Name) :
    IndexOk (dcCreate bucketOf rootname) := by
  have hno : ∀ a, ¬ (dcCreate bucketOf rootname).linked a := fun a => by
    simp [Cache.linked, dcCreate]
  refine ⟨fun _ => List.nodup_nil, fun b a ha => ?_, fun _ => List.nodup_nil, fun p a => ?_,
    fun a ha => absurd ha (hno a), fun a ha hr => ?_, fun a _ ha => absurd ha (hno a),
    fun a ha => absurd ha (hno a), fun a _ hs => ?_, fun a _ _ n hn => ?_, Nat.zero_lt_one, rfl, rfl,
    rfl⟩
  · simp [dcCreate] at ha
  · simp [dcCreate, Cache.linked]
  · exact absurd (Nat.lt_one_iff.mp ha) hr
  · cases hs
  · cases hn

end TrieBenchmark.Txn
