import TrieBenchmark.Txn.Entries

/-!
The state words that a rename validates at its commit. Both are read again after the test they
stand for: the destination directory is tested for negative and then read for the record, and so
is the occupant of the destination name. Between the two the word can change.
-/

namespace TrieBenchmark.Txn

open Option Cache Edits Run

variable {Name : Type} {d d' : Cache Name} {arm : Arm} {touched back : Option ℕ} {h p : ℕ}

namespace Pc

/-- The destination directory is not negative when its word is read for the record. -/
def DestPositive (d : Cache Name) : Pc Name → Prop
  | .stkGuard m _ => (d.raw m.newParent).neg = false
  | _ => True

/-- The occupant is still negative when its word is read for the record. -/
def StillNegative (d : Cache Name) : Pc Name → Prop
  | .stkNeg _ _ _ cur => (d.raw cur).neg = true
  | _ => True

instance (d : Cache Name) (pc : Pc Name) : Decidable (pc.DestPositive d) := by
  apply pc.casesOn (motive := fun pc => Decidable (pc.DestPositive d)) <;> intros <;> first
    | exact instDecidableTrue
    | exact instDecidableEqBool _ _

instance (d : Cache Name) (pc : Pc Name) : Decidable (pc.StillNegative d) := by
  apply pc.casesOn (motive := fun pc => Decidable (pc.StillNegative d)) <;> intros <;> first
    | exact instDecidableTrue
    | exact instDecidableEqBool _ _

end Pc

theorem Starts.guards {c : Call Name} {pc : Pc Name} (h : Starts arm c pc) : pc.guards = none := by
  cases arm <;> cases h <;> rfl

def DestRecorded (s : Sys Name) : Prop :=
  ∀ t m g, (s.pc t).guards = some (m, g) → ∃ w, (m.newParent, w) ∈ g.words ∧ w.neg = false

def NegRecorded (s : Sys Name) : Prop :=
  ∀ t m g a, (s.pc t).guards = some (m, g) → g.neg = some a →
    ∃ w, (a, w) ∈ g.words ∧ w.neg = true

theorem Effect.neg_cases {C : Checked Name → Prop}
    (hE : Effect arm C d touched back d') (hI : IndexOk d) (hp : p < d.fresh) :
    (d'.dentry p).neg = (d.dentry p).neg ∨ ∃ negative, C (.flip p) ∧ d' = d.flip p negative ∧
      (negative = true → (d.dentry p).isdir = true → d.kids p = []) := by
  have hmodify : ∀ {b : ℕ} {f : Dentry Name → Dentry Name}, (∀ e, (f e).neg = e.neg) →
      ((d.modify b f).dentry p).neg = (d.dentry p).neg := by
    intro b f hf
    rcases eq_or_ne p b with rfl | hne
    · rw [modify_self, hf]
    · rw [modify_of_ne _ _ _ _ hne]
  cases hE with
  | read => exact .inl rfl
  | flag | ident | name | swap => exact .inl (hmodify fun e => rfl)
  | flip host negative hc hk =>
    rcases eq_or_ne p host with rfl | hne
    · exact .inr ⟨negative, hc, rfl, hk⟩
    · apply Or.inl
      rw [Cache.flip, modify_of_ne _ _ _ _ hne]
  | add => exact .inl (by rw [addCommit_old hp])
  | remove => exact .inl (by rw [removeCommit_dentry])
  | stack =>
    apply Or.inl
    rw [stackCommit_old hp]
    split_ifs <;> rfl
  | exchange x _ _ hX =>
    obtain ⟨hha, hhb, hab⟩ := hX.hosts hI
    apply Or.inl
    rw [exchangeCommit_dentry_eq arm x hha hhb hab, if_neg (Nat.ne_of_lt hp),
      if_neg (show p ≠ d.fresh + 1 by omega)]
    split_ifs <;> rfl
  | fold n =>
    apply Or.inl
    rcases eq_or_ne p (d.hostOf n) with rfl | hne
    · rw [foldCommit_host]
    · rw [foldCommit_of_ne hne]

def NegativeEmpty (d : Cache Name) : Prop :=
  ∀ p < d.fresh, (d.dentry p).isdir = true → (d.dentry p).neg = true → d.kids p = []

theorem ParentsOk.kids_fresh (hP : ParentsOk d) (hI : IndexOk d) (hp : d.fresh ≤ p) :
    d.kids p = [] := by
  apply List.eq_nil_iff_forall_not_mem.mpr
  intro a ha
  obtain ⟨hl, rfl⟩ := (hI.kids p a).mp ha
  exact Nat.not_le.mpr (hP a hl) hp

theorem NegativeEmpty.effect (hN : NegativeEmpty d)
    (hE : Effect .mark (Checked.OfRename fun m _ => (d.dentry m.newParent).neg = false) d touched
      back d')
    (hI : IndexOk d) (hP : ParentsOk d) : NegativeEmpty d' := by
  intro p _ hd hneg
  by_contra hne
  by_cases hlt : p < d.fresh
  · rw [((hE.indexStep hI).kind p hlt).2.2] at hd
    rcases hE.neg_cases hI hlt with he | ⟨negative, -, rfl, hk⟩
    · rw [he] at hneg
      obtain ⟨-, -, hpos⟩ := hE.first_kid hI (hN p hlt hd hneg) hne
      have hpos' : (d.dentry p).neg = false := by
        rcases hpos with hpos | ⟨m, _, rfl, hpos⟩
        · exact hpos.1 rfl
        · exact hpos
      rw [hneg] at hpos'
      cases hpos'
    · have hn : negative = true := by simpa [Cache.flip] using hneg
      exact hne (hk hn hd)
  · have h₀ := hP.kids_fresh hI (Nat.not_lt.mp hlt)
    exact hlt (hE.first_kid hI h₀ hne).2.1

variable [DecidableEq Name] {s s' : Sys Name} {a : Act Name}

namespace Sys

def DestPositive (s : Sys Name) : Act Name → Prop
  | .call _ _ => True
  | .step t _ => (s.pc t).DestPositive s.d

def StillNegative (s : Sys Name) : Act Name → Prop
  | .call _ _ => True
  | .step t _ => (s.pc t).StillNegative s.d

instance (s : Sys Name) (a : Act Name) : Decidable (s.DestPositive a) :=
  match a with
  | .call _ _ => .isTrue trivial
  | .step t _ => inferInstanceAs (Decidable ((s.pc t).DestPositive s.d))

instance (s : Sys Name) (a : Act Name) : Decidable (s.StillNegative a) :=
  match a with
  | .call _ _ => .isTrue trivial
  | .step t _ => inferInstanceAs (Decidable ((s.pc t).StillNegative s.d))

end Sys

/-- What holds of every rename's records: an action leaves the others alone, and a step changes
its own in one of the two ways. -/
theorem guards_act {P : Move Name → Guards → Prop} (ha : s.act arm a = some s')
    (hP : ∀ t m g, (s.pc t).guards = some (m, g) → P m g)
    (hwords : ∀ m g g', P m g → g'.words = g.words → g'.neg = g.neg → P m g')
    (hguard : ∀ t ans m top g', a = .step t ans → s.pc t = .stkGuard m top →
      g'.words = s.d.recordWord arm m.newParent → g'.neg = none → P m g')
    (hneg : ∀ t ans m top g cur g', a = .step t ans → s.pc t = .stkNeg m top g cur → P m g →
      g'.words = g.words ++ s.d.recordWord arm cur → g'.neg = some cur → P m g') :
    ∀ t m g, (s'.pc t).guards = some (m, g) → P m g := by
  intro u m g' hg
  rcases Sys.act_cases ha with ⟨t, c, rfl, -, -, rfl⟩ | ⟨t, ans, rfl, -, rfl⟩
  · rcases eq_or_ne u t with rfl | hne
    · simp [(callStart_starts arm _).guards] at hg
    · exact hP u m g' (by simpa [hne] using hg)
  · rcases eq_or_ne u t with rfl | hne
    · have hg' : (stepPc arm s.d (s.pc u) ans).2.guards = some (m, g') := by simpa using hg
      rcases (stepPc_successor _ _ _ _).guards_eq hg' with
        ⟨g, h, hw, hn⟩ | ⟨top, h, hw, hn⟩ | ⟨top, g, cur, h, hw, hn⟩
      · exact hwords m g g' (hP u m g h) hw hn
      · exact hguard u ans m top g' rfl h hw hn
      · exact hneg u ans m top g cur g' rfl h (hP u m g (by rw [h]; rfl)) hw hn
    · exact hP u m g' (by simpa [hne] using hg)

theorem DestRecorded.act (hD : DestRecorded s) (hok : s.DestPositive a)
    (ha : s.act .mark a = some s') : DestRecorded s' := by
  refine guards_act ha hD (fun m g g' hP hw _ => ?_) (fun t ans m top g' he hpc hw _ => ?_)
    fun t ans m top g cur g' _ _ hP hw _ => ?_
  · rwa [hw]
  · subst he
    refine ⟨s.d.raw m.newParent, by simp [hw, Cache.recordWord], ?_⟩
    have : (s.pc t).DestPositive s.d := hok
    rwa [hpc] at this
  · obtain ⟨w, hmem, hpos⟩ := hP
    exact ⟨w, by simp [hw, hmem], hpos⟩

theorem NegRecorded.act (hN : NegRecorded s) (hok : s.StillNegative a)
    (ha : s.act .mark a = some s') : NegRecorded s' := by
  have hmain := guards_act (P := fun _ g => ∀ a, g.neg = some a → ∃ w, (a, w) ∈ g.words ∧
    w.neg = true) ha (fun t m g hg a => hN t m g a hg) (fun m g g' hP hw hn => ?_)
    (fun t ans m top g' he hpc hw hn => ?_) fun t ans m top g cur g' he hpc hP hw hn => ?_
  · exact fun t m g a hg => hmain t m g hg a
  · rwa [hw, hn]
  · simp [hn]
  · intro a ha
    obtain rfl : cur = a := some.inj (hn ▸ ha)
    subst he
    refine ⟨s.d.raw cur, by simp [hw, Cache.recordWord], ?_⟩
    have : (s.pc t).StillNegative s.d := hok
    rwa [hpc] at this

omit [DecidableEq Name] in
theorem NegRecorded.replaced (hN : NegRecorded s) {t top oldp : ℕ} {m : Move Name} {g : Guards}
    (hpc : s.pc t = .stkCommit m top g oldp) (hh : s.d.stackHolds m top g oldp = true) :
    ∀ a, g.neg = some a → (s.d.dentry a).neg = true := by
  intro a hg
  obtain ⟨w, hw, hwneg⟩ := hN t m g a (by rw [hpc]; rfl) hg
  have hraw : s.d.raw a = w := (stackHolds_spec hh).2.2.2.2 _ hw
  rw [← hraw] at hwneg
  exact hwneg

/-- In every run whose renames read their destination directory positive when they record it, no
commit leaves a negative directory with a child. -/
theorem reach_negativeEmpty {bucketOf : ℕ → Name → ℕ} {rootname : Name}
    (hr : Reach (Sys.act .mark) Sys.DestPositive (Sys.init bucketOf rootname) s) :
    NegativeEmpty s.d := by
  have hinv : (∃ S, Inv .mark s S) ∧ DestRecorded s ∧ NegativeEmpty s.d := by
    refine hr.invariant (P := fun s => (∃ S, Inv .mark s S) ∧ DestRecorded s ∧ NegativeEmpty s.d)
      ⟨⟨fun _ => ∅, .init .mark bucketOf rootname _⟩, by simp [DestRecorded, Sys.init, Pc.guards],
        fun _ _ _ _ => rfl⟩ ?_
    rintro s a s' ⟨⟨S, hV⟩, hD, hN⟩ hok ha
    refine ⟨⟨_, hV.act ha⟩, hD.act hok ha, ?_⟩
    obtain ⟨_, _, hE, -⟩ := hV.effect_of_act
      (C := Checked.OfRename fun m _ => (s.d.dentry m.newParent).neg = false) ha
      fun t _ _ _ hc => hc.ofRename fun m top g oldp hpc hh => by
        -- the commit has checked the word that was recorded
        obtain ⟨w, hw, hpos⟩ := hD t m g (by rw [hpc]; rfl)
        have hraw : s.d.raw m.newParent = w := (stackHolds_spec hh).2.2.2.2 _ hw
        rw [← hraw] at hpos
        exact hpos
    exact hN.effect hE hV.index hV.parents
  exact hinv.2.2

/-- The rename of `/2` to `/1/3` beside a delete of `/1` that comes too late. -/
theorem reach_negativeEmpty_rename : ∃ s,
    Reach (Sys.act .mark) Sys.DestPositive (Sys.init (fun _ _ => 0) 0) s ∧
      s.pc 1 = .done (.code (some .ENOTEMPTY)) ∧ s.d.kids 1 = [3] ∧ NegativeEmpty s.d := by
  have he : (exec (guarded (Sys.act .mark) Sys.DestPositive) (Sys.init (fun _ _ => 0) 0)
      (Act.op 1 (.add [1] 0) 6 ++ Act.op 1 (.addFile [2] 0) 6 ++ Act.op 0 (.rename [2] [1, 3]) 20 ++
        Act.op 1 (.delete [1]) 4)).map (fun s => (s.pc 1, s.d.kids 1)) =
      some (.done (.code (some .ENOTEMPTY)), [3]) := by
    decide +kernel
  obtain ⟨s, hr, hs⟩ := reach_exec_map he
  simp only [Prod.mk.injEq] at hs
  exact ⟨s, hr.of_guarded, hs.1, hs.2, reach_negativeEmpty hr.of_guarded⟩

/-- Thread 0 renames `/2` to `/1/3`. It has seen that `/1` is positive but has not read its state
word for the record when thread 1 deletes `/1`, which is empty. Then thread 0 goes on. -/
def renameMeetsDelete : List (Act ℕ) :=
  Act.op 1 (.add [1] 0) 6 ++ Act.op 1 (.addFile [2] 0) 6 ++ Act.op 0 (.rename [2] [1, 3]) 9 ++
    Act.op 1 (.delete [1]) 6 ++ Act.steps 0 11

theorem renameMeetsDelete_exec : (exec (Sys.act .mark) (Sys.init (fun _ _ => 0) 0)
    renameMeetsDelete).map (fun s => ([s.pc 0, s.pc 1], s.d.kids 1, s.d.fresh,
      (s.d.dentry 1).isdir, (s.d.dentry 1).neg)) =
    some ([.done (.code none), .done (.code none)], [3], 4, true, true) := by
  rfl

theorem renameMeetsDelete_not_negativeEmpty : ∃ s,
    Reach (Sys.act .mark) (fun _ _ => True) (Sys.init (fun _ _ => 0) 0) s ∧
      ¬ NegativeEmpty s.d := by
  obtain ⟨s, hr, hs⟩ := reach_exec_map renameMeetsDelete_exec
  simp only [Prod.mk.injEq] at hs
  obtain ⟨-, hk, hfresh, hd, hneg⟩ := hs
  refine ⟨s, hr, fun hN => ?_⟩
  have := hN 1 (by rw [hfresh]; decide) hd hneg
  rw [hk] at this
  cases this

theorem NegRecorded.reach {bucketOf : ℕ → Name → ℕ} {rootname : Name}
    (hr : Reach (Sys.act .mark) Sys.StillNegative (Sys.init bucketOf rootname) s) :
    ∃ S, Inv .mark s S ∧ NegRecorded s :=
  hr.invariant (P := fun s => ∃ S, Inv .mark s S ∧ NegRecorded s)
    ⟨fun _ => ∅, .init .mark bucketOf rootname _, by simp [NegRecorded, Sys.init, Pc.guards]⟩
    fun _ _ _ ⟨_, hV, hN⟩ hok ha => ⟨_, hV.act ha, hN.act hok ha⟩

theorem stkCommit_act {t top oldp : ℕ} {m : Move Name} {g : Guards} {ans : Answer}
    (hpc : s.pc t = .stkCommit m top g oldp) (ha : s.act arm (.step t ans) = some s') :
    s'.d = s.d ∨ s.d.stackHolds m top g oldp = true ∧ s'.d = s.d.stackCommit arm m top g.neg := by
  simp only [Sys.act, hpc, stepPc] at ha
  split_ifs at ha with hb ho hh <;> obtain rfl := some.inj ha
  · exact .inl rfl
  · exact .inl rfl
  · refine .inr ⟨?_, rfl⟩
    simp only [Bool.or_eq_true, not_or] at hh
    simpa using hh.2

/-- In every run whose renames read the occupant they replace negative when they record it, the
commit of a rename takes no positive entry out of the index. -/
theorem rename_removes_negative {bucketOf : ℕ → Name → ℕ} {rootname : Name} {t top oldp : ℕ}
    {m : Move Name} {g : Guards} {ans : Answer}
    (hr : Reach (Sys.act .mark) Sys.StillNegative (Sys.init bucketOf rootname) s)
    (hpc : s.pc t = .stkCommit m top g oldp) (ha : s.act .mark (.step t ans) = some s')
    (hb : Bound s.d h) (hn : ¬ Bound s'.d h) : (s.d.dentry h).neg = true := by
  obtain ⟨S, hV, hN⟩ := NegRecorded.reach hr
  have hpcOk := hV.pcOk t
  have hS := (hV.seen t (by rw [hpc]; rfl)).settled
  rw [hpc] at hpcOk
  rcases stkCommit_act hpc ha with hd | ⟨hh, hd⟩
  · rw [hd] at hn
    exact absurd hb hn
  · obtain ⟨hm, hneg, hhead, -⟩ := stackHolds_spec hh
    rw [hd] at hn
    obtain ⟨a, hg, rfl⟩ := hV.index.stack_unbound (hpcOk.latched.linked hV.index hS hm)
      (hpcOk.claim hV.index hS hneg hhead) hb hn
    rw [(hpcOk.neg a hg).host]
    exact hN.replaced hpc hh a hg

/-- The rename of `/1` onto the negative `/2`. -/
theorem rename_removes_negative_file : ∃ s s' m top g oldp,
    Reach (Sys.act .mark) Sys.StillNegative (Sys.init (fun _ _ => 0) 0) s ∧
      s.pc 0 = .stkCommit m top g oldp ∧ s.act .mark (.step 0 .ok) = some s' ∧
      Bound s.d 2 ∧ ¬ Bound s'.d 2 ∧ (s.d.dentry 2).neg = true := by
  have he : ((exec (guarded (Sys.act .mark) Sys.StillNegative) (Sys.init (fun _ _ => 0) 0)
      (Act.op 1 (.addFile [1] 0) 6 ++ Act.op 1 (.addNegative [2]) 6 ++
        Act.op 0 (.rename [1] [2]) 14)).bind fun s => (s.act .mark (.step 0 .ok)).map fun s' =>
          (s.pc 0, decide (Bound s.d 2), decide (Bound s'.d 2))) =
      some (.stkCommit ⟨0, 1, 0, 2, false⟩ 1 ⟨⟨[(0, ⟨0, false, false⟩), (2, ⟨0, false, true⟩)], none,
        [], [(1, some 2, none), (2, none, some 1)], [(2, none, some 1), (1, some 2, none)]⟩, some 2,
        some 2, some 2⟩ 0, true, false) := by
    rfl
  obtain ⟨s, hs, he⟩ := bind_eq_some_iff.mp he
  obtain ⟨s', ha, he⟩ := map_eq_some_iff.mp he
  simp only [Prod.mk.injEq, decide_eq_true_eq, decide_eq_false_iff_not] at he
  have hr := (reach_exec hs).of_guarded
  exact ⟨s, s', _, _, _, _, hr, he.1, ha, he.2.1, he.2.2,
    rename_removes_negative hr he.1 ha he.2.1 he.2.2⟩

/-- Thread 0 renames `/1` to `/2`. It has judged the negative `/2` replaceable but has not read
its state word for the record when thread 1 instantiates `/2`. -/
def renameMeetsInstantiate : List (Act ℕ) :=
  Act.op 1 (.addFile [1] 0) 6 ++ Act.op 1 (.addNegative [2]) 6 ++ Act.op 0 (.rename [1] [2]) 12 ++
    Act.op 1 (.instantiate [2] 7) 5 ++ Act.steps 0 2

/-- The commit of the rename takes the positive `/2` out. -/
theorem renameMeetsInstantiate_removes_positive : ∃ s s',
    Reach (Sys.act .mark) (fun _ _ => True) (Sys.init (fun _ _ => 0) 0) s ∧
      (∃ m top g oldp, s.pc 0 = .stkCommit m top g oldp) ∧ s.act .mark (.step 0 .ok) = some s' ∧
      (∃ n, s'.pc 0 = .stkQueue n) ∧ Bound s.d 2 ∧ ¬ Bound s'.d 2 ∧
      (s.d.dentry 2).neg = false := by
  have he : ((exec (Sys.act .mark) (Sys.init (fun _ _ => 0) 0) renameMeetsInstantiate).bind
      fun s => (s.act .mark (.step 0 .ok)).map fun s' =>
        (s.pc 0, s'.pc 0, decide (Bound s.d 2), decide (Bound s'.d 2), (s.d.dentry 2).neg)) =
      some (.stkCommit ⟨0, 1, 0, 2, false⟩ 1 ⟨⟨[(0, ⟨0, false, false⟩), (2, ⟨0, false, false⟩)], none,
        [], [(1, some 2, none), (2, none, some 1)], [(2, none, some 1), (1, some 2, none)]⟩, some 2,
        some 2, some 2⟩ 0, .stkQueue 3, true, false, false) := by
    rfl
  obtain ⟨s, hs, he⟩ := bind_eq_some_iff.mp he
  obtain ⟨s', ha, he⟩ := map_eq_some_iff.mp he
  simp only [Prod.mk.injEq, decide_eq_true_eq, decide_eq_false_iff_not] at he
  exact ⟨s, s', reach_exec hs, ⟨_, _, _, _, he.1⟩, ha, ⟨_, he.2.1⟩, he.2.2⟩

end TrieBenchmark.Txn
