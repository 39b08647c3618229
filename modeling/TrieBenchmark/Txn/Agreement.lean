import TrieBenchmark.Txn.Invariant

/-!
Index agreement of the lock-free engine: after every commit the name index, the child lists,
`d_parent` and `d_top` describe the same set of named tops.
-/

namespace TrieBenchmark.Txn

open Cache Edits Run

variable {Name : Type} {d d' : Cache Name} {arm : Arm} {touched back : Option ℕ}

def NamedTop (d : Cache Name) (T : ℕ) : Prop :=
  T < d.fresh ∧ T ≠ root ∧ d.mark T = false

structure IndexAgreement (d : Cache Name) : Prop where
  bucket : ∀ T, NamedTop d T → ∀ b, T ∈ d.hash b ↔ b = d.bucket T
  child : ∀ T, NamedTop d T → ∀ P, T ∈ d.kids P ↔ P = (d.dentry T).iparent
  parent : ∀ T, NamedTop d T → (d.dentry (d.hostOf T)).parent = (d.dentry T).iparent
  top : ∀ T, NamedTop d T → (d.dentry (d.hostOf T)).top = Cache.dtopVal (d.hostOf T) T
  unique : ∀ T T', NamedTop d T → NamedTop d T' → (d.dentry T).iparent = (d.dentry T').iparent →
    (d.dentry T).iname = (d.dentry T').iname → T = T'
  only : ∀ T h, T ∈ d.hash h ∨ T ∈ d.kids h → NamedTop d T
  nodup : ∀ h, (d.hash h).Nodup ∧ (d.kids h).Nodup

/-- `d_parent` of an entry's host is the inline parent of its named top. -/
def ParentsAgree (d : Cache Name) : Prop :=
  ∀ T, d.linked T → (d.dentry (d.hostOf T)).parent = (d.dentry T).iparent

theorem IndexOk.namedTop_iff (hI : IndexOk d) {T : ℕ} : NamedTop d T ↔ d.linked T := by
  constructor
  · rintro ⟨hlt, hr, hm⟩
    exact (hI.live T hlt hr).mp hm
  · intro hT
    exact ⟨hI.lt hT, (hI.alloc T hT).2, hI.not_mark hT⟩

theorem IndexOk.agreement (hI : IndexOk d) (hA : ParentsAgree d) : IndexAgreement d := by
  refine ⟨fun T hT b => ?_, fun T hT P => ?_, fun T hT => hA T (hI.namedTop_iff.mp hT),
    fun T hT => hI.top T (hI.namedTop_iff.mp hT), fun T T' hT hT' =>
      hI.unique T T' (hI.namedTop_iff.mp hT) (hI.namedTop_iff.mp hT'), fun T h hT => ?_,
    fun h => ⟨hI.nodup h, hI.kidsNodup h⟩⟩
  · constructor
    · exact fun hb => (hI.home b T hb).symm
    · rintro rfl
      exact hI.namedTop_iff.mp hT
  · rw [hI.kids]
    exact ⟨fun h => h.2.symm, fun h => ⟨hI.namedTop_iff.mp hT, h.symm⟩⟩
  · apply hI.namedTop_iff.mpr
    rcases hT with hT | hT
    · exact hI.linked_of_mem hT
    · exact ((hI.kids h T).mp hT).1

theorem Edited.parentsAgree {e : Edit ℕ} (hE : Edited d e d') (hI : IndexOk d) (hA : ParentsAgree d)
    (hkeep : ∀ T, d.linked T → T ∉ e.out →
      (d'.dentry (d.hostOf T)).parent = (d.dentry (d.hostOf T)).parent)
    (hinn : ∀ T ∈ e.inn, (d'.dentry (d'.hostOf T)).parent = (d'.dentry T).iparent) :
    ParentsAgree d' := by
  intro T hT
  rcases (hE.linked_iff hI).mp hT with ⟨hl, ho⟩ | hi
  · rw [hE.kind.hostOf (hI.lt hl), hkeep T hl ho, hA T hl, (hE.key_stays hI hl).1]
  · exact hinn T hi

theorem ParentsAgree.modify (hI : IndexOk d) (hA : ParentsAgree d) {a : ℕ}
    {f : Dentry Name → Dentry Name}
    (hf : ∀ e, (f e).shell = e.shell ∧ (f e).host = e.host ∧ (f e).parent = e.parent)
    (hkey : ¬ d.linked a ∨ ∀ e, (f e).iparent = e.iparent) : ParentsAgree (d.modify a f) := by
  intro T hT
  have hl : d.linked T := hI.linked_of_mem (b := (d.modify a f).bucket T) hT
  have hhost : (d.modify a f).hostOf T = d.hostOf T := by
    unfold Cache.hostOf
    rcases eq_or_ne T a with rfl | hne
    · rw [modify_self, (hf _).1, (hf _).2.1]
    · rw [modify_of_ne _ _ _ _ hne]
  have hparent : ∀ b, ((d.modify a f).dentry b).parent = (d.dentry b).parent := by
    intro b
    rcases eq_or_ne b a with rfl | hne
    · rw [modify_self, (hf _).2.2]
    · rw [modify_of_ne _ _ _ _ hne]
  rw [hhost, hparent, hA T hl]
  rcases eq_or_ne T a with rfl | hne
  · rw [modify_self, hkey.resolve_left fun h => h hl]
  · rw [modify_of_ne _ _ _ _ hne]

namespace IndexOk

theorem stack_parentsAgree (hI : IndexOk d) (hA : ParentsAgree d) {m : Move Name} {top : ℕ}
    {neg : Option ℕ} (ht : d.linked top) (hfrom : (d.dentry top).iparent = m.fromParent)
    (hC : Claim d m top neg) (hm : m.CrossFits) : ParentsAgree (d.stackCommit arm m top neg) := by
  have hlt := hI.host_lt ht
  refine (hI.stack_edited ht hC).parentsAgree hI hA (fun T hT ho => ?_) fun T hi => ?_
  · have hne : d.hostOf T ≠ d.hostOf top := by
      intro he
      obtain rfl := hI.hostOf_inj hT ht he
      exact ho (by simp [Edit.out])
    rw [stackCommit_old (hI.host_lt hT), if_neg hne]
  · obtain rfl : T = d.fresh := by cases neg <;> simpa [Edit.inn] using hi
    have hnew : (d.stackCommit arm m top neg).dentry d.fresh = _ := stackCommit_new hlt
    rw [Cache.hostOf, hnew]
    show ((d.stackCommit arm m top neg).dentry (d.hostOf top)).parent = m.newParent
    rw [stackCommit_old hlt, if_pos rfl]
    -- a move that stays in its directory leaves `d_parent` at that directory
    by_cases hc : m.cross = true
    · exact if_pos hc
    · have he : m.fromParent = m.newParent := by
        by_contra hne
        exact hc (hm.mpr hne)
      rw [← he, ← hfrom, ← hA top ht]
      exact if_neg hc

theorem exchange_parentsAgree (hI : IndexOk d) (hA : ParentsAgree d) {x : Xchg Name}
    {topa topb : ℕ} (hX : XchgTops d x topa topb) :
    ParentsAgree (d.exchangeCommit arm x topa topb) := by
  obtain ⟨hha, hhb, hab⟩ := hX.hosts hI
  obtain ⟨hsa, hsb⟩ := hI.exchangeCommit_shells arm hX
  have hdentry : ∀ c, (d.exchangeCommit arm x topa topb).dentry c = _ :=
    exchangeCommit_dentry_eq arm x hha hhb hab
  refine (hI.exchange_edited hX).parentsAgree hI hA (fun T hT ho => ?_) fun T hi => ?_
  · have hlt := hI.host_lt hT
    have hna : d.hostOf T ≠ d.hostOf topa := by
      intro he
      obtain rfl := hI.hostOf_inj hT hX.linkeda he
      exact ho (by simp [Edit.out])
    have hnb : d.hostOf T ≠ d.hostOf topb := by
      intro he
      obtain rfl := hI.hostOf_inj hT hX.linkedb he
      exact ho (by simp [Edit.out])
    rw [hdentry, if_neg hna, if_neg hnb, if_neg (Nat.ne_of_lt hlt), if_neg (by omega)]
  · have hpa := (hA topa hX.linkeda).trans hX.keya.1
    have hpb := (hA topb hX.linkedb).trans hX.keyb.1
    obtain rfl | rfl : T = d.fresh + 1 ∨ T = d.fresh := by simpa [Edit.inn] using hi
    · rw [Cache.hostOf, hsb]
      show ((d.exchangeCommit arm x topa topb).dentry (d.hostOf topb)).parent = x.pa
      rw [hdentry, if_neg hab.symm, if_pos rfl]
      by_cases he : x.pa = x.pb
      · simpa [Xchg.cross, he] using hpb
      · simp [Xchg.cross, he]
    · rw [Cache.hostOf, hsa]
      show ((d.exchangeCommit arm x topa topb).dentry (d.hostOf topa)).parent = x.pb
      rw [hdentry, if_pos rfl]
      by_cases he : x.pa = x.pb
      · simpa [Xchg.cross, he] using hpa
      · simp [Xchg.cross, he]

end IndexOk

theorem ParentsAgree.effect (hE : Effect arm (Checked.OfRename fun m _ => m.CrossFits) d touched back d')
    (hI : IndexOk d) (hA : ParentsAgree d) : ParentsAgree d' := by
  cases hE with
  | read => exact hA
  | flag | ident | flip => exact hA.modify hI (fun e => ⟨rfl, rfl, rfl⟩) (.inr fun e => rfl)
  | name _ _ hh | swap _ _ hh => exact hA.modify hI (fun e => ⟨rfl, rfl, rfl⟩) (.inl hh)
  | add _ _ _ _ _ _ _ _ _ hname =>
    refine (hI.add_edited hname).parentsAgree hI hA (fun T hT _ => ?_) fun T hi => ?_
    · rw [addCommit_old (hI.host_lt hT)]
    · obtain rfl : T = d.fresh := by simpa [Edit.inn] using hi
      rw [hostOf_of_host (by rw [addCommit_new]), addCommit_new]
  | remove _ _ ht =>
    refine (hI.remove_edited ht).parentsAgree hI hA (fun T _ _ => ?_) (by simp [Edit.inn])
    rw [removeCommit_dentry]
  | stack _ _ _ ht hfrom _ hcl _ _ _ hC => exact hI.stack_parentsAgree hA ht hfrom hcl hC
  | exchange _ _ _ hX => exact hI.exchange_parentsAgree hA hX
  | fold n hn hs hname hparent =>
    have hEd : Edited d _ (d.foldCommit arm n) := hI.fold_edited hn hs hname hparent
    have hlt := hI.lt hn
    have hparents : ∀ b, ((d.foldCommit arm n).dentry b).parent = (d.dentry b).parent := by
      intro b
      rcases eq_or_ne b (d.hostOf n) with rfl | hne
      · rw [foldCommit_host]
      · rw [foldCommit_of_ne hne]
    refine hEd.parentsAgree hI hA (fun T _ _ => hparents _) fun T hi => ?_
    obtain rfl : T = d.hostOf n := by simpa [Edit.inn] using hi
    rw [hEd.kind.hostOf (hI.hostOf_host hlt).1, hI.hostOf_hostOf hlt, hparents, hA n hn]
    exact ((hEd.place n (d.hostOf n) (by simp)).1).symm

namespace Pc

/-- When `dc_rename` compares its victim's `d_parent` with the destination directory, the
answer is that of comparing the two directories. -/
def CrossKnown (d : Cache Name) : Pc Name → Prop
  | .renCross fromParent _ victim toParent _ =>
    (d.dentry victim).parent ≠ toParent ↔ fromParent ≠ toParent
  | _ => True

instance (d : Cache Name) (pc : Pc Name) : Decidable (pc.CrossKnown d) := by
  cases pc with
  | renCross =>
    exact inferInstanceAs (Decidable (_ ↔ _))
  | _ => exact .isTrue trivial

end Pc

theorem Starts.move {c : Call Name} {pc : Pc Name} (h : Starts arm c pc) : pc.move = none := by
  cases arm <;> cases h <;> rfl

variable [DecidableEq Name] {s s' : Sys Name} {a : Act Name}

theorem Successor.move_eq {pc pc' : Pc Name} {m : Move Name} (h : Successor arm d pc pc')
    (hm : pc'.move = some m) (hk : pc.CrossKnown d) : pc.move = some m ∨ m.CrossFits := by
  cases h with
  | passes h => exact .inl ((h.move.resolve_left (by simp [hm])).symm.trans hm)
  | cross =>
    obtain rfl := Option.some.inj hm
    exact .inr (by simpa [Move.CrossFits, Pc.CrossKnown] using hk)
  | record | recordNeg => exact .inl hm
  | _ => cases hm

def Sys.CrossKnown (s : Sys Name) : Act Name → Prop
  | .call _ _ => True
  | .step t _ => (s.pc t).CrossKnown s.d

instance (s : Sys Name) (a : Act Name) : Decidable (s.CrossKnown a) :=
  match a with
  | .call _ _ => .isTrue trivial
  | .step t _ => inferInstanceAs (Decidable ((s.pc t).CrossKnown s.d))

def MovesFit (s : Sys Name) : Prop :=
  ∀ t m, (s.pc t).move = some m → m.CrossFits

theorem MovesFit.act (hM : MovesFit s) (hok : s.CrossKnown a) (ha : s.act arm a = some s') :
    MovesFit s' := by
  intro u m hu
  rcases Sys.act_cases ha with ⟨t, c, rfl, -, -, rfl⟩ | ⟨t, ans, rfl, -, rfl⟩
  · rcases eq_or_ne u t with rfl | hne
    · simp [(callStart_starts arm _).move] at hu
    · exact hM u m (by simpa [hne] using hu)
  · rcases eq_or_ne u t with rfl | hne
    · exact ((stepPc_successor _ _ _ _).move_eq (by simpa using hu) hok).elim (hM u m) id
    · exact hM u m (by simpa [hne] using hu)

theorem reach_parentsAgree {bucketOf : ℕ → Name → ℕ} {rootname : Name}
    (hr : Reach (Sys.act arm) Sys.CrossKnown (Sys.init bucketOf rootname) s) :
    (∃ S, Inv arm s S) ∧ MovesFit s ∧ ParentsAgree s.d := by
  refine hr.invariant (P := fun s => (∃ S, Inv arm s S) ∧ MovesFit s ∧ ParentsAgree s.d)
    ⟨⟨fun _ => ∅, .init arm bucketOf rootname _⟩, by simp [MovesFit, Sys.init, Pc.move],
      fun T hT => by cases hT⟩ ?_
  rintro s a s' ⟨⟨S, hV⟩, hM, hA⟩ hok ha
  obtain ⟨_, _, hE, -⟩ := hV.effect_of_act (C := Checked.OfRename fun m _ => m.CrossFits) ha
    fun t _ _ _ hc => hc.ofRename fun m top g oldp hpc _ => hM t m (by rw [hpc]; rfl)
  exact ⟨⟨_, hV.act ha⟩, hM.act hok ha, hA.effect hE hV.index⟩

/-- In every run whose renames see in which directory their victim is, the two indexes,
`d_parent` and `d_top` agree after every commit. -/
theorem reach_indexesAgree {bucketOf : ℕ → Name → ℕ} {rootname : Name}
    (hr : Reach (Sys.act arm) Sys.CrossKnown (Sys.init bucketOf rootname) s) :
    IndexAgreement s.d := by
  obtain ⟨⟨S, hV⟩, -, hA⟩ := reach_parentsAgree hr
  exact hV.index.agreement hA

theorem reach_indexesAgree_rename : ∃ s,
    Reach (Sys.act .mark) Sys.CrossKnown (Sys.init (fun _ _ => 0) 0) s ∧ s.d.kids 1 = [3] ∧
      IndexAgreement s.d := by
  have he : (exec (guarded (Sys.act .mark) Sys.CrossKnown) (Sys.init (fun _ _ => 0) 0)
      (Act.op 1 (.add [1] 0) 6 ++ Act.op 1 (.addFile [2] 0) 6 ++
        Act.op 0 (.rename [2] [1, 3]) 20)).map (fun s => s.d.kids 1) = some [3] := by
    decide +kernel
  obtain ⟨s, hr, hs⟩ := reach_exec_map he
  exact ⟨s, hr.of_guarded, hs, reach_indexesAgree hr.of_guarded⟩

/-- Thread 0 renames `/1/3` to `/2/4` and stops before it reads its victim's `d_parent`.
Thread 1 moves that entry to `/2/5` and adds another `/1/3`. Then thread 0 goes on. -/
def staleCross : List (Act ℕ) :=
  Act.op 1 (.add [1] 0) 6 ++ Act.op 1 (.add [2] 0) 6 ++ Act.op 1 (.addFile [1, 3] 0) 7 ++
    Act.op 0 (.rename [1, 3] [2, 4]) 6 ++ Act.op 1 (.rename [1, 3] [2, 5]) 21 ++
    Act.op 1 (.addFile [1, 3] 0) 7 ++ Act.steps 0 9

theorem staleCross_exec : (exec (Sys.act .mark) (Sys.init (fun _ _ => 0) 0) staleCross).map
    (fun s => (s.pc 0, s.d.fresh, s.d.mark 6, (s.d.dentry 6).iparent,
      (s.d.dentry (s.d.hostOf 6)).parent)) = some (.done (.code none), 7, false, 2, 1) := by
  decide +kernel

/-- The shell names its entry `/2/4`, and the host's `d_parent` is still `/1`. -/
theorem staleCross_indexes_disagree : ∃ s,
    Reach (Sys.act .mark) (fun _ _ => True) (Sys.init (fun _ _ => 0) 0) s ∧
      ¬ IndexAgreement s.d := by
  obtain ⟨s, hr, hs⟩ := reach_exec_map staleCross_exec
  simp only [Prod.mk.injEq] at hs
  obtain ⟨-, hfresh, hm, hip, hp⟩ := hs
  refine ⟨s, hr, fun hA => ?_⟩
  have hagree := hA.parent 6 ⟨by rw [hfresh]; decide, by decide, hm⟩
  rw [hip, hp] at hagree
  exact absurd hagree (by decide)

/-- In every run, also one in which parents disagree, the two indexes are exact, and a shell is
folded by one thread, in its callback. -/
theorem reach_indexes_exact {bucketOf : ℕ → Name → ℕ} {rootname : Name}
    (hr : Reach (Sys.act arm) (fun _ _ => True) (Sys.init bucketOf rootname) s) :
    IndexOk s.d ∧ ∀ t n, (s.pc t).fold = some n → IsShell s.d n ∧ s.rcu.callback n = .invoked ∧
      ∀ u, (s.pc u).fold = some n → u = t := by
  obtain ⟨S, hV⟩ := Inv.reach hr
  refine ⟨hV.index, fun t n hn => ?_⟩
  have hcb := hV.folding t n hn
  exact ⟨hV.shells n (by rw [hcb]; nofun), hcb, fun u hu => hV.once u t n hu hn⟩

theorem reach_indexes_exact_stale : ∃ s,
    Reach (Sys.act .mark) (fun _ _ => True) (Sys.init (fun _ _ => 0) 0) s ∧ s.d.fresh = 7 ∧
      IndexOk s.d := by
  have he : (exec (Sys.act .mark) (Sys.init (fun _ _ => 0) 0) staleCross).map (·.d.fresh) =
      some 7 := by
    decide +kernel
  obtain ⟨s, hr, hs⟩ := reach_exec_map he
  exact ⟨s, hr, hs, (reach_indexes_exact hr).1⟩

end TrieBenchmark.Txn
