import TrieBenchmark.Bucketlock.Directory

/-!
Which hosts are reachable: a live host is below live hosts up to the root. An add tests under
its locks that the entry of its parent is alive, a rename does not.
-/

namespace TrieBenchmark.Bucketlock

open List Hlist Run

variable {Name : Type} {d d' : DCache Name} {C : DCache Name → Insertion Name → Prop}
  {folded : Option ℕ} {h : ℕ}

def DCache.alive (d : DCache Name) (h : ℕ) : Prop :=
  h = root ∨ ∃ top, d.hashed top ∧ d.hostOf top = h

theorem HashOk.alive_of_entryAlive (hI : HashOk d) (hh : h ∈ d.hosts)
    (ha : d.entryAlive h = true) : d.alive h := by
  by_cases hr : h = root
  · exact .inl hr
  cases htop : (d.dentry h).top with
  | none =>
    have hm : d.topUnhashed h = false := by simpa [DCache.entryAlive, htop] using ha
    rcases hI.marked h hh.1 hr (.inr htop) with hhash | hm'
    · exact .inr ⟨h, hhash, DCache.hostOf_of_host hh.2⟩
    · rw [hm] at hm'
      cases hm'
  | some n =>
    have hm : d.topUnhashed n = false := by simpa [DCache.entryAlive, htop] using ha
    obtain ⟨hn, hs, hhost⟩ := hI.topShell h hh.1 hh.2 n htop
    exact .inr ⟨n, hI.hashed_of_shell ⟨hn, hs⟩ hm, by simp [DCache.hostOf, hs, hhost]⟩

theorem HashOk.alive_host (hI : HashOk d) (ha : d.alive h) : h ∈ d.hosts := by
  obtain rfl | ⟨top, ht, rfl⟩ := ha
  · exact ⟨hI.rootHost.1, hI.rootHost.2.1⟩
  · exact hI.hostOf_host (hI.lt ht)

theorem HashOk.entryAlive_of_alive (hI : HashOk d) (ha : d.alive h) : d.entryAlive h = true := by
  obtain rfl | ⟨top, ht, rfl⟩ := ha
  · simp [DCache.entryAlive, hI.rootHost.2.2.1, hI.rootHost.2.2.2]
  · unfold DCache.entryAlive
    rw [hI.top top ht, DCache.dtopVal]
    split_ifs with he
    · simp [← he, hI.not_marked ht]
    · simp [hI.not_marked ht]

theorem Claimed.hashed_of_dir {parent self top : ℕ} {name : Name}
    (hC : Claimed d parent name self d') (hI : HashOk d) (ht : d.hashed top)
    (hdir : (d.dentry (d.hostOf top)).isdir = true) : d'.hashed top := by
  cases hC with
  | free => exact ht
  | @dropped _ hh _ _ _ hhost _ hfile =>
    refine (hI.del_edit hh).hashed_iff.mpr (.inl ⟨ht, fun hmem => ?_⟩)
    obtain rfl := mem_singleton.mp hmem
    rw [hhost, hfile] at hdir
    cases hdir

theorem HashEdit.alive {out inn : List ℕ} (hE : HashEdit d d' out inn) (hI : HashOk d)
    (hK : SameKind d d') (ha : d.alive h)
    (hback : ∀ top ∈ out, d.hostOf top = h → ∃ a ∈ inn, d'.hostOf a = h) : d'.alive h := by
  obtain rfl | ⟨top, ht, rfl⟩ := ha
  · exact .inl rfl
  by_cases hout : top ∈ out
  · obtain ⟨a, ha, he⟩ := hback top hout rfl
    exact .inr ⟨a, hE.hashed_iff.mpr (.inr ha), he⟩
  · exact .inr ⟨top, hE.hashed_iff.mpr (.inl ⟨ht, hout⟩), hK.hostOf (hI.lt ht)⟩

theorem HashEdit.alive_of_alive {out inn : List ℕ} (hE : HashEdit d d' out inn) (hI : HashOk d)
    (hK : SameKind d d') (hnew : ∀ a ∈ inn, d'.hostOf a = h → d.alive h)
    (ha : d'.alive h) : d.alive h := by
  obtain rfl | ⟨top, ht, he⟩ := ha
  · exact .inl rfl
  rcases hE.hashed_iff.mp ht with ⟨ht, -⟩ | hinn
  · exact .inr ⟨top, ht, (hK.hostOf (hI.lt ht)).symm.trans he⟩
  · exact hnew top hinn he

theorem HashOk.stack_hostOf (hI : HashOk d) {m : Move Name} {top : ℕ} (ht : d.hashed top) :
    (d.stackCommit m top).hostOf d.fresh = d.hostOf top := by
  have hlt := hI.host_lt ht
  rw [DCache.hostOf, DCache.stackCommit_dentry_shell (Nat.ne_of_lt hlt)]
  simp [DCache.newShell]

theorem HashOk.exchange_hostOf (hI : HashOk d) {x : Xchg Name} {topa topb : ℕ}
    (hX : XchgTops d x topa topb) :
    (d.exchangeCommit x topa topb).hostOf d.fresh = d.hostOf topa ∧
      (d.exchangeCommit x topa topb).hostOf (d.fresh + 1) = d.hostOf topb := by
  obtain ⟨hha, hhb, -⟩ := hX.hosts hI
  constructor
  · rw [DCache.hostOf, DCache.exchangeCommit_dentry_sa hha hhb]
    simp [DCache.newShell]
  · rw [DCache.hostOf, DCache.exchangeCommit_dentry_sb hha hhb]
    simp [DCache.newShell]

theorem HashOk.fold_hostOf (hI : HashOk d) {n : ℕ} (hn : d.hashed n) :
    (d.foldCommit n).hostOf (d.hostOf n) = d.hostOf n := by
  apply DCache.hostOf_of_host
  rw [foldCommit_dentry_host]
  exact (hI.hostOf_host (hI.lt hn)).2

/-- A live directory stays alive, unless the step deletes it while it is empty. -/
theorem Effect.stays_alive (hE : Effect C d folded d') (hI : HashOk d) (ha : d.alive h)
    (hdir : (d.dentry h).isdir = true) :
    d'.alive h ∨ ∃ top, d.hashed top ∧ d.hostOf top = h ∧ d.childrenEmpty h = true ∧
      d' = d.delLocked top := by
  have hK := (hE.hashStep hI).kind
  cases hE with
  | read => exact .inl ha
  | flag | flip => exact .inl (ha.imp_right fun ⟨top, ht, he⟩ =>
    ⟨top, ht, (hK.hostOf (hI.lt ht)).trans he⟩)
  | add parent name id isdir positive =>
    exact .inl ((hI.add_edit parent id name isdir positive).alive hI hK ha (by simp))
  | del top ht hkids =>
    by_cases he : d.hostOf top = h
    · exact .inr ⟨top, ht, he, he ▸ hkids, rfl⟩
    · refine .inl ((hI.del_edit ht).alive hI hK ha fun a hmem hhost => ?_)
      obtain rfl := mem_singleton.mp hmem
      exact absurd hhost he
  | claim _ top hC =>
    refine .inl (ha.imp_right fun ⟨top, ht, he⟩ => ⟨top, ?_, ?_⟩)
    · exact hC.hashed_of_dir hI ht (he ▸ hdir)
    · rw [hC.hostOf, he]
  | @stack _ top d₁ ht hp hn _ hC =>
    have hI₁ := hC.hashOk hI
    obtain ⟨hd, hf, -, -⟩ := hC.spec hI
    have ht₁ := hC.self_hashed hI ht
    have ha₁ : d₁.alive h := ha.imp_right fun ⟨top, ht, he⟩ =>
      ⟨top, hC.hashed_of_dir hI ht (he ▸ hdir), by rw [hC.hostOf, he]⟩
    refine .inl ((hI₁.stack_edit ht₁ (by rw [hd, hp]) (by rw [hd, hn])).alive hI₁
      (hI₁.stack_step ht₁ (by rw [hd, hp]) (by rw [hd, hn])).kind ha₁ fun a hmem hhost => ?_)
    obtain rfl := mem_singleton.mp hmem
    exact ⟨_, mem_singleton_self _, (hI₁.stack_hostOf ht₁).trans hhost⟩
  | exchange _ _ _ hX =>
    obtain ⟨hsa, hsb⟩ := hI.exchange_hostOf hX
    refine .inl ((hI.exchange_edit hX).alive hI hK ha fun a hmem hhost => ?_)
    simp only [mem_cons, not_mem_nil, or_false] at hmem
    rcases hmem with rfl | rfl
    · exact ⟨d.fresh, by simp, hsa.trans hhost⟩
    · exact ⟨d.fresh + 1, by simp, hsb.trans hhost⟩
  | fold _ hn hs =>
    refine .inl ((hI.fold_edit hn hs).alive hI hK ha fun a hmem hhost => ?_)
    obtain rfl := mem_singleton.mp hmem
    exact ⟨_, mem_singleton_self _, (hI.fold_hostOf hn).trans hhost⟩
  | scratch _ hn hs =>
    refine .inl (ha.imp_right fun ⟨top, ht, he⟩ => ⟨top, ?_, ?_⟩)
    · rw [DCache.hashed, (hI.scratch_chain hn hs).2]
      exact ht
    · exact (hK.hostOf (hI.lt ht)).trans he

theorem Effect.alive_of_alive (hE : Effect C d folded d') (hI : HashOk d)
    (hh : h < d.fresh) (ha : d'.alive h) : d.alive h := by
  have hK := (hE.hashStep hI).kind
  have hsame : (∀ a, d'.hashed a → d.hashed a) → d.alive h := fun hsub =>
    ha.imp_right fun ⟨top, ht, he⟩ =>
      ⟨top, hsub top ht, (hK.hostOf (hI.alloc top (hsub top ht)).1).symm.trans he⟩
  cases hE with
  | read => exact ha
  | flag | flip => exact hsame fun _ ht => ht
  | add parent name id isdir positive =>
    refine (hI.add_edit parent id name isdir positive).alive_of_alive hI hK (fun a hmem he => ?_) ha
    obtain rfl := mem_singleton.mp hmem
    rw [DCache.hostOf_of_host (by rw [addCommit_dentry_fresh])] at he
    exact absurd hh (by omega)
  | del _ ht => exact hsame fun a ht' =>
    ((hI.del_edit ht).hashed_iff.mp ht').elim And.left (by simp)
  | claim _ _ hC => exact hsame fun a ht => (((hC.spec hI).2.2.2 a).mp ht).1
  | @stack _ top d₁ ht hp hn _ hC =>
    have hI₁ := hC.hashOk hI
    obtain ⟨hd, hf, -, hsub⟩ := hC.spec hI
    have ht₁ := hC.self_hashed hI ht
    have ha₁ : d₁.alive h := (hI₁.stack_edit ht₁ (by rw [hd, hp]) (by rw [hd, hn])).alive_of_alive
      hI₁ (hI₁.stack_step ht₁ (by rw [hd, hp]) (by rw [hd, hn])).kind (fun a hmem he => by
        obtain rfl := mem_singleton.mp hmem
        exact .inr ⟨top, ht₁, (hI₁.stack_hostOf ht₁).symm.trans he⟩) ha
    exact ha₁.imp_right fun ⟨a, ha, he⟩ => ⟨a, ((hsub a).mp ha).1, by rw [← hC.hostOf, he]⟩
  | exchange _ topa topb hX =>
    obtain ⟨hsa, hsb⟩ := hI.exchange_hostOf hX
    refine (hI.exchange_edit hX).alive_of_alive hI hK (fun a hmem he => ?_) ha
    simp only [mem_cons, not_mem_nil, or_false] at hmem
    rcases hmem with rfl | rfl
    · exact .inr ⟨topa, hX.hasheda, hsa.symm.trans he⟩
    · exact .inr ⟨topb, hX.hashedb, hsb.symm.trans he⟩
  | fold n hn hs =>
    refine (hI.fold_edit hn hs).alive_of_alive hI hK (fun a hmem he => ?_) ha
    obtain rfl := mem_singleton.mp hmem
    exact .inr ⟨n, hn, (hI.fold_hostOf hn).symm.trans he⟩
  | scratch _ hn hs =>
    refine hsame fun a ht => ?_
    rw [DCache.hashed, (hI.scratch_chain hn hs).2] at ht
    exact ht

theorem Effect.new_hashed (hE : Effect C d folded d') (hI : HashOk d) {a : ℕ} (hge : d.fresh ≤ a)
    (hlt : a < d'.fresh) : d'.hashed a := by
  cases hE with
  | add parent name id isdir positive =>
    obtain rfl : a = d.fresh := Nat.le_antisymm (Nat.lt_succ_iff.mp hlt) hge
    exact (hI.add_edit parent id name isdir positive).hashed_iff.mpr (.inr (by simp))
  | claim _ _ hC => exact absurd ((hC.spec hI).2.1 ▸ hlt) (Nat.not_lt.mpr hge)
  | @stack _ _ d₁ ht hp hn _ hC =>
    obtain ⟨hd, hf, -, -⟩ := hC.spec hI
    rw [DCache.stackCommit_fresh] at hlt
    obtain rfl : a = d₁.fresh := by omega
    exact ((hC.hashOk hI).stack_edit (hC.self_hashed hI ht) (by rw [hd, hp])
      (by rw [hd, hn])).hashed_iff.mpr (.inr (by simp))
  | exchange _ _ _ hX =>
    rw [DCache.exchangeCommit_fresh] at hlt
    refine (hI.exchange_edit hX).hashed_iff.mpr (.inr ?_)
    simp only [mem_cons, not_mem_nil, or_false]
    omega
  | _ => exact absurd hlt (Nat.not_lt.mpr hge)

def AliveParents (d : DCache Name) : Prop :=
  ∀ a, d.hashed a → d.alive (d.dentry a).iparent

theorem Effect.aliveParents (hE : Effect C d folded d') (hI : HashOk d) (hS : SibOk d)
    (hC : ∀ i, C d i → i.dir ∈ d.hosts ∧ (d.dentry i.dir).isdir = true ∧
      ∀ m, i = .move m → d.entryAlive m.newParent = true)
    (hD : DirParents d) (hA : AliveParents d) : AliveParents d' := by
  intro a ha
  have hdir := hE.hashed_dirOf hI ha
  generalize hp : (d'.dentry a).iparent = p at hdir ⊢
  have halive : d.alive p := by
    cases hdir with
    | old b hb => exact hA b hb
    | add _ _ h hi => exact hI.alive_of_entryAlive (hC _ hi).1 h
    | move m _ hi => exact hI.alive_of_entryAlive (hC _ hi).1 ((hC _ hi).2.2 m rfl)
  rcases hE.stays_alive hI halive (hD.dirOf (fun i h => (hC i h).2.1) hdir).1 with
    h | ⟨top, ht, -, hkids, rfl⟩
  · exact h
  · have hh : d.hashed a := ((hI.del_edit ht).hashed_iff.mp ha).elim And.left (by simp)
    exact absurd hp (hS.not_child hkids hh)

/-- Every entry is below a live host, and `d_parent` leads from a live host over live hosts to
the root. -/
structure Connected (d : DCache Name) : Prop where
  entries : AliveParents d
  chain : ∀ h, d.alive h → (∀ k, d.alive (d.parentOf^[k] h)) ∧ ∃ k, d.parentOf^[k] h = root

/-- The locked section of `stack_shell` finds the entry of its destination directory alive. -/
def Pc.DestAlive (d : DCache Name) : Pc Name → Prop
  | .stkLock m _ => d.entryAlive m.newParent = true
  | _ => True

instance (d : DCache Name) (pc : Pc Name) : Decidable (pc.DestAlive d) := by
  apply pc.casesOn (motive := fun pc => Decidable (pc.DestAlive d)) <;> intros <;> first
    | exact instDecidableTrue
    | exact instDecidableEqBool _ _

def Sys.DestAlive (s : Sys Name) : Act Name → Prop
  | .call _ _ => True
  | .step t _ => (s.pc t).DestAlive s.d

instance (s : Sys Name) (a : Act Name) : Decidable (s.DestAlive a) :=
  match a with
  | .call _ _ => .isTrue trivial
  | .step t _ => inferInstanceAs (Decidable ((s.pc t).DestAlive s.d))

theorem Sound.connected {s : Sys Name} (hs : Sound s) (hA : AliveParents s.d) :
    Connected s.d := by
  obtain ⟨F, hT⟩ := hs.tree
  have htree := hT.parentTree
  have hup : ∀ h, s.d.alive h → s.d.alive (s.d.parentOf h) := by
    rintro h (rfl | ⟨top, ht, rfl⟩)
    · exact .inl htree.1
    · rw [DCache.parentOf, hs.sib.parent top ht]
      exact hA top ht
  refine ⟨hA, fun h hh => ⟨fun k => ?_, ?_⟩⟩
  · induction k with
    | zero => exact hh
    | succ _ ih =>
      rw [Function.iterate_succ_apply']
      exact hup _ ih
  · obtain rfl | ⟨top, ht, rfl⟩ := hh
    · exact ⟨0, rfl⟩
    · obtain ⟨hlt, hhost⟩ := hs.hash.hostOf_host (hs.hash.lt ht)
      exact (htree.2 _ hlt hhost).2.1

variable [DecidableEq Name] {s s' : Sys Name} {a : Act Name}

theorem Sound.act_aliveParents (hs : Sound s) (hD : Directories s) (hA : AliveParents s.d)
    (hok : s.DestAlive a) (ha : s.act a = some s') : AliveParents s'.d := by
  cases a with
  | call =>
    obtain ⟨-, -, rfl⟩ := Sys.of_act_call ha
    exact hA
  | step t oom =>
    obtain ⟨hb, rfl⟩ := Sys.of_act_step ha
    obtain ⟨folded, hE⟩ := hs.effect hD hb oom
      (K := fun m => s.d.entryAlive m.newParent = true) fun m top hpc _ => by
        have h : (s.pc t).DestAlive s.d := hok
        rwa [hpc] at h
    exact hE.aliveParents hs.hash hs.sib (fun i h => h) hD.parents hA

/-- In every run of careful actions whose renames find their destination directory alive, a
live host is connected to the root over live hosts. -/
theorem reach_connected (bucketOf : ℕ → Name → ℕ) (rootname : Name)
    (hr : Reach Sys.act (fun s a => s.Careful a ∧ s.Directed a ∧ s.DestAlive a)
      (Sys.init bucketOf rootname) s) : Connected s.d := by
  have hinv : Sound s ∧ Directories s ∧ AliveParents s.d := by
    refine hr.invariant (P := fun s => Sound s ∧ Directories s ∧ AliveParents s.d)
      ⟨.init bucketOf rootname, .init bucketOf rootname, fun a _ => .inl rfl⟩ ?_
    rintro s a s' ⟨hs, hD, hA⟩ ⟨hcare, hdir, halive⟩ ha
    exact ⟨hs.act hcare ha, hD.act hs hdir ha, hs.act_aliveParents hD hA halive ha⟩
  exact hinv.1.connected hinv.2.2

theorem reach_connected_rename : ∃ s, Reach Sys.act
    (fun s a => s.Careful a ∧ s.Directed a ∧ s.DestAlive a) (Sys.init (fun _ _ => 0) 0) s ∧
      s.d.parentOf 2 = 1 ∧ Connected s.d := by
  have he : (exec (guarded Sys.act fun s a => s.Careful a ∧ s.Directed a ∧ s.DestAlive a)
      (Sys.init (fun _ _ => 0) 0) (Act.op 0 (.add [1] 0) 3 ++ Act.op 0 (.add [2] 0) 3 ++
        Act.op 0 (.rename [2] [1, 3]) 15)).map (fun s => s.d.parentOf 2) = some 1 := by
    rfl
  obtain ⟨s, hr, hs⟩ := reach_exec_map he
  exact ⟨s, hr.of_guarded, hs, reach_connected _ _ hr.of_guarded⟩

/-- Thread 0 renames `/2` to `/1/3` and stops before its locked section. Thread 1 unlinks `/1`,
which is empty. Then thread 0 goes on. -/
def renameIntoRemoved : List (Act ℕ) :=
  Act.op 1 (.add [1] 0) 3 ++ Act.op 1 (.add [2] 0) 3 ++ Act.op 0 (.rename [2] [1, 3]) 12 ++
    Act.op 1 (.unlink [1]) 4 ++ Act.steps 0 3

theorem renameIntoRemoved_exec : (exec (guarded Sys.act fun s a => s.Careful a ∧ s.Directed a)
    (Sys.init (fun _ _ => 0) 0) renameIntoRemoved).map (fun s =>
      ([s.pc 0, s.pc 1], s.d.hashChain 0, (s.d.dentry 3).iparent, s.d.topUnhashed 1,
        (s.d.dentry 1).top)) =
    some ([.done (.code none), .done (.code none)], [3], 1, true, none) := by
  rfl

/-- The entry is then below a host that no name leads to. -/
theorem renameIntoRemoved_not_connected : ∃ s, Reach Sys.act (fun _ _ => True)
    (Sys.init (fun _ _ => 0) 0) s ∧ ¬ Connected s.d := by
  obtain ⟨s, hr, hs⟩ := reach_exec_map renameIntoRemoved_exec
  have hI : HashOk s.d := by
    obtain ⟨⟨S, hV⟩, -⟩ := reach_sound _ _ (hr.of_guarded.mono fun _ _ h => h.1)
    exact hV.hash
  simp only [Prod.mk.injEq] at hs
  obtain ⟨-, hchain, hip, hm, htop⟩ := hs
  refine ⟨s, hr.of_guarded.mono fun _ _ _ => trivial, fun hA => ?_⟩
  have hh : s.d.hashed 3 := ⟨0, by simp [hchain]⟩
  have h1 := hA.entries 3 hh
  rw [hip] at h1
  obtain h1 | ⟨top, ht, he⟩ := h1
  · cases h1
  · have hdt := hI.top top ht
    rw [he, htop] at hdt
    obtain rfl : top = 1 := by
      unfold DCache.dtopVal at hdt
      split_ifs at hdt with h
      exact h
    rw [hI.not_marked ht] at hm
    cases hm

end TrieBenchmark.Bucketlock
