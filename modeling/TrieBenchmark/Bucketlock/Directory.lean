import TrieBenchmark.Bucketlock.Agreement
import TrieBenchmark.Bucketlock.Place

/-!
Which dentries may have children. A directory gains children by adds and by renames; an add
tests the type of its parent, a rename does not.
-/

namespace TrieBenchmark.Bucketlock

open Option Hlist Run

variable {Name : Type} {d d' : DCache Name} {C : DCache Name → Insertion Name → Prop}
  {folded : Option ℕ} {pc : Pc Name} {p : ℕ}

theorem SibOk.childrenEmpty_iff (hS : SibOk d) (P : ℕ) :
    d.childrenEmpty P = true ↔ d.childChain P = [] := by
  have hhead := hS.family.head_eq P
  unfold DCache.childrenEmpty Links.first
  rw [hhead]
  cases d.childChain P <;> simp

theorem SibOk.not_child (hS : SibOk d) {P a : ℕ} (he : d.childrenEmpty P = true)
    (ha : d.hashed a) : (d.dentry a).iparent ≠ P := by
  intro hp
  have hmem := (hS.mem P a).mpr ⟨ha, hp⟩
  rw [(hS.childrenEmpty_iff P).mp he] at hmem
  exact List.not_mem_nil hmem

def DirParents (d : DCache Name) : Prop :=
  ∀ a, d.hashed a →
    (d.dentry (d.dentry a).iparent).isdir = true ∧ (d.dentry (d.dentry a).iparent).neg = false

theorem DirParents.dirOf (hD : DirParents d)
    (hC : ∀ i, C d i → (d.dentry i.dir).isdir = true) (hp : DirOf C d p) :
    (d.dentry p).isdir = true ∧ (d.dentry p).neg = false := by
  cases hp with
  | old a ha => exact hD a ha
  | add _ hneg _ h | move _ hneg h => exact ⟨hC _ h, hneg⟩

theorem DCache.flip_iparent (b : ℕ) (negative : Bool) (id a : ℕ) :
    ((d.flip b negative id).dentry a).iparent = (d.dentry a).iparent := by
  unfold flip
  rcases eq_or_ne a b with rfl | hne
  · rw [modify_self]
  · rw [modify_of_ne _ _ _ _ hne]

theorem Effect.dirParents (hE : Effect C d folded d') (hI : HashOk d) (hS : SibOk d)
    (hsite : Sited d)
    (hC : ∀ i, C d i → i.dir ∈ d.hosts ∧ (d.dentry i.dir).isdir = true) (hD : DirParents d) :
    DirParents d' := by
  intro a ha
  have hdir := hE.hashed_dirOf hI ha
  generalize hp : (d'.dentry a).iparent = p at hdir ⊢
  obtain ⟨hd, hneg⟩ := hD.dirOf (fun i h => (hC i h).2) hdir
  have hlt := (hsite.dirOf (fun i h => (hC i h).1) hdir).1
  obtain ⟨hd', hneg' | ⟨negative, id, rfl, hkids⟩⟩ := hE.state_eq hI hlt
  · exact ⟨hd'.trans hd, hneg'.1.trans hneg⟩
  · refine ⟨hd'.trans hd, ?_⟩
    cases negative with
    | false => simp [DCache.flip]
    | true =>
      rw [DCache.flip_iparent] at hp
      exact absurd hp (hS.not_child (hkids rfl hd) ha)

/-- The destination that `dc_rename` finds to be positive is a directory. -/
def Pc.IntoDir (d : DCache Name) : Pc Name → Prop
  | .renToPos _ _ _ toParent _ => (d.dentry toParent).isdir = true
  | _ => True

instance (d : DCache Name) (pc : Pc Name) : Decidable (pc.IntoDir d) := by
  apply pc.casesOn (motive := fun pc => Decidable (pc.IntoDir d)) <;> intros <;> first
    | exact instDecidableTrue
    | exact instDecidableEqBool _ _

theorem Pc.into_mem_dirs (h : pc.into = some p) : p ∈ pc.dirs := by
  cases pc <;> simp_all [Pc.into, Pc.move, Pc.dirs]

theorem Pc.into_of_addDir (h : p ∈ pc.addDir) : pc.into = some p := by
  cases pc <;> simp_all [Pc.addDir, Pc.into]

theorem Starts.into {c : Call Name} (h : Starts c pc) : pc.into = none := by
  cases h <;> rfl

variable {s s' : Sys Name} {a : Act Name}

structure Sound (s : Sys Name) : Prop where
  inv : ∃ S, Inv s S
  moves : MovesFit s
  sib : SibOk s.d
  tree : ∃ F, TreeInv s F
  places : Places s

theorem Sound.init (bucketOf : ℕ → Name → ℕ) (rootname : Name) :
    Sound (Sys.init bucketOf rootname) :=
  ⟨⟨fun _ => ∅, Inv.init bucketOf rootname _⟩, by simp [MovesFit, Sys.init, Pc.move],
    dcCreate_sibOk bucketOf rootname, ⟨_, TreeInv.init bucketOf rootname⟩,
    Places.init bucketOf rootname⟩

theorem Sound.hash (hs : Sound s) : HashOk s.d :=
  hs.inv.elim fun _ hV => hV.hash

def Sys.Directed (s : Sys Name) : Act Name → Prop
  | .call _ _ => True
  | .step t _ => (s.pc t).IntoDir s.d

instance (s : Sys Name) (a : Act Name) : Decidable (s.Directed a) :=
  match a with
  | .call _ _ => .isTrue trivial
  | .step t _ => inferInstanceAs (Decidable ((s.pc t).IntoDir s.d))

structure Directories (s : Sys Name) : Prop where
  parents : DirParents s.d
  into : ∀ t p, (s.pc t).into = some p → (s.d.dentry p).isdir = true

theorem Directories.init (bucketOf : ℕ → Name → ℕ) (rootname : Name) :
    Directories (Sys.init bucketOf rootname) := by
  refine ⟨fun a _ => ⟨rfl, rfl⟩, fun t p hp => ?_⟩
  simp [Sys.init, Pc.into, Pc.move] at hp

variable [DecidableEq Name]

theorem Successor.into {pc' : Pc Name} (h : Successor d pc pc') (hp : pc'.into = some p)
    (hk : pc.IntoDir d) : pc.into = some p ∨ (d.dentry p).isdir = true := by
  cases h with
  | passes h => exact .inl (eq_some_of_passes h.into hp)
  | add hdir =>
    obtain rfl := some.inj hp
    exact .inr hdir
  | toPos =>
    obtain rfl := some.inj hp
    exact .inr hk
  | cross => exact .inl hp
  | _ => cases hp

theorem Sound.act (hs : Sound s) (hok : s.Careful a) (ha : s.act a = some s') : Sound s' := by
  obtain ⟨⟨S, hV⟩, hM, hS, ⟨F, hT⟩, hP⟩ := hs
  exact ⟨⟨_, hV.act hok.sameTwice ha⟩, hM.act hok ha, hV.act_sibOk hM hS ha, hT.act ha,
    hP.act hV hT ha⟩

theorem Sound.effect (hs : Sound s) (hD : Directories s) {t : ℕ} (hb : (s.pc t).busy = true)
    (oom : Bool) {K : Move Name → Prop}
    (hK : ∀ m top, s.pc t = .stkLock m top → s.d.topUnhashed top = false → K m) :
    ∃ folded, Effect (fun d i => i.dir ∈ d.hosts ∧ (d.dentry i.dir).isdir = true ∧
      ∀ m, i = .move m → K m) s.d folded (stepPc s.d (s.pc t) oom).1 := by
  obtain ⟨S, hV⟩ := hs.inv
  obtain ⟨folded, hE, -⟩ := hV.effect (C := fun d i => i.dir ∈ d.hosts ∧
    (d.dentry i.dir).isdir = true ∧ ∀ m, i = .move m → K m) oom hb
    (fun m top hpc hm => ⟨hs.places.dir_mem hpc, hD.into t _ (by rw [hpc]; rfl), by
      rintro m' ⟨⟩
      exact hK m top hpc hm⟩)
    (fun p hp => ⟨hs.places.addDir_mem hp, hD.into t _ (Pc.into_of_addDir hp), by simp⟩)
  exact ⟨folded, hE⟩

theorem Directories.act (hD : Directories s) (hs : Sound s) (hok : s.Directed a)
    (ha : s.act a = some s') : Directories s' := by
  cases a with
  | call t =>
    obtain ⟨-, -, rfl⟩ := Sys.of_act_call ha
    refine ⟨hD.parents, fun u p hp => ?_⟩
    rcases eq_or_ne u t with rfl | hne
    · simp [(callStart_starts _).into] at hp
    · exact hD.into u p (by simpa [hne] using hp)
  | step t oom =>
    obtain ⟨hb, rfl⟩ := Sys.of_act_step ha
    obtain ⟨folded, hE⟩ := hs.effect hD hb oom (K := fun _ => True) fun _ _ _ _ => trivial
    have hkeep : ∀ u p, (s.pc u).into = some p →
        ((stepPc s.d (s.pc t) oom).1.dentry p).isdir = true := fun u p hp => by
      have hlt := ((hs.places.held u).dirs p (Pc.into_mem_dirs hp)).1
      rw [(hE.state_eq hs.hash hlt).1]
      exact hD.into u p hp
    refine ⟨hE.dirParents hs.hash hs.sib hs.places.sited (fun i h => ⟨h.1, h.2.1⟩) hD.parents,
      fun u p hp => ?_⟩
    rcases eq_or_ne u t with rfl | hne
    · simp only [Function.update_self] at hp
      rcases (stepPc_successor _ _ _).into hp hok with hold | hdir
      · exact hkeep u p hold
      · obtain ⟨⟨S, hV⟩, -, -, ⟨F, hT⟩, hP⟩ := hs
        have hlt := ((hP.step_held hV hT u oom).dirs p (Pc.into_mem_dirs hp)).1
        rw [(hE.state_eq hV.hash hlt).1]
        exact hdir
    · exact hkeep u p (by simpa [hne] using hp)

/-! Runs of one thread. -/

omit [DecidableEq Name] in
theorem Starts.found {c : Call Name} (h : Starts c pc) : pc.found = none := by
  cases h with
  | walk _ _ k => cases k <;> simp_all [Cont.opens, Pc.found]
  | _ => rfl

def Current (s : Sys Name) (t : ℕ) : Prop :=
  ∀ f, (s.pc t).found = some f → s.d.childLookup f.parent f.name = f.host

theorem Current.act {t : ℕ} (hc : Current s t) (ht : a.thread = t) (ha : s.act a = some s') :
    Current s' t := by
  cases a with
  | call u =>
    obtain rfl : u = t := ht
    obtain ⟨-, -, rfl⟩ := Sys.of_act_call ha
    intro f hf
    simp [(callStart_starts _).found] at hf
  | step u =>
    obtain rfl : u = t := ht
    obtain ⟨-, rfl⟩ := Sys.of_act_step ha
    intro f hf
    simp only [Function.update_self] at hf
    obtain ⟨hr, hold | hnew⟩ := (stepPc_successor _ _ _).found_eq hf
    · rw [stepPc_reads hr]
      exact hc f hold
    · rw [stepPc_reads hr]
      exact hnew

theorem Current.careful {t : ℕ} (hc : Current s t) (hs : Sound s) (ht : a.thread = t) :
    s.Careful a := by
  cases a with
  | call => trivial
  | step u =>
    obtain rfl : u = t := ht
    constructor
    · cases hpc : s.pc u with
      | renCross fromParent _ _ toParent =>
        have hv := hc _ (by rw [hpc]; rfl)
        obtain ⟨top, htop, rfl⟩ := map_eq_some_iff.mp hv
        obtain ⟨hh, hp, -⟩ := hs.hash.findTop_eq_some.mp htop
        show (s.d.dentry (s.d.hostOf top)).parent ≠ toParent ↔ fromParent ≠ toParent
        rw [hs.sib.parent top hh, hp]
      | _ => trivial
    · cases hpc : s.pc u with
      | xchLookB =>
        intro hp hn
        rw [← hp, ← hn]
        exact hc _ (by rw [hpc]; rfl)
      | _ => trivial

def ChildrenInDirs (d : DCache Name) : Prop :=
  ∀ h, d.childChain h ≠ [] → (d.dentry h).isdir = true ∧ d.isPositive h = true

omit [DecidableEq Name] in
theorem SibOk.childrenInDirs (hS : SibOk d) (hD : DirParents d) : ChildrenInDirs d := by
  intro h hne
  obtain ⟨a, ha⟩ := List.exists_mem_of_ne_nil _ hne
  obtain ⟨hh, rfl⟩ := (hS.mem h a).mp ha
  obtain ⟨hdir, hneg⟩ := hD a hh
  exact ⟨hdir, by simp [DCache.isPositive, hneg]⟩

/-- In every run of one thread whose renames all go into directories, only positive
directories have children. -/
theorem reach_childrenInDirs (bucketOf : ℕ → Name → ℕ) (rootname : Name) (t : ℕ)
    (hr : Reach Sys.act (fun s a => a.thread = t ∧ s.Directed a) (Sys.init bucketOf rootname) s) :
    ChildrenInDirs s.d := by
  have hinv : Sound s ∧ Directories s ∧ Current s t := by
    refine hr.invariant (P := fun s => Sound s ∧ Directories s ∧ Current s t)
      ⟨.init bucketOf rootname, .init bucketOf rootname, ?_⟩ ?_
    · intro f hf
      cases hf
    · rintro s a s' ⟨hs, hD, hc⟩ ⟨ht, hok⟩ ha
      exact ⟨hs.act (hc.careful hs ht) ha, hD.act hs hok ha, hc.act ht ha⟩
  exact hinv.1.sib.childrenInDirs hinv.2.1.parents

theorem reach_childrenInDirs_rename : ∃ s, Reach Sys.act (fun s a => a.thread = 0 ∧ s.Directed a)
    (Sys.init (fun _ _ => 0) 0) s ∧ s.d.childChain 1 = [3] ∧ ChildrenInDirs s.d := by
  have he : (exec (guarded Sys.act fun s a => a.thread = 0 ∧ s.Directed a)
      (Sys.init (fun _ _ => 0) 0) (Act.op 0 (.add [1] 0) 3 ++ Act.op 0 (.addFile [2] 0) 3 ++
        Act.op 0 (.rename [2] [1, 3]) 15)).map (fun s => s.d.childChain 1) = some [3] := by
    rfl
  obtain ⟨s, hr, hs⟩ := reach_exec_map he
  exact ⟨s, hr.of_guarded, hs, reach_childrenInDirs _ _ 0 hr.of_guarded⟩

/-- A directory is renamed below a file, and the file is deleted. -/
def renameIntoFile : List (Act ℕ) :=
  Act.op 0 (.addFile [1] 0) 3 ++ Act.op 0 (.add [2] 0) 3 ++ Act.op 0 (.rename [2] [1, 3]) 15 ++
    Act.op 0 (.delete [1]) 3

theorem renameIntoFile_exec : (exec (guarded Sys.act fun _ a => a.thread = 0)
    (Sys.init (fun _ _ => 0) 0) renameIntoFile).map (fun s =>
      (s.pc 0, s.d.childChain 1, (s.d.dentry 1).isdir, s.d.isPositive 1)) =
    some (.done (.code none), [3], false, false) := by
  rfl

theorem renameIntoFile_not_childrenInDirs : ∃ s, Reach Sys.act (fun _ a => a.thread = 0)
    (Sys.init (fun _ _ => 0) 0) s ∧ ¬ ChildrenInDirs s.d := by
  obtain ⟨s, hr, hs⟩ := reach_exec_map renameIntoFile_exec
  simp only [Prod.mk.injEq] at hs
  obtain ⟨-, hkids, hdir, -⟩ := hs
  refine ⟨s, hr.of_guarded, fun hA => ?_⟩
  have := (hA 1 (by simp [hkids])).1
  rw [hdir] at this
  cases this

end TrieBenchmark.Bucketlock
