import TrieBenchmark.Bucketlock.ChildIndex
import TrieBenchmark.Bucketlock.TreeRun

/-!
Below which directories a step leaves entries: those that had entries before it, and those its
insertion names.
-/

namespace TrieBenchmark.Bucketlock

open DCache Function Hlist

variable {Name : Type} {d d' : DCache Name} {C : DCache Name → Insertion Name → Prop}
  {folded : Option ℕ}

inductive DirOf (C : DCache Name → Insertion Name → Prop) (d : DCache Name) : ℕ → Prop where
  | old (a : ℕ) : d.hashed a → DirOf C d (d.dentry a).iparent
  | add (parent : ℕ) : (d.dentry parent).neg = false → d.entryAlive parent = true →
      C d (.add parent) → DirOf C d parent
  | move (m : Move Name) : (d.dentry m.newParent).neg = false → C d (.move m) →
      DirOf C d m.newParent

namespace Effect

theorem new_dirOf (hE : Effect C d folded d') (hI : HashOk d) {a : ℕ} (hge : d.fresh ≤ a)
    (hlt : a < d'.fresh) :
    (d'.dentry a).parent = (d'.dentry a).iparent ∧ DirOf C d (d'.dentry a).iparent := by
  cases hE with
  | add parent _ _ _ _ hneg halive _ hC =>
    obtain rfl : a = d.fresh := Nat.le_antisymm (Nat.lt_succ_iff.mp hlt) hge
    rw [addCommit_dentry_fresh]
    exact ⟨rfl, .add parent hneg halive hC⟩
  | claim _ _ hC => exact absurd ((hC.spec hI).2.1 ▸ hlt) (Nat.not_lt.mpr hge)
  | @stack m top d₁ ht _ _ hneg hC hm =>
    obtain ⟨-, hf, -, -⟩ := hC.spec hI
    have hh := hI.host_lt ht
    rw [stackCommit_fresh] at hlt
    obtain rfl : a = d₁.fresh := by omega
    rw [stackCommit_dentry_shell (by rw [hC.hostOf, hf]; exact Nat.ne_of_lt hh)]
    exact ⟨rfl, .move m hneg hm⟩
  | exchange _ topa topb hX =>
    obtain ⟨hha, hhb, -⟩ := hX.hosts hI
    rw [exchangeCommit_fresh] at hlt
    obtain rfl | rfl : a = d.fresh ∨ a = d.fresh + 1 := by omega
    · rw [exchangeCommit_dentry_sa hha hhb]
      exact ⟨rfl, hX.parentb ▸ .old topb hX.hashedb⟩
    · rw [exchangeCommit_dentry_sb hha hhb]
      exact ⟨rfl, hX.parenta ▸ .old topa hX.hasheda⟩
  | _ => exact absurd hlt (Nat.not_lt.mpr hge)

theorem hashed_dirOf (hE : Effect C d folded d') (hI : HashOk d) {a : ℕ} (ha : d'.hashed a) :
    DirOf C d (d'.dentry a).iparent := by
  have hH := hE.hashStep hI
  by_cases hf : ∃ n, folded = some n ∧ a = d.hostOf n
  · obtain ⟨n, rfl, rfl⟩ := hf
    cases hE with
    | fold n hn =>
      rw [foldCommit_dentry_host]
      exact .old n hn
    | scratch n hn =>
      simp only [DCache.foldScratch, modify_self]
      exact .old n hn
  · have hnot : ∀ n, folded = some n → a ≠ d.hostOf n := fun n hn he => hf ⟨n, hn, he⟩
    rcases hH.came a ha with hold | hge | hfold
    · rw [(hH.key a (hI.lt hold) hnot).1]
      exact .old a hold
    · exact (hE.new_dirOf hI hge ((hE.hashOk hI).alloc a ha).1).2
    · exact absurd hfold hf

theorem parent_dirOf (hE : Effect C d folded d') (hI : HashOk d) {a : ℕ} (ha : a < d.fresh) :
    d'.parentOf a = d.parentOf a ∨ DirOf C d (d'.parentOf a) := by
  have hmodify : ∀ {b : ℕ} {f : Dentry Name → Dentry Name}, (∀ e, (f e).parent = e.parent) →
      (d.modify b f).parentOf a = d.parentOf a := modify_parentOf
  cases hE with
  | read | del => exact .inl rfl
  | flag | flip => exact .inl (hmodify fun e => rfl)
  | add parent name id isdir positive =>
    exact .inl ((addCommit_grows parent name id isdir positive).2 a ha)
  | claim _ _ hC => exact .inl (by rw [DCache.parentOf, (hC.spec hI).1, DCache.parentOf])
  | stack m top ht _ _ hneg hC hm =>
    obtain ⟨hd, hf, -, -⟩ := hC.spec hI
    have hh := hI.host_lt ht
    rw [DCache.parentOf, stackCommit_old (by rw [hC.hostOf, hf]; exact hh) (hf.symm ▸ ha), hd]
    simp only
    split_ifs
    · exact .inr (.move m hneg hm)
    · exact .inl rfl
  | exchange _ topa topb hX =>
    obtain ⟨hha, hhb, hab⟩ := hX.hosts hI
    rw [DCache.parentOf, exchangeCommit_old hha hhb hab ha]
    simp only
    split_ifs
    · exact .inr (hX.parentb ▸ .old topb hX.hashedb)
    · exact .inr (hX.parenta ▸ .old topa hX.hasheda)
    · exact .inl rfl
  | fold => exact .inl (foldCommit_grows.2 a ha)
  | scratch => exact .inl (foldScratch_grows.2 a ha)

theorem state_eq (hE : Effect C d folded d') (hI : HashOk d) {a : ℕ} (ha : a < d.fresh) :
    (d'.dentry a).isdir = (d.dentry a).isdir ∧
      ((d'.dentry a).neg = (d.dentry a).neg ∧ (d'.dentry a).id = (d.dentry a).id ∨
        ∃ negative id, d' = d.flip a negative id ∧
          (negative = true → (d.dentry a).isdir = true → d.childrenEmpty a = true)) := by
  have hmodify : ∀ {P : Prop} (b : ℕ) (f : Dentry Name → Dentry Name),
      (∀ e, (f e).isdir = e.isdir ∧ (f e).neg = e.neg ∧ (f e).id = e.id) →
      ((d.modify b f).dentry a).isdir = (d.dentry a).isdir ∧
        (((d.modify b f).dentry a).neg = (d.dentry a).neg ∧
          ((d.modify b f).dentry a).id = (d.dentry a).id ∨ P) := by
    intro P b f hf
    exact (d.modify_keeps b a (fun e' e => e'.isdir = e.isdir ∧ e'.neg = e.neg ∧ e'.id = e.id)
      (fun _ => ⟨rfl, rfl, rfl⟩) hf).imp id .inl
  cases hE with
  | read | del => exact ⟨rfl, .inl ⟨rfl, rfl⟩⟩
  | flag b => exact hmodify b _ fun e => ⟨rfl, rfl, rfl⟩
  | flip top negative id _ hkids =>
    rcases eq_or_ne a (d.hostOf top) with rfl | hne
    · exact ⟨by simp [DCache.flip], .inr ⟨negative, id, rfl, hkids⟩⟩
    · rw [DCache.flip, modify_of_ne _ _ _ _ hne]
      exact ⟨rfl, .inl ⟨rfl, rfl⟩⟩
  | add =>
    rw [addCommit_dentry_of_lt ha]
    exact ⟨rfl, .inl ⟨rfl, rfl⟩⟩
  | claim _ _ hC =>
    rw [(hC.spec hI).1]
    exact ⟨rfl, .inl ⟨rfl, rfl⟩⟩
  | stack _ top ht _ _ _ hC =>
    obtain ⟨hd, hf, -, -⟩ := hC.spec hI
    have hh := hI.host_lt ht
    rw [stackCommit_old (by rw [hC.hostOf, hf]; exact hh) (hf.symm ▸ ha), hd]
    exact ⟨rfl, .inl ⟨rfl, rfl⟩⟩
  | exchange _ _ _ hX =>
    obtain ⟨hha, hhb, hab⟩ := hX.hosts hI
    rw [exchangeCommit_old hha hhb hab ha]
    exact ⟨rfl, .inl ⟨rfl, rfl⟩⟩
  | fold =>
    simp only [DCache.foldCommit]
    exact hmodify _ _ fun e => ⟨rfl, rfl, rfl⟩
  | scratch =>
    simp only [DCache.foldScratch]
    exact hmodify _ _ fun e => ⟨rfl, rfl, rfl⟩

end Effect

def Insertion.dir : Insertion Name → ℕ
  | .add parent => parent
  | .move m => m.newParent

def DCache.hosts (d : DCache Name) : Set ℕ :=
  {a | a < d.fresh ∧ (d.dentry a).shell = false}

structure Sited (d : DCache Name) : Prop where
  parent : ∀ a ∈ d.hosts, d.parentOf a ∈ d.hosts
  iparent : ∀ a, d.hashed a → (d.dentry a).iparent ∈ d.hosts

theorem SameKind.hosts (hK : SameKind d d') (hle : d.fresh ≤ d'.fresh) : d.hosts ⊆ d'.hosts :=
  fun a ha => ⟨Nat.lt_of_lt_of_le ha.1 hle, (hK a ha.1).1.trans ha.2⟩

theorem Sited.dirOf (hS : Sited d) (hC : ∀ i, C d i → i.dir ∈ d.hosts) {p : ℕ}
    (hp : DirOf C d p) : p ∈ d.hosts := by
  cases hp with
  | old a ha => exact hS.iparent a ha
  | add _ _ _ h | move _ _ h => exact hC _ h

theorem Effect.sited (hE : Effect C d folded d') (hI : HashOk d)
    (hC : ∀ i, C d i → i.dir ∈ d.hosts) (hS : Sited d) : Sited d' := by
  have hH := hE.hashStep hI
  have hsub := hH.kind.hosts hH.fresh
  refine ⟨fun a ha => hsub ?_, fun a ha => hsub (hS.dirOf hC (hE.hashed_dirOf hI ha))⟩
  by_cases hlt : a < d.fresh
  · have hold : a ∈ d.hosts := ⟨hlt, (hH.kind a hlt).1.symm.trans ha.2⟩
    rcases hE.parent_dirOf hI hlt with he | hdir
    · rw [he]
      exact hS.parent a hold
    · exact hS.dirOf hC hdir
  · obtain ⟨he, hdir⟩ := hE.new_dirOf hI (Nat.not_lt.mp hlt) ha.1
    rw [DCache.parentOf, he]
    exact hS.dirOf hC hdir

structure Places (s : Sys Name) : Prop where
  sited : Sited s.d
  held : ∀ t, Held s.d s.d.hosts (s.pc t)

theorem Held.mono {D D' : Set ℕ} {pc : Pc Name} (hH : Held d D pc) (hle : d.fresh ≤ d'.fresh)
    (hD : D ⊆ D') : Held d' D' pc :=
  ⟨fun a ha => ⟨(hH.tops a ha).1, Nat.lt_of_lt_of_le (hH.tops a ha).2 hle⟩,
    fun a ha => hD (hH.dirs a ha)⟩

namespace Places

variable {s s' : Sys Name}

theorem init (bucketOf : ℕ → Name → ℕ) (rootname : Name) : Places (Sys.init bucketOf rootname) := by
  have hroot : root ∈ (dcCreate bucketOf rootname).hosts := ⟨Nat.zero_lt_one, rfl⟩
  refine ⟨⟨fun a _ => hroot, fun a _ => hroot⟩, fun t => ⟨?_, ?_⟩⟩
  · simp [Sys.init, Pc.tops]
  · simp [Sys.init, Pc.dirs]

theorem dir_mem (hP : Places s) {t : ℕ} {m : Move Name} {top : ℕ} (hpc : s.pc t = .stkLock m top) :
    m.newParent ∈ s.d.hosts :=
  (hP.held t).dirs _ (by simp [hpc, Pc.dirs])

theorem addDir_mem (hP : Places s) {t parent : ℕ} (hpc : parent ∈ (s.pc t).addDir) :
    parent ∈ s.d.hosts := by
  refine (hP.held t).dirs _ ?_
  cases h : s.pc t <;> simp_all [Pc.addDir, Pc.dirs]

variable [DecidableEq Name] {S F : ℕ → Set ℕ} {a : Act Name}

theorem step_held (hP : Places s) (hV : Inv s S) (hT : TreeInv s F) (t : ℕ) (oom : Bool) :
    Held s.d s.d.hosts (stepPc s.d (s.pc t) oom).2 := by
  have hroot : root ∈ s.d.hosts := ⟨hV.hash.rootHost.1, hV.hash.rootHost.2.1⟩
  refine stepPc_held oom hT.bounded hroot (fun a ha => ?_) hP.sited.parent (hP.held t)
  exact hV.hash.hostOf_host ha.2

theorem act (hP : Places s) (hV : Inv s S) (hT : TreeInv s F) (ha : s.act a = some s') :
    Places s' := by
  cases a with
  | call t c =>
    obtain ⟨-, hadm, rfl⟩ := Sys.of_act_call ha
    refine ⟨hP.sited, fun u => ?_⟩
    rcases eq_or_ne u t with rfl | hne
    · simp only [update_self]
      refine ⟨(hT.start_in hadm).tops, fun a ha => ?_⟩
      rw [(callStart_starts c).dirs a ha]
      exact ⟨hV.hash.rootHost.1, hV.hash.rootHost.2.1⟩
    · simp only [update_of_ne hne]
      exact hP.held u
  | step t oom =>
    obtain ⟨hb, rfl⟩ := Sys.of_act_step ha
    obtain ⟨folded, hE, -⟩ := hV.effect (C := fun d i => i.dir ∈ d.hosts) oom hb
      (fun m top hpc _ => hP.dir_mem hpc) fun parent hpc => hP.addDir_mem hpc
    have hH := hE.hashStep hV.hash
    have hsub := hH.kind.hosts hH.fresh
    refine ⟨hE.sited hV.hash (fun _ h => h) hP.sited, fun u => ?_⟩
    rcases eq_or_ne u t with rfl | hne
    · simp only [update_self]
      exact (hP.step_held hV hT u oom).mono hH.fresh hsub
    · simp only [update_of_ne hne]
      exact (hP.held u).mono hH.fresh hsub

end Places

end TrieBenchmark.Bucketlock
