import TrieBenchmark.Bucketlock.ChildIndex

/-!
Index agreement: in every state between two steps the hash index, the child lists, `d_parent`
and `d_top` describe the same set of named tops.
-/

namespace TrieBenchmark.Bucketlock

open Hlist Run

variable {Name : Type} {d : DCache Name}

def NamedTop (d : DCache Name) (T : ℕ) : Prop :=
  T < d.fresh ∧ T ≠ root ∧ d.topUnhashed T = false ∧
    ((d.dentry T).shell = true ∨ (d.dentry T).top = none)

structure IndexAgreement (d : DCache Name) : Prop where
  bucket : ∀ T, NamedTop d T → ∀ b, T ∈ d.hashChain b ↔ b = d.bucket T
  child : ∀ T, NamedTop d T → ∀ P, T ∈ d.childChain P ↔ P = (d.dentry T).iparent
  parent : ∀ T, NamedTop d T → (d.dentry (d.hostOf T)).parent = (d.dentry T).iparent
  top : ∀ T, NamedTop d T → (d.dentry (d.hostOf T)).top = DCache.dtopVal (d.hostOf T) T
  unique : ∀ T T', NamedTop d T → NamedTop d T' → (d.dentry T).iparent = (d.dentry T').iparent →
    (d.dentry T).iname = (d.dentry T').iname → T = T'
  only : ∀ T h, T ∈ d.hashChain h ∨ T ∈ d.childChain h → NamedTop d T
  nodup : ∀ h, (d.hashChain h).Nodup ∧ (d.childChain h).Nodup

theorem HashOk.namedTop_iff (hI : HashOk d) {T : ℕ} : NamedTop d T ↔ d.hashed T := by
  constructor
  · rintro ⟨hlt, hr, hm, hk⟩
    rcases hI.marked T hlt hr hk with hh | hm'
    · exact hh
    · rw [hm] at hm'
      cases hm'
  · intro hT
    obtain ⟨hlt, hr⟩ := hI.alloc T hT
    refine ⟨hlt, hr, hI.not_marked hT, ?_⟩
    by_cases hs : (d.dentry T).shell = true
    · exact .inl hs
    · have htop := hI.top T hT
      rw [DCache.hostOf_of_host (by simpa using hs)] at htop
      exact .inr (by simpa [DCache.dtopVal] using htop)

theorem SibOk.agreement (hS : SibOk d) (hI : HashOk d) : IndexAgreement d := by
  refine ⟨fun T hT b => ?_, fun T hT P => ?_, fun T hT => ?_, fun T hT => ?_,
    fun T T' hT hT' => ?_, fun T h hT => ?_, fun h => ⟨hI.family.nodup h, hS.family.nodup h⟩⟩
  · have hh := hI.mem_bucket (hI.namedTop_iff.mp hT)
    constructor
    · exact fun hb => hI.family.disjoint _ _ _ hb hh
    · rintro rfl
      exact hh
  · have hh := hI.namedTop_iff.mp hT
    simp [hS.mem, hh, eq_comm]
  · exact hS.parent T (hI.namedTop_iff.mp hT)
  · exact hI.top T (hI.namedTop_iff.mp hT)
  · exact hI.unique T T' (hI.namedTop_iff.mp hT) (hI.namedTop_iff.mp hT')
  · apply hI.namedTop_iff.mpr
    rcases hT with hT | hT
    · exact ⟨h, hT⟩
    · exact ((hS.mem h T).mp hT).1

/-- When `dc_rename` compares its victim's `d_parent` with the destination directory, the
answer is that of comparing the two directories. -/
def Pc.CrossKnown (d : DCache Name) : Pc Name → Prop
  | .renCross fromParent _ victim toParent _ =>
    (d.dentry victim).parent ≠ toParent ↔ fromParent ≠ toParent
  | _ => True

instance (d : DCache Name) (pc : Pc Name) : Decidable (pc.CrossKnown d) := by
  cases pc with
  | renCross =>
    exact inferInstanceAs (Decidable (_ ↔ _))
  | _ => exact .isTrue trivial

section

variable [DecidableEq Name]

instance (d : DCache Name) (pc : Pc Name) : Decidable (pc.SameTwice d) := by
  cases pc with
  | xchLookB => exact inferInstanceAs (Decidable (_ → _ → _))
  | _ => exact .isTrue trivial

def Sys.Careful (s : Sys Name) : Act Name → Prop
  | .call _ _ => True
  | .step t _ => (s.pc t).CrossKnown s.d ∧ (s.pc t).SameTwice s.d

instance (s : Sys Name) (a : Act Name) : Decidable (s.Careful a) :=
  match a with
  | .call _ _ => .isTrue trivial
  | .step t _ => inferInstanceAs (Decidable ((s.pc t).CrossKnown s.d ∧ (s.pc t).SameTwice s.d))

theorem Sys.Careful.sameTwice {s : Sys Name} {a : Act Name} (h : s.Careful a) : s.SameTwice a := by
  cases a with
  | call => trivial
  | step => exact h.2

end

variable [DecidableEq Name] {s s' : Sys Name} {S : ℕ → Set ℕ} {a : Act Name}

theorem Successor.move {pc pc' : Pc Name} {m : Move Name} (h : Successor d pc pc')
    (hm : pc'.move = some m) (hk : pc.CrossKnown d) : pc.move = some m ∨ m.CrossFits := by
  cases h with
  | passes h => exact .inl (eq_some_of_passes h.move hm)
  | cross =>
    obtain rfl := Option.some.inj hm
    exact .inr (by simpa [Move.CrossFits, Pc.CrossKnown] using hk)
  | _ => cases hm

def MovesFit (s : Sys Name) : Prop :=
  ∀ t m, (s.pc t).move = some m → m.CrossFits

omit [DecidableEq Name] in
theorem Starts.move {c : Call Name} {pc : Pc Name} (h : Starts c pc) : pc.move = none := by
  cases h <;> rfl

theorem MovesFit.act (hM : MovesFit s) (hok : s.Careful a) (ha : s.act a = some s') :
    MovesFit s' := by
  cases a with
  | call t c =>
    obtain ⟨-, -, rfl⟩ := Sys.of_act_call ha
    intro u m hu
    rcases eq_or_ne u t with rfl | hne
    · simp [(callStart_starts c).move] at hu
    · exact hM u m (by simpa [hne] using hu)
  | step t =>
    obtain ⟨-, rfl⟩ := Sys.of_act_step ha
    intro u m hu
    rcases eq_or_ne u t with rfl | hne
    · exact ((stepPc_successor _ _ _).move (by simpa using hu) hok.1).elim (hM u m) id
    · exact hM u m (by simpa [hne] using hu)

theorem Inv.act_sibOk (hV : Inv s S) (hM : MovesFit s) (hS : SibOk s.d)
    (ha : s.act a = some s') : SibOk s'.d := by
  cases a with
  | call =>
    obtain ⟨-, -, rfl⟩ := Sys.of_act_call ha
    exact hS
  | step t oom =>
    obtain ⟨hb, rfl⟩ := Sys.of_act_step ha
    obtain ⟨folded, hE, -⟩ := hV.effect (C := fun _ i => ∀ m, i = .move m → m.CrossFits) oom hb
      (by
        rintro m top hpc - m' ⟨⟩
        exact hM t m (by rw [hpc]; rfl))
      (by simp)
    exact hE.sibOk (fun m h => h m rfl) hV.hash hS

theorem reach_sound (bucketOf : ℕ → Name → ℕ) (rootname : Name)
    (hr : Reach Sys.act Sys.Careful (Sys.init bucketOf rootname) s) :
    (∃ S, Inv s S) ∧ MovesFit s ∧ SibOk s.d := by
  refine hr.invariant (P := fun s => (∃ S, Inv s S) ∧ MovesFit s ∧ SibOk s.d)
    ⟨⟨fun _ => ∅, Inv.init bucketOf rootname _⟩, by simp [MovesFit, Sys.init, Pc.move],
      dcCreate_sibOk bucketOf rootname⟩ ?_
  rintro s a s' ⟨⟨S, hV⟩, hM, hS⟩ hok ha
  exact ⟨⟨_, hV.act hok.sameTwice ha⟩, hM.act hok ha, hV.act_sibOk hM hS ha⟩

/-- In every run of careful actions the two indexes agree in every state. -/
theorem reach_indexAgreement (bucketOf : ℕ → Name → ℕ) (rootname : Name)
    (hr : Reach Sys.act Sys.Careful (Sys.init bucketOf rootname) s) : IndexAgreement s.d := by
  obtain ⟨⟨S, hV⟩, -, hS⟩ := reach_sound bucketOf rootname hr
  exact hS.agreement hV.hash

theorem reach_indexAgreement_rename : ∃ s, Reach Sys.act Sys.Careful (Sys.init (fun _ _ => 0) 0) s ∧
    s.d.childChain 2 = [4] ∧ IndexAgreement s.d := by
  have he : (exec (guarded Sys.act Sys.Careful) (Sys.init (fun _ _ => 0) 0)
      (Act.op 1 (.add [1] 0) 3 ++ Act.op 1 (.add [2] 0) 3 ++ Act.op 1 (.addFile [1, 3] 0) 4 ++
        Act.op 1 (.rename [1, 3] [2, 5]) 16)).map (fun s => s.d.childChain 2) = some [4] := by
    rfl
  obtain ⟨s, hr, hs⟩ := reach_exec_map he
  exact ⟨s, hr.of_guarded, hs, reach_indexAgreement _ _ hr.of_guarded⟩

/-- Thread 0 renames `/1/3` to `/2/4` and stops before it reads its victim's `d_parent`.
Thread 1 moves that entry to `/2/5` and adds another `/1/3`. Then thread 0 goes on. -/
def staleCross : List (Act ℕ) :=
  Act.op 1 (.add [1] 0) 3 ++ Act.op 1 (.add [2] 0) 3 ++ Act.op 1 (.addFile [1, 3] 0) 4 ++
    Act.op 0 (.rename [1, 3] [2, 4]) 7 ++ Act.op 1 (.rename [1, 3] [2, 5]) 16 ++
    Act.op 1 (.addFile [1, 3] 0) 4 ++ Act.steps 0 4

/-- The shell for `/2/4` stays in the child list of `/1`, which its host's `d_parent` still
names. -/
theorem staleCross_exec : (exec Sys.act (Sys.init (fun _ _ => 0) 0) staleCross).map (fun s =>
    (s.d.fresh, s.d.topUnhashed 6, (s.d.dentry 6).shell, (s.d.dentry 6).iparent,
      (s.d.dentry (s.d.hostOf 6)).parent)) = some (7, false, true, 2, 1) := by
  rfl

theorem staleCross_not_indexAgreement :
    ∃ s, Reach Sys.act (fun _ _ => True) (Sys.init (fun _ _ => 0) 0) s ∧ ¬ IndexAgreement s.d := by
  obtain ⟨s, hr, hs⟩ := reach_exec_map staleCross_exec
  simp only [Prod.mk.injEq] at hs
  obtain ⟨hfresh, hm, hshell, hip, hp⟩ := hs
  refine ⟨s, hr, fun hA => ?_⟩
  have hT : NamedTop s.d 6 := ⟨by rw [hfresh]; decide, by decide, hm, .inl hshell⟩
  have := hA.parent 6 hT
  rw [hip, hp] at this
  exact absurd this (by decide)

end TrieBenchmark.Bucketlock
