import TrieBenchmark.Txn.Binding

/-!
Runs whose renames go into directories. Only directories have children then, and a directory
that has a child is itself in the index.
-/

namespace TrieBenchmark.Txn

open Edits Run

variable {Name : Type} {d d' : Cache Name} {arm : Arm} {touched back : Option ℕ}
  {C : Checked Name → Prop} {p : ℕ}

namespace Pc

def IntoDir (d : Cache Name) : Pc Name → Prop
  | .renCross _ _ _ toParent _ => (d.dentry toParent).isdir = true
  | _ => True

instance (d : Cache Name) (pc : Pc Name) : Decidable (pc.IntoDir d) := by
  apply pc.casesOn (motive := fun pc => Decidable (pc.IntoDir d)) <;> intros <;> first
    | exact instDecidableTrue
    | exact instDecidableEqBool _ _

theorem dir_of_into {pc : Pc Name} (h : pc.into = some p) : pc.dir = some p := by
  cases pc <;> first | exact h | cases h

end Pc

theorem Starts.into {c : Call Name} (h : Starts arm c pc) : pc.into = none := by
  cases arm <;> cases h <;> rfl

structure Shape (d : Cache Name) : Prop where
  index : IndexOk d
  parents : ParentsOk d
  kids : KidsInDirs d
  heads : SealOk d

def DirsHeld (d : Cache Name) : Prop :=
  ∀ p < d.fresh, (d.dentry p).isdir = true → p = root ∨ Bound d p ∨ d.sealed p = true

theorem Effect.fresh_dir (hE : Effect arm C d touched back d') (hI : IndexOk d)
    (hge : d.fresh ≤ p) (hlt : p < d'.fresh) (hd : (d'.dentry p).isdir = true) : Bound d' p := by
  cases hE with
  | add parent name id isdir positive _ _ _ _ hname =>
    have hEd : Edited d _ (d.addCommit parent name id isdir positive) := hI.add_edited hname
    rw [Cache.addCommit_fresh] at hlt
    obtain rfl : p = d.fresh := by omega
    have hb := hEd.bound_inn hI (a := d.fresh) (by simp [Edit.inn])
    rwa [Cache.hostOf, Cache.addCommit_new] at hb
  | stack _ top _ ht =>
    rw [Cache.stackCommit_fresh] at hlt
    obtain rfl : p = d.fresh := by omega
    rw [Cache.stackCommit_new (hI.host_lt ht)] at hd
    cases hd
  | exchange _ _ _ hX =>
    obtain ⟨hsa, hsb⟩ := hI.exchangeCommit_shells arm hX
    rw [Cache.exchangeCommit_fresh] at hlt
    obtain rfl | rfl : p = d.fresh ∨ p = d.fresh + 1 := by omega
    · rw [hsa] at hd
      cases hd
    · rw [hsb] at hd
      cases hd
  | remove =>
    rw [Cache.removeCommit_fresh] at hlt
    omega
  | fold =>
    rw [Cache.foldCommit_fresh] at hlt
    omega
  | _ => exact absurd hlt (Nat.not_lt.mpr hge)

theorem DirsHeld.effect (hD : DirsHeld d) (hE : Effect arm C d touched back d') (hI : IndexOk d) :
    DirsHeld d' := by
  intro p hlt hd
  rcases Nat.lt_or_ge p d.fresh with hold | hnew
  · rw [((hE.indexStep hI).kind p hold).2.2] at hd
    rcases hD p hold hd with hr | hb | hs
    · exact .inl hr
    · by_cases hb' : Bound d' p
      · exact .inr (.inl hb')
      · exact .inr (.inr (hE.unbound_dir hI hb hb' hd).2)
    · exact .inr (.inr (hE.sealed_mono hs))
  · exact .inr (.inl (hE.fresh_dir hI hnew hlt hd))

theorem DirsHeld.bound (hD : DirsHeld d) (hS : Shape d) {T : ℕ} (hT : d.linked T) :
    (d.dentry (d.dentry T).iparent).isdir = true ∧
      ((d.dentry T).iparent = root ∨ Bound d (d.dentry T).iparent) := by
  have hkid := (hS.index.kids (d.dentry T).iparent T).mpr ⟨hT, rfl⟩
  have hlt := hS.parents T hT
  have hd := hS.kids _ hlt (List.ne_nil_of_mem hkid)
  refine ⟨hd, ?_⟩
  rcases hD _ hlt hd with hr | hb | hs
  · exact .inl hr
  · exact .inr hb
  · rw [hS.heads _ hs] at hkid
    cases hkid

variable [DecidableEq Name]

theorem Successor.into_eq {pc pc' : Pc Name} (h : Successor arm d pc pc') (hpc : pc.IntoDir d)
    (hp : pc'.into = some p) : pc.into = some p ∨ (d.dentry p).isdir = true := by
  cases h with
  | passes h => exact .inl ((h.into.resolve_left (by simp [hp])).symm.trans hp)
  | add hdir =>
    obtain rfl := Option.some.inj hp
    exact .inr hdir
  | cross =>
    obtain rfl := Option.some.inj hp
    exact .inr hpc
  | record | recordNeg => exact .inl hp
  | _ => cases hp

namespace Sys

def IntoDir (s : Sys Name) : Act Name → Prop
  | .call _ _ => True
  | .step t _ => (s.pc t).IntoDir s.d

instance (s : Sys Name) (a : Act Name) : Decidable (s.IntoDir a) :=
  match a with
  | .call _ _ => .isTrue trivial
  | .step t _ => inferInstanceAs (Decidable ((s.pc t).IntoDir s.d))

end Sys

def InDirs (d : Cache Name) : Checked Name → Prop
  | .rename m _ => (d.dentry m.newParent).isdir = true
  | .flip _ => True
  | .add parent => (d.dentry parent).isdir = true

structure Tended (arm : Arm) (s : Sys Name) (Sets : ℕ → Set ℕ) : Prop where
  inv : Inv arm s Sets
  kids : KidsInDirs s.d
  heads : SealOk s.d
  dirs : DirsHeld s.d
  into : ∀ t p, (s.pc t).into = some p → (s.d.dentry p).isdir = true

namespace Tended

variable {s s' : Sys Name} {Sets : ℕ → Set ℕ} {a : Act Name}

omit [DecidableEq Name] in
theorem shape (hO : Tended arm s Sets) : Shape s.d :=
  ⟨hO.inv.index, hO.inv.parents, hO.kids, hO.heads⟩

omit [DecidableEq Name] in
theorem init (arm : Arm) (bucketOf : ℕ → Name → ℕ) (rootname : Name) :
    Tended arm (Sys.init bucketOf rootname) fun _ => ∅ := by
  refine ⟨.init arm bucketOf rootname _, fun _ _ h => absurd rfl h, fun _ _ => rfl, ?_,
    by simp [Sys.init, Pc.into]⟩
  intro p hp _
  exact .inl (Nat.lt_one_iff.mp hp)

omit [DecidableEq Name] in
theorem commits (hO : Tended arm s Sets) {t : ℕ} {c : Checked Name}
    (hc : Commits s.d (s.pc t) c) : InDirs s.d c := by
  have hin := hO.into t
  generalize s.pc t = pc at hc hin
  cases hc with
  | rename | add => exact hin _ rfl
  | flip => trivial

theorem act (hO : Tended arm s Sets) (hdir : s.IntoDir a) (ha : s.act arm a = some s') :
    Tended arm s' (s.meet arm Sets a) := by
  obtain ⟨touched, back, hE, -⟩ := hO.inv.effect_of_act (C := InDirs s.d) ha
    fun _ _ _ _ hc => hO.commits hc
  have hI := hO.inv.index
  refine ⟨hO.inv.act ha, hO.kids.effect hE hI hO.inv.parents (fun _ h => h) fun _ _ h => h,
    hO.heads.effect hE hI, hO.dirs.effect hE hI, fun u p hp => ?_⟩
  have hkeep : ∀ {p : ℕ}, p < s.d.fresh → (s.d.dentry p).isdir = true →
      (s'.d.dentry p).isdir = true := fun hlt h => ((hE.indexStep hI).kind _ hlt).2.2.trans h
  have hold : ∀ {u p : ℕ}, (s.pc u).into = some p → (s'.d.dentry p).isdir = true :=
    fun h => hkeep (hO.inv.dirs _ _ (Pc.dir_of_into h)) (hO.into _ _ h)
  rcases Sys.act_cases ha with ⟨w, c, rfl, -, -, rfl⟩ | ⟨w, ans, rfl, -, rfl⟩ <;>
    rcases eq_or_ne u w with rfl | hne
  · rw [show ({ s with pc := _ } : Sys Name).pc u = _ from Function.update_self ..] at hp
    simp [(callStart_starts arm c).into] at hp
  · exact hold (by simpa [hne] using hp)
  · have hp : (stepPc arm s.d (s.pc u) ans).2.into = some p := by simpa using hp
    rcases (stepPc_successor _ _ _ _).into_eq hdir hp with h | h
    · exact hold h
    · refine hkeep ?_ h
      rcases (stepPc_successor _ _ _ _).dir_eq hI (Pc.dir_of_into hp) with hd | hlt
      · exact hO.inv.dirs _ _ hd
      · exact hlt
  · exact hold (by simpa [hne] using hp)

end Tended

end TrieBenchmark.Txn
