import TrieBenchmark.Txn.Agreement
import TrieBenchmark.Txn.Guards

/-!
What the cache keeps over the steps of one thread that runs alone: both indexes right, `d_parent`
right, negative directories empty, and no sealed child head under a name.
-/

namespace TrieBenchmark.Txn

open Edits

variable {Name : Type} {d d' : Cache Name} {arm : Arm} {touched back : Option ℕ} {h : ℕ}

theorem Effect.mono {C C' : Checked Name → Prop} (hC : ∀ c, C c → C' c)
    (hE : Effect arm C d touched back d') : Effect arm C' d touched back d' := by
  cases hE with
  | read => exact .read
  | flag a b => exact .flag a b
  | ident a id => exact .ident a id
  | flip host negative hc hk => exact .flip host negative (hC _ hc) hk
  | add parent name id isdir positive hlt hc hpos hs hname =>
    exact .add parent name id isdir positive hlt (hC _ hc) hpos hs hname
  | remove top sealIt ht hs hk => exact .remove top sealIt ht hs hk
  | stack m top neg ht hp hn hcl hlt hs hneg hc =>
    exact .stack m top neg ht hp hn hcl hlt hs hneg (hC _ hc)
  | exchange x topa topb hX => exact .exchange x topa topb hX
  | name n hlt hh => exact .name n hlt hh
  | swap n hlt hh => exact .swap n hlt hh
  | fold n hn hs hname hparent => exact .fold n hn hs hname hparent

def SealedOut (d : Cache Name) : Prop :=
  ∀ h, d.sealed h = true → h < d.fresh ∧ h ≠ root ∧ ¬ Bound d h

theorem SealedOut.effect {C : Checked Name → Prop} (hS : SealedOut d)
    (hE : Effect arm C d touched back d') (hI : IndexOk d) : SealedOut d' := by
  intro h hs'
  have hfresh := (hE.indexStep hI).fresh
  have hold : d.sealed h = true → h < d'.fresh ∧ h ≠ root ∧ ¬ Bound d' h := by
    intro hs
    obtain ⟨hlt, hr, hno⟩ := hS h hs
    refine ⟨Nat.lt_of_lt_of_le hlt hfresh, hr, fun hb => ?_⟩
    rcases hE.bound_back hI hb with hb | hge
    · exact hno hb
    · exact Nat.not_le.mpr hlt hge
  cases hE with
  | remove top sealIt ht =>
    rw [Cache.removeCommit_sealed] at hs'
    rcases Bool.or_eq_true_iff.mp hs' with hs | hs
    · exact hold hs
    · obtain ⟨-, rfl⟩ : sealIt = true ∧ h = d.hostOf top := by simpa using hs
      obtain ⟨hlt, hr⟩ := hI.alloc top ht
      have hEd : Edited d _ (d.removeCommit top (d.hostOf top) sealIt) := hI.remove_edited ht
      refine ⟨Nat.lt_of_lt_of_le (hI.hostOf_host hlt).1 hfresh, hI.hostOf_ne_root hlt hr, ?_⟩
      rintro ⟨T, -, hT, he⟩
      obtain ⟨hl, ho⟩ : d.linked T ∧ T ≠ top := by
        simpa [Edit.out, Edit.inn] using (hEd.linked_iff hI).mp hT
      rw [hEd.kind.hostOf (hI.lt hl)] at he
      exact ho (hI.hostOf_inj hl ht he)
  | stack =>
    rw [Cache.stackCommit_sealed] at hs'
    exact hold hs'
  | exchange =>
    rw [Cache.exchangeCommit_sealed] at hs'
    exact hold hs'
  | fold =>
    rw [Cache.foldCommit_sealed] at hs'
    exact hold hs'
  | _ => exact hold hs'

structure Fit (d : Cache Name) : Prop where
  index : IndexOk d
  parents : ParentsOk d
  agree : ParentsAgree d
  negEmpty : NegativeEmpty d
  seals : SealedOut d

def Apt (d : Cache Name) : Checked Name → Prop :=
  Checked.OfRename fun m _ => m.CrossFits ∧ (d.dentry m.newParent).neg = false

theorem Fit.effect (hF : Fit d) (hE : Effect .mark (Apt d) d touched back d') : Fit d' := by
  have hcross : Effect .mark (Checked.OfRename fun m _ => m.CrossFits) d touched back d' := by
    refine hE.mono fun c hc => ?_
    cases c with
    | rename => exact hc.1
    | _ => trivial
  have hpos : Effect .mark (Checked.OfRename fun m _ => (d.dentry m.newParent).neg = false) d
      touched back d' := by
    refine hE.mono fun c hc => ?_
    cases c with
    | rename => exact hc.2
    | _ => trivial
  exact ⟨hE.indexOk hF.index, hE.parentsOk hF.index hF.parents, hF.agree.effect hcross hF.index,
    hF.negEmpty.effect hpos hF.index hF.parents, hF.seals.effect hE hF.index⟩

theorem dcCreate_fit (bucketOf : ℕ → Name → ℕ) (rootname : Name) :
    Fit (dcCreate bucketOf rootname) := by
  have hno : ∀ a, ¬ (dcCreate bucketOf rootname).linked a := fun a => by
    simp [Cache.linked, dcCreate]
  exact ⟨dcCreate_indexOk bucketOf rootname, fun a ha => absurd ha (hno a),
    fun a ha => absurd ha (hno a), fun _ _ _ _ => rfl, fun _ hs => by simp [dcCreate] at hs⟩

end TrieBenchmark.Txn
