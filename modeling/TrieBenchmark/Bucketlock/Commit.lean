import TrieBenchmark.Bucketlock.Section

/-!
What the commits of the bucket-lock engine leave in each part of the memory.
-/

namespace TrieBenchmark.Bucketlock

open Function Hlist

variable {Name : Type} {d : DCache Name}

namespace DCache

section Stores

variable (d) (a b : ℕ) (f : Dentry Name → Dentry Name)

@[simp] theorem modify_self : (d.modify a f).dentry a = f (d.dentry a) := by
  simp [modify]

theorem modify_of_ne (h : b ≠ a) : (d.modify a f).dentry b = d.dentry b := by
  simp [modify, h]

variable {f} in
theorem modify_keeps (R : Dentry Name → Dentry Name → Prop) (hR : ∀ e, R e e) (hf : ∀ e, R (f e) e) :
    R ((d.modify a f).dentry b) (d.dentry b) := by
  rcases eq_or_ne b a with rfl | hne
  · rw [modify_self]
    exact hf _
  · rw [modify_of_ne _ _ _ _ hne]
    exact hR _

@[simp] theorem modify_bucketOf : (d.modify a f).bucketOf = d.bucketOf := rfl

@[simp] theorem modify_hash : (d.modify a f).hash = d.hash := rfl

@[simp] theorem modify_sib : (d.modify a f).sib = d.sib := rfl

@[simp] theorem modify_fresh : (d.modify a f).fresh = d.fresh := rfl

end Stores

section Del

variable (d) (top : ℕ)

@[simp] theorem delLocked_dentry : (d.delLocked top).dentry = d.dentry := rfl

@[simp] theorem delLocked_bucketOf : (d.delLocked top).bucketOf = d.bucketOf := rfl

@[simp] theorem delLocked_fresh : (d.delLocked top).fresh = d.fresh := rfl

@[simp] theorem delLocked_hash : (d.delLocked top).hash = blHlistDelLocked d.hash top := rfl

@[simp] theorem delLocked_sib : (d.delLocked top).sib = blHlistDelLocked d.sib top := rfl

end Del

section Add

def addCommit (d : DCache Name) (parent : ℕ) (name : Name) (id : ℕ) (isdir positive : Bool) :
    DCache Name :=
  { d.alloc ⟨parent, false, !positive, name, none, none, isdir, parent, false, id⟩ with
    hash := blHlistAddHeadLocked d.hash (d.bucketOf parent name) d.fresh
    sib := blHlistAddHeadLocked d.sib parent d.fresh }

variable [DecidableEq Name]

theorem addLocked_cases (d : DCache Name) (parent : ℕ) (name : Name) (id : ℕ)
    (isdir positive : Bool) :
    (∃ e, d.addLocked parent name id isdir positive = (some e, d)) ∨
      (d.isPositive parent = true ∧ d.entryAlive parent = true ∧
        d.childLookup parent name = none ∧
        d.addLocked parent name id isdir positive =
          (none, d.addCommit parent name id isdir positive)) := by
  unfold addLocked
  split_ifs with hpos halive hdup
  · exact .inl ⟨_, rfl⟩
  · exact .inl ⟨_, rfl⟩
  · exact .inl ⟨_, rfl⟩
  · exact .inr ⟨by simpa using hpos, by simpa using halive, by simpa using hdup, rfl⟩

end Add

section Stack

variable (d) (m : Move Name) (top : ℕ)

@[simp] theorem stackCommit_bucketOf : (d.stackCommit m top).bucketOf = d.bucketOf := by
  unfold stackCommit stackOnePrepare
  split_ifs <;> rfl

@[simp] theorem stackCommit_fresh : (d.stackCommit m top).fresh = d.fresh + 1 := by
  unfold stackCommit stackOnePrepare
  split_ifs <;> rfl

theorem stackCommit_hash : (d.stackCommit m top).hash =
    if d.bucketOf m.fromParent m.fromName = d.bucketOf m.newParent m.newName
    then (blSwReplace ⟨d.hash, []⟩ top d.fresh).commit
    else (blSwAddHead (blSwDelMarked ⟨d.hash, []⟩ top) d.fresh
      (d.bucketOf m.newParent m.newName)).commit := by
  unfold stackCommit stackOnePrepare
  split_ifs <;> rfl

theorem stackCommit_sib : (d.stackCommit m top).sib =
    if m.cross then (blSwAddHead (blSwDelMarked ⟨d.sib, []⟩ top) d.fresh m.newParent).commit
    else (blSwReplace ⟨d.sib, []⟩ top d.fresh).commit := by
  unfold stackCommit stackOnePrepare
  split_ifs <;> simp_all <;> rfl

theorem stackCommit_dentry : (d.stackCommit m top).dentry =
    update (update d.dentry d.fresh
      (newShell m.newParent m.newName (d.hostOf top))) (d.hostOf top)
      { update d.dentry d.fresh (newShell m.newParent m.newName (d.hostOf top))
          (d.hostOf top) with
        top := some d.fresh
        parent := if m.cross then m.newParent
          else (update d.dentry d.fresh (newShell m.newParent m.newName (d.hostOf top))
            (d.hostOf top)).parent } := by
  unfold stackCommit stackOnePrepare
  split_ifs with hb hc hc <;>
    simp_all [DcTxn.begin, DcTxn.storeTop, DcTxn.storeParent, DcTxn.commitSw, setTop, setParent,
      modify, alloc]

variable {d m top}

theorem stackCommit_dentry_host (hh : d.hostOf top ≠ d.fresh) :
    (d.stackCommit m top).dentry (d.hostOf top) =
      { d.dentry (d.hostOf top) with
        top := some d.fresh
        parent := if m.cross then m.newParent else (d.dentry (d.hostOf top)).parent } := by
  simp [stackCommit_dentry, hh]

theorem stackCommit_dentry_shell (hh : d.hostOf top ≠ d.fresh) :
    (d.stackCommit m top).dentry d.fresh = newShell m.newParent m.newName (d.hostOf top) := by
  simp [stackCommit_dentry, hh.symm]

theorem stackCommit_dentry_of_ne {a : ℕ} (hh : a ≠ d.hostOf top) (hf : a ≠ d.fresh) :
    (d.stackCommit m top).dentry a = d.dentry a := by
  simp [stackCommit_dentry, hh, hf]

end Stack

section Exchange

variable (d) (x : Xchg Name) (topa topb : ℕ)

theorem exchangeCommit_eq : d.exchangeCommit x topa topb =
    let d₁ := (d.alloc (newShell x.pb x.nb (d.hostOf topa))).alloc
      (newShell x.pa x.na (d.hostOf topb))
    let d₂ := (d₁.setTop (d.hostOf topa) (some d.fresh)).setTop (d.hostOf topb)
      (some (d.fresh + 1))
    let d₃ := if x.cross then (d₂.setParent (d.hostOf topa) x.pb).setParent (d.hostOf topb) x.pa
      else d₂
    { d₃ with
      hash := if d.bucketOf x.pa x.na = d.bucketOf x.pb x.nb
        then (blSwReplace2 ⟨d.hash, []⟩ topa (d.fresh + 1) topb d.fresh).commit
        else (blSwReplace (blSwReplace ⟨d.hash, []⟩ topa (d.fresh + 1)) topb d.fresh).commit
      sib := if x.cross
        then (blSwReplace (blSwReplace ⟨d.sib, []⟩ topa (d.fresh + 1)) topb d.fresh).commit
        else (blSwReplace2 ⟨d.sib, []⟩ topa (d.fresh + 1) topb d.fresh).commit } := by
  by_cases hb : d.bucketOf x.pa x.na = d.bucketOf x.pb x.nb <;> cases hc : x.cross <;>
    simp [exchangeCommit, exchangePrepare, DcTxn.begin, DcTxn.storeTop, DcTxn.storeParent,
      DcTxn.commitSw, setTop, setParent, modify, alloc, hb, hc]

@[simp] theorem exchangeCommit_bucketOf :
    (d.exchangeCommit x topa topb).bucketOf = d.bucketOf := by
  rw [exchangeCommit_eq]
  cases x.cross <;> rfl

@[simp] theorem exchangeCommit_fresh : (d.exchangeCommit x topa topb).fresh = d.fresh + 2 := by
  rw [exchangeCommit_eq]
  cases x.cross <;> rfl

theorem exchangeCommit_hash : (d.exchangeCommit x topa topb).hash =
    if d.bucketOf x.pa x.na = d.bucketOf x.pb x.nb
    then (blSwReplace2 ⟨d.hash, []⟩ topa (d.fresh + 1) topb d.fresh).commit
    else (blSwReplace (blSwReplace ⟨d.hash, []⟩ topa (d.fresh + 1)) topb d.fresh).commit := by
  rw [exchangeCommit_eq]

theorem exchangeCommit_sib : (d.exchangeCommit x topa topb).sib =
    if x.cross
    then (blSwReplace (blSwReplace ⟨d.sib, []⟩ topa (d.fresh + 1)) topb d.fresh).commit
    else (blSwReplace2 ⟨d.sib, []⟩ topa (d.fresh + 1) topb d.fresh).commit := by
  rw [exchangeCommit_eq]

variable {d x topa topb}

theorem exchangeCommit_dentry_hosta (ha : d.hostOf topa < d.fresh)
    (hab : d.hostOf topa ≠ d.hostOf topb) :
    (d.exchangeCommit x topa topb).dentry (d.hostOf topa) =
      { d.dentry (d.hostOf topa) with
        top := some d.fresh
        parent := if x.cross then x.pb else (d.dentry (d.hostOf topa)).parent } := by
  have h₁ : d.hostOf topa ≠ d.fresh := Nat.ne_of_lt ha
  have h₂ : d.hostOf topa ≠ d.fresh + 1 := by omega
  rw [exchangeCommit_eq]
  cases x.cross <;> simp [setTop, setParent, modify, alloc, hab, h₁, h₂]

theorem exchangeCommit_dentry_hostb (hb : d.hostOf topb < d.fresh)
    (hab : d.hostOf topa ≠ d.hostOf topb) :
    (d.exchangeCommit x topa topb).dentry (d.hostOf topb) =
      { d.dentry (d.hostOf topb) with
        top := some (d.fresh + 1)
        parent := if x.cross then x.pa else (d.dentry (d.hostOf topb)).parent } := by
  have h₁ : d.hostOf topb ≠ d.fresh := Nat.ne_of_lt hb
  have h₂ : d.hostOf topb ≠ d.fresh + 1 := by omega
  rw [exchangeCommit_eq]
  cases x.cross <;> simp [setTop, setParent, modify, alloc, hab.symm, h₁, h₂]

theorem exchangeCommit_dentry_sa (ha : d.hostOf topa < d.fresh) (hb : d.hostOf topb < d.fresh) :
    (d.exchangeCommit x topa topb).dentry d.fresh = newShell x.pb x.nb (d.hostOf topa) := by
  rw [exchangeCommit_eq]
  cases x.cross <;> simp [setTop, setParent, modify, alloc, (Nat.ne_of_gt ha), (Nat.ne_of_gt hb)]

theorem exchangeCommit_dentry_sb (ha : d.hostOf topa < d.fresh) (hb : d.hostOf topb < d.fresh) :
    (d.exchangeCommit x topa topb).dentry (d.fresh + 1) =
      newShell x.pa x.na (d.hostOf topb) := by
  have h₁ : d.fresh + 1 ≠ d.hostOf topa := by omega
  have h₂ : d.fresh + 1 ≠ d.hostOf topb := by omega
  rw [exchangeCommit_eq]
  cases x.cross <;> simp [setTop, setParent, modify, alloc, h₁, h₂]

theorem exchangeCommit_dentry_of_ne {a : ℕ} (ha : a ≠ d.hostOf topa) (hb : a ≠ d.hostOf topb)
    (hf : a < d.fresh) : (d.exchangeCommit x topa topb).dentry a = d.dentry a := by
  have h₁ : a ≠ d.fresh := Nat.ne_of_lt hf
  have h₂ : a ≠ d.fresh + 1 := by omega
  rw [exchangeCommit_eq]
  cases x.cross <;> simp [setTop, setParent, modify, alloc, ha, hb, h₁, h₂]

end Exchange

section Fold

def foldCommit (d : DCache Name) (n : ℕ) : DCache Name :=
  { d.modify (d.hostOf n) fun e =>
      { e with iparent := (d.dentry n).iparent, iname := (d.dentry n).iname, top := none } with
    hash := (blSwReplace ⟨d.hash, []⟩ n (d.hostOf n)).commit
    sib := (blSwReplace ⟨d.sib, []⟩ n (d.hostOf n)).commit }

/-- What a fold without memory leaves: the host's name and its pre-publish links. -/
def foldScratch (d : DCache Name) (n : ℕ) : DCache Name :=
  { d.modify (d.hostOf n) fun e =>
      { e with iparent := (d.dentry n).iparent, iname := (d.dentry n).iname } with
    hash := (blSwReplace ⟨d.hash, []⟩ n (d.hostOf n)).mem
    sib := (blSwReplace ⟨d.sib, []⟩ n (d.hostOf n)).mem }

theorem foldLocked_eq (d : DCache Name) (n : ℕ) (oom : Bool) :
    d.foldLocked n oom =
      if d.topUnhashed n then d else if oom then d.foldScratch n else d.foldCommit n := by
  unfold foldLocked
  split_ifs
  · rfl
  · rfl
  · simp [foldCommit, DcTxn.begin, DcTxn.commitSw, setTop, modify]

end Fold

end DCache

section Flag

variable {h a : ℕ} {b : Bool}

theorem setMoving_dentry : (d.setMoving h b).dentry a =
    { d.dentry a with moving := if a = h then b else (d.dentry a).moving } := by
  rcases eq_or_ne a h with rfl | hne
  · simp [DCache.setMoving]
  · simp [DCache.setMoving, DCache.modify_of_ne _ _ _ _ hne, hne]

theorem setMoving_hostOf : (d.setMoving h b).hostOf a = d.hostOf a := by
  simp [DCache.hostOf, setMoving_dentry]

end Flag

end TrieBenchmark.Bucketlock
