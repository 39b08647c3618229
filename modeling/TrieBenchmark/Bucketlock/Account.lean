import TrieBenchmark.Bucketlock.Aim

/-!
Calls of the bucket-lock engine one at a time, with queued folds and evictions between them: the
objects that `dc_walk` visits are those of the record.
-/

namespace TrieBenchmark.Bucketlock

open Option Function Hlist Namei Serial Run

variable {Name : Type} [DecidableEq Name] {d : DCache Name} {s s' : Sys Name} {t : ℕ}

def Act.made : Act Name → Option (Call Name)
  | .call _ c => some c
  | .step _ _ => none

def engine : Engine (Sys Name) (Act Name) Name where
  act := Sys.act
  call := Act.made
  names s := s.d.names
  returned s a := (s.pc a.thread).returnsZero

/-- The negative that a rename replaces has no children. -/
def Sys.DropsLeaf (s : Sys Name) : Act Name → Prop
  | .call _ _ => True
  | .step t _ => (s.pc t).DropsLeaf s.d

instance (d : DCache Name) (pc : Pc Name) : Decidable (pc.DropsLeaf d) := by
  apply pc.casesOn (motive := fun pc => Decidable (pc.DropsLeaf d)) <;> intros <;> first
    | exact instDecidableTrue
    | exact inferInstanceAs (Decidable (∀ h ∈ _, _ → _))

instance (s : Sys Name) (a : Act Name) : Decidable (s.DropsLeaf a) :=
  match a with
  | .call _ _ => .isTrue trivial
  | .step t _ => inferInstanceAs (Decidable ((s.pc t).DropsLeaf s.d))

theorem HashOk.proper (hI : HashOk d) : Proper d.fresh d.names :=
  pathMap_proper hI.rooted (fun _ => rfl) fun _ _ => hI.resolve_lt

omit [DecidableEq Name] in
theorem busy_of_returnsZero {pc : Pc Name} (h : pc.returnsZero = true) : pc.busy = false := by
  cases pc <;> first | rfl | cases h

/-- One thread between its actions, with its call under way. -/
abbrev Alone (t : ℕ) : Sys Name → Option (Call Name) → Prop :=
  Serving (fun s => Sound s ∧ Current s t) (fun s c => (s.pc t).Aims s.d.index c)
    (fun s => (s.pc t).busy = true)

theorem engine_solo (t : ℕ) : (engine : Engine (Sys Name) (Act Name) Name).Solo (Alone t)
    (fun s => (s.pc t).busy = true)
    (fun s => s.d.fresh) (fun _ a => a.thread = t) Sys.DropsLeaf := by
  refine Engine.solo_serving (fun s hs => hs.1.hash.proper) ?_ ?_
  · intro s a c s' hs ht hc ha
    cases a with
    | step => cases hc
    | call u c' =>
      obtain rfl : c' = c := some.inj hc
      obtain rfl : u = t := ht
      have ha : s.act (.call u c') = some s' := ha
      obtain ⟨hd, hpc, -⟩ := Sys.act_call ha
      refine ⟨⟨hs.1.act (hs.2.careful hs.1 rfl) ha, hs.2.act rfl ha⟩, ?_, congrArg DCache.names hd⟩
      rw [hpc]
      exact callStart_aims _ _
  · intro s a s' hs ht hc ha
    cases a with
    | call => cases hc
    | step u oom =>
      obtain rfl : u = t := ht
      have ha : s.act (.step u oom) = some s' := ha
      have hnext := hs.1.act (hs.2.careful hs.1 rfl) ha
      have hcur := hs.2.act rfl ha
      have hb : (s.pc u).busy = true := by
        by_contra hb
        simp only [Sys.act, if_neg hb] at ha
        cases ha
      obtain rfl : _ = s' := some.inj ((Sys.act_step hb oom).symm.trans ha)
      obtain ⟨S, hV⟩ := hs.1.inv
      refine ⟨hb, fun h0 => ?_, fun c hA => ⟨⟨hnext, hcur⟩, ?_, ?_⟩⟩
      · exact Bool.eq_false_iff.mp (busy_of_returnsZero h0)
      · simp only [update_self]
        exact stepPc_aims hV.hash hs.1.sib hA
      · have hT : Turn ((s.pc u).DropsLeaf s.d) s.d.fresh s.d.names c
            (stepPc s.d (s.pc u) oom).2.returnsZero (stepPc s.d (s.pc u) oom).1.names :=
          stepPc_turn hV.hash hs.1.sib hs.1.places.sited (hV.pcOk u) hb hA
        simpa [engine, Act.thread, Sys.DropsLeaf] using hT

theorem Alone.init (bucketOf : ℕ → Name → ℕ) (rootname : Name) (t : ℕ) :
    Alone t (Sys.init bucketOf rootname) none :=
  ⟨⟨.init bucketOf rootname, fun _ hf => (by cases hf)⟩, nofun, fun _ => Bool.false_ne_true⟩

theorem init_names (bucketOf : ℕ → Name → ℕ) (rootname : Name) (p : List Name) (hp : p ≠ []) :
    (engine.names (Sys.init bucketOf rootname)).find p = none := by
  have hI : HashOk (Sys.init bucketOf rootname).d := (Sound.init bucketOf rootname).hash
  cases p with
  | nil => exact absurd rfl hp
  | cons n =>
    have hnone : (Sys.init bucketOf rootname).d.childLookup root n = none :=
      hI.childLookup_none (fun a ha => absurd ha (by
        simp [DCache.hashed, Sys.init, dcCreate_hashChain])) n
    refine names_eq_none.mpr ?_
    rw [DCache.resolve, Namei.resolve, hnone, bind_none]

def Sys.Finds (s : Sys Name) (t : ℕ) (path : List Name) (h : ℕ) : Prop :=
  ∃ k s' hosts, exec Sys.act s (Act.op t (.lookup path) k) = some s' ∧
    s'.pc t = .done (.lookup .positive hosts) ∧ hosts.getLast? = some h

theorem Runs.exec {pc pc' : Pc Name} {d' : DCache Name} (hr : Runs ⟨false, false⟩ d pc d' pc')
    (hd : s.d = d) (hpc : s.pc t = pc) :
    ∃ k s', Run.exec Sys.act s (Act.steps t k) = some s' ∧ s'.pc t = pc' := by
  induction hr generalizing s with
  | refl => exact ⟨0, s, rfl, hpc⟩
  | @step _ _ _ _ hb _ ih =>
    subst hd hpc
    have hoom : (s.pc t).oom ⟨false, false⟩ = false := by cases s.pc t <;> rfl
    rw [hoom] at ih
    obtain ⟨k, s', he, hs'⟩ := ih (s := ⟨_, s.rcuAtStep t _, update s.pc t _⟩) rfl
      (update_self t _ _)
    refine ⟨k + 1, s', ?_, hs'⟩
    rw [Act.steps, List.replicate_succ, Run.exec, Sys.act_step hb]
    exact he

theorem HashOk.finds_iff (hI : HashOk s.d) (hb : (s.pc t).busy = false) {path : List Name} {h : ℕ}
    (hne : path ≠ []) :
    s.Finds t path h ↔ s.d.resolve path = some h ∧ (s.d.dentry h).neg = false := by
  have hcall : s.act (.call t (.op (.lookup path))) = some ⟨s.d,
      s.rcuAtCall t (.op (.lookup path)), update s.pc t (.lkStart path)⟩ := by
    simp [Sys.act, hb, Sys.admits, callStart, opStart, Op.start]
  have hstop : ∀ (s : Sys Name) r, s.pc t = .done r → s.act (.step t false) = none := by
    intro s r hpc
    simp [Sys.act, hpc, Pc.busy]
  have hrun : Runs ⟨false, false⟩ s.d (.lkHop path root path [] .positive) s.d (.done (.lookup
      (s.d.answer root path .positive) (List.map Prod.snd [] ++ s.d.through root path))) :=
    hI.runs_lookup_from path path (by simp)
  obtain ⟨k, s', he, hpc⟩ := hrun.exec (t := t) (s := ⟨s.d, s.rcuAtCall t (.op (.lookup path)),
    update s.pc t (.lkStart path)⟩) rfl (update_self ..)
  exact lookup_iff (fun _ _ => Pc.done.inj) hstop hcall he hpc hne

theorem SibOk.kids_nodup (hS : SibOk d) (hI : HashOk d) (h : ℕ) : (d.tree.kids h).Nodup := by
  refine (hS.family.nodup h).map_on ?_
  intro a ha b hb he
  exact hI.hostOf_inj ((hS.mem h a).mp ha).1 ((hS.mem h b).mp hb).1 (congrArg Prod.fst he)

theorem client (bucketOf : ℕ → Name → ℕ) (rootname : Name) (t : ℕ) :
    engine.Client (Alone t) (fun s => (s.pc t).busy = true) (fun s => s.d.fresh)
      (fun _ a => a.thread = t) Sys.DropsLeaf (Sys.init bucketOf rootname) (fun s => s.d.tree) root
      (fun s => (s.pc t).busy = false) (fun s => s.Finds t) := by
  refine ⟨engine_solo t, .init bucketOf rootname t, init_names bucketOf rootname, fun _ => rfl,
    fun s c hs hrest => ?_⟩
  obtain ⟨S, hV⟩ := hs.inv.1.inv
  exact ⟨hs.inv.1.sib.listed hV.hash, hs.inv.1.sib.kids_nodup hV.hash, hV.hash.rooted, hV.rootParent,
    fun _ => rfl, fun _ _ hne => hV.hash.finds_iff hrest hne⟩

end TrieBenchmark.Bucketlock
