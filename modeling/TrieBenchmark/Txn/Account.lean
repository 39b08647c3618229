import TrieBenchmark.Txn.Aim

/-!
Calls of the lock-free engine one at a time, with queued folds and evictions between them: the
objects that `dc_walk` visits are those of the record.
-/

namespace TrieBenchmark.Txn

open Function Edits Namei Serial Run

variable {Name : Type} [DecidableEq Name] {d : Cache Name} {s s' : Sys Name} {t : ℕ} {arm : Arm}

def Act.made : Act Name → Option (Call Name)
  | .call _ c => some c
  | .step _ _ => none

def engine (arm : Arm) : Engine (Sys Name) (Act Name) Name where
  act := Sys.act arm
  call := Act.made
  names s := s.d.names
  returned s a := (s.pc a.thread).returnsZero

def Sys.DropsLeaf (s : Sys Name) : Act Name → Prop
  | .call _ _ => True
  | .step t _ => (s.pc t).DropsLeaf s.d

instance (d : Cache Name) (pc : Pc Name) : Decidable (pc.DropsLeaf d) := by
  apply pc.casesOn (motive := fun pc => Decidable (pc.DropsLeaf d)) <;> intros <;> first
    | exact instDecidableTrue
    | exact inferInstanceAs (Decidable (∀ h ∈ _, _ → _))

instance (s : Sys Name) (a : Act Name) : Decidable (s.DropsLeaf a) :=
  match a with
  | .call _ _ => .isTrue trivial
  | .step t _ => inferInstanceAs (Decidable ((s.pc t).DropsLeaf s.d))

theorem IndexOk.proper (hI : IndexOk d) : Proper d.fresh d.names :=
  pathMap_proper hI.rooted (fun _ => rfl) fun _ _ => hI.resolve_lt

omit [DecidableEq Name] in
theorem busy_of_returnsZero {pc : Pc Name} (h : pc.returnsZero = true) : pc.busy = false := by
  cases pc <;> first | rfl | cases h

theorem Pc.Aims.crossFits {pc : Pc Name} {k : Call Name} (hA : pc.Aims d k) {c : Checked Name}
    (hc : Commits d pc c) : c.OfRename fun m _ => m.CrossFits := by
  refine hc.ofRename fun m top g oldp hpc _ => ?_
  subst hpc
  obtain ⟨sdir, ddir, hF, -⟩ := hA
  exact hF.1.cross

/-- One thread between its actions, with its call under way. -/
abbrev Alone (arm : Arm) (t : ℕ) : Sys Name → Option (Call Name) → Prop :=
  Serving (fun s => (∃ S, Inv arm s S) ∧ ParentsAgree s.d) (fun s c => (s.pc t).Aims s.d c)
    (fun s => (s.pc t).busy = true)

theorem engine_solo (arm : Arm) (t : ℕ) :
    (engine arm : Engine (Sys Name) (Act Name) Name).Solo (Alone arm t)
    (fun s => (s.pc t).busy = true) (fun s => s.d.fresh) (fun _ a => a.thread = t)
    Sys.DropsLeaf := by
  refine Engine.solo_serving (fun s hs => hs.1.elim fun _ hV => hV.index.proper) ?_ ?_
  · intro s a c s' ⟨⟨S, hV⟩, hpar⟩ ht hc ha
    have ha : s.act arm a = some s' := ha
    rcases Sys.act_cases ha with ⟨u, c', rfl, -, -, rfl⟩ | ⟨u, ans, rfl, -, rfl⟩
    · obtain rfl : c' = c := Option.some.inj hc
      obtain rfl : u = t := ht
      refine ⟨⟨⟨_, hV.act ha⟩, hpar⟩, ?_, rfl⟩
      simp only [update_self]
      exact callStart_aims _ _ _
    · cases hc
  · intro s a s' ⟨⟨S, hV⟩, hpar⟩ ht hc ha
    have ha : s.act arm a = some s' := ha
    have hV' := hV.act ha
    rcases Sys.act_cases ha with ⟨u, c', rfl, -, -, rfl⟩ | ⟨u, ans, rfl, hb, rfl⟩
    · cases hc
    · obtain rfl : u = t := ht
      refine ⟨hb, fun h0 => ?_, fun c hA => ?_⟩
      · exact Bool.eq_false_iff.mp (busy_of_returnsZero h0)
      have hT : Turn ((s.pc u).DropsLeaf s.d) s.d.fresh s.d.names c
          (stepPc arm s.d (s.pc u) ans).2.returnsZero (stepPc arm s.d (s.pc u) ans).1.names :=
        stepPc_turn hV.index hV.parents (hV.pcOk u) (hV.seen u hb).settled
          (fun n hn => hV.host_not_linked hn) hb hA
      obtain ⟨_, _, hE, -⟩ := hV.effect (C := Checked.OfRename fun m _ => m.CrossFits) ans hb
        fun _ hc => hA.crossFits hc
      refine ⟨⟨⟨_, hV'⟩, hpar.effect hE hV.index⟩, ?_, ?_⟩
      · simp only [update_self]
        exact stepPc_aims hV.index hpar hA
      · simpa [engine, Act.thread, Sys.DropsLeaf] using hT

theorem Alone.init (arm : Arm) (bucketOf : ℕ → Name → ℕ) (rootname : Name) (t : ℕ) :
    Alone arm t (Sys.init bucketOf rootname) none :=
  ⟨⟨⟨fun _ => ∅, .init arm bucketOf rootname _⟩, fun T hT => (by cases hT)⟩, nofun,
    fun _ => Bool.false_ne_true⟩

theorem init_names (arm : Arm) (bucketOf : ℕ → Name → ℕ) (rootname : Name) (p : List Name)
    (hp : p ≠ []) : ((engine arm).names (Sys.init bucketOf rootname)).find p = none := by
  cases p with
  | nil => exact absurd rfl hp
  | cons n =>
    have hnone : (Sys.init bucketOf rootname).d.childLookup root n = none := rfl
    refine names_eq_none.mpr ?_
    rw [Cache.resolve, Namei.resolve, hnone, Option.bind_none]

def Sys.Finds (arm : Arm) (s : Sys Name) (t : ℕ) (path : List Name) (h : ℕ) : Prop :=
  ∃ k s' hosts, exec (Sys.act arm) s (Act.op t (.lookup path) k) = some s' ∧
    s'.pc t = .done (.lookup .positive hosts) ∧ hosts.getLast? = some h

theorem Looks.exec {pc pc' : Pc Name} (hl : Looks arm d pc pc') (hd : s.d = d) (hpc : s.pc t = pc) :
    ∃ k s', Run.exec (Sys.act arm) s (Act.steps t k) = some s' ∧ s'.pc t = pc' := by
  induction hl generalizing s with
  | refl => exact ⟨0, s, rfl, hpc⟩
  | @head _ pc₁ _ hb he _ ih =>
    subst hd hpc
    obtain ⟨k, s', hk, hs'⟩ := ih (s := ⟨s.d, s.rcu.atStep t (s.pc t).queues pc₁.busy,
      update s.pc t pc₁⟩) rfl (update_self t _ _)
    refine ⟨k + 1, s', ?_, hs'⟩
    rw [Act.steps, List.replicate_succ, Run.exec, Sys.act_step hb.1, he]
    exact hk

theorem IndexOk.finds_iff (hI : IndexOk s.d) (hb : (s.pc t).busy = false) {path : List Name}
    {h : ℕ} (hne : path ≠ []) :
    s.Finds arm t path h ↔ s.d.resolve path = some h ∧ (s.d.dentry h).neg = false := by
  have hcall : s.act arm (.call t (.op (.lookup path))) = some ⟨s.d,
      s.rcu.atCall t none (opStart arm (.lookup path)).busy,
      update s.pc t (opStart arm (.lookup path))⟩ := by
    simp [Sys.act, hb, Sys.admits, callStart, Call.folded]
  have hstop : ∀ (s : Sys Name) r, s.pc t = .done r → s.act arm (.step t .ok) = none := by
    intro s r hpc
    simp [Sys.act, hpc, Pc.busy]
  obtain ⟨k, s', he, hpc⟩ := (hI.looks_up_path arm path).exec (t := t) (s := ⟨s.d,
    s.rcu.atCall t none (opStart arm (.lookup path)).busy,
    update s.pc t (opStart arm (.lookup path))⟩) rfl (update_self ..)
  exact lookup_iff (fun _ _ => Pc.done.inj) hstop hcall he hpc hne

theorem IndexOk.kids_nodup (hI : IndexOk d) (h : ℕ) : (d.tree.kids h).Nodup := by
  refine (hI.kidsNodup h).map_on ?_
  intro a ha b hb he
  exact hI.hostOf_inj ((hI.kids h a).mp ha).1 ((hI.kids h b).mp hb).1 (congrArg Prod.fst he)

theorem client (arm : Arm) (bucketOf : ℕ → Name → ℕ) (rootname : Name) (t : ℕ) :
    (engine arm).Client (Alone arm t) (fun s => (s.pc t).busy = true) (fun s => s.d.fresh)
      (fun _ a => a.thread = t) Sys.DropsLeaf (Sys.init bucketOf rootname) (fun s => s.d.tree) root
      (fun s => (s.pc t).busy = false) (fun s => s.Finds arm t) := by
  refine ⟨engine_solo arm t, .init arm bucketOf rootname t, init_names arm bucketOf rootname,
    fun _ => rfl, fun s c hs hrest => ?_⟩
  obtain ⟨S, hV⟩ := hs.inv.1
  exact ⟨hV.index.listed, hV.index.kids_nodup, hV.index.rooted, hV.rootParent, fun _ => rfl,
    fun _ _ hne => hV.index.finds_iff hrest hne⟩

end TrieBenchmark.Txn
