import TrieBenchmark.Txn.Invariant

/-!
Entries that come into and leave the index. A directory that `dc_unlink` or an eviction takes out
is empty at that commit, and its sealed child head keeps it empty.
-/

namespace TrieBenchmark.Txn

open Cache Edits Run

variable {Name : Type} {d d' : Cache Name} {arm : Arm} {touched back : Option ℕ} {h p : ℕ}

def Bound (d : Cache Name) (h : ℕ) : Prop :=
  ∃ T < d.fresh, d.linked T ∧ d.hostOf T = h

instance (d : Cache Name) (h : ℕ) : Decidable (Bound d h) :=
  inferInstanceAs (Decidable (∃ T < d.fresh, _))

theorem IndexOk.bound (hI : IndexOk d) {T : ℕ} (hT : d.linked T) : Bound d (d.hostOf T) :=
  ⟨T, hI.lt hT, hT, rfl⟩

namespace Edited

variable {e : Edit ℕ}

theorem bound_inn (hE : Edited d e d') (hI : IndexOk d) {a : ℕ} (ha : a ∈ e.inn) :
    Bound d' (d'.hostOf a) :=
  ⟨a, (hE.inn a ha).2.1, (hE.linked_iff hI).mpr (.inr ha), rfl⟩

theorem out_of_unbound (hE : Edited d e d') (hI : IndexOk d) (hb : Bound d h)
    (hn : ¬ Bound d' h) : ∃ T ∈ e.out, d.linked T ∧ d.hostOf T = h := by
  obtain ⟨T, hlt, hT, rfl⟩ := hb
  by_contra hno
  have ho : T ∉ e.out := fun ho => hno ⟨T, ho, hT, rfl⟩
  exact hn ⟨T, Nat.lt_of_lt_of_le hlt hE.fresh, (hE.linked_iff hI).mpr (.inl ⟨hT, ho⟩),
    hE.kind.hostOf hlt⟩

theorem new_of_first_kid (hE : Edited d e d') (hI : IndexOk d) {a : ℕ} (h₀ : d.kids p = [])
    (ha : a ∈ d'.kids p) : a ∈ e.new ∧ (d'.dentry a).iparent = p := by
  obtain ⟨hl, hp⟩ := (hE.kids_iff hI p).mp ha
  rcases hE.linked_origin hI hl with hnew | ⟨x, hx, hs⟩
  · exact ⟨hnew, hp⟩
  · have hmem := (hI.kids p x).mpr ⟨hx, (hE.slot_key hI hx hs).1.symm.trans hp⟩
    rw [h₀] at hmem
    cases hmem

end Edited

theorem Bound.modify {f : Dentry Name → Dentry Name} (hI' : IndexOk (d.modify p f))
    (hI : IndexOk d) (hb : Bound d h)
    (hf : (f (d.dentry p)).shell = (d.dentry p).shell ∧ (f (d.dentry p)).host = (d.dentry p).host) :
    Bound (d.modify p f) h := by
  obtain ⟨T, hlt, hT, rfl⟩ := hb
  refine ⟨T, hlt, (hI'.live T hlt (hI.alloc T hT).2).mp (hI.not_mark hT), ?_⟩
  unfold Cache.hostOf
  rcases eq_or_ne T p with rfl | hne
  · rw [modify_self, hf.1, hf.2]
  · rw [modify_of_ne _ _ _ _ hne]

namespace IndexOk

theorem stack_unbound (hI : IndexOk d) {m : Move Name} {top : ℕ} {neg : Option ℕ}
    (ht : d.linked top) (hcl : Claim d m top neg) (hb : Bound d h)
    (hn : ¬ Bound (d.stackCommit arm m top neg) h) : ∃ a, neg = some a ∧ d.hostOf a = h := by
  have hE : Edited d _ (d.stackCommit arm m top neg) := hI.stack_edited ht hcl
  obtain ⟨T, ho, -, rfl⟩ := hE.out_of_unbound hI hb hn
  have hT : T = top ∨ neg = some T := by
    cases neg <;> simpa [Edit.out, eq_comm] using ho
  rcases hT with rfl | hT
  · -- the new shell names the entry of the source
    have hs := hE.bound_inn hI (a := d.fresh) (by simp [Edit.inn])
    rw [Cache.hostOf, stackCommit_new (hI.host_lt ht)] at hs
    exact absurd hs hn
  · exact ⟨T, hT, rfl⟩

theorem exchange_bound (hI : IndexOk d) {x : Xchg Name} {topa topb : ℕ}
    (hX : XchgTops d x topa topb) (hb : Bound d h) : Bound (d.exchangeCommit arm x topa topb) h := by
  have hE : Edited d _ (d.exchangeCommit arm x topa topb) := hI.exchange_edited hX
  obtain ⟨hsa, hsb⟩ := hI.exchangeCommit_shells arm hX
  by_contra hn
  obtain ⟨T, ho, -, rfl⟩ := hE.out_of_unbound hI hb hn
  obtain rfl | rfl : T = topa ∨ T = topb := by simpa [Edit.out] using ho
  · have hs := hE.bound_inn hI (a := d.fresh) (by simp [Edit.inn])
    rw [Cache.hostOf, hsa] at hs
    exact hn hs
  · have hs := hE.bound_inn hI (a := d.fresh + 1) (by simp [Edit.inn])
    rw [Cache.hostOf, hsb] at hs
    exact hn hs

theorem fold_bound (hI : IndexOk d) {n : ℕ} (hl : d.linked n) (hs : (d.dentry n).shell = true)
    (hname : (d.dentry (d.hostOf n)).iname = (d.dentry n).iname)
    (hparent : arm ≠ .mark → (d.dentry (d.hostOf n)).iparent = (d.dentry n).iparent)
    (hb : Bound d h) : Bound (d.foldCommit arm n) h := by
  have hE : Edited d _ (d.foldCommit arm n) := hI.fold_edited hl hs hname hparent
  by_contra hn
  obtain ⟨T, ho, -, rfl⟩ := hE.out_of_unbound hI hb hn
  obtain rfl : T = n := by simpa [Edit.out] using ho
  have hlt := hI.lt hl
  have hs := hE.bound_inn hI (a := d.hostOf T) (by simp [Edit.inn])
  rw [hE.kind.hostOf (hI.hostOf_host hlt).1, hI.hostOf_hostOf hlt] at hs
  exact hn hs

end IndexOk

namespace Effect

variable {C : Checked Name → Prop}

theorem sealed_mono (hE : Effect arm C d touched back d') (hs : d.sealed p = true) :
    d'.sealed p = true := by
  cases hE with
  | remove =>
    rw [removeCommit_sealed, hs]
    rfl
  | stack => rwa [stackCommit_sealed]
  | exchange => rwa [exchangeCommit_sealed]
  | fold => rwa [foldCommit_sealed]
  | _ => exact hs

/-- A directory gets its first child from an add or a rename, which found its head unsealed and,
in the mark arm, the directory positive. -/
theorem first_kid (hE : Effect arm C d touched back d') (hI : IndexOk d) (h₀ : d.kids p = [])
    (h₁ : d'.kids p ≠ []) : d.sealed p = false ∧ p < d.fresh ∧
      ((arm = .mark → (d.dentry p).neg = false) ∧ C (.add p) ∨
        ∃ m neg, m.newParent = p ∧ C (.rename m neg)) := by
  obtain ⟨a, ha⟩ := List.exists_mem_of_ne_nil _ h₁
  have hnone : ∀ {e : Edit ℕ}, Edited d e d' → e.new = [] → False := by
    intro e hE hnew
    have := (hE.new_of_first_kid hI h₀ ha).1
    rw [hnew] at this
    cases this
  cases hE with
  | add parent _ _ _ _ hlt hadd hpos hs hname =>
    obtain ⟨hnew, hp⟩ := (hI.add_edited hname).new_of_first_kid hI h₀ ha
    obtain rfl : a = d.fresh := by simpa using hnew
    rw [addCommit_new] at hp
    obtain rfl : parent = p := hp
    exact ⟨hs, hlt, .inl ⟨hpos, hadd⟩⟩
  | stack m top neg ht _ _ hcl hlt hs _ hC =>
    obtain ⟨hnew, hp⟩ := (hI.stack_edited ht hcl).new_of_first_kid hI h₀ ha
    obtain rfl : a = d.fresh := by simpa using hnew
    rw [stackCommit_new (hI.host_lt ht)] at hp
    obtain rfl : m.newParent = p := hp
    exact ⟨hs, hlt, .inr ⟨m, neg, rfl, hC⟩⟩
  | remove _ _ ht => exact (hnone (hI.remove_edited ht) rfl).elim
  | exchange _ _ _ hX => exact (hnone (hI.exchange_edited hX) rfl).elim
  | fold _ hn hs hname hparent => exact (hnone (hI.fold_edited hn hs hname hparent) rfl).elim
  | _ => exact absurd h₀ h₁

theorem kids_of_sealed_new (hE : Effect arm C d touched back d') (hI : IndexOk d)
    (hs : d.sealed p = false) (hs' : d'.sealed p = true) : d'.kids p = [] := by
  cases hE with
  | remove top sealIt ht _ hk =>
    obtain ⟨hi, rfl⟩ : sealIt = true ∧ p = d.hostOf top := by
      simpa [removeCommit_sealed, hs] using hs'
    apply List.eq_nil_iff_forall_not_mem.mpr
    intro a ha
    have hnew := ((hI.remove_edited ht).new_of_first_kid hI (hk hi) ha).1
    cases hnew
  | stack =>
    rw [stackCommit_sealed, hs] at hs'
    cases hs'
  | exchange =>
    rw [exchangeCommit_sealed, hs] at hs'
    cases hs'
  | fold =>
    rw [foldCommit_sealed, hs] at hs'
    cases hs'
  | _ =>
    rw [show d.sealed p = true from hs'] at hs
    cases hs

theorem unbound_dir (hE : Effect arm C d touched back d') (hI : IndexOk d) (hb : Bound d h)
    (hn : ¬ Bound d' h) (hd : (d.dentry h).isdir = true) :
    d.kids h = [] ∧ d'.sealed h = true := by
  have hI' := hE.indexOk hI
  cases hE with
  | read => exact absurd hb hn
  | flag | ident | flip | name | swap => exact absurd (hb.modify hI' hI ⟨rfl, rfl⟩) hn
  | add _ _ _ _ _ _ _ _ _ hname =>
    obtain ⟨T, ho, -⟩ := (hI.add_edited hname).out_of_unbound hI hb hn
    simp [Edit.out] at ho
  | remove top _ ht hseal hk =>
    obtain ⟨T, ho, -, rfl⟩ := (hI.remove_edited ht).out_of_unbound hI hb hn
    obtain rfl : T = top := by simpa [Edit.out] using ho
    have hs := hseal hd
    refine ⟨hk hs, ?_⟩
    simp [removeCommit_sealed, hs]
  | stack _ _ _ ht _ _ hcl _ _ hneg =>
    obtain ⟨a, ha, rfl⟩ := hI.stack_unbound ht hcl hb hn
    obtain ⟨hhost, hfile⟩ := hneg a ha
    rw [hhost, hfile] at hd
    cases hd
  | exchange _ _ _ hX => exact absurd (hI.exchange_bound hX hb) hn
  | fold _ hl hs hname hparent => exact absurd (hI.fold_bound hl hs hname hparent hb) hn

end Effect

theorem Edited.bound_back {e : Edit ℕ} (hE : Edited d e d') (hI : IndexOk d)
    (hinn : ∀ a ∈ e.inn, Bound d (d'.hostOf a) ∨ d.fresh ≤ d'.hostOf a) (hb : Bound d' h) :
    Bound d h ∨ d.fresh ≤ h := by
  obtain ⟨T, -, hT, rfl⟩ := hb
  rcases (hE.linked_iff hI).mp hT with ⟨hl, -⟩ | hi
  · rw [hE.kind.hostOf (hI.lt hl)]
    exact .inl (hI.bound hl)
  · exact hinn T hi

theorem Bound.of_modify {p : ℕ} {f : Dentry Name → Dentry Name} (hI : IndexOk d)
    (hf : (f (d.dentry p)).shell = (d.dentry p).shell ∧ (f (d.dentry p)).host = (d.dentry p).host)
    (hb : Bound (d.modify p f) h) : Bound d h := by
  obtain ⟨T, -, hT, rfl⟩ := hb
  have hl : d.linked T := hI.linked_of_mem (b := (d.modify p f).bucket T) hT
  have hhost : (d.modify p f).hostOf T = d.hostOf T := by
    unfold Cache.hostOf
    rcases eq_or_ne T p with rfl | hne
    · rw [modify_self, hf.1, hf.2]
    · rw [modify_of_ne _ _ _ _ hne]
  rw [hhost]
  exact hI.bound hl

theorem Effect.bound_back {C : Checked Name → Prop} (hE : Effect arm C d touched back d')
    (hI : IndexOk d) (hb : Bound d' h) : Bound d h ∨ d.fresh ≤ h := by
  cases hE with
  | read => exact .inl hb
  | flag | ident | flip | name | swap => exact .inl (hb.of_modify hI ⟨rfl, rfl⟩)
  | add _ _ _ _ _ _ _ _ _ hname =>
    refine (hI.add_edited hname).bound_back hI (fun a ha => .inr ?_) hb
    obtain rfl : a = d.fresh := by simpa [Edit.inn] using ha
    rw [hostOf_of_host (by rw [addCommit_new])]
  | remove _ _ ht => exact (hI.remove_edited ht).bound_back hI (by simp [Edit.inn]) hb
  | stack _ top neg ht _ _ hcl =>
    refine (hI.stack_edited ht hcl).bound_back hI (fun a ha => .inl ?_) hb
    obtain rfl : a = d.fresh := by cases neg <;> simpa [Edit.inn] using ha
    rw [Cache.hostOf, stackCommit_new (hI.host_lt ht)]
    exact hI.bound ht
  | exchange _ _ _ hX =>
    obtain ⟨hsa, hsb⟩ := hI.exchangeCommit_shells arm hX
    refine (hI.exchange_edited hX).bound_back hI (fun a ha => .inl ?_) hb
    obtain rfl | rfl : a = d.fresh + 1 ∨ a = d.fresh := by simpa [Edit.inn] using ha
    · rw [Cache.hostOf, hsb]
      exact hI.bound hX.linkedb
    · rw [Cache.hostOf, hsa]
      exact hI.bound hX.linkeda
  | fold n hn hs hname hparent =>
    have hEd : Edited d _ (d.foldCommit arm n) := hI.fold_edited hn hs hname hparent
    refine hEd.bound_back hI (fun a ha => .inl ?_) hb
    obtain rfl : a = d.hostOf n := by simpa [Edit.inn] using ha
    have hlt := hI.lt hn
    rw [hEd.kind.hostOf (hI.hostOf_host hlt).1, hI.hostOf_hostOf hlt]
    exact hI.bound hn

/-- A sealed child head heads an empty list. -/
def SealOk (d : Cache Name) : Prop :=
  ∀ p, d.sealed p = true → d.kids p = []

theorem SealOk.effect {C : Checked Name → Prop} (hS : SealOk d)
    (hE : Effect arm C d touched back d') (hI : IndexOk d) : SealOk d' := by
  intro p hs'
  cases hs : d.sealed p with
  | true =>
    by_contra hne
    have hno := (hE.first_kid hI (hS p hs) hne).1
    rw [hs] at hno
    cases hno
  | false => exact hE.kids_of_sealed_new hI hs hs'

variable [DecidableEq Name] {s s' s'' : Sys Name} {a : Act Name}

theorem SealOk.act {S : ℕ → Set ℕ} (hV : Inv arm s S) (hS : SealOk s.d)
    (ha : s.act arm a = some s') : SealOk s'.d := by
  obtain ⟨_, _, hE, -⟩ := hV.effect_of_act (C := fun _ => True) ha fun _ _ _ _ _ => trivial
  exact hS.effect hE hV.index

theorem SealOk.reach {bucketOf : ℕ → Name → ℕ} {rootname : Name}
    (hr : Reach (Sys.act arm) (fun _ _ => True) (Sys.init bucketOf rootname) s) :
    ∃ S, Inv arm s S ∧ SealOk s.d :=
  hr.invariant (P := fun s => ∃ S, Inv arm s S ∧ SealOk s.d)
    ⟨fun _ => ∅, .init arm bucketOf rootname _, fun _ _ => rfl⟩
    fun _ _ _ ⟨_, hV, hS⟩ _ ha => ⟨_, hV.act ha, hS.act hV ha⟩

theorem SealOk.kids_of_reach {S : ℕ → Set ℕ} (hV : Inv arm s S) (hS : SealOk s.d)
    (hs : s.d.sealed h = true) (hr : Reach (Sys.act arm) (fun _ _ => True) s s') :
    s'.d.kids h = [] := by
  have hkeep : ∃ S, Inv arm s' S ∧ SealOk s'.d ∧ s'.d.sealed h = true :=
    hr.invariant (P := fun s => ∃ S, Inv arm s S ∧ SealOk s.d ∧ s.d.sealed h = true)
      ⟨S, hV, hS, hs⟩ fun _ _ _ ⟨_, hV, hS, hs⟩ _ ha => by
        obtain ⟨_, _, hE, -⟩ := hV.effect_of_act (C := fun _ => True) ha
          fun _ _ _ _ _ => trivial
        exact ⟨_, hV.act ha, hS.act hV ha, hE.sealed_mono hs⟩
  obtain ⟨_, _, hS', hs'⟩ := hkeep
  exact hS' h hs'

/-- A directory is empty at the commit that takes it out of the index, and no later commit puts
an entry into its child list. -/
theorem removed_directory_stays_empty {bucketOf : ℕ → Name → ℕ} {rootname : Name}
    (hr : Reach (Sys.act arm) (fun _ _ => True) (Sys.init bucketOf rootname) s)
    (ha : s.act arm a = some s') (hd : (s.d.dentry h).isdir = true) (hb : Bound s.d h)
    (hn : ¬ Bound s'.d h) (hr' : Reach (Sys.act arm) (fun _ _ => True) s' s'') :
    s.d.kids h = [] ∧ s''.d.kids h = [] := by
  obtain ⟨S, hV, hS⟩ := SealOk.reach hr
  obtain ⟨_, _, hE, -⟩ := hV.effect_of_act (C := fun _ => True) ha fun _ _ _ _ _ => trivial
  obtain ⟨hk, hs⟩ := hE.unbound_dir hV.index hb hn hd
  exact ⟨hk, SealOk.kids_of_reach (hV.act ha) (hS.act hV ha) hs hr'⟩

def unlinkMeetsAdd : List (Act ℕ) :=
  Act.op 0 (.add [1] 0) 6 ++ Act.op 0 (.unlink [1]) 3 ++ Act.op 1 (.add [1, 2] 0) 6

theorem removed_directory_stays_empty_unlink : ∃ s s' s'',
    Reach (Sys.act .mark) (fun _ _ => True) (Sys.init (fun _ _ => 0) 0) s ∧
      s.act .mark (.step 0 .ok) = some s' ∧ Reach (Sys.act .mark) (fun _ _ => True) s' s'' ∧
      s''.pc 1 = .done (.code (some .ENOENT)) ∧ s.d.kids 1 = [] ∧ s''.d.kids 1 = [] := by
  have he : ((exec (Sys.act .mark) (Sys.init (fun _ _ => 0) 0) unlinkMeetsAdd).bind fun s =>
      (s.act .mark (.step 0 .ok)).bind fun s' => (exec (Sys.act .mark) s' (Act.steps 1 1)).map
        fun s'' => (s''.pc 1, (s.d.dentry 1).isdir, decide (Bound s.d 1), decide (Bound s'.d 1))) =
      some (.done (.code (some .ENOENT)), true, true, false) := by
    rfl
  obtain ⟨s, hs, he⟩ := Option.bind_eq_some_iff.mp he
  obtain ⟨s', ha, he⟩ := Option.bind_eq_some_iff.mp he
  obtain ⟨s'', hs'', he⟩ := Option.map_eq_some_iff.mp he
  simp only [Prod.mk.injEq, decide_eq_true_eq, decide_eq_false_iff_not] at he
  exact ⟨s, s', s'', reach_exec hs, ha, reach_exec hs'', he.1,
    removed_directory_stays_empty (reach_exec hs) ha he.2.1 he.2.2.1 he.2.2.2 (reach_exec hs'')⟩

end TrieBenchmark.Txn
