import TrieBenchmark.Txn.Directory

/-!
The node that names an entry, read from the host. What a reader in its section has met of an
entry stays its name and parent until a move of the entry commits, and the move of a directory
bumps the generation of its arm.
-/

namespace TrieBenchmark.Txn

open Cache Edits

variable {Name : Type} {d d' : Cache Name} {arm : Arm} {touched back : Option ℕ} {S : Set ℕ}
  {C : Checked Name → Prop} {p : ℕ}

namespace Cache

variable {m : Move Name} {x : Xchg Name} {top topa topb : ℕ} {neg : Option ℕ}

def namedTop (d : Cache Name) (host : ℕ) : ℕ :=
  (d.dentry host).top.getD host

def key (d : Cache Name) (a : ℕ) : ℕ × Name :=
  ((d.dentry a).iparent, (d.dentry a).iname)

def stamp (arm : Arm) (d : Cache Name) (host : ℕ) : ℕ :=
  if arm = .global then d.gen else d.seq host

theorem bumpGen_seq (arm : Arm) (a b : ℕ) : (d.bumpGen arm a).seq b =
    if arm = .node ∧ (d.dentry a).isdir = true ∧ b = a then d.seq b + 2 else d.seq b := by
  unfold bumpGen
  rcases eq_or_ne b a with rfl | hne
  · split_ifs <;> simp_all
  · split_ifs <;> simp_all

theorem stackCommit_seq (hh : d.hostOf top < d.fresh) (b : ℕ) :
    (d.stackCommit arm m top neg).seq b =
      if arm = .node ∧ (d.dentry (d.hostOf top)).isdir = true ∧ b = d.hostOf top then d.seq b + 2
      else d.seq b := by
  have hne : d.hostOf top ≠ d.fresh := Nat.ne_of_lt hh
  unfold stackCommit
  cases m.cross <;> simp [edit, setParent, setTop, modify, alloc, bumpGen_seq, hne]

theorem exchangeCommit_seq (hX : XchgTops d x topa topb) (hI : IndexOk d) (b : ℕ) :
    (d.exchangeCommit arm x topa topb).seq b = d.seq b +
      if arm = .node ∧ ((d.dentry (d.hostOf topa)).isdir = true ∧ b = d.hostOf topa ∨
        (d.dentry (d.hostOf topb)).isdir = true ∧ b = d.hostOf topb) then 2 else 0 := by
  obtain ⟨ha, hb, hab⟩ := hX.hosts hI
  obtain ⟨h₁, h₃⟩ := ne_fresh ha
  obtain ⟨h₂, h₄⟩ := ne_fresh hb
  unfold exchangeCommit
  cases x.cross <;>
    simp only [edit, setParent, modify, Bool.false_eq_true, if_false, if_true, bumpGen_seq,
      bumpGen_dentry] <;>
    simp only [setTop, modify, alloc, Function.update_apply, h₁, h₂, h₃, h₄, hab, hab.symm,
      if_false, if_true] <;>
    grind

end Cache

namespace IndexOk

theorem hostOf_namedTop (hI : IndexOk d) (hp : p < d.fresh) (hs : (d.dentry p).shell = false) :
    d.hostOf (d.namedTop p) = p ∧ d.namedTop p < d.fresh := by
  unfold Cache.namedTop
  cases ht : (d.dentry p).top with
  | none => exact ⟨hostOf_of_host hs, hp⟩
  | some n =>
    obtain ⟨hlt, hsn, hh⟩ := hI.topShell p hp hs n ht
    exact ⟨by simp [Cache.hostOf, hsn, hh], hlt⟩

theorem namedTop_of_linked (hI : IndexOk d) {T : ℕ} (hT : d.linked T) :
    d.namedTop (d.hostOf T) = T := by
  unfold Cache.namedTop
  rw [hI.top T hT, Cache.dtopVal]
  split_ifs with he
  · exact he.symm
  · rfl

theorem bound_iff (hI : IndexOk d) (hp : p < d.fresh) (hs : (d.dentry p).shell = false) :
    Bound d p ↔ d.linked (d.namedTop p) := by
  constructor
  · rintro ⟨T, -, hT, rfl⟩
    rwa [hI.namedTop_of_linked hT]
  · intro hl
    have hb := hI.bound hl
    rwa [(hI.hostOf_namedTop hp hs).1] at hb

end IndexOk

namespace Effect

theorem stamp_le (hE : Effect arm C d touched back d') (hI : IndexOk d) (p : ℕ) :
    d.stamp arm p ≤ d'.stamp arm p := by
  have hgen := hE.gen_le hI
  have hseq : d.seq p ≤ d'.seq p := by
    cases hE with
    | stack _ top _ ht =>
      rw [stackCommit_seq (hI.host_lt ht)]
      split_ifs <;> omega
    | exchange _ _ _ hX =>
      rw [exchangeCommit_seq hX hI]
      omega
    | remove _ sealIt => cases sealIt <;> exact Nat.le_refl _
    | fold => cases arm <;> exact Nat.le_refl _
    | _ => exact Nat.le_refl _
  unfold Cache.stamp
  split_ifs
  · exact hgen
  · exact hseq

/-- What can happen to the pointer from a host to its named top: it stays, the entry moves, or
the host takes its shell's place. -/
theorem top_cases (hE : Effect arm C d touched back d') (hI : IndexOk d) (hp : p < d.fresh) :
    (d'.dentry p).top = (d.dentry p).top ∨
    (arm ≠ .mark → (d.dentry p).isdir = true → d.stamp arm p < d'.stamp arm p) ∨
    ∃ n, d.linked n ∧ d.hostOf n = p ∧ (d'.dentry p).top = none ∧ d'.linked p ∧
      d'.key p = d.key n := by
  have hbump : arm ≠ .mark → arm = .global ∨ arm = .node := by
    cases arm <;> simp
  cases hE with
  | read => exact .inl rfl
  | flag a => exact .inl (by by_cases h : p = a <;> simp [Cache.setMoving, Cache.modify, h])
  | ident a => exact .inl (by by_cases h : p = a <;> simp [Cache.modify, h])
  | flip host => exact .inl (by by_cases h : p = host <;> simp [Cache.flip, Cache.modify, h])
  | name n => exact .inl (by by_cases h : p = d.hostOf n <;> simp [Cache.setIname, Cache.modify, h])
  | swap n =>
    exact .inl (by by_cases h : p = d.hostOf n <;> simp [Cache.setIparent, Cache.modify, h])
  | add => exact .inl (by rw [addCommit_old hp])
  | remove => exact .inl (by rw [removeCommit_dentry])
  | stack _ top _ ht =>
    have hh := hI.host_lt ht
    by_cases he : p = d.hostOf top
    · refine .inr (.inl fun hm hd => ?_)
      subst he
      rcases hbump hm with rfl | rfl
      · simp [Cache.stamp, stackCommit_gen hh, hd]
      · simp [Cache.stamp, stackCommit_seq hh, hd]
    · exact .inl (by rw [stackCommit_old hp, if_neg he])
  | exchange x topa topb hX =>
    obtain ⟨hha, hhb, hab⟩ := hX.hosts hI
    by_cases he : p = d.hostOf topa ∨ p = d.hostOf topb
    · refine .inr (.inl fun hm hd => ?_)
      rcases hbump hm with rfl | rfl
      · simp only [Cache.stamp, if_true, exchangeCommit_gen hX hI]
        rcases he with rfl | rfl <;> simp only [hd, and_self, if_true] <;> omega
      · have hcond : (d.dentry (d.hostOf topa)).isdir = true ∧ p = d.hostOf topa ∨
            (d.dentry (d.hostOf topb)).isdir = true ∧ p = d.hostOf topb := by
          rcases he with rfl | rfl
          · exact .inl ⟨hd, rfl⟩
          · exact .inr ⟨hd, rfl⟩
        simp [Cache.stamp, exchangeCommit_seq hX hI, hcond]
    · push Not at he
      refine .inl ?_
      rw [exchangeCommit_dentry_eq arm x hha hhb hab, if_neg he.1, if_neg he.2,
        if_neg (Nat.ne_of_lt hp), if_neg (by omega)]
  | fold n hl hs hname hparent =>
    by_cases he : p = d.hostOf n
    · subst he
      have hEd : Edited d _ (d.foldCommit arm n) := hI.fold_edited hl hs hname hparent
      refine .inr (.inr ⟨n, hl, rfl, by rw [foldCommit_host], ?_, ?_⟩)
      · exact (hEd.linked_iff hI).mpr (.inr (by simp [Edit.inn]))
      · exact Prod.ext_iff.mpr (hEd.place n (d.hostOf n) (by simp))
    · exact .inl (by rw [foldCommit_of_ne he])

end Effect

def Named (d : Cache Name) (S : Set ℕ) (p : ℕ) (k : ℕ × Name) : Prop :=
  d.namedTop p ∈ S ∧ d.key (d.namedTop p) = k

theorem IndexStep.key_eq (hH : IndexStep d touched back d') {a : ℕ} (ha : a < d.fresh)
    (ht : touched ≠ some a) : d'.key a = d.key a :=
  Prod.ext_iff.mpr (hH.key a ha ht)

theorem Named.effect {k : ℕ × Name} (hN : Named d S p k) (hE : Effect arm C d touched back d')
    (hI : IndexOk d) (hS : Settled d S) (hf : Spares touched back S) (hp : p < d.fresh) :
    Named d' (S ∪ {a | d'.linked a}) p k ∨
      (arm ≠ .mark → (d.dentry p).isdir = true → d.stamp arm p < d'.stamp arm p) := by
  have hH := hE.indexStep hI
  rcases hE.top_cases hI hp with ht | hmoved | ⟨n, hn, rfl, ht, hl, hk⟩
  · have he : d'.namedTop p = d.namedTop p := by
      unfold Cache.namedTop
      rw [ht]
    refine .inl ⟨he ▸ .inl hN.1, ?_⟩
    rw [he, hH.key_eq (hS _ hN.1).1 (hf.key _ hN.1)]
    exact hN.2
  · exact .inr hmoved
  · have he : d'.namedTop (d.hostOf n) = d.hostOf n := by
      unfold Cache.namedTop
      rw [ht]
      rfl
    unfold Named
    rw [he, hk, ← hN.2, hI.namedTop_of_linked hn]
    exact .inl ⟨.inr hl, rfl⟩

end TrieBenchmark.Txn
