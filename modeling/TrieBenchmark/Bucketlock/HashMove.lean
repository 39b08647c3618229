import TrieBenchmark.Bucketlock.HashIndex

/-!
The moves of the bucket-lock engine keep its hash index sound: the stack of a shell, the
exchange of two entries and the fold of a shell into its host.
-/

namespace TrieBenchmark.Bucketlock

open DCache List Hlist

variable {Name : Type} {d : DCache Name}

/-! Stacking a shell. -/

section Stack

variable {m : Move Name} {top : ℕ} {a : ℕ}

theorem stackCommit_old (hlt : d.hostOf top < d.fresh) (ha : a < d.fresh) :
    (d.stackCommit m top).dentry a = { d.dentry a with
      top := if a = d.hostOf top then some d.fresh else (d.dentry a).top
      parent := if a = d.hostOf top ∧ m.cross = true then m.newParent
        else (d.dentry a).parent } := by
  rcases eq_or_ne a (d.hostOf top) with rfl | hne
  · rw [stackCommit_dentry_host (Nat.ne_of_lt hlt)]
    simp
  · rw [stackCommit_dentry_of_ne hne (Nat.ne_of_lt ha)]
    simp [hne]

theorem HashOk.stack_swapped (hI : HashOk d)
    (hmem : top ∈ d.hashChain (d.bucketOf m.fromParent m.fromName)) :
    Swapped d.hash (d.stackCommit m top).hash top d.fresh
      (d.bucketOf m.fromParent m.fromName) (d.bucketOf m.newParent m.newName) := by
  have hfresh := hI.not_mem (Nat.le_refl d.fresh)
  rw [stackCommit_hash]
  split_ifs with hb
  · rw [hb] at hmem ⊢
    exact .inPlace (blSwReplace_replaced (hI.family.ready hmem hfresh))
  · exact blSwMove_swapped hI.family hmem hfresh (Ne.symm hb)

theorem HashOk.stack_edit (hI : HashOk d) (ht : d.hashed top)
    (hp : (d.dentry top).iparent = m.fromParent) (hn : (d.dentry top).iname = m.fromName) :
    HashEdit d (d.stackCommit m top) [top] [d.fresh] := by
  have hlt := hI.host_lt ht
  have hmem : top ∈ d.hashChain (d.bucketOf m.fromParent m.fromName) := by
    have := hI.mem_bucket ht
    rwa [DCache.bucket, hp, hn] at this
  have hfresh := hI.not_mem (Nat.le_refl d.fresh)
  have hS := hI.stack_swapped hmem
  obtain ⟨c, hF, hc⟩ := hI.family.swapped hmem hfresh hS
  have hchain : (d.stackCommit m top).hashChain = c := by
    refine hashChain_eq hF fun b a ha => ?_
    rw [stackCommit_fresh]
    rcases (hc b a).mp ha with ⟨ha, -⟩ | ⟨-, rfl⟩
    · exact Nat.lt_succ_of_lt (hI.alloc a ⟨b, ha⟩).1
    · exact Nat.lt_succ_self _
  have hbucket : (d.stackCommit m top).bucket d.fresh = d.bucketOf m.newParent m.newName := by
    rw [DCache.bucket, stackCommit_dentry_shell (Nat.ne_of_lt hlt)]
    simp [DCache.newShell]
  have hne : top ≠ d.fresh := Nat.ne_of_lt (hI.lt ht)
  refine ⟨hchain ▸ hF, fun b a => ?_, fun a ha => ?_, fun a ho hi => ?_, fun a hi => ?_⟩
  · rw [hchain, hc]
    simp only [mem_singleton]
    constructor
    · rintro (ha | ⟨hb, rfl⟩)
      · exact .inl ha
      · exact .inr ⟨rfl, hb.trans hbucket.symm⟩
    · rintro (ha | ⟨rfl, hb⟩)
      · exact .inl ha
      · exact .inr ⟨hb.trans hbucket, rfl⟩
  · obtain rfl := mem_singleton.mp ha
    exact Family.marked_old_swapped hne hS
  · exact hI.family.marked_swapped hmem hS (by simpa using ho) (by simpa using hi)
  · rw [hchain]
    exact hI.family.nextStable_swapped hmem hS hc (by simpa using hi)

theorem HashOk.stack (hI : HashOk d) (ht : d.hashed top)
    (hp : (d.dentry top).iparent = m.fromParent) (hn : (d.dentry top).iname = m.fromName)
    (hdest : ∀ a, d.hashed a →
      ¬ ((d.dentry a).iparent = m.newParent ∧ (d.dentry a).iname = m.newName)) :
    HashOk (d.stackCommit m top) := by
  have hE := hI.stack_edit ht hp hn
  have htlt := hI.lt ht
  obtain ⟨hhlt, hhost⟩ := hI.hostOf_host htlt
  have hold : ∀ {a}, a < d.fresh → _ := fun {a} => stackCommit_old (m := m) hhlt (a := a)
  have hself := stackCommit_dentry_shell (m := m) (Nat.ne_of_lt hhlt)
  have hK : SameKind d (d.stackCommit m top) := fun a ha => by
    rw [hold ha]
    exact ⟨rfl, rfl⟩
  have hshost : (d.stackCommit m top).hostOf d.fresh = d.hostOf top := by
    simp [DCache.hostOf, hself, DCache.newShell]
  have hroot : root ≠ d.hostOf top := (hI.hostOf_ne_root htlt (hI.alloc top ht).2).symm
  refine hI.of_edit hE (by simp) (by simp) hK (fun a ha _ => ?_) (fun a ha => ?_)
    (fun a ha hge => ?_) (fun a ha => ?_) (fun a ha _ _ ht' => ?_) (fun a ha hs n hn' => ?_) ?_
  · rw [hold (hI.lt ha)]
    exact ⟨rfl, rfl⟩
  · obtain rfl := mem_singleton.mp ha
    refine ⟨by simp, Nat.ne_of_gt (Nat.lt_of_le_of_lt (Nat.zero_le _) hI.rootHost.1),
      fun a' ha' hp' hn' => ?_⟩
    rcases hE.hashed_iff.mp ha' with ⟨hh, -⟩ | hi
    · rw [hold (hI.lt hh), hself] at hp' hn'
      exact absurd ⟨hp', hn'⟩ (hdest a' hh)
    · exact mem_singleton.mp hi
  · rw [stackCommit_fresh] at ha
    obtain rfl : a = d.fresh := Nat.le_antisymm (Nat.lt_succ_iff.mp ha) hge
    refine ⟨by simp, fun _ => ⟨d.hostOf top, by rw [hself]; rfl, hhlt, hroot.symm, hhost⟩⟩
  · rcases hE.hashed_iff.mp ha with ⟨hh, ho⟩ | hi
    · have halt := hI.lt hh
      have hne : d.hostOf a ≠ d.hostOf top := fun he =>
        ho (by simpa using hI.hostOf_inj hh ht he)
      rw [hK.hostOf halt, hold (hI.hostOf_host halt).1]
      simpa [hne] using hI.top a hh
    · obtain rfl := mem_singleton.mp hi
      rw [hshost, hold hhlt]
      simp [DCache.dtopVal, Nat.ne_of_gt hhlt]
  · rw [hold ha] at ht'
    by_cases he : a = d.hostOf top
    · simp [he] at ht'
    · simpa [he] using ht'
  · rw [stackCommit_fresh] at ha
    by_cases hlt : a < d.fresh
    · rw [hold hlt] at hs hn'
      rw [stackCommit_fresh]
      by_cases he : a = d.hostOf top
      · simp only [he, if_true, Option.some.injEq] at hn'
        subst hn'
        rw [hself, he]
        exact ⟨Nat.lt_succ_self _, rfl, rfl⟩
      · simp only [he, if_false] at hn'
        obtain ⟨hnlt, hns, hnh⟩ := hI.topShell a hlt hs n hn'
        rw [hold hnlt]
        exact ⟨Nat.lt_succ_of_lt hnlt, hns, hnh⟩
    · obtain rfl : a = d.fresh := Nat.le_antisymm (Nat.lt_succ_iff.mp ha) (Nat.not_lt.mp hlt)
      rw [hself] at hs
      cases hs
  · refine ⟨by simpa using (hI.alloc top ht).2.symm, ?_⟩
    rw [hold hI.rootHost.1]
    simpa [hroot] using hI.rootHost.2.2.1

end Stack

/-! Exchanging two entries. -/

section Exchange

variable {x : Xchg Name} {topa topb : ℕ}

theorem exchangeCommit_old (ha : d.hostOf topa < d.fresh) (hb : d.hostOf topb < d.fresh)
    (hab : d.hostOf topa ≠ d.hostOf topb) (hlt : a < d.fresh) :
    (d.exchangeCommit x topa topb).dentry a = { d.dentry a with
      top := if a = d.hostOf topa then some d.fresh
        else if a = d.hostOf topb then some (d.fresh + 1) else (d.dentry a).top
      parent := if a = d.hostOf topa ∧ x.cross = true then x.pb
        else if a = d.hostOf topb ∧ x.cross = true then x.pa else (d.dentry a).parent } := by
  rcases eq_or_ne a (d.hostOf topa) with rfl | hna
  · rw [exchangeCommit_dentry_hosta ha hab]
    simp [hab]
  · rcases eq_or_ne a (d.hostOf topb) with rfl | hnb
    · rw [exchangeCommit_dentry_hostb hb hab]
      simp [hab.symm]
    · rw [exchangeCommit_dentry_of_ne hna hnb hlt]
      simp [hna, hnb]

structure XchgTops (d : DCache Name) (x : Xchg Name) (topa topb : ℕ) : Prop where
  hasheda : d.hashed topa
  hashedb : d.hashed topb
  ne : topa ≠ topb
  parenta : (d.dentry topa).iparent = x.pa
  namea : (d.dentry topa).iname = x.na
  parentb : (d.dentry topb).iparent = x.pb
  nameb : (d.dentry topb).iname = x.nb

theorem XchgTops.hosts (hI : HashOk d) (hX : XchgTops d x topa topb) :
    d.hostOf topa < d.fresh ∧ d.hostOf topb < d.fresh ∧ d.hostOf topa ≠ d.hostOf topb :=
  ⟨hI.host_lt hX.hasheda, hI.host_lt hX.hashedb,
    fun he => hX.ne (hI.hostOf_inj hX.hasheda hX.hashedb he)⟩

theorem XchgTops.mem (hI : HashOk d) (hX : XchgTops d x topa topb) :
    topa ∈ d.hashChain (d.bucketOf x.pa x.na) ∧ topb ∈ d.hashChain (d.bucketOf x.pb x.nb) := by
  have ha := hI.mem_bucket hX.hasheda
  have hb := hI.mem_bucket hX.hashedb
  rw [DCache.bucket, hX.parenta, hX.namea] at ha
  rw [DCache.bucket, hX.parentb, hX.nameb] at hb
  exact ⟨ha, hb⟩

theorem XchgTops.exchanged_hash (hI : HashOk d) (hX : XchgTops d x topa topb) :
    Exchanged d.hash (d.exchangeCommit x topa topb).hash topa (d.fresh + 1) topb d.fresh := by
  obtain ⟨hma, hmb⟩ := hX.mem hI
  have hfresh := hI.not_mem (Nat.le_refl d.fresh)
  have hfresh' := hI.not_mem (Nat.le_succ d.fresh)
  rw [exchangeCommit_hash]
  split_ifs with hb
  · rw [hb] at hma
    exact blSwReplace2_exchanged (hI.family.toChain _) hma hmb (hfresh' _) (hfresh _) hX.ne (by simp)
  · exact blSwReplace_exchanged hI.family hma hmb hfresh' hfresh hb

theorem HashOk.exchange_edit (hI : HashOk d) (hX : XchgTops d x topa topb) :
    HashEdit d (d.exchangeCommit x topa topb) [topa, topb] [d.fresh, d.fresh + 1] := by
  obtain ⟨hma, hmb⟩ := hX.mem hI
  obtain ⟨hha, hhb, -⟩ := hX.hosts hI
  have hfresh := hI.not_mem (Nat.le_refl d.fresh)
  have hfresh' := hI.not_mem (Nat.le_succ d.fresh)
  have hXc := hX.exchanged_hash hI
  obtain ⟨c, hF, hc⟩ := hI.family.exchanged hma hmb hfresh' hfresh hX.ne (by simp) hXc
  have hmark := hI.family.marked_exchanged hma hmb hfresh' hfresh hX.ne hXc
  have hchain : (d.exchangeCommit x topa topb).hashChain = c := by
    refine hashChain_eq hF fun b a ha => ?_
    rw [exchangeCommit_fresh]
    rcases (hc b a).mp ha with ⟨ha, -⟩ | ⟨-, rfl⟩ | ⟨-, rfl⟩
    · exact Nat.lt_succ_of_lt (Nat.lt_succ_of_lt (hI.alloc a ⟨b, ha⟩).1)
    · exact Nat.lt_succ_self _
    · exact Nat.lt_succ_of_lt (Nat.lt_succ_self _)
  have hba : (d.exchangeCommit x topa topb).bucket d.fresh = d.bucketOf x.pb x.nb := by
    rw [DCache.bucket, exchangeCommit_dentry_sa hha hhb]
    simp [DCache.newShell]
  have hbb : (d.exchangeCommit x topa topb).bucket (d.fresh + 1) = d.bucketOf x.pa x.na := by
    rw [DCache.bucket, exchangeCommit_dentry_sb hha hhb]
    simp [DCache.newShell]
  refine ⟨hchain ▸ hF, fun b a => ?_, fun a ha => ?_, fun a ho hi => ?_, fun a hi => ?_⟩
  · rw [hchain, hc]
    simp only [mem_cons, not_mem_nil, or_false, not_or]
    constructor
    · rintro (ha | ⟨hb, rfl⟩ | ⟨hb, rfl⟩)
      · exact .inl ha
      · exact .inr ⟨.inr rfl, hb.trans hbb.symm⟩
      · exact .inr ⟨.inl rfl, hb.trans hba.symm⟩
    · rintro (ha | ⟨rfl | rfl, hb⟩)
      · exact .inl ha
      · exact .inr (.inr ⟨hb.trans hba, rfl⟩)
      · exact .inr (.inl ⟨hb.trans hbb, rfl⟩)
  · simp only [mem_cons, not_mem_nil, or_false] at ha
    rcases ha with rfl | rfl
    · exact hmark.1
    · exact hmark.2.1
  · simp only [mem_cons, not_mem_nil, or_false, not_or] at ho hi
    exact hmark.2.2 a ho.1 ho.2 hi.2 hi.1
  · simp only [mem_cons, not_mem_nil, or_false, not_or] at hi
    rw [hchain]
    exact hI.family.nextStable_exchanged hma hmb hfresh' hfresh hX.ne hXc
      ((hc _ _).mpr (.inr (.inl ⟨rfl, rfl⟩))) ((hc _ _).mpr (.inr (.inr ⟨rfl, rfl⟩))) hi.2 hi.1

theorem HashOk.exchange (hI : HashOk d) (hX : XchgTops d x topa topb) :
    HashOk (d.exchangeCommit x topa topb) := by
  have hE := hI.exchange_edit hX
  obtain ⟨hha, hhb, hab⟩ := hX.hosts hI
  have hold : ∀ {a}, a < d.fresh → _ := fun {a} => exchangeCommit_old (x := x) hha hhb hab (a := a)
  have hsa := exchangeCommit_dentry_sa (x := x) hha hhb
  have hsb := exchangeCommit_dentry_sb (x := x) hha hhb
  have hK : SameKind d (d.exchangeCommit x topa topb) := fun a ha => by
    rw [hold ha]
    exact ⟨rfl, rfl⟩
  have hsahost : (d.exchangeCommit x topa topb).hostOf d.fresh = d.hostOf topa := by
    simp [DCache.hostOf, hsa, DCache.newShell]
  have hsbhost : (d.exchangeCommit x topa topb).hostOf (d.fresh + 1) = d.hostOf topb := by
    simp [DCache.hostOf, hsb, DCache.newShell]
  have haa := hI.alloc _ hX.hasheda
  have hbb := hI.alloc _ hX.hashedb
  have hra : root ≠ d.hostOf topa := (hI.hostOf_ne_root haa.1 haa.2).symm
  have hrb : root ≠ d.hostOf topb := (hI.hostOf_ne_root hbb.1 hbb.2).symm
  -- the two names differ, since their tops do
  have hnames : ¬ (x.pb = x.pa ∧ x.nb = x.na) := fun h =>
    hX.ne (hI.unique _ _ hX.hasheda hX.hashedb (by rw [hX.parenta, hX.parentb, h.1])
      (by rw [hX.namea, hX.nameb, h.2]))
  have hroot : root < d.fresh := hI.rootHost.1
  refine hI.of_edit hE (by simp) (by simp) hK (fun a ha _ => ?_) (fun a ha => ?_)
    (fun a ha hge => ?_) (fun a ha => ?_) (fun a ha _ _ ht' => ?_) (fun a ha hs n hn' => ?_) ?_
  · rw [hold (hI.lt ha)]
    exact ⟨rfl, rfl⟩
  · simp only [mem_cons, not_mem_nil, or_false] at ha
    have hlt : a < d.fresh + 2 ∧ a ≠ root := by
      rcases ha with rfl | rfl <;> omega
    refine ⟨by simpa using hlt.1, hlt.2, fun a' ha' hp' hn' => ?_⟩
    rcases hE.hashed_iff.mp ha' with ⟨hh, ho⟩ | hi
    · simp only [mem_cons, not_mem_nil, or_false, not_or] at ho
      rw [hold (hI.lt hh)] at hp' hn'
      rcases ha with rfl | rfl
      · rw [hsa] at hp' hn'
        exact absurd (hI.unique _ _ hh hX.hashedb (hp'.trans hX.parentb.symm)
          (hn'.trans hX.nameb.symm)) ho.2
      · rw [hsb] at hp' hn'
        exact absurd (hI.unique _ _ hh hX.hasheda (hp'.trans hX.parenta.symm)
          (hn'.trans hX.namea.symm)) ho.1
    · simp only [mem_cons, not_mem_nil, or_false] at hi
      rcases ha with rfl | rfl <;> rcases hi with rfl | rfl
      · rfl
      · rw [hsa, hsb] at hp' hn'
        exact absurd ⟨hp'.symm, hn'.symm⟩ hnames
      · rw [hsa, hsb] at hp' hn'
        exact absurd ⟨hp', hn'⟩ hnames
      · rfl
  · rw [exchangeCommit_fresh] at ha
    have hcases : a = d.fresh ∨ a = d.fresh + 1 := by omega
    rcases hcases with rfl | rfl
    · exact ⟨by simp, fun _ => ⟨_, by rw [hsa]; rfl, hha, hra.symm, (hI.hostOf_host haa.1).2⟩⟩
    · exact ⟨by simp, fun _ => ⟨_, by rw [hsb]; rfl, hhb, hrb.symm, (hI.hostOf_host hbb.1).2⟩⟩
  · rcases hE.hashed_iff.mp ha with ⟨hh, ho⟩ | hi
    · have halt := hI.lt hh
      simp only [mem_cons, not_mem_nil, or_false, not_or] at ho
      have hna : d.hostOf a ≠ d.hostOf topa := fun he => ho.1 (hI.hostOf_inj hh hX.hasheda he)
      have hnb : d.hostOf a ≠ d.hostOf topb := fun he => ho.2 (hI.hostOf_inj hh hX.hashedb he)
      rw [hK.hostOf halt, hold (hI.hostOf_host halt).1]
      simpa [hna, hnb] using hI.top a hh
    · simp only [mem_cons, not_mem_nil, or_false] at hi
      rcases hi with rfl | rfl
      · rw [hsahost, hold hha]
        simp [DCache.dtopVal, Nat.ne_of_gt hha]
      · rw [hsbhost, hold hhb]
        have hne : d.fresh + 1 ≠ d.hostOf topb := by omega
        simp [DCache.dtopVal, hab.symm, hne]
  · rw [hold ha] at ht'
    by_cases hea : a = d.hostOf topa
    · simp [hea] at ht'
    · by_cases heb : a = d.hostOf topb
      · simp [heb, hab.symm] at ht'
      · simpa [hea, heb] using ht'
  · rw [exchangeCommit_fresh] at ha ⊢
    by_cases hlt : a < d.fresh
    · rw [hold hlt] at hs hn'
      by_cases hea : a = d.hostOf topa
      · simp only [hea, if_true, Option.some.injEq] at hn'
        subst hn'
        rw [hsa, hea]
        exact ⟨by omega, rfl, rfl⟩
      · by_cases heb : a = d.hostOf topb
        · simp only [heb, hab.symm, if_true, if_false, Option.some.injEq] at hn'
          subst hn'
          rw [hsb, heb]
          exact ⟨by omega, rfl, rfl⟩
        · simp only [hea, heb, if_false] at hn'
          obtain ⟨hnlt, hns, hnh⟩ := hI.topShell a hlt hs n hn'
          rw [hold hnlt]
          exact ⟨by omega, hns, hnh⟩
    · have hcases : a = d.fresh ∨ a = d.fresh + 1 := by omega
      rcases hcases with rfl | rfl
      · rw [hsa] at hs
        cases hs
      · rw [hsb] at hs
        cases hs
  · refine ⟨by simpa using ⟨haa.2.symm, hbb.2.symm⟩, ?_⟩
    rw [hold hroot]
    simpa [hra, hrb] using hI.rootHost.2.2.1

end Exchange

/-! Folding a shell. -/

section Fold

variable {n : ℕ}

theorem foldCommit_dentry_host : (d.foldCommit n).dentry (d.hostOf n) =
    { d.dentry (d.hostOf n) with
      iparent := (d.dentry n).iparent, iname := (d.dentry n).iname, top := none } := by
  simp [DCache.foldCommit, DCache.modify]

theorem foldCommit_dentry_of_ne (ha : a ≠ d.hostOf n) :
    (d.foldCommit n).dentry a = d.dentry a := by
  simp [DCache.foldCommit, DCache.modify, ha]

theorem HashOk.fold_edit (hI : HashOk d) (hn : d.hashed n) (hs : (d.dentry n).shell = true) :
    HashEdit d (d.foldCommit n) [n] [d.hostOf n] := by
  have hmem := hI.mem_bucket hn
  have hout : ∀ b, d.hostOf n ∉ d.hashChain b := fun b hb => hI.host_not_hashed hn hs ⟨b, hb⟩
  have hR := blSwReplace_replaced (hI.family.ready hmem hout)
  obtain ⟨c, hF, hc⟩ := hI.family.replaced hmem hout hR
  have hchain : (d.foldCommit n).hashChain = c := by
    refine hashChain_eq hF fun b a ha => ?_
    rcases (hc b a).mp ha with ⟨ha, -⟩ | ⟨-, rfl⟩
    · exact (hI.alloc a ⟨b, ha⟩).1
    · exact hI.host_lt hn
  have hbucket : (d.foldCommit n).bucket (d.hostOf n) = d.bucket n := by
    rw [DCache.bucket, foldCommit_dentry_host]
    rfl
  refine ⟨hchain ▸ hF, fun b a => ?_, fun a ha => ?_, fun a ho hi => ?_, fun a hi => ?_⟩
  · rw [hchain, hc]
    simp only [mem_singleton]
    constructor
    · rintro (ha | ⟨hb, rfl⟩)
      · exact .inl ha
      · exact .inr ⟨rfl, hb.trans hbucket.symm⟩
    · rintro (ha | ⟨rfl, hb⟩)
      · exact .inl ha
      · exact .inr ⟨hb.trans hbucket, rfl⟩
  · obtain rfl := mem_singleton.mp ha
    rw [DCache.topUnhashed, Links.marked]
    exact congrArg Word.mark hR.node
  · exact hI.family.marked_replaced hmem hR (by simpa using ho) (by simpa using hi)
  · rw [hchain]
    exact hI.family.nextStable_replaced hmem hR ((hc _ _).mpr (.inr ⟨rfl, rfl⟩))
      (by simpa using hi)

theorem HashOk.fold (hI : HashOk d) (hn : d.hashed n) (hs : (d.dentry n).shell = true) :
    HashOk (d.foldCommit n) := by
  have hE := hI.fold_edit hn hs
  have hnlt := hI.lt hn
  obtain ⟨hhlt, hhost⟩ := hI.hostOf_host hnlt
  have hself := foldCommit_dentry_host (d := d) (n := n)
  have hne : n ≠ d.hostOf n := by
    intro he
    rw [← he, hs] at hhost
    cases hhost
  have hold : ∀ {a}, a ≠ d.hostOf n → (d.foldCommit n).dentry a = d.dentry a :=
    foldCommit_dentry_of_ne
  have hK : SameKind d (d.foldCommit n) := fun a ha => by
    rcases eq_or_ne a (d.hostOf n) with rfl | hah
    · rw [hself]
      exact ⟨rfl, rfl⟩
    · rw [hold hah]
      exact ⟨rfl, rfl⟩
  have hstay : ∀ {a}, d.hashed a → a ≠ d.hostOf n := by
    rintro a ha rfl
    exact hI.host_not_hashed hn hs ha
  have hroot : root ≠ d.hostOf n := (hI.hostOf_ne_root hnlt (hI.alloc n hn).2).symm
  refine hI.of_edit hE rfl (Nat.le_refl _) hK (fun a ha _ => ?_) (fun a ha => ?_)
    (fun a ha hge => absurd hge (Nat.not_le.mpr ha)) (fun a ha => ?_) (fun a ha _ hi ht => ?_)
    (fun a ha hs' k hk => ?_) ?_
  · rw [hold (hstay ha)]
    exact ⟨rfl, rfl⟩
  · obtain rfl := mem_singleton.mp ha
    refine ⟨hhlt, hroot.symm, fun a' ha' hp' hn' => ?_⟩
    rcases hE.hashed_iff.mp ha' with ⟨hh, ho⟩ | hi
    · rw [hold (hstay hh), hself] at hp' hn'
      exact absurd (hI.unique _ _ hh hn hp' hn') (by simpa using ho)
    · exact mem_singleton.mp hi
  · rcases hE.hashed_iff.mp ha with ⟨hh, ho⟩ | hi
    · have halt := hI.lt hh
      have hna : d.hostOf a ≠ d.hostOf n := fun he => ho (by simpa using hI.hostOf_inj hh hn he)
      rw [hK.hostOf halt, hold hna]
      exact hI.top a hh
    · obtain rfl := mem_singleton.mp hi
      rw [hK.hostOf hhlt, hostOf_of_host hhost, hself]
      simp [DCache.dtopVal]
  · rwa [hold (by simpa using hi)] at ht
  · rcases eq_or_ne a (d.hostOf n) with rfl | hah
    · rw [hself] at hk
      cases hk
    · rw [hold hah] at hs' hk
      obtain ⟨hklt, hks, hkh⟩ := hI.topShell a ha hs' k hk
      have hkne : k ≠ d.hostOf n := by
        rintro rfl
        rw [hhost] at hks
        cases hks
      rw [hold hkne]
      exact ⟨hklt, hks, hkh⟩
  · refine ⟨by simpa using (hI.alloc n hn).2.symm, ?_⟩
    rw [hold hroot]
    exact hI.rootHost.2.2.1

theorem foldScratch_dentry_of_ne (ha : a ≠ d.hostOf n) :
    (d.foldScratch n).dentry a = d.dentry a := by
  simp [DCache.foldScratch, DCache.modify, ha]

theorem foldScratch_marked_of_ne (ha : a ≠ d.hostOf n) :
    (d.foldScratch n).topUnhashed a = d.topUnhashed a := by
  simp [DCache.topUnhashed, Links.marked, DCache.foldScratch, blSwReplace, ha]

theorem foldScratch_kind (a : ℕ) : ((d.foldScratch n).dentry a).shell = (d.dentry a).shell ∧
    ((d.foldScratch n).dentry a).host = (d.dentry a).host ∧
    ((d.foldScratch n).dentry a).top = (d.dentry a).top := by
  rcases eq_or_ne a (d.hostOf n) with rfl | hne
  · simp [DCache.foldScratch, DCache.modify]
  · rw [foldScratch_dentry_of_ne hne]
    exact ⟨rfl, rfl, rfl⟩

theorem HashOk.scratch_chain (hI : HashOk d) (hn : d.hashed n)
    (hs : (d.dentry n).shell = true) : Family (d.foldScratch n).hash d.hashChain ∧
      (d.foldScratch n).hashChain = d.hashChain := by
  have hout : ∀ b, d.hostOf n ∉ d.hashChain b := fun b hb => hI.host_not_hashed hn hs ⟨b, hb⟩
  have hF : Family (d.foldScratch n).hash d.hashChain := hI.family.prepublish hout
  exact ⟨hF, hashChain_eq hF fun b a ha => (hI.alloc a ⟨b, ha⟩).1⟩

theorem HashOk.scratch (hI : HashOk d) (hn : d.hashed n) (hs : (d.dentry n).shell = true) :
    HashOk (d.foldScratch n) := by
  obtain ⟨hF, hchain⟩ := hI.scratch_chain hn hs
  have hhashed : ∀ {a}, (d.foldScratch n).hashed a → d.hashed a := fun ⟨b, hb⟩ =>
    ⟨b, by rwa [hchain] at hb⟩
  have hstay : ∀ {a}, d.hashed a → (d.foldScratch n).dentry a = d.dentry a := fun ha =>
    foldScratch_dentry_of_ne fun he => hI.host_not_hashed hn hs (he ▸ ha)
  have hkind := foldScratch_kind (d := d) (n := n)
  have hK : SameKind d (d.foldScratch n) := fun a _ => ⟨(hkind a).1, (hkind a).2.1⟩
  refine ⟨hchain ▸ hF, fun b a ha => ?_, fun a ha => hI.alloc a (hhashed ha),
    fun a a' ha ha' hp hn' => ?_, fun a ha => ?_, fun a ha hsh => ?_, fun a ha hr hk => ?_,
    fun a ha hsh k hk => ?_, ?_⟩
  · rw [hchain] at ha
    rw [DCache.bucket, hstay ⟨b, ha⟩]
    exact hI.home b a ha
  · rw [hstay (hhashed ha), hstay (hhashed ha')] at hp hn'
    exact hI.unique a a' (hhashed ha) (hhashed ha') hp hn'
  · rw [hK.hostOf (hI.alloc a (hhashed ha)).1, (hkind _).2.2]
    exact hI.top a (hhashed ha)
  · rw [(hkind a).1] at hsh
    obtain ⟨h, hh, hlt, hne, hhs⟩ := hI.shell a ha hsh
    exact ⟨h, (hkind a).2.1.trans hh, hlt, hne, (hkind h).1.trans hhs⟩
  · rw [(hkind a).1, (hkind a).2.2] at hk
    have hne : a ≠ d.hostOf n := by
      rintro rfl
      have htop := hI.top n hn
      have hhost := (hI.hostOf_host (hI.lt hn)).2
      rcases hk with hk | hk
      · rw [hhost] at hk
        cases hk
      · have hnn : n = d.hostOf n := dtopVal_inj (h := d.hostOf n) (by
          rw [← htop, hk]
          simp [DCache.dtopVal])
        rw [← hnn, hs] at hhost
        cases hhost
    rw [foldScratch_marked_of_ne hne]
    rcases hI.marked a ha hr hk with ⟨b, hb⟩ | hm
    · exact .inl ⟨b, by rwa [hchain]⟩
    · exact .inr hm
  · rw [(hkind a).1] at hsh
    rw [(hkind a).2.2] at hk
    obtain ⟨hklt, hks, hkh⟩ := hI.topShell a ha hsh k hk
    exact ⟨hklt, (hkind k).1.trans hks, (hkind k).2.1.trans hkh⟩
  · have hroot : root ≠ d.hostOf n :=
      (hI.host_ne_root hn).symm
    rw [foldScratch_dentry_of_ne hroot, foldScratch_marked_of_ne hroot]
    exact hI.rootHost

end Fold

end TrieBenchmark.Bucketlock
