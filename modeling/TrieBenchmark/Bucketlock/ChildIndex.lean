import TrieBenchmark.Bucketlock.Invariant

/-!
The child lists of the bucket-lock engine and `d_parent`: both follow the inline parents of the
named tops, as long as every rename knows whether it leaves its directory.
-/

namespace TrieBenchmark.Bucketlock

open DCache List Hlist

variable {Name : Type} {d d' : DCache Name}

structure SibOk (d : DCache Name) : Prop where
  family : Family d.sib d.childChain
  mem : ∀ P a, a ∈ d.childChain P ↔ d.hashed a ∧ (d.dentry a).iparent = P
  parent : ∀ a, d.hashed a → (d.dentry (d.hostOf a)).parent = (d.dentry a).iparent

namespace SibOk

theorem not_mem (hS : SibOk d) {a : ℕ} (ha : ¬ d.hashed a) (P : ℕ) : a ∉ d.childChain P :=
  fun h => ha ((hS.mem P a).mp h).1

theorem of_edit {out inn : List ℕ} {c : ℕ → List ℕ} (hS : SibOk d) (hI' : HashOk d')
    (hE : HashEdit d d' out inn) (hF : Family d'.sib c) (hc : ∀ P a, a ∈ c P ↔
      a ∈ d.childChain P ∧ a ∉ out ∨ a ∈ inn ∧ P = (d'.dentry a).iparent)
    (hkey : ∀ a, d.hashed a → a ∉ out → (d'.dentry a).iparent = (d.dentry a).iparent)
    (hparent : ∀ a, d'.hashed a → (d'.dentry (d'.hostOf a)).parent = (d'.dentry a).iparent) :
    SibOk d' := by
  have hmem : ∀ P a, a ∈ c P ↔ d'.hashed a ∧ (d'.dentry a).iparent = P := by
    intro P a
    rw [hc, hE.hashed_iff, hS.mem]
    constructor
    · rintro (⟨⟨hh, hp⟩, ho⟩ | ⟨hi, hp⟩)
      · exact ⟨.inl ⟨hh, ho⟩, (hkey a hh ho).trans hp⟩
      · exact ⟨.inr hi, hp.symm⟩
    · rintro ⟨⟨hh, ho⟩ | hi, hp⟩
      · exact .inl ⟨⟨hh, (hkey a hh ho).symm.trans hp⟩, ho⟩
      · exact .inr ⟨hi, hp.symm⟩
  have hchain : d'.childChain = c :=
    childChain_eq hF fun P a ha => (hI'.alloc a ((hmem P a).mp ha).1).1
  exact ⟨hchain ▸ hF, hchain ▸ hmem, hparent⟩

theorem modify (hS : SibOk d) (a : ℕ) (f : Dentry Name → Dentry Name)
    (hf : ∀ e, (f e).iparent = e.iparent ∧ (f e).parent = e.parent ∧ (f e).shell = e.shell ∧
      (f e).host = e.host) : SibOk (d.modify a f) := by
  have hkeep := fun b => d.modify_keeps a b (fun e' e => e'.iparent = e.iparent ∧
    e'.parent = e.parent ∧ e'.shell = e.shell ∧ e'.host = e.host) (fun _ => ⟨rfl, rfl, rfl, rfl⟩) hf
  have hhost : (d.modify a f).hostOf = d.hostOf := by
    funext b
    simp [DCache.hostOf, (hkeep b).2.2.1, (hkeep b).2.2.2]
  refine ⟨hS.family, fun P b => ?_, fun b hb => ?_⟩
  · rw [(hkeep b).1]
    exact hS.mem P b
  · rw [hhost, (hkeep _).2.1, (hkeep b).1]
    exact hS.parent b hb

theorem del (hS : SibOk d) (hI : HashOk d) {top : ℕ} (ht : d.hashed top) :
    SibOk (d.delLocked top) := by
  have hmem := (hS.mem _ top).mpr ⟨ht, rfl⟩
  obtain ⟨c, hF, hc⟩ := hS.family.erased hmem (blHlistDelLocked_erased hS.family hmem)
  have hE := hI.del_edit ht
  refine hS.of_edit (hI.del ht) hE hF (fun P a => ?_) (fun a _ _ => rfl) fun a ha => ?_
  · simp [hc]
  · refine hS.parent a ?_
    simpa using (hE.hashed_iff.mp ha).elim And.left (by simp)

theorem claimed (hS : SibOk d) (hI : HashOk d) {parent self : ℕ} {name : Name}
    (hC : Claimed d parent name self d') : SibOk d' := by
  cases hC with
  | free => exact hS
  | dropped hh => exact hS.del hI hh

theorem add (hS : SibOk d) (hI : HashOk d) {parent id : ℕ} {name : Name} {isdir positive : Bool}
    (hname : ∀ a, d.hashed a →
      ¬ ((d.dentry a).iparent = parent ∧ (d.dentry a).iname = name)) :
    SibOk (d.addCommit parent name id isdir positive) := by
  have hfresh := hS.not_mem (hI.not_hashed_fresh (Nat.le_refl d.fresh))
  obtain ⟨c, hF, hc⟩ := hS.family.inserted (h := parent) hfresh
    (blHlistAddHeadLocked_inserted hS.family hfresh)
  have hE := hI.add_edit parent id name isdir positive
  have hself := addCommit_dentry_fresh (d := d) parent id name isdir positive
  have hold : ∀ a, d.hashed a → (d.addCommit parent name id isdir positive).dentry a = d.dentry a :=
    fun a ha => addCommit_dentry_of_lt (hI.lt ha)
  refine hS.of_edit (hI.add hname) hE hF (fun P a => ?_)
    (fun a ha _ => by rw [hold a ha]) fun a ha => ?_
  · rw [hc]
    simp only [not_mem_nil, not_false_eq_true, and_true, mem_singleton]
    refine or_congr_right ⟨?_, ?_⟩
    · rintro ⟨rfl, rfl⟩
      exact ⟨rfl, by rw [hself]⟩
    · rintro ⟨rfl, rfl⟩
      exact ⟨by rw [hself], rfl⟩
  · rcases hE.hashed_iff.mp ha with ⟨hh, -⟩ | hi
    · have hlt := hI.lt hh
      rw [DCache.hostOf, hold a hh]
      rw [addCommit_dentry_of_lt]
      · exact hS.parent a hh
      · exact (hI.hostOf_host hlt).1
    · obtain rfl := mem_singleton.mp hi
      rw [hostOf_of_host (by rw [hself]), hself]

theorem stack_swapped (hS : SibOk d) (hI : HashOk d) {m : Move Name} {top : ℕ}
    (hmem : top ∈ d.childChain m.fromParent) (hm : m.CrossFits) :
    Swapped d.sib (d.stackCommit m top).sib top d.fresh m.fromParent m.newParent := by
  have hfresh := hS.not_mem (hI.not_hashed_fresh (Nat.le_refl d.fresh))
  rw [stackCommit_sib]
  split_ifs with hc
  · exact blSwMove_swapped hS.family hmem hfresh (hm.mp hc).symm
  · have he : m.fromParent = m.newParent := by
      by_contra hne
      exact hc (hm.mpr hne)
    rw [he] at hmem ⊢
    exact .inPlace (blSwReplace_replaced (hS.family.ready hmem hfresh))

theorem stack (hS : SibOk d) (hI : HashOk d) {m : Move Name} {top : ℕ} (ht : d.hashed top)
    (hp : (d.dentry top).iparent = m.fromParent) (hn : (d.dentry top).iname = m.fromName)
    (hm : m.CrossFits) (hI' : HashOk (d.stackCommit m top)) : SibOk (d.stackCommit m top) := by
  have hmem : top ∈ d.childChain m.fromParent := (hS.mem _ top).mpr ⟨ht, hp⟩
  have hfresh := hS.not_mem (hI.not_hashed_fresh (Nat.le_refl d.fresh))
  obtain ⟨c, hF, hc⟩ := hS.family.swapped hmem hfresh (hS.stack_swapped hI hmem hm)
  have hlt := hI.host_lt ht
  have hself := stackCommit_dentry_shell (m := m) (Nat.ne_of_lt hlt)
  have hE := hI.stack_edit ht hp hn
  refine hS.of_edit hI' hE hF (fun P a => ?_) (fun a ha _ => ?_) fun a ha => ?_
  · rw [hc]
    simp only [mem_singleton]
    refine or_congr_right ⟨?_, ?_⟩
    · rintro ⟨rfl, rfl⟩
      exact ⟨rfl, by rw [hself]; rfl⟩
    · rintro ⟨rfl, rfl⟩
      exact ⟨by rw [hself]; rfl, rfl⟩
  · rw [stackCommit_old hlt (hI.lt ha)]
  · rcases hE.hashed_iff.mp ha with ⟨hh, ho⟩ | hi
    · have halt := hI.lt hh
      have hne : d.hostOf a ≠ d.hostOf top := fun he =>
        ho (mem_singleton.mpr (hI.hostOf_inj hh ht he))
      have hhost : (d.stackCommit m top).hostOf a = d.hostOf a := by
        simp [DCache.hostOf, stackCommit_old hlt halt]
      rw [hhost, stackCommit_old hlt halt, stackCommit_old hlt (hI.hostOf_host halt).1]
      simpa [hne] using hS.parent a hh
    · obtain rfl := mem_singleton.mp hi
      have hhost : (d.stackCommit m top).hostOf d.fresh = d.hostOf top := by
        simp [DCache.hostOf, hself, DCache.newShell]
      rw [hhost, hself, stackCommit_dentry_host (Nat.ne_of_lt hlt)]
      show (if m.cross = true then m.newParent else _) = m.newParent
      split_ifs with hc
      · rfl
      · rw [hS.parent top ht, hp]
        by_contra hne
        exact hc (hm.mpr hne)

theorem exchanged (hS : SibOk d) (hI : HashOk d) {x : Xchg Name} {topa topb : ℕ}
    (hX : XchgTops d x topa topb) :
    Exchanged d.sib (d.exchangeCommit x topa topb).sib topa (d.fresh + 1) topb d.fresh := by
  have hma : topa ∈ d.childChain x.pa := (hS.mem _ _).mpr ⟨hX.hasheda, hX.parenta⟩
  have hmb : topb ∈ d.childChain x.pb := (hS.mem _ _).mpr ⟨hX.hashedb, hX.parentb⟩
  have hfresh := hS.not_mem (hI.not_hashed_fresh (Nat.le_refl d.fresh))
  have hfresh' := hS.not_mem (hI.not_hashed_fresh (Nat.le_succ d.fresh))
  have hne : d.fresh + 1 ≠ d.fresh := Nat.succ_ne_self _
  rw [exchangeCommit_sib]
  split_ifs with hc
  · exact blSwReplace_exchanged hS.family hma hmb hfresh' hfresh (by simpa [Xchg.cross] using hc)
  · have he : x.pa = x.pb := by simpa [Xchg.cross] using hc
    rw [he] at hma
    exact blSwReplace2_exchanged (hS.family.toChain _) hma hmb (hfresh' _) (hfresh _) hX.ne hne

theorem exchange (hS : SibOk d) (hI : HashOk d) {x : Xchg Name} {topa topb : ℕ}
    (hX : XchgTops d x topa topb) : SibOk (d.exchangeCommit x topa topb) := by
  have hma : topa ∈ d.childChain x.pa := (hS.mem _ _).mpr ⟨hX.hasheda, hX.parenta⟩
  have hmb : topb ∈ d.childChain x.pb := (hS.mem _ _).mpr ⟨hX.hashedb, hX.parentb⟩
  have hfresh := hS.not_mem (hI.not_hashed_fresh (Nat.le_refl d.fresh))
  have hfresh' := hS.not_mem (hI.not_hashed_fresh (Nat.le_succ d.fresh))
  obtain ⟨c, hF, hc⟩ := hS.family.exchanged hma hmb hfresh' hfresh hX.ne (Nat.succ_ne_self _)
    (hS.exchanged hI hX)
  obtain ⟨hha, hhb, hab⟩ := hX.hosts hI
  have hsa := exchangeCommit_dentry_sa (x := x) hha hhb
  have hsb := exchangeCommit_dentry_sb (x := x) hha hhb
  have hE := hI.exchange_edit hX
  refine hS.of_edit (hI.exchange hX) hE hF (fun P a => ?_) (fun a ha _ => ?_) fun a ha => ?_
  · rw [hc]
    simp only [mem_cons, not_mem_nil, or_false, not_or]
    refine or_congr_right ⟨?_, ?_⟩
    · rintro (⟨rfl, rfl⟩ | ⟨rfl, rfl⟩)
      · exact ⟨.inr rfl, by rw [hsb]; rfl⟩
      · exact ⟨.inl rfl, by rw [hsa]; rfl⟩
    · rintro ⟨rfl | rfl, rfl⟩
      · exact .inr ⟨by rw [hsa]; rfl, rfl⟩
      · exact .inl ⟨by rw [hsb]; rfl, rfl⟩
  · rw [exchangeCommit_old hha hhb hab (hI.lt ha)]
  · rcases hE.hashed_iff.mp ha with ⟨hh, ho⟩ | hi
    · have halt := hI.lt hh
      simp only [mem_cons, not_mem_nil, or_false, not_or] at ho
      have hnea : d.hostOf a ≠ d.hostOf topa := fun he => ho.1 (hI.hostOf_inj hh hX.hasheda he)
      have hneb : d.hostOf a ≠ d.hostOf topb := fun he => ho.2 (hI.hostOf_inj hh hX.hashedb he)
      have hhost : (d.exchangeCommit x topa topb).hostOf a = d.hostOf a := by
        simp [DCache.hostOf, exchangeCommit_old hha hhb hab halt]
      rw [hhost, exchangeCommit_old hha hhb hab halt,
        exchangeCommit_old hha hhb hab (hI.hostOf_host halt).1]
      simpa [hnea, hneb] using hS.parent a hh
    · have hpa := hS.parent topa hX.hasheda
      have hpb := hS.parent topb hX.hashedb
      rw [hX.parenta] at hpa
      rw [hX.parentb] at hpb
      rcases mem_cons.mp hi with rfl | hi
      · have hhost : (d.exchangeCommit x topa topb).hostOf d.fresh = d.hostOf topa := by
          simp [DCache.hostOf, hsa, DCache.newShell]
        rw [hhost, hsa, exchangeCommit_dentry_hosta hha hab]
        by_cases he : x.pa = x.pb
        · simpa [Xchg.cross, he, DCache.newShell] using hpa
        · simp [Xchg.cross, he, DCache.newShell]
      · obtain rfl := mem_singleton.mp hi
        have hhost : (d.exchangeCommit x topa topb).hostOf (d.fresh + 1) = d.hostOf topb := by
          simp [DCache.hostOf, hsb, DCache.newShell]
        rw [hhost, hsb, exchangeCommit_dentry_hostb hhb hab]
        by_cases he : x.pa = x.pb
        · simpa [Xchg.cross, he, DCache.newShell] using hpb
        · simp [Xchg.cross, he, DCache.newShell]

theorem fold (hS : SibOk d) (hI : HashOk d) {n : ℕ} (hn : d.hashed n)
    (hs : (d.dentry n).shell = true) : SibOk (d.foldCommit n) := by
  have hmem := (hS.mem _ n).mpr ⟨hn, rfl⟩
  have hout := hS.not_mem (hI.host_not_hashed hn hs)
  obtain ⟨c, hF, hc⟩ := hS.family.replaced hmem hout (blSwReplace_replaced (hS.family.ready hmem hout))
  have hE := hI.fold_edit hn hs
  have hself := foldCommit_dentry_host (d := d) (n := n)
  have hhost : ∀ a, (d.foldCommit n).hostOf a = d.hostOf a := by
    intro a
    rcases eq_or_ne a (d.hostOf n) with rfl | hne
    · exact hostOf_congr (by rw [hself]; exact ⟨rfl, rfl⟩)
    · exact hostOf_congr (by rw [foldCommit_dentry_of_ne hne]; exact ⟨rfl, rfl⟩)
  have hparent : ∀ a, ((d.foldCommit n).dentry a).parent = (d.dentry a).parent := by
    intro a
    rcases eq_or_ne a (d.hostOf n) with rfl | hne
    · rw [hself]
    · rw [foldCommit_dentry_of_ne hne]
  have hold : ∀ a, d.hashed a → (d.foldCommit n).dentry a = d.dentry a := fun a ha =>
    foldCommit_dentry_of_ne fun he => hI.host_not_hashed hn hs (he ▸ ha)
  refine hS.of_edit (hI.fold hn hs) hE hF (fun P a => ?_) (fun a ha _ => by rw [hold a ha])
    fun a ha => ?_
  · rw [hc]
    simp only [mem_singleton]
    refine or_congr_right ⟨?_, ?_⟩
    · rintro ⟨rfl, rfl⟩
      exact ⟨rfl, by rw [hself]⟩
    · rintro ⟨rfl, rfl⟩
      exact ⟨by rw [hself], rfl⟩
  · rw [hhost, hparent]
    rcases hE.hashed_iff.mp ha with ⟨hh, -⟩ | hi
    · rw [hold a hh]
      exact hS.parent a hh
    · obtain rfl := mem_singleton.mp hi
      rw [hostOf_of_host (hI.hostOf_host (hI.lt hn)).2, hself]
      exact hS.parent n hn

theorem scratch (hS : SibOk d) (hI : HashOk d) {n : ℕ} (hn : d.hashed n)
    (hs : (d.dentry n).shell = true) : SibOk (d.foldScratch n) := by
  have hF : Family (d.foldScratch n).sib d.childChain :=
    hS.family.prepublish (hS.not_mem (hI.host_not_hashed hn hs))
  have hchain : (d.foldScratch n).childChain = d.childChain :=
    childChain_eq hF fun P a ha => (hI.alloc a ((hS.mem P a).mp ha).1).1
  have hhashed : ∀ a, (d.foldScratch n).hashed a ↔ d.hashed a := fun a => by
    rw [DCache.hashed, DCache.hashed, (hI.scratch_chain hn hs).2]
  have hold : ∀ a, d.hashed a → (d.foldScratch n).dentry a = d.dentry a := fun a ha =>
    foldScratch_dentry_of_ne fun he => hI.host_not_hashed hn hs (he ▸ ha)
  have hparent : ∀ a, ((d.foldScratch n).dentry a).parent = (d.dentry a).parent := by
    intro a
    rcases eq_or_ne a (d.hostOf n) with rfl | hne
    · simp [DCache.foldScratch]
    · rw [foldScratch_dentry_of_ne hne]
  refine ⟨hchain ▸ hF, fun P a => ?_, fun a ha => ?_⟩
  · rw [hchain, hS.mem, hhashed]
    exact and_congr_right fun ha => by rw [hold a ha]
  · rw [hhashed] at ha
    rw [hostOf_congr ⟨(foldScratch_kind a).1, (foldScratch_kind a).2.1⟩, hparent, hold a ha]
    exact hS.parent a ha

end SibOk

theorem Effect.sibOk {C : DCache Name → Insertion Name → Prop} {folded : Option ℕ}
    (hE : Effect C d folded d') (hC : ∀ m, C d (.move m) → m.CrossFits) (hI : HashOk d) (hS : SibOk d) :
    SibOk d' := by
  have hI' := hE.hashOk hI
  cases hE with
  | read => exact hS
  | flag a => exact hS.modify a _ fun e => ⟨rfl, rfl, rfl, rfl⟩
  | flip => exact hS.modify _ _ fun e => ⟨rfl, rfl, rfl, rfl⟩
  | add _ _ _ _ _ _ _ hname => exact hS.add hI hname
  | del _ ht => exact hS.del hI ht
  | claim _ _ hcl => exact hS.claimed hI hcl
  | stack m _ ht hp hn _ hcl hm =>
    have hd := (hcl.spec hI).1
    exact (hS.claimed hI hcl).stack (hcl.hashOk hI) (hcl.self_hashed hI ht) (by rw [hd, hp])
      (by rw [hd, hn]) (hC m hm) hI'
  | exchange _ _ _ hX => exact hS.exchange hI hX
  | fold _ hn hs => exact hS.fold hI hn hs
  | scratch _ hn hs => exact hS.scratch hI hn hs

theorem dcCreate_sibOk (bucketOf : ℕ → Name → ℕ) (rootname : Name) :
    SibOk (dcCreate bucketOf rootname) := by
  have hchain : (dcCreate bucketOf rootname).childChain = fun _ => [] :=
    childChain_eq emptyLinks_family (by simp)
  refine ⟨hchain ▸ emptyLinks_family, fun P a => ?_, fun a ha => ?_⟩
  · simp [hchain, DCache.hashed, dcCreate_hashChain]
  · simp [DCache.hashed, dcCreate_hashChain] at ha

end TrieBenchmark.Bucketlock
