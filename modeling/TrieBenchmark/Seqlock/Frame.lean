import TrieBenchmark.Seqlock.Index
import TrieBenchmark.Seqlock.Order

/-!
What the edits of the seqlock engine leave alone. Under its locks a section may change the
children of the directories it has locked and the chains of the buckets it has locked, and
nothing else that another thread has read under its own.
-/

namespace TrieBenchmark.Seqlock

open Hlist

variable {Name : Type} {d d' d'' : Cache Name}

def Cache.Under (d : Cache Name) (p a : ℕ) (n : Name) : Prop :=
  d.Live a ∧ d.parent a = p ∧ (d.dentry a).name = n

structure Within (held : List Lock) (d d' : Cache Name) : Prop where
  bucketOf : d'.bucketOf = d.bucketOf
  fresh : d.fresh ≤ d'.fresh
  under : ∀ p, Lock.dir p ∉ held → ∀ a n, d'.Under p a n ↔ d.Under p a n
  chain : ∀ b, Lock.bucket b ∉ held → d'.hashChain b = d.hashChain b

namespace Within

variable {held : List Lock}

theorem refl (d : Cache Name) : Within held d d :=
  ⟨rfl, Nat.le_refl _, fun _ _ _ _ => Iff.rfl, fun _ _ => rfl⟩

theorem trans (h : Within held d d') (h' : Within held d' d'') : Within held d d'' := by
  refine ⟨h'.bucketOf.trans h.bucketOf, Nat.le_trans h.fresh h'.fresh, ?_, ?_⟩
  · intro p hp a n
    exact (h'.under p hp a n).trans (h.under p hp a n)
  · intro b hb
    exact (h'.chain b hb).trans (h.chain b hb)

theorem childLookup_none [DecidableEq Name] (h : Within held d d') (hI : IndexOk d)
    (hI' : IndexOk d') {p : ℕ} {n : Name} (hp : Lock.dir p ∉ held)
    (hf : d.childLookup p n = none) : d'.childLookup p n = none := by
  rw [hI'.childLookup_eq_none]
  intro a ha hpn
  exact hI.childLookup_eq_none.mp hf a ((h.under p hp a n).mp ⟨ha, hpn⟩).1
    ((h.under p hp a n).mp ⟨ha, hpn⟩).2

theorem childLookup_eq [DecidableEq Name] (h : Within held d d') (hI : IndexOk d)
    (hI' : IndexOk d') {p : ℕ} {n : Name} (hp : Lock.dir p ∉ held) :
    d'.childLookup p n = d.childLookup p n := by
  cases hf : d.childLookup p n with
  | none => exact h.childLookup_none hI hI' hp hf
  | some a =>
    have hunder : d.Under p a n := hI.childLookup_eq_some.mp hf
    exact hI'.childLookup_eq_some.mpr ((h.under p hp a n).mpr hunder)

theorem stays (h : Within held d d') {p a : ℕ} (hp : Lock.dir p ∉ held) (ha : d.Live a)
    (hpa : d.parent a = p) : d'.Live a ∧ d'.parent a = p ∧ d'.bucket a = d.bucket a := by
  have hunder : d.Under p a (d.dentry a).name := ⟨ha, hpa, rfl⟩
  obtain ⟨ha', hpa', hn'⟩ := (h.under p hp a _).mpr hunder
  refine ⟨ha', hpa', ?_⟩
  rw [Cache.bucket, Cache.bucket, hpa', hn', hpa, h.bucketOf]

end Within

section Edits

variable {held : List Lock} {a b p id : ℕ} {n : Name} {isdir positive : Bool}

theorem Within.modify (a : ℕ) {f : Dentry Name → Dentry Name}
    (hf : ∀ e, (f e).name = e.name ∧ (f e).parent = e.parent ∧ (f e).unhashed = e.unhashed) :
    Within held d (d.modify a f) := by
  refine ⟨rfl, Nat.le_refl _, fun p _ x n => ?_, fun _ _ => rfl⟩
  unfold Cache.Under Cache.Live Cache.parent
  rcases eq_or_ne x a with he | hx
  · rw [he, Cache.modify_self, (hf _).1, (hf _).2.1, (hf _).2.2]
    rfl
  · rw [Cache.modify_of_ne _ _ _ hx]
    rfl

theorem Within.link (hI : IndexOk d) (hdir : Lock.dir p ∈ held)
    (hbucket : Lock.bucket (d.bucketOf p n) ∈ held) :
    Within held d (d.link p n id isdir positive) := by
  have hdead : ¬ d.Live d.fresh := fun h => Nat.lt_irrefl _ h.1
  refine ⟨rfl, Nat.le_succ _, fun q hq x m => ?_, fun b hb => ?_⟩
  · have hqp : p ≠ q := fun he => hq (he ▸ hdir)
    unfold Cache.Under
    rw [hI.link_live, Cache.parent]
    rcases eq_or_ne x d.fresh with he | hx
    · rw [he, Cache.link_new]
      simp [hqp, hdead]
    · rw [Cache.link_old _ _ _ _ _ _ hx]
      simp [hx, Cache.parent]
  · have hne : b ≠ d.bucketOf p n := fun he => hb (he ▸ hbucket)
    exact hI.hash.chain_addHead (fun _ h => h.1) (Nat.le_succ _) hdead hne

theorem Within.unhash (hI : IndexOk d) (ha : d.Live a) (hdir : Lock.dir (d.parent a) ∈ held)
    (hbucket : Lock.bucket (d.bucket a) ∈ held) : Within held d (d.unhash a) := by
  refine ⟨rfl, Nat.le_refl _, fun q hq x m => ?_, fun b hb => ?_⟩
  · unfold Cache.Under
    rw [IndexOk.unhash_live, Cache.parent, Cache.unhash_dentry]
    rcases eq_or_ne x a with he | hx
    · have hne : d.parent a ≠ q := fun hp => hq (hp ▸ hdir)
      simp [he, hne]
    · simp [hx, Cache.parent]
  · have hne : b ≠ d.bucket a := fun he => hb (he ▸ hbucket)
    exact hI.hash.chain_unlink (fun _ h => h.1) ha hne

theorem Within.relocate (hI : IndexOk d) (ha : d.Live a) (hdir : Lock.dir (d.parent a) ∈ held)
    (hbucket : Lock.bucket (d.bucket a) ∈ held) (hdir' : Lock.dir p ∈ held)
    (hbucket' : Lock.bucket (d.bucketOf p n) ∈ held) :
    Within held d (d.relocate a (d.parent a) p n) := by
  refine ⟨rfl, Nat.le_refl _, fun q hq x m => ?_, fun b hb => ?_⟩
  · unfold Cache.Under
    rw [IndexOk.relocate_live, Cache.parent, Cache.relocate_dentry]
    rcases eq_or_ne x a with he | hx
    · have hne : d.parent a ≠ q := fun hp => hq (hp ▸ hdir)
      have hne' : p ≠ q := fun hp => hq (hp ▸ hdir')
      simp [he, hne, hne']
    · rw [if_neg hx]
      rfl
  · have hne : b ≠ d.bucket a := fun he => hb (he ▸ hbucket)
    have hne' : b ≠ d.bucketOf p n := fun he => hb (he ▸ hbucket')
    have hout := hI.hash.chain_unlink (fun _ h => h.1) ha hne
    have hin := (hI.hash.leave ha).chain_addHead (fun _ h => h.1.1) (Nat.le_refl _)
      (fun h => h.2 rfl) hne'
    exact hin.trans hout

theorem Within.dMove [DecidableEq Name] (hI : IndexOk d) {target : Option ℕ} (ha : d.Live a)
    (htarget : d.childLookup p n = target) (hne : target ≠ some a)
    (hdir : Lock.dir (d.parent a) ∈ held) (hbucket : Lock.bucket (d.bucket a) ∈ held)
    (hdir' : Lock.dir p ∈ held) (hbucket' : Lock.bucket (d.bucketOf p n) ∈ held) :
    Within held d (d.dMove a (d.parent a) p n target) := by
  cases target with
  | none => exact .relocate hI ha hdir hbucket hdir' hbucket'
  | some t =>
    -- the target is under the new name, so its bucket is the one the victim goes to
    obtain ⟨ht, hpt, hnt⟩ := hI.childLookup_eq_some.mp htarget
    have hat : a ≠ t := fun he => hne (he ▸ rfl)
    have hbt : d.bucket t = d.bucketOf p n := by rw [Cache.bucket, hpt, hnt]
    have hdrop : Within held d (d.unhash t) :=
      .unhash hI ht (by rw [hpt]; exact hdir') (by rw [hbt]; exact hbucket')
    have hplace : (d.unhash t).parent a = d.parent a ∧ (d.unhash t).bucket a = d.bucket a := by
      rw [Cache.bucket, Cache.parent, Cache.unhash_dentry]
      exact ⟨rfl, rfl⟩
    have hmove : Within held (d.unhash t)
        ((d.unhash t).relocate a ((d.unhash t).parent a) p n) := by
      apply Within.relocate (hI.unhash ht) ((IndexOk.unhash_live a).mpr ⟨ha, hat⟩)
      · rw [hplace.1]
        exact hdir
      · rw [hplace.2]
        exact hbucket
      · exact hdir'
      · exact hbucket'
    rw [hplace.1] at hmove
    exact hdrop.trans hmove

theorem Within.exchange (hI : IndexOk d) {pa pb : ℕ} {na nb : Name} (ha : d.Live a)
    (hb : d.Live b) (hab : a ≠ b) (hpa : d.parent a = pa) (hpb : d.parent b = pb)
    (hna : (d.dentry a).name = na) (hnb : (d.dentry b).name = nb) (hdira : Lock.dir pa ∈ held)
    (hdirb : Lock.dir pb ∈ held) (hbucketa : Lock.bucket (d.bucketOf pa na) ∈ held)
    (hbucketb : Lock.bucket (d.bucketOf pb nb) ∈ held) :
    Within held d (d.exchange a b pa pb na nb) := by
  refine ⟨rfl, Nat.le_refl _, fun q hq x m => ?_, fun k hk => ?_⟩
  · have hqa : pa ≠ q := fun he => hq (he ▸ hdira)
    have hqb : pb ≠ q := fun he => hq (he ▸ hdirb)
    unfold Cache.Under
    rw [IndexOk.exchange_live hab, Cache.parent, Cache.exchange_dentry _ _ hab]
    rcases eq_or_ne x b with he | hxb
    · simp [he, hpb, hqa, hqb]
    · rw [if_neg hxb]
      rcases eq_or_ne x a with he | hxa
      · simp [he, hpa, hqa, hqb]
      · rw [if_neg hxa]
        rfl
  · have hka : k ≠ d.bucketOf pa na := fun he => hk (he ▸ hbucketa)
    have hkb : k ≠ d.bucketOf pb nb := fun he => hk (he ▸ hbucketb)
    have hkeya : d.bucket a = d.bucketOf pa na := by rw [Cache.bucket, hpa, hna]
    have hkeyb : d.bucket b = d.bucketOf pb nb := by rw [Cache.bucket, hpb, hnb]
    have hout := hI.hash.chain_unlink (fun _ h => h.1) ha (hkeya ▸ hka)
    have hleave := hI.hash.leave ha
    have hout' := hleave.chain_unlink (fun _ h => h.1.1) ⟨hb, hab.symm⟩ (hkeyb ▸ hkb)
    have hleave' := hleave.leave ⟨hb, hab.symm⟩
    have hin := hleave'.chain_addHead (fun _ h => h.1.1.1) (Nat.le_refl _) (fun h => h.1.2 rfl) hkb
    have henter := hleave'.enter (fun h => h.1.2 rfl) (d.bucketOf pb nb)
    have hin' := henter.chain_addHead
      (fun _ h => h.elim (fun h => h.1.1.1) fun he => he ▸ ha.1) (Nat.le_refl _)
      (fun h => h.elim (fun h => h.2 rfl) (hab ·.symm)) hka
    exact hin'.trans (hin.trans (hout'.trans hout))

end Edits

end TrieBenchmark.Seqlock
