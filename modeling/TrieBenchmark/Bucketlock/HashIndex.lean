import TrieBenchmark.Bucketlock.Commit
import Mathlib.Data.List.NodupEquivFin
import Mathlib.Data.Fintype.Card

/-!
The hash index of the bucket-lock engine: which dentries are in it, and that every commit keeps
each chain well linked, each entry in the bucket of its name, names unique, and `d_top` right.
-/

namespace TrieBenchmark.Bucketlock

open List Hlist

variable {Name : Type} {d : DCache Name} {a : ℕ} {d' : DCache Name}

namespace DCache

def hashed (d : DCache Name) (a : ℕ) : Prop :=
  ∃ b, a ∈ d.hashChain b

end DCache

structure HashOk (d : DCache Name) : Prop where
  family : Family d.hash d.hashChain
  home : ∀ b, ∀ a ∈ d.hashChain b, d.bucket a = b
  alloc : ∀ a, d.hashed a → a < d.fresh ∧ a ≠ root
  unique : ∀ a a', d.hashed a → d.hashed a' → (d.dentry a).iparent = (d.dentry a').iparent →
    (d.dentry a).iname = (d.dentry a').iname → a = a'
  top : ∀ a, d.hashed a → (d.dentry (d.hostOf a)).top = DCache.dtopVal (d.hostOf a) a
  shell : ∀ a < d.fresh, (d.dentry a).shell = true → ∃ h, (d.dentry a).host = some h ∧
    h < d.fresh ∧ h ≠ root ∧ (d.dentry h).shell = false
  marked : ∀ a < d.fresh, a ≠ root → ((d.dentry a).shell = true ∨ (d.dentry a).top = none) →
    d.hashed a ∨ d.topUnhashed a = true
  topShell : ∀ a < d.fresh, (d.dentry a).shell = false → ∀ n, (d.dentry a).top = some n →
    n < d.fresh ∧ (d.dentry n).shell = true ∧ (d.dentry n).host = some a
  rootHost : root < d.fresh ∧ (d.dentry root).shell = false ∧ (d.dentry root).top = none ∧
    d.topUnhashed root = false

theorem length_le_of_lt {l : List ℕ} {n : ℕ} (hnd : l.Nodup) (hlt : ∀ a ∈ l, a < n) :
    l.length ≤ n := by
  have hsub : l ⊆ range n := fun a ha => mem_range.mpr (hlt a ha)
  simpa using (hnd.subperm hsub).length_le

namespace DCache

theorem hashChain_eq {c : ℕ → List ℕ} (hF : Family d.hash c)
    (hlt : ∀ b, ∀ a ∈ c b, a < d.fresh) : d.hashChain = c := by
  funext b
  exact hF.chain_eq (length_le_of_lt (hF.nodup b) (hlt b))

theorem childChain_eq {c : ℕ → List ℕ} (hF : Family d.sib c)
    (hlt : ∀ b, ∀ a ∈ c b, a < d.fresh) : d.childChain = c := by
  funext b
  exact hF.chain_eq (length_le_of_lt (hF.nodup b) (hlt b))

theorem hostOf_of_host (h : (d.dentry a).shell = false) : d.hostOf a = a := by
  simp [hostOf, h]

theorem dtopVal_inj {h a a' : ℕ} (he : dtopVal h a = dtopVal h a') : a = a' := by
  unfold dtopVal at he
  split_ifs at he with h₁ h₂ h₂
  · exact h₁.trans h₂.symm
  · exact Option.some.inj he

end DCache

namespace HashOk

theorem mem_bucket (hI : HashOk d) (ha : d.hashed a) : a ∈ d.hashChain (d.bucket a) := by
  obtain ⟨b, hb⟩ := ha
  rwa [hI.home b a hb]

theorem not_marked (hI : HashOk d) (ha : d.hashed a) : d.topUnhashed a = false :=
  hI.family.not_marked (hI.mem_bucket ha)

theorem hostOf_host (hI : HashOk d) (ha : a < d.fresh) :
    d.hostOf a < d.fresh ∧ (d.dentry (d.hostOf a)).shell = false := by
  by_cases hs : (d.dentry a).shell = true
  · obtain ⟨h, hh, hlt, -, hhost⟩ := hI.shell a ha hs
    have he : d.hostOf a = h := by simp [DCache.hostOf, hs, hh]
    rw [he]
    exact ⟨hlt, hhost⟩
  · rw [DCache.hostOf_of_host (by simpa using hs)]
    exact ⟨ha, by simpa using hs⟩

theorem hostOf_ne_root (hI : HashOk d) (ha : a < d.fresh) (hr : a ≠ root) :
    d.hostOf a ≠ root := by
  by_cases hs : (d.dentry a).shell = true
  · obtain ⟨h, hh, -, hne, -⟩ := hI.shell a ha hs
    simpa [DCache.hostOf, hs, hh] using hne
  · rwa [DCache.hostOf_of_host (by simpa using hs)]

theorem lt (hI : HashOk d) (ha : d.hashed a) : a < d.fresh :=
  (hI.alloc a ha).1

theorem host_lt (hI : HashOk d) (ha : d.hashed a) : d.hostOf a < d.fresh :=
  (hI.hostOf_host (hI.lt ha)).1

theorem host_ne_root (hI : HashOk d) (ha : d.hashed a) : d.hostOf a ≠ root :=
  hI.hostOf_ne_root (hI.lt ha) (hI.alloc a ha).2

theorem hostOf_inj (hI : HashOk d) {a a' : ℕ} (ha : d.hashed a) (ha' : d.hashed a')
    (he : d.hostOf a = d.hostOf a') : a = a' := by
  have h₁ := hI.top a ha
  have h₂ := hI.top a' ha'
  rw [he] at h₁
  exact DCache.dtopVal_inj (h₁.symm.trans h₂)

theorem host_not_hashed (hI : HashOk d) {n : ℕ} (hn : d.hashed n)
    (hs : (d.dentry n).shell = true) : ¬ d.hashed (d.hostOf n) := by
  intro hh
  have hlt := hI.lt hn
  have hhost := (hI.hostOf_host hlt).2
  have he : d.hostOf (d.hostOf n) = d.hostOf n := DCache.hostOf_of_host hhost
  have heq := hI.hostOf_inj hh hn he
  rw [heq] at hhost
  exact absurd hs (by simp [hhost])

variable [DecidableEq Name]

theorem spells_iff {d : DCache Name} {parent : ℕ} {name : Name} :
    d.spells parent name a = true ↔
      (d.dentry a).iparent = parent ∧ (d.dentry a).iname = name := by
  simp [DCache.spells]

theorem findTop_eq_some (hI : HashOk d) {parent : ℕ} {name : Name} :
    d.findTop parent name = some a ↔
      d.hashed a ∧ (d.dentry a).iparent = parent ∧ (d.dentry a).iname = name := by
  constructor
  · intro hf
    have hmem := mem_of_find?_eq_some hf
    exact ⟨⟨_, hmem⟩, spells_iff.mp (find?_some hf)⟩
  · rintro ⟨ha, hp, hn⟩
    have hmem : a ∈ d.hashChain (d.bucketOf parent name) := by
      have hb := hI.mem_bucket ha
      rwa [DCache.bucket, hp, hn] at hb
    cases hf : d.findTop parent name with
    | none =>
      have hnone := find?_eq_none.mp hf a hmem
      exact absurd (spells_iff.mpr ⟨hp, hn⟩) hnone
    | some a' =>
      obtain ⟨hp', hn'⟩ := spells_iff.mp (find?_some hf)
      have ha' : d.hashed a' := ⟨_, mem_of_find?_eq_some hf⟩
      rw [hI.unique a a' ha ha' (hp.trans hp'.symm) (hn.trans hn'.symm)]

theorem findTop_eq_none (hI : HashOk d) {parent : ℕ} {name : Name} :
    d.findTop parent name = none ↔
      ∀ a, d.hashed a → ¬ ((d.dentry a).iparent = parent ∧ (d.dentry a).iname = name) := by
  simp only [Option.eq_none_iff_forall_ne_some, ne_eq, hI.findTop_eq_some, not_and]

end HashOk

structure HashEdit (d d' : DCache Name) (out inn : List ℕ) : Prop where
  family : Family d'.hash d'.hashChain
  mem : ∀ b a, a ∈ d'.hashChain b ↔ a ∈ d.hashChain b ∧ a ∉ out ∨ a ∈ inn ∧ b = d'.bucket a
  left : ∀ a ∈ out, d'.topUnhashed a = true
  mark : ∀ a, a ∉ out → a ∉ inn → d'.topUnhashed a = d.topUnhashed a
  next : ∀ a, a ∉ inn → Family.NextStable d.hash d'.hash d'.hashChain a

theorem HashEdit.hashed_iff {out inn : List ℕ} (hE : HashEdit d d' out inn)
    : d'.hashed a ↔ d.hashed a ∧ a ∉ out ∨ a ∈ inn := by
  constructor
  · rintro ⟨b, hb⟩
    rcases (hE.mem b a).mp hb with ⟨ha, hout⟩ | ⟨ha, -⟩
    · exact .inl ⟨⟨b, ha⟩, hout⟩
    · exact .inr ha
  · rintro (⟨⟨b, hb⟩, hout⟩ | ha)
    · exact ⟨b, (hE.mem b a).mpr (.inl ⟨hb, hout⟩)⟩
    · exact ⟨_, (hE.mem _ a).mpr (.inr ⟨ha, rfl⟩)⟩

def SameKind (d d' : DCache Name) : Prop :=
  ∀ a < d.fresh, (d'.dentry a).shell = (d.dentry a).shell ∧ (d'.dentry a).host = (d.dentry a).host

theorem DCache.hostOf_congr
    (hk : (d'.dentry a).shell = (d.dentry a).shell ∧ (d'.dentry a).host = (d.dentry a).host) :
    d'.hostOf a = d.hostOf a := by
  simp [DCache.hostOf, hk]

theorem SameKind.hostOf (hK : SameKind d d') (ha : a < d.fresh) :
    d'.hostOf a = d.hostOf a :=
  DCache.hostOf_congr (hK a ha)

/-- An edit keeps the index sound when the names of the entries that stay are kept, and those
that come in are new and agree with their host's `d_top`. -/
theorem HashOk.of_edit {out inn : List ℕ} (hI : HashOk d)
    (hE : HashEdit d d' out inn) (hbucket : d'.bucketOf = d.bucketOf) (hfresh : d.fresh ≤ d'.fresh)
    (hK : SameKind d d')
    (hkey : ∀ a, d.hashed a → a ∉ out → (d'.dentry a).iparent = (d.dentry a).iparent ∧
      (d'.dentry a).iname = (d.dentry a).iname)
    (hnew : ∀ a ∈ inn, a < d'.fresh ∧ a ≠ root ∧ ∀ a', d'.hashed a' →
      (d'.dentry a').iparent = (d'.dentry a).iparent →
      (d'.dentry a').iname = (d'.dentry a).iname → a' = a)
    (halloc : ∀ a < d'.fresh, d.fresh ≤ a → a ∈ inn ∧ ((d'.dentry a).shell = true →
      ∃ h, (d'.dentry a).host = some h ∧ h < d.fresh ∧ h ≠ root ∧ (d.dentry h).shell = false))
    (htop : ∀ a, d'.hashed a → (d'.dentry (d'.hostOf a)).top = DCache.dtopVal (d'.hostOf a) a)
    (hmark : ∀ a < d.fresh, a ∉ out → a ∉ inn → (d'.dentry a).top = none →
      (d.dentry a).top = none)
    (htopShell : ∀ a < d'.fresh, (d'.dentry a).shell = false → ∀ n, (d'.dentry a).top = some n →
      n < d'.fresh ∧ (d'.dentry n).shell = true ∧ (d'.dentry n).host = some a)
    (hroot : root ∉ out ∧ (d'.dentry root).top = none) : HashOk d' := by
  obtain ⟨hr₁, hr₂, hr₃, hr₄⟩ := hI.rootHost
  have hrinn : root ∉ inn := fun h => (hnew root h).2.1 rfl
  refine ⟨hE.family, fun b a ha => ?_, fun a ha => ?_, fun a a' ha ha' hp hn => ?_, htop,
    fun a ha hs => ?_, fun a ha hr hk => ?_, htopShell, ?_⟩
  · rcases (hE.mem b a).mp ha with ⟨hm, ho⟩ | ⟨-, hb⟩
    · obtain ⟨hp, hn⟩ := hkey a ⟨b, hm⟩ ho
      rw [DCache.bucket, hbucket, hp, hn]
      exact hI.home b a hm
    · exact hb.symm
  · rcases hE.hashed_iff.mp ha with ⟨hh, -⟩ | hi
    · exact ⟨Nat.lt_of_lt_of_le (hI.lt hh) hfresh, (hI.alloc a hh).2⟩
    · exact ⟨(hnew a hi).1, (hnew a hi).2.1⟩
  · rcases hE.hashed_iff.mp ha' with ⟨hh', ho'⟩ | hi'
    · rcases hE.hashed_iff.mp ha with ⟨hh, ho⟩ | hi
      · rw [(hkey a hh ho).1, (hkey a' hh' ho').1] at hp
        rw [(hkey a hh ho).2, (hkey a' hh' ho').2] at hn
        exact hI.unique a a' hh hh' hp hn
      · exact ((hnew a hi).2.2 a' ha' hp.symm hn.symm).symm
    · exact (hnew a' hi').2.2 a ha hp hn
  · by_cases hlt : a < d.fresh
    · rw [(hK a hlt).1] at hs
      obtain ⟨h, hh, hhlt, hne, hhs⟩ := hI.shell a hlt hs
      exact ⟨h, (hK a hlt).2.trans hh, Nat.lt_of_lt_of_le hhlt hfresh, hne,
        (hK h hhlt).1.trans hhs⟩
    · obtain ⟨h, hh, hhlt, hne, hhs⟩ := (halloc a ha (Nat.not_lt.mp hlt)).2 hs
      exact ⟨h, hh, Nat.lt_of_lt_of_le hhlt hfresh, hne, (hK h hhlt).1.trans hhs⟩
  · by_cases hi : a ∈ inn
    · exact .inl (hE.hashed_iff.mpr (.inr hi))
    · by_cases ho : a ∈ out
      · exact .inr (hE.left a ho)
      · have hlt : a < d.fresh := Nat.not_le.mp fun hge => hi (halloc a ha hge).1
        have hold : (d.dentry a).shell = true ∨ (d.dentry a).top = none := by
          rcases hk with hs | ht
          · exact .inl ((hK a hlt).1 ▸ hs)
          · exact .inr (hmark a hlt ho hi ht)
        rw [hE.hashed_iff, hE.mark a ho hi]
        rcases hI.marked a hlt hr hold with hh | hm
        · exact .inl (.inl ⟨hh, ho⟩)
        · exact .inr hm
  · exact ⟨Nat.lt_of_lt_of_le hr₁ hfresh, (hK root hr₁).1.trans hr₂, hroot.2,
      (hE.mark root hroot.1 hrinn).trans hr₄⟩

/-! Removing a named top. -/

theorem HashOk.del_edit (hI : HashOk d) {top : ℕ} (ht : d.hashed top) :
    HashEdit d (d.delLocked top) [top] [] := by
  have hmem := hI.mem_bucket ht
  have hE := blHlistDelLocked_erased hI.family hmem
  obtain ⟨c, hF, hc⟩ := hI.family.erased hmem hE
  have hchain : (d.delLocked top).hashChain = c :=
    DCache.hashChain_eq hF fun b a ha => (hI.alloc a ⟨b, ((hc b a).mp ha).1⟩).1
  refine ⟨hchain ▸ hF, fun b a => ?_, fun a ha => ?_, fun a ha _ => ?_, fun a _ => ?_⟩
  · rw [hchain, hc]
    simp
  · rw [mem_singleton.mp ha]
    simp [DCache.topUnhashed, Links.marked, hE.node]
  · exact hI.family.marked_erased hmem hE (by simpa using ha)
  · rw [hchain]
    exact hI.family.nextStable_erased hmem hE hc a

theorem HashOk.del (hI : HashOk d) {top : ℕ} (ht : d.hashed top) : HashOk (d.delLocked top) := by
  have hE := hI.del_edit ht
  have hsub : ∀ {a}, (d.delLocked top).hashed a → d.hashed a := fun ha =>
    (hE.hashed_iff.mp ha).elim And.left (by simp)
  refine ⟨hE.family, fun b a ha => ?_, fun a ha => hI.alloc a (hsub ha),
    fun a a' ha ha' => hI.unique a a' (hsub ha) (hsub ha'), fun a ha => hI.top a (hsub ha),
    hI.shell, fun a ha hr hk => ?_, hI.topShell, ?_⟩
  · exact hI.home b a (((hE.mem b a).mp ha).elim And.left (by simp))
  · rcases eq_or_ne a top with rfl | hne
    · exact .inr (hE.left a (by simp))
    · rw [hE.hashed_iff, hE.mark a (by simpa using hne) (by simp)]
      rcases hI.marked a ha hr hk with hh | hm
      · exact .inl (.inl ⟨hh, by simpa using hne⟩)
      · exact .inr hm
  · obtain ⟨h₁, h₂, h₃, h₄⟩ := hI.rootHost
    refine ⟨h₁, h₂, h₃, ?_⟩
    rw [hE.mark root (by simpa using (hI.alloc top ht).2.symm) (by simp), h₄]

/-! Adding an entry. -/

theorem HashOk.not_hashed_fresh (hI : HashOk d) (ha : d.fresh ≤ a) : ¬ d.hashed a :=
  fun h => Nat.not_lt.mpr ha (hI.lt h)

theorem HashOk.not_mem (hI : HashOk d) (ha : d.fresh ≤ a) (b : ℕ) : a ∉ d.hashChain b :=
  fun hb => hI.not_hashed_fresh ha ⟨b, hb⟩

section Add

variable {parent id : ℕ} {name : Name} {isdir positive : Bool}

theorem addCommit_dentry_of_lt (ha : a < d.fresh) :
    (d.addCommit parent name id isdir positive).dentry a = d.dentry a := by
  simp [DCache.addCommit, DCache.alloc, Nat.ne_of_lt ha]

variable (parent id name isdir positive)

theorem addCommit_dentry_fresh :
    (d.addCommit parent name id isdir positive).dentry d.fresh =
      ⟨parent, false, !positive, name, none, none, isdir, parent, false, id⟩ := by
  simp [DCache.addCommit, DCache.alloc]

theorem HashOk.add_edit (hI : HashOk d) :
    HashEdit d (d.addCommit parent name id isdir positive) [] [d.fresh] := by
  have hfresh := hI.not_mem (Nat.le_refl d.fresh)
  have hN := blHlistAddHeadLocked_inserted (h := d.bucketOf parent name) hI.family hfresh
  obtain ⟨c, hF, hc⟩ := hI.family.inserted hfresh hN
  have hchain : (d.addCommit parent name id isdir positive).hashChain = c := by
    refine DCache.hashChain_eq hF fun b a ha => ?_
    rcases (hc b a).mp ha with ha | ⟨-, rfl⟩
    · exact Nat.lt_succ_of_lt (hI.alloc a ⟨b, ha⟩).1
    · exact Nat.lt_succ_self _
  refine ⟨hchain ▸ hF, fun b a => ?_, by simp, fun a _ ha => ?_, fun a ha => ?_⟩
  · rw [hchain, hc]
    simp only [not_mem_nil, not_false_eq_true, and_true, mem_singleton]
    constructor
    · rintro (ha | ⟨rfl, rfl⟩)
      · exact .inl ha
      · exact .inr ⟨rfl, by rw [DCache.bucket, addCommit_dentry_fresh]; rfl⟩
    · rintro (ha | ⟨rfl, rfl⟩)
      · exact .inl ha
      · exact .inr ⟨by rw [DCache.bucket, addCommit_dentry_fresh]; rfl, rfl⟩
  · exact Family.marked_inserted hN (by simpa using ha)
  · exact .inl (Family.next_inserted hN (by simpa using ha))

variable {parent id name isdir positive}

theorem HashOk.add (hI : HashOk d) (hname : ∀ a, d.hashed a →
      ¬ ((d.dentry a).iparent = parent ∧ (d.dentry a).iname = name)) :
    HashOk (d.addCommit parent name id isdir positive) := by
  have hE := hI.add_edit parent id name isdir positive
  have hold : ∀ {a}, a < d.fresh →
      (d.addCommit parent name id isdir positive).dentry a = d.dentry a :=
    addCommit_dentry_of_lt
  have hself := addCommit_dentry_fresh (d := d) parent id name isdir positive
  have hK : SameKind d (d.addCommit parent name id isdir positive) := fun a ha => by
    rw [hold ha]
    exact ⟨rfl, rfl⟩
  refine hI.of_edit hE rfl (Nat.le_succ _) hK (fun a ha _ => ?_) (fun a ha => ?_)
    (fun a ha hge => ?_) (fun a ha => ?_) (fun a ha _ _ ht => ?_) (fun a ha hs n hn => ?_) ?_
  · rw [hold (hI.lt ha)]
    exact ⟨rfl, rfl⟩
  · obtain rfl := mem_singleton.mp ha
    refine ⟨Nat.lt_succ_self _, Nat.ne_of_gt (Nat.lt_of_le_of_lt (Nat.zero_le _)
      hI.rootHost.1), fun a' ha' hp hn => ?_⟩
    rcases hE.hashed_iff.mp ha' with ⟨hh, -⟩ | hi
    · rw [hold (hI.lt hh), hself] at hp hn
      exact absurd ⟨hp, hn⟩ (hname a' hh)
    · exact mem_singleton.mp hi
  · obtain rfl : a = d.fresh := Nat.le_antisymm (Nat.lt_succ_iff.mp ha) hge
    refine ⟨by simp, fun hs => ?_⟩
    rw [hself] at hs
    cases hs
  · rcases hE.hashed_iff.mp ha with ⟨hh, -⟩ | hi
    · have hlt := hI.lt hh
      rw [hK.hostOf hlt, hold (hI.hostOf_host hlt).1]
      exact hI.top a hh
    · obtain rfl := mem_singleton.mp hi
      rw [DCache.hostOf_of_host (by rw [hself]), hself]
      simp [DCache.dtopVal]
  · rwa [hold ha] at ht
  · by_cases hlt : a < d.fresh
    · rw [hold hlt] at hs hn
      obtain ⟨hnlt, hns, hnh⟩ := hI.topShell a hlt hs n hn
      rw [hold hnlt]
      exact ⟨Nat.lt_succ_of_lt hnlt, hns, hnh⟩
    · obtain rfl : a = d.fresh := Nat.le_antisymm (Nat.lt_succ_iff.mp ha) (Nat.not_lt.mp hlt)
      rw [hself] at hn
      cases hn
  · exact ⟨by simp, by rw [hold hI.rootHost.1]; exact hI.rootHost.2.2.1⟩

end Add

end TrieBenchmark.Bucketlock
