import TrieBenchmark.Bucketlock.Invariant

/-!
Every address the engine stores or a thread holds was allocated. This holds in every run, also
where an index has gone wrong.
-/

namespace TrieBenchmark.Bucketlock

open DCache List Hlist

section Pointers

variable {H N : Type} {A : Set N} {L : Links H N} {t : SwTxn H N} {h : H} {n m old new : N}

def PtrsIn (L : Links H N) (A : Set N) : Prop :=
  ∀ s n, (L.word s).ptr = some n → n ∈ A

def Record.PtrsIn (A : Set N) : Record H N → Prop
  | .link _ _ new => ∀ n, new.ptr = some n → n ∈ A
  | .back _ _ _ => True

def SwTxn.PtrsIn (t : SwTxn H N) (A : Set N) : Prop :=
  Bucketlock.PtrsIn t.mem A ∧ ∀ r ∈ t.recs, r.PtrsIn A

theorem PtrsIn.mono {B : Set N} (hL : PtrsIn L A) (hAB : A ⊆ B) : PtrsIn L B :=
  fun s n hn => hAB (hL s n hn)

theorem PtrsIn.next (hL : PtrsIn L A) : ∀ m, L.next n = some m → m ∈ A :=
  hL (.next n)

theorem PtrsIn.first (hL : PtrsIn L A) : ∀ m, L.first h = some m → m ∈ A :=
  hL (.first h)

theorem PtrsIn.walk (hL : PtrsIn L A) {fuel : ℕ} {start : Option N}
    (hs : ∀ m, start = some m → m ∈ A) : ∀ x ∈ L.walk fuel start, x ∈ A := by
  induction fuel generalizing start with
  | zero => simp [Links.walk]
  | succ _ ih =>
    cases start with
    | none => simp [Links.walk]
    | some =>
      intro x hx
      rcases mem_cons.mp hx with rfl | hx
      · exact hs x rfl
      · exact ih hL.next x hx

theorem linkRecord_ptrsIn {pprev : Option (Slot H N)} {w w' : Word N}
    (hw : ∀ m, w'.ptr = some m → m ∈ A) : ∀ r ∈ linkRecord pprev w w', r.PtrsIn A := by
  cases pprev with
  | none => simp [linkRecord]
  | some =>
    intro r hr
    obtain rfl := mem_singleton.mp hr
    exact hw

theorem backRecord_ptrsIn {next : Option N} {p p' : Option (Slot H N)} :
    ∀ r ∈ backRecord next p p', r.PtrsIn A := by
  cases next with
  | none => simp [backRecord]
  | some =>
    intro r hr
    obtain rfl := mem_singleton.mp hr
    trivial

variable [DecidableEq H] [DecidableEq N]

theorem PtrsIn.store (hL : PtrsIn L A) {s : Slot H N} {w : Word N}
    (hw : ∀ m, w.ptr = some m → m ∈ A) : PtrsIn (L.store s w) A := by
  intro s' m hm
  rcases eq_or_ne s' s with rfl | hne
  · exact hw m (by simpa using hm)
  · exact hL s' m (by simpa [hne] using hm)

theorem SwTxn.PtrsIn.commit (ht : t.PtrsIn A) : Bucketlock.PtrsIn t.commit A := by
  obtain ⟨mem, recs⟩ := t
  obtain ⟨hmem, hrecs⟩ := ht
  simp only [SwTxn.commit]
  induction recs generalizing mem with
  | nil => exact hmem
  | cons r _ ih =>
    refine ih _ ?_ fun r' hr' => hrecs r' (mem_cons_of_mem _ hr')
    have hr := hrecs r (mem_cons_self ..)
    cases r with
    | link => exact PtrsIn.store hmem hr
    | back => exact hmem

theorem PtrsIn.blHlistAddHeadLocked (hL : PtrsIn L A) (hn : n ∈ A) :
    PtrsIn (blHlistAddHeadLocked L h n) A := by
  unfold Bucketlock.blHlistAddHeadLocked
  have hfirst := hL.store (s := .next n) (w := ⟨L.first h, false⟩) hL.first
  refine PtrsIn.store ?_ (by rintro m ⟨⟩; exact hn)
  cases hx : L.first h <;> rw [hx] at hfirst <;> exact hfirst

theorem PtrsIn.blHlistDelLocked (hL : PtrsIn L A) : PtrsIn (blHlistDelLocked L n) A := by
  have hmark := hL.store (s := .next n) (w := ⟨L.next n, true⟩) hL.next
  unfold Bucketlock.blHlistDelLocked
  cases L.pprev n <;> cases hx : L.next n <;> rw [hx] at hmark <;>
    first
    | exact hmark
    | exact hmark.store (hx ▸ hL.next)

theorem SwTxn.PtrsIn.blSwAddHead (ht : t.PtrsIn A) (hn : n ∈ A) : (blSwAddHead t n h).PtrsIn A := by
  refine ⟨PtrsIn.store ht.1 ht.1.first, ?_⟩
  intro r hr
  rcases mem_append.mp hr with hr | hr
  · exact ht.2 r hr
  · rcases mem_cons.mp hr with rfl | hr
    · rintro m ⟨⟩
      exact hn
    · exact backRecord_ptrsIn r hr

omit [DecidableEq H] [DecidableEq N] in
theorem SwTxn.PtrsIn.blSwDelMarked (ht : t.PtrsIn A) : (blSwDelMarked t n).PtrsIn A := by
  refine ⟨ht.1, ?_⟩
  intro r hr
  simp only [Bucketlock.blSwDelMarked, mem_append, mem_singleton] at hr
  rcases hr with ((hr | hr) | hr) | rfl
  · exact ht.2 r hr
  · refine linkRecord_ptrsIn ?_ r hr
    exact ht.1.next
  · exact backRecord_ptrsIn r hr
  · exact ht.1.next

theorem SwTxn.PtrsIn.blSwReplace (ht : t.PtrsIn A) (hn : new ∈ A) :
    (blSwReplace t old new).PtrsIn A := by
  refine ⟨PtrsIn.store ht.1 ht.1.next, ?_⟩
  intro r hr
  simp only [Bucketlock.blSwReplace, mem_append, mem_singleton] at hr
  rcases hr with ((hr | hr) | hr) | rfl
  · exact ht.2 r hr
  · exact linkRecord_ptrsIn (by rintro m ⟨⟩; exact hn) r hr
  · exact backRecord_ptrsIn r hr
  · exact ht.1.next

theorem SwTxn.PtrsIn.blSwReplaceAdj {first newfirst second newsecond : N} (ht : t.PtrsIn A)
    (hs : second ∈ A) (hf' : newfirst ∈ A) (hs' : newsecond ∈ A) :
    (blSwReplaceAdj t first newfirst second newsecond).PtrsIn A := by
  refine ⟨PtrsIn.store (PtrsIn.store (L := t.mem.setPprev _ _) ht.1 ?_) ht.1.next, ?_⟩
  · rintro m ⟨⟩
    exact hs'
  · intro r hr
    simp only [Bucketlock.blSwReplaceAdj, mem_append, mem_cons, not_mem_nil,
      or_false] at hr
    rcases hr with ((hr | hr) | hr) | rfl | rfl
    · exact ht.2 r hr
    · exact linkRecord_ptrsIn (by rintro m ⟨⟩; exact hf') r hr
    · exact backRecord_ptrsIn r hr
    · rintro m ⟨⟩
      exact hs
    · exact ht.1.next

theorem SwTxn.PtrsIn.blSwReplace2 {olda newa oldb newb : N} (ht : t.PtrsIn A) (hola : olda ∈ A)
    (holb : oldb ∈ A) (ha : newa ∈ A) (hb : newb ∈ A) :
    (blSwReplace2 t olda newa oldb newb).PtrsIn A := by
  unfold Bucketlock.blSwReplace2
  split_ifs
  · exact ht.blSwReplaceAdj holb ha hb
  · exact ht.blSwReplaceAdj hola hb ha
  · exact (ht.blSwReplace ha).blSwReplace hb

end Pointers

variable {Name : Type} {d d' : DCache Name} {a n top topa topb : ℕ} {m : Move Name} {x : Xchg Name}

def DCache.linkable (d : DCache Name) : Set ℕ :=
  {a | a ≠ root ∧ a < d.fresh}

def DCache.allocated (d : DCache Name) : Set ℕ :=
  {a | a < d.fresh}

def DCache.parentOf (d : DCache Name) (a : ℕ) : ℕ :=
  (d.dentry a).parent

theorem DCache.modify_parentOf {b : ℕ} {f : Dentry Name → Dentry Name}
    (hf : ∀ e, (f e).parent = e.parent) : (d.modify b f).parentOf a = d.parentOf a := by
  rw [parentOf, parentOf]
  rcases eq_or_ne a b with rfl | hne
  · rw [modify_self, hf]
  · rw [modify_of_ne _ _ _ _ hne]

structure Bounded (d : DCache Name) : Prop where
  root : root < d.fresh
  hash : PtrsIn d.hash d.linkable
  host : ∀ a < d.fresh, ∀ h, (d.dentry a).host = some h → h ∈ d.linkable
  parent : ∀ a < d.fresh, (d.dentry a).parent < d.fresh
  rootParent : (d.dentry TrieBenchmark.root).parent = TrieBenchmark.root

structure Grows (d d' : DCache Name) : Prop where
  fresh : d.fresh ≤ d'.fresh
  kind : SameKind d d'
  moving : ∀ a < d.fresh, (d'.dentry a).moving = (d.dentry a).moving

def KeepsParents (d d' : DCache Name) : Prop :=
  ∀ a < d.fresh, (d'.dentry a).parent = (d.dentry a).parent

theorem Grows.linkable (hG : Grows d d') (ha : a ∈ d.linkable) : a ∈ d'.linkable :=
  ⟨ha.1, Nat.lt_of_lt_of_le ha.2 hG.fresh⟩

namespace Bounded

theorem fresh_linkable (hB : Bounded d) (ha : d.fresh ≤ a) : a ≠ TrieBenchmark.root :=
  Nat.ne_of_gt (Nat.lt_of_lt_of_le hB.root ha)

theorem hostOf (hB : Bounded d) (ha : a ∈ d.linkable) : d.hostOf a ∈ d.linkable := by
  unfold DCache.hostOf
  split_ifs
  · cases hh : (d.dentry a).host with
    | none => exact ha
    | some h => exact hB.host a ha.2 h hh
  · exact ha

theorem modify (hB : Bounded d) (b : ℕ) (f : Dentry Name → Dentry Name)
    (hf : ∀ e, (f e).host = e.host ∧ (f e).parent = e.parent) : Bounded (d.modify b f) := by
  have hkeep := fun a => d.modify_keeps b a
    (fun e' e => e'.host = e.host ∧ e'.parent = e.parent) (fun _ => ⟨rfl, rfl⟩) hf
  refine ⟨hB.root, hB.hash, fun a ha h hh => ?_, fun a ha => ?_, ?_⟩
  · rw [(hkeep a).1] at hh
    exact hB.host a ha h hh
  · rw [(hkeep a).2]
    exact hB.parent a ha
  · rw [(hkeep _).2, hB.rootParent]

theorem del (hB : Bounded d) : Bounded (d.delLocked top) :=
  ⟨hB.root, hB.hash.blHlistDelLocked, hB.host, hB.parent, hB.rootParent⟩

theorem of_grows (hB : Bounded d) (hG : Grows d d') (hhash : PtrsIn d'.hash d'.linkable)
    (hold : ∀ a < d.fresh, (d'.dentry a).parent < d.fresh)
    (hroot : (d'.dentry TrieBenchmark.root).parent = TrieBenchmark.root)
    (hnew : ∀ a < d'.fresh, d.fresh ≤ a → (d'.dentry a).parent < d.fresh ∧
      ∀ h, (d'.dentry a).host = some h → h ∈ d.linkable) : Bounded d' := by
  refine ⟨Nat.lt_of_lt_of_le hB.root hG.fresh, hhash, fun a ha h hh => ?_, fun a ha => ?_, hroot⟩
  · apply hG.linkable
    by_cases hlt : a < d.fresh
    · rw [(hG.kind a hlt).2] at hh
      exact hB.host a hlt h hh
    · exact (hnew a ha (Nat.not_lt.mp hlt)).2 h hh
  · apply Nat.lt_of_lt_of_le _ hG.fresh
    by_cases hlt : a < d.fresh
    · exact hold a hlt
    · exact (hnew a ha (Nat.not_lt.mp hlt)).1

end Bounded

theorem Grows.modify (d : DCache Name) (b : ℕ) (f : Dentry Name → Dentry Name)
    (hf : ∀ e, (f e).shell = e.shell ∧ (f e).host = e.host ∧ (f e).moving = e.moving) :
    Grows d (d.modify b f) := by
  have hkeep := fun a => d.modify_keeps b a
    (fun e' e => e'.shell = e.shell ∧ e'.host = e.host ∧ e'.moving = e.moving)
    (fun _ => ⟨rfl, rfl, rfl⟩) hf
  exact ⟨Nat.le_refl _, fun a _ => ⟨(hkeep a).1, (hkeep a).2.1⟩, fun a _ => (hkeep a).2.2⟩

theorem addCommit_grows (parent : ℕ) (name : Name) (id : ℕ) (isdir positive : Bool) :
    Grows d (d.addCommit parent name id isdir positive) ∧
      KeepsParents d (d.addCommit parent name id isdir positive) :=
  ⟨⟨Nat.le_succ _, fun a ha => by rw [addCommit_dentry_of_lt ha]; exact ⟨rfl, rfl⟩,
    fun a ha => by rw [addCommit_dentry_of_lt ha]⟩,
    fun a ha => by rw [addCommit_dentry_of_lt ha]⟩

theorem stackCommit_grows (m : Move Name) (hlt : d.hostOf top < d.fresh) :
    Grows d (d.stackCommit m top) :=
  ⟨by simp, fun a ha => by rw [stackCommit_old hlt ha]; exact ⟨rfl, rfl⟩,
    fun a ha => by rw [stackCommit_old hlt ha]⟩

theorem exchangeCommit_of_lt (x : Xchg Name) (topa topb : ℕ) (ha : a < d.fresh) :
    ∃ t p, (d.exchangeCommit x topa topb).dentry a = { d.dentry a with top := t, parent := p } ∧
      (p = (d.dentry a).parent ∨ x.cross = true ∧ (p = x.pa ∨ p = x.pb)) := by
  by_cases hea : a = d.hostOf topa
  · subst hea
    by_cases hab : d.hostOf topa = d.hostOf topb
    · refine ⟨some (d.fresh + 1), if x.cross then x.pa else (d.dentry (d.hostOf topa)).parent, ?_, ?_⟩
      · have h₁ : d.hostOf topb ≠ d.fresh := by omega
        have h₂ : d.hostOf topb ≠ d.fresh + 1 := by omega
        rw [exchangeCommit_eq]
        cases x.cross <;>
          simp [DCache.setTop, DCache.setParent, DCache.modify, DCache.alloc, hab, h₁, h₂]
      · cases x.cross <;> simp
    · refine ⟨_, _, exchangeCommit_dentry_hosta ha hab, ?_⟩
      cases x.cross <;> simp
  · by_cases heb : a = d.hostOf topb
    · subst heb
      refine ⟨_, _, exchangeCommit_dentry_hostb ha (Ne.symm hea), ?_⟩
      cases x.cross <;> simp
    · exact ⟨_, _, exchangeCommit_dentry_of_ne hea heb ha, .inl rfl⟩

theorem exchangeCommit_grows (d : DCache Name) (x : Xchg Name) (topa topb : ℕ) :
    Grows d (d.exchangeCommit x topa topb) := by
  refine ⟨by simp, fun a ha => ?_, fun a ha => ?_⟩ <;>
    obtain ⟨t, p, he, -⟩ := exchangeCommit_of_lt x topa topb ha <;>
    rw [he]
  exact ⟨rfl, rfl⟩

theorem foldCommit_grows : Grows d (d.foldCommit n) ∧ KeepsParents d (d.foldCommit n) := by
  refine ⟨⟨Nat.le_refl _, fun a _ => ?_, fun a _ => ?_⟩, fun a _ => ?_⟩ <;>
    rcases eq_or_ne a (d.hostOf n) with rfl | hne <;>
    simp [foldCommit_dentry_host, foldCommit_dentry_of_ne, *]

theorem foldScratch_grows : Grows d (d.foldScratch n) ∧ KeepsParents d (d.foldScratch n) := by
  refine ⟨⟨Nat.le_refl _, fun a _ => ?_, fun a _ => ?_⟩, fun a _ => ?_⟩
  · exact ⟨(foldScratch_kind a).1, (foldScratch_kind a).2.1⟩
  all_goals
    rcases eq_or_ne a (d.hostOf n) with rfl | hne
    · simp [DCache.foldScratch]
    · rw [foldScratch_dentry_of_ne hne]

namespace Bounded

theorem hash_of_le (hB : Bounded d) {k : ℕ} (hk : d.fresh ≤ k) :
    PtrsIn d.hash {a | a ≠ TrieBenchmark.root ∧ a < k} :=
  hB.hash.mono fun _ ha => ⟨ha.1, Nat.lt_of_lt_of_le ha.2 hk⟩

theorem add (hB : Bounded d) {parent id : ℕ} {name : Name} {isdir positive : Bool}
    (hp : parent < d.fresh) : Bounded (d.addCommit parent name id isdir positive) := by
  obtain ⟨hG, hK⟩ := addCommit_grows (d := d) parent name id isdir positive
  refine hB.of_grows hG ?_ (fun a ha => ?_) ?_ fun a ha hge => ?_
  · exact (hB.hash_of_le (Nat.le_succ _)).blHlistAddHeadLocked
      ⟨hB.fresh_linkable (Nat.le_refl _), Nat.lt_succ_self _⟩
  · rw [hK a ha]
    exact hB.parent a ha
  · rw [hK _ hB.root, hB.rootParent]
  · obtain rfl : a = d.fresh := Nat.le_antisymm (Nat.lt_succ_iff.mp ha) hge
    rw [addCommit_dentry_fresh]
    exact ⟨hp, fun h hh => by cases hh⟩

theorem stack (hB : Bounded d) (ht : top ∈ d.linkable) (hp : m.newParent < d.fresh) :
    Bounded (d.stackCommit m top) := by
  have hhost := hB.hostOf ht
  have hself : d.fresh ∈ {a | a ≠ TrieBenchmark.root ∧ a < d.fresh + 1} :=
    ⟨hB.fresh_linkable (Nat.le_refl _), Nat.lt_succ_self _⟩
  have hT : SwTxn.PtrsIn ⟨d.hash, []⟩ {a | a ≠ TrieBenchmark.root ∧ a < d.fresh + 1} :=
    ⟨hB.hash_of_le (Nat.le_succ _), by simp⟩
  refine hB.of_grows (stackCommit_grows m hhost.2) ?_ (fun a ha => ?_) ?_ fun a ha hge => ?_
  · rw [stackCommit_hash, DCache.linkable, stackCommit_fresh]
    split_ifs
    · exact (hT.blSwReplace hself).commit
    · exact (hT.blSwDelMarked.blSwAddHead hself).commit
  · rw [stackCommit_old hhost.2 ha]
    show (if _ then m.newParent else _) < d.fresh
    split_ifs
    · exact hp
    · exact hB.parent a ha
  · rw [stackCommit_old hhost.2 hB.root]
    simp [hhost.1.symm, hB.rootParent]
  · rw [stackCommit_fresh] at ha
    obtain rfl : a = d.fresh := Nat.le_antisymm (Nat.lt_succ_iff.mp ha) hge
    rw [stackCommit_dentry_shell (Nat.ne_of_lt hhost.2)]
    refine ⟨hp, fun h hh => ?_⟩
    obtain rfl := Option.some.inj hh
    exact hhost

theorem exchange (hB : Bounded d) (hta : topa ∈ d.linkable) (htb : topb ∈ d.linkable)
    (hpa : x.pa < d.fresh) (hpb : x.pb < d.fresh) : Bounded (d.exchangeCommit x topa topb) := by
  have ha := hB.hostOf hta
  have hb := hB.hostOf htb
  have hself : ∀ k, k = d.fresh ∨ k = d.fresh + 1 →
      k ∈ {a | a ≠ TrieBenchmark.root ∧ a < d.fresh + 2} := by
    rintro k hk
    exact ⟨hB.fresh_linkable (by omega), by show k < d.fresh + 2; omega⟩
  have hold : ∀ k ∈ d.linkable, k ∈ {a | a ≠ TrieBenchmark.root ∧ a < d.fresh + 2} := fun k hk =>
    ⟨hk.1, Nat.lt_of_lt_of_le hk.2 (Nat.le_add_right _ 2)⟩
  have hT : SwTxn.PtrsIn ⟨d.hash, []⟩ {a | a ≠ TrieBenchmark.root ∧ a < d.fresh + 2} :=
    ⟨hB.hash_of_le (Nat.le_add_right _ 2), by simp⟩
  refine hB.of_grows (exchangeCommit_grows d x topa topb) ?_ (fun a ha => ?_) ?_ fun a hlt hge => ?_
  · rw [exchangeCommit_hash, DCache.linkable, exchangeCommit_fresh]
    split_ifs
    · exact (hT.blSwReplace2 (hold _ hta) (hold _ htb) (hself _ (.inr rfl))
        (hself _ (.inl rfl))).commit
    · exact ((hT.blSwReplace (hself _ (.inr rfl))).blSwReplace (hself _ (.inl rfl))).commit
  · obtain ⟨t, p, he, hp⟩ := exchangeCommit_of_lt x topa topb ha
    rw [he]
    rcases hp with rfl | ⟨-, rfl | rfl⟩
    · exact hB.parent a ha
    · exact hpa
    · exact hpb
  · rw [exchangeCommit_dentry_of_ne ha.1.symm hb.1.symm hB.root, hB.rootParent]
  · rw [exchangeCommit_fresh] at hlt
    obtain rfl | rfl : a = d.fresh ∨ a = d.fresh + 1 := by omega
    · rw [exchangeCommit_dentry_sa ha.2 hb.2]
      refine ⟨hpb, fun h hh => ?_⟩
      obtain rfl := Option.some.inj hh
      exact ha
    · rw [exchangeCommit_dentry_sb ha.2 hb.2]
      refine ⟨hpa, fun h hh => ?_⟩
      obtain rfl := Option.some.inj hh
      exact hb

theorem fold (hB : Bounded d) (hn : n ∈ d.linkable) : Bounded (d.foldCommit n) := by
  obtain ⟨hG, hK⟩ := foldCommit_grows (d := d) (n := n)
  refine hB.of_grows hG ?_ (fun a ha => ?_) ?_ fun a ha hge => ?_
  · exact (SwTxn.PtrsIn.blSwReplace ⟨hB.hash, by simp⟩ (hB.hostOf hn)).commit
  · rw [hK a ha]
    exact hB.parent a ha
  · rw [hK _ hB.root, hB.rootParent]
  · exact absurd ha (Nat.not_lt.mpr hge)

theorem scratch (hB : Bounded d) (hn : n ∈ d.linkable) : Bounded (d.foldScratch n) := by
  obtain ⟨hG, hK⟩ := foldScratch_grows (d := d) (n := n)
  refine hB.of_grows hG ?_ (fun a ha => ?_) ?_ fun a ha hge => ?_
  · exact (SwTxn.PtrsIn.blSwReplace ⟨hB.hash, by simp⟩ (hB.hostOf hn)).1
  · rw [hK a ha]
    exact hB.parent a ha
  · rw [hK _ hB.root, hB.rootParent]
  · exact absurd ha (Nat.not_lt.mpr hge)

end Bounded

end TrieBenchmark.Bucketlock
