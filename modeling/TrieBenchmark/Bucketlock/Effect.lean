import TrieBenchmark.Bucketlock.HashMove
import TrieBenchmark.Bucketlock.Machine

/-!
What one step of a thread can do to the dentry cache. `Effect` lists the cases with what the
step has checked, `HashStep` says what they have in common for the hash index.
-/

namespace TrieBenchmark.Bucketlock

open Hlist

variable {Name : Type} {d d' : DCache Name} {parent self : ℕ} {name : Name}

inductive Claimed (d : DCache Name) (parent : ℕ) (name : Name) (self : ℕ) :
    DCache Name → Prop where
  | free : (∀ a, d.hashed a →
      ¬ ((d.dentry a).iparent = parent ∧ (d.dentry a).iname = name)) →
      Claimed d parent name self d
  | dropped {cur : ℕ} : d.hashed cur → (d.dentry cur).iparent = parent →
      (d.dentry cur).iname = name → cur ≠ self → d.hostOf cur = cur →
      (d.dentry cur).neg = true → (d.dentry cur).isdir = false →
      Claimed d parent name self (d.delLocked cur)

def DCache.flip (d : DCache Name) (host : ℕ) (negative : Bool) (id : ℕ) : DCache Name :=
  d.modify host fun e => { e with neg := negative, id := id }

inductive Insertion (Name : Type) where
  | add (parent : ℕ)
  | move (m : Move Name)

/-- The effects of one step. `C` is asked of every insertion; the option names the shell that
is folded into its host. -/
inductive Effect (C : DCache Name → Insertion Name → Prop) (d : DCache Name) :
    Option ℕ → DCache Name → Prop where
  | read : Effect C d none d
  | flag (a : ℕ) (b : Bool) : Effect C d none (d.setMoving a b)
  | flip (top : ℕ) (negative : Bool) (id : ℕ) : d.hashed top →
      (negative = true → (d.dentry (d.hostOf top)).isdir = true →
        d.childrenEmpty (d.hostOf top) = true) →
      Effect C d none (d.flip (d.hostOf top) negative id)
  | add (parent : ℕ) (name : Name) (id : ℕ) (isdir positive : Bool) :
      (d.dentry parent).neg = false → d.entryAlive parent = true →
      (∀ a, d.hashed a → ¬ ((d.dentry a).iparent = parent ∧ (d.dentry a).iname = name)) →
      C d (.add parent) → Effect C d none (d.addCommit parent name id isdir positive)
  | del (top : ℕ) : d.hashed top → d.childrenEmpty (d.hostOf top) = true →
      Effect C d none (d.delLocked top)
  | claim (m : Move Name) (top : ℕ) {d₁ : DCache Name} :
      Claimed d m.newParent m.newName top d₁ → C d (.move m) → Effect C d none d₁
  | stack (m : Move Name) (top : ℕ) {d₁ : DCache Name} : d.hashed top →
      (d.dentry top).iparent = m.fromParent → (d.dentry top).iname = m.fromName →
      (d.dentry m.newParent).neg = false → Claimed d m.newParent m.newName top d₁ → C d (.move m) →
      Effect C d none (d₁.stackCommit m top)
  | exchange (x : Xchg Name) (topa topb : ℕ) : XchgTops d x topa topb →
      Effect C d none (d.exchangeCommit x topa topb)
  | fold (n : ℕ) : d.hashed n → (d.dentry n).shell = true → Effect C d (some n) (d.foldCommit n)
  | scratch (n : ℕ) : d.hashed n → (d.dentry n).shell = true →
      Effect C d (some n) (d.foldScratch n)

theorem HashOk.modify (hI : HashOk d) (a : ℕ) (f : Dentry Name → Dentry Name)
    (hf : ∀ e, (f e).iparent = e.iparent ∧ (f e).iname = e.iname ∧ (f e).shell = e.shell ∧
      (f e).host = e.host ∧ (f e).top = e.top) : HashOk (d.modify a f) := by
  have hkeep := fun b => d.modify_keeps a b (fun e' e => e'.iparent = e.iparent ∧
    e'.iname = e.iname ∧ e'.shell = e.shell ∧ e'.host = e.host ∧ e'.top = e.top)
    (fun _ => ⟨rfl, rfl, rfl, rfl, rfl⟩) hf
  have hhost : (d.modify a f).hostOf = d.hostOf := by
    funext b
    simp [DCache.hostOf, (hkeep b).2.2.1, (hkeep b).2.2.2.1]
  refine ⟨hI.family, fun b c hc => ?_, hI.alloc, fun c c' hc hc' hp hn => ?_, fun c hc => ?_,
    fun c hc hs => ?_, fun c hc hr hk => ?_, fun c hc hs n hn => ?_, ?_⟩
  · rw [DCache.bucket, (hkeep c).1, (hkeep c).2.1]
    exact hI.home b c hc
  · rw [(hkeep c).1, (hkeep c').1] at hp
    rw [(hkeep c).2.1, (hkeep c').2.1] at hn
    exact hI.unique c c' hc hc' hp hn
  · rw [hhost, (hkeep _).2.2.2.2]
    exact hI.top c hc
  · rw [(hkeep c).2.2.1] at hs
    obtain ⟨h, hh, hlt, hne, hhs⟩ := hI.shell c hc hs
    exact ⟨h, (hkeep c).2.2.2.1.trans hh, hlt, hne, (hkeep h).2.2.1.trans hhs⟩
  · rw [(hkeep c).2.2.1, (hkeep c).2.2.2.2] at hk
    exact hI.marked c hc hr hk
  · rw [(hkeep c).2.2.1] at hs
    rw [(hkeep c).2.2.2.2] at hn
    obtain ⟨hnlt, hns, hnh⟩ := hI.topShell c hc hs n hn
    exact ⟨hnlt, (hkeep n).2.2.1.trans hns, (hkeep n).2.2.2.1.trans hnh⟩
  · obtain ⟨h₁, h₂, h₃, h₄⟩ := hI.rootHost
    exact ⟨h₁, (hkeep root).2.2.1.trans h₂, (hkeep root).2.2.2.2.trans h₃, h₄⟩

theorem Claimed.hashOk (hC : Claimed d parent name self d') (hI : HashOk d) : HashOk d' := by
  cases hC with
  | free => exact hI
  | dropped hh => exact hI.del hh

theorem Claimed.spec (hC : Claimed d parent name self d')
    (hI : HashOk d) : d'.dentry = d.dentry ∧ d'.fresh = d.fresh ∧ d'.bucketOf = d.bucketOf ∧
      (∀ a, d'.hashed a ↔ d.hashed a ∧
        ¬ ((d.dentry a).iparent = parent ∧ (d.dentry a).iname = name)) := by
  cases hC with
  | free hfree => exact ⟨rfl, rfl, rfl, fun a => ⟨fun h => ⟨h, hfree a h⟩, And.left⟩⟩
  | dropped hh hp hn =>
    refine ⟨rfl, rfl, rfl, fun a => ?_⟩
    rw [(hI.del_edit hh).hashed_iff]
    simp only [List.mem_singleton, List.not_mem_nil, or_false]
    constructor
    · rintro ⟨ha, hne⟩
      exact ⟨ha, fun ⟨hp', hn'⟩ => hne (hI.unique a _ ha hh (hp'.trans hp.symm)
        (hn'.trans hn.symm))⟩
    · rintro ⟨ha, hne⟩
      exact ⟨ha, fun he => hne (he ▸ ⟨hp, hn⟩)⟩

theorem Claimed.hostOf (hC : Claimed d parent name self d') :
    d'.hostOf = d.hostOf := by
  cases hC <;> rfl

theorem Claimed.self_hashed (hC : Claimed d parent name self d')
    (hI : HashOk d) (hs : d.hashed self) : d'.hashed self := by
  refine ((hC.spec hI).2.2.2 self).mpr ⟨hs, ?_⟩
  cases hC with
  | free hfree => exact hfree self hs
  | dropped hh hp hn hne =>
    rintro ⟨hp', hn'⟩
    exact hne (hI.unique _ _ hh hs (hp.trans hp'.symm) (hn.trans hn'.symm))

structure HashStep (d : DCache Name) (folded : Option ℕ) (d' : DCache Name) : Prop where
  fresh : d.fresh ≤ d'.fresh
  kind : SameKind d d'
  stays : ∀ a, d.hashed a → d'.hashed a ∨ d'.topUnhashed a = true
  key : ∀ a < d.fresh, (∀ n, folded = some n → a ≠ d.hostOf n) →
    (d'.dentry a).iparent = (d.dentry a).iparent ∧ (d'.dentry a).iname = (d.dentry a).iname
  dead : ∀ a < d.fresh, (∀ n, folded = some n → a ≠ d.hostOf n) → d.topUnhashed a = true →
    d'.topUnhashed a = true
  came : ∀ a, d'.hashed a → d.hashed a ∨ d.fresh ≤ a ∨ ∃ n, folded = some n ∧ a = d.hostOf n
  next : ∀ a < d.fresh, (∀ n, folded = some n → a ≠ d.hostOf n) →
    d'.hash.next a = d.hash.next a ∨ ∀ b, d'.hash.next a = some b → d'.hashed b ∨ d.hashed b

theorem HashStep.refl (d : DCache Name) : HashStep d none d :=
  ⟨Nat.le_refl _, fun _ _ => ⟨rfl, rfl⟩, fun _ h => .inl h, fun _ _ _ => ⟨rfl, rfl⟩,
    fun _ _ _ h => h, fun _ h => .inl h, fun _ _ _ => .inl rfl⟩

theorem HashStep.trans {d'' : DCache Name} (hI : HashOk d) (hsub : ∀ a, d'.hashed a → d.hashed a)
    (h₁ : HashStep d none d') (h₂ : HashStep d' none d'') : HashStep d none d'' := by
  refine ⟨Nat.le_trans h₁.fresh h₂.fresh, fun a ha => ?_, fun a ha => ?_, fun a ha hf => ?_,
    fun a ha hf hm => ?_, fun a ha => ?_, fun a ha hf => ?_⟩
  · have hlt := Nat.lt_of_lt_of_le ha h₁.fresh
    exact ⟨(h₂.kind a hlt).1.trans (h₁.kind a ha).1, (h₂.kind a hlt).2.trans (h₁.kind a ha).2⟩
  · rcases h₁.stays a ha with hh | hm
    · exact h₂.stays a hh
    · exact .inr (h₂.dead a (Nat.lt_of_lt_of_le (hI.lt ha) h₁.fresh) (by simp) hm)
  · have hlt := Nat.lt_of_lt_of_le ha h₁.fresh
    obtain ⟨hp, hn⟩ := h₁.key a ha hf
    obtain ⟨hp', hn'⟩ := h₂.key a hlt (by simp)
    exact ⟨hp'.trans hp, hn'.trans hn⟩
  · exact h₂.dead a (Nat.lt_of_lt_of_le ha h₁.fresh) (by simp) (h₁.dead a ha hf hm)
  · rcases h₂.came a ha with hh | hge | ⟨n, hn, -⟩
    · exact h₁.came a hh
    · exact .inr (.inl (Nat.le_trans h₁.fresh hge))
    · cases hn
  · rcases h₂.next a (Nat.lt_of_lt_of_le ha h₁.fresh) (by simp) with he | hb
    · rw [he]
      rcases h₁.next a ha hf with he' | hb'
      · exact .inl he'
      · exact .inr fun b hb => .inr ((hb' b hb).elim (hsub b) id)
    · exact .inr fun b hb' => (hb b hb').imp id (hsub b)

theorem HashEdit.hashStep {out inn : List ℕ} (hE : HashEdit d d' out inn)
    (hfresh : d.fresh ≤ d'.fresh) (hK : SameKind d d') {folded : Option ℕ}
    (hinn : ∀ a ∈ inn, d.fresh ≤ a ∨ ∃ n, folded = some n ∧ a = d.hostOf n)
    (hkey : ∀ a < d.fresh, (∀ n, folded = some n → a ≠ d.hostOf n) →
      (d'.dentry a).iparent = (d.dentry a).iparent ∧
      (d'.dentry a).iname = (d.dentry a).iname) : HashStep d folded d' := by
  have hnot : ∀ a < d.fresh, (∀ n, folded = some n → a ≠ d.hostOf n) → a ∉ inn := by
    intro a ha hf hi
    rcases hinn a hi with hge | ⟨n, hn, he⟩
    · exact Nat.not_le.mpr ha hge
    · exact hf n hn he
  refine ⟨hfresh, hK, fun a ha => ?_, hkey, fun a ha hf hm => ?_, fun a ha => ?_,
    fun a ha hf => ?_⟩
  · by_cases ho : a ∈ out
    · exact .inr (hE.left a ho)
    · exact .inl (hE.hashed_iff.mpr (.inl ⟨ha, ho⟩))
  · by_cases ho : a ∈ out
    · exact hE.left a ho
    · rw [hE.mark a ho (hnot a ha hf), hm]
  · rcases hE.hashed_iff.mp ha with ⟨hh, -⟩ | hi
    · exact .inl hh
    · exact .inr (hinn a hi)
  · exact (hE.next a (hnot a ha hf)).imp id fun hb b h => .inl (hb b h)

theorem HashStep.modify (d : DCache Name) (a : ℕ) (f : Dentry Name → Dentry Name)
    (hf : ∀ e, (f e).iparent = e.iparent ∧ (f e).iname = e.iname ∧ (f e).shell = e.shell ∧
      (f e).host = e.host) : HashStep d none (d.modify a f) := by
  have hkeep := fun b => d.modify_keeps a b (fun e' e => e'.iparent = e.iparent ∧
    e'.iname = e.iname ∧ e'.shell = e.shell ∧ e'.host = e.host) (fun _ => ⟨rfl, rfl, rfl, rfl⟩) hf
  exact ⟨Nat.le_refl _, fun b _ => (hkeep b).2.2, fun b hb => .inl hb,
    fun b _ _ => ⟨(hkeep b).1, (hkeep b).2.1⟩, fun b _ _ hm => hm, fun b hb => .inl hb,
    fun b _ _ => .inl rfl⟩

theorem Claimed.hashStep (hC : Claimed d parent name self d')
    (hI : HashOk d) : HashStep d none d' := by
  cases hC with
  | free => exact .refl d
  | dropped hh =>
    exact (hI.del_edit hh).hashStep (Nat.le_refl _) (fun _ _ => ⟨rfl, rfl⟩) (by simp)
      fun _ _ _ => ⟨rfl, rfl⟩

section Cases

variable {m : Move Name} {x : Xchg Name} {n top topa topb : ℕ}

theorem HashOk.stack_step (hI : HashOk d) (ht : d.hashed top)
    (hp : (d.dentry top).iparent = m.fromParent) (hn : (d.dentry top).iname = m.fromName) :
    HashStep d none (d.stackCommit m top) := by
  have hlt := hI.host_lt ht
  refine (hI.stack_edit ht hp hn).hashStep (by simp) (fun a ha => ?_) (by simp)
    fun a ha _ => ?_ <;> rw [stackCommit_old hlt ha] <;> exact ⟨rfl, rfl⟩

theorem HashOk.exchange_step (hI : HashOk d) (hX : XchgTops d x topa topb) :
    HashStep d none (d.exchangeCommit x topa topb) := by
  obtain ⟨ha, hb, hab⟩ := hX.hosts hI
  refine (hI.exchange_edit hX).hashStep (by simp) (fun a hlt => ?_) (by simp)
    fun a hlt _ => ?_ <;> rw [exchangeCommit_old ha hb hab hlt] <;> exact ⟨rfl, rfl⟩

theorem HashOk.fold_step (hI : HashOk d) (hn : d.hashed n) (hs : (d.dentry n).shell = true) :
    HashStep d (some n) (d.foldCommit n) := by
  refine (hI.fold_edit hn hs).hashStep (Nat.le_refl _) (fun a _ => ?_) (by simp) fun a _ ha => ?_
  · rcases eq_or_ne a (d.hostOf n) with rfl | hne
    · rw [foldCommit_dentry_host]
      exact ⟨rfl, rfl⟩
    · rw [foldCommit_dentry_of_ne hne]
      exact ⟨rfl, rfl⟩
  · rw [foldCommit_dentry_of_ne (ha n rfl)]
    exact ⟨rfl, rfl⟩

theorem HashOk.scratch_step (hI : HashOk d) (hn : d.hashed n) (hs : (d.dentry n).shell = true) :
    HashStep d (some n) (d.foldScratch n) := by
  have hchain := (hI.scratch_chain hn hs).2
  have hhashed : ∀ a, (d.foldScratch n).hashed a ↔ d.hashed a := fun a => by
    rw [DCache.hashed, DCache.hashed, hchain]
  refine ⟨Nat.le_refl _, fun a _ => ⟨(foldScratch_kind a).1, (foldScratch_kind a).2.1⟩,
    fun a ha => .inl ((hhashed a).mpr ha), fun a _ ha => ?_, fun a _ ha hm => ?_,
    fun a ha => .inl ((hhashed a).mp ha), fun a _ ha => .inl ?_⟩
  · rw [foldScratch_dentry_of_ne (ha n rfl)]
    exact ⟨rfl, rfl⟩
  · rw [foldScratch_marked_of_ne (ha n rfl), hm]
  · simp [Links.next, DCache.foldScratch, blSwReplace, ha n rfl]

end Cases

namespace Effect

variable {C : DCache Name → Insertion Name → Prop} {folded : Option ℕ}

theorem hashOk (hE : Effect C d folded d') (hI : HashOk d) : HashOk d' := by
  cases hE with
  | read => exact hI
  | flag a => exact hI.modify a _ fun e => ⟨rfl, rfl, rfl, rfl, rfl⟩
  | flip => exact hI.modify _ _ fun e => ⟨rfl, rfl, rfl, rfl, rfl⟩
  | add _ _ _ _ _ _ _ hname => exact hI.add hname
  | del _ ht => exact hI.del ht
  | claim _ _ hC => exact hC.hashOk hI
  | stack _ _ ht hp hn _ hC =>
    obtain ⟨hd, -, -, hh⟩ := hC.spec hI
    refine (hC.hashOk hI).stack (hC.self_hashed hI ht) (by rw [hd, hp]) (by rw [hd, hn]) ?_
    intro a ha
    rw [hd]
    exact ((hh a).mp ha).2
  | exchange _ _ _ hX => exact hI.exchange hX
  | fold _ hn hs => exact hI.fold hn hs
  | scratch _ hn hs => exact hI.scratch hn hs

theorem hashStep (hE : Effect C d folded d') (hI : HashOk d) : HashStep d folded d' := by
  cases hE with
  | read => exact .refl d
  | flag a => exact .modify d a _ fun e => ⟨rfl, rfl, rfl, rfl⟩
  | flip => exact .modify d _ _ fun e => ⟨rfl, rfl, rfl, rfl⟩
  | add parent name id isdir positive =>
    refine (hI.add_edit parent id name isdir positive).hashStep (Nat.le_succ _) (fun a ha => ?_)
      (by simp) fun a ha _ => ?_ <;> rw [addCommit_dentry_of_lt ha] <;> exact ⟨rfl, rfl⟩
  | del _ ht =>
    exact (hI.del_edit ht).hashStep (Nat.le_refl _) (fun _ _ => ⟨rfl, rfl⟩) (by simp)
      fun _ _ _ => ⟨rfl, rfl⟩
  | claim _ _ hC => exact hC.hashStep hI
  | stack _ _ ht hp hn _ hC =>
    have hd := (hC.spec hI).1
    have hsub := fun a ha => (((hC.spec hI).2.2.2 a).mp ha).1
    exact .trans hI hsub (hC.hashStep hI) ((hC.hashOk hI).stack_step (hC.self_hashed hI ht)
      (by rw [hd, hp]) (by rw [hd, hn]))
  | exchange _ _ _ hX => exact hI.exchange_step hX
  | fold _ hn hs => exact hI.fold_step hn hs
  | scratch _ hn hs => exact hI.scratch_step hn hs

theorem of_folded (hE : Effect C d folded d') :
    ∀ n, folded = some n → d.hashed n ∧ (d.dentry n).shell = true := by
  intro n hn
  cases hE with
  | fold _ hk hs | scratch _ hk hs =>
    obtain rfl := Option.some.inj hn
    exact ⟨hk, hs⟩
  | _ => cases hn

theorem parent_eq (hE : Effect C d folded d') (hI : HashOk d) {a : ℕ} (ha : a < d.fresh)
    (hmoved : ∀ top, d.hashed top → a ≠ d.hostOf top) :
    (d'.dentry a).parent = (d.dentry a).parent := by
  have hmodify : ∀ {b : ℕ} {f : Dentry Name → Dentry Name}, (∀ e, (f e).parent = e.parent) →
      ((d.modify b f).dentry a).parent = (d.dentry a).parent := by
    intro b f hf
    rcases eq_or_ne a b with rfl | hne
    · rw [DCache.modify_self, hf]
    · rw [DCache.modify_of_ne _ _ _ _ hne]
  cases hE with
  | read | del => rfl
  | flag | flip => exact hmodify fun e => rfl
  | add => rw [addCommit_dentry_of_lt ha]
  | claim _ _ hC => rw [(hC.spec hI).1]
  | stack _ top ht _ _ _ hC =>
    obtain ⟨hd, hf, -, -⟩ := hC.spec hI
    have hh := (hC.hashOk hI).hostOf_host (hf.symm ▸ (hI.lt ht))
    rw [stackCommit_old hh.1 (hf.symm ▸ ha), hd, hC.hostOf]
    simp [hmoved top ht]
  | exchange _ topa topb hX =>
    obtain ⟨hha, hhb, hab⟩ := hX.hosts hI
    rw [exchangeCommit_old hha hhb hab ha]
    simp [hmoved topa hX.hasheda, hmoved topb hX.hashedb]
  | fold n hn => rw [foldCommit_dentry_of_ne (hmoved n hn)]
  | scratch n hn => rw [foldScratch_dentry_of_ne (hmoved n hn)]

theorem root_parent (hE : Effect C d folded d') (hI : HashOk d) :
    (d'.dentry root).parent = (d.dentry root).parent :=
  hE.parent_eq hI hI.rootHost.1 fun _ ht =>
    (hI.host_ne_root ht).symm

end Effect

end TrieBenchmark.Bucketlock
