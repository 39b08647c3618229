import TrieBenchmark.Seqlock.LruMachine

/-!
What a step of a thread may do to the words, the lists and the frees, and what the thread knows
before and after it.
-/

namespace TrieBenchmark.Seqlock.Lru

open List Function Run

structure Hashed (s : Dcache) (d p : ℕ) : Prop where
  published : s.published d = true
  unhashed : s.unhashed d = false
  parent : s.parent d = p

structure Unpublished (s : Dcache) (d p : ℕ) : Prop where
  published : s.published d = false
  parent : s.parent d = p
  lt : d < s.fresh
  ne : d ≠ root

def Pc.AtTest (s : Dcache) : Pc → Prop
  | .addTest p _ => p < s.fresh
  | .unlTest d _ | .dropFind d _ => s.published d = true
  | .killTest _ _ _ => True
  | _ => False

def Pc.Fits (s : Dcache) : Pc → Prop
  | .lock p k => k.held = some p ∧ k.AtTest s
  | .unlock _ k => k.held = none ∧ k.Fits s
  | .addTest p _ => p < s.fresh
  | .addLink d p _ => Unpublished s d p ∧ s.word d = .off
  | .addPublish d p => Unpublished s d p
  | .retLoad d _ | .retClaim d _ | .unlRead d | .unlTest d _ => s.published d = true
  | .unlKids d p | .unlDel d p => Hashed s d p
  | .dropFind d _ => s.published d = true
  | .dropDel d p => Hashed s d p
  | .del d stage _ => s.unhashed d = true ∧
      match stage with
      | .cas st => ∀ i, st ≠ .on i
      | .free => s.word d = .dead
      | _ => True
  | .killDel _ d p => Hashed s d p
  | .killSeal _ d _ => s.unhashed d = true ∧ s.word d = .shrink
  | .killFree _ d _ => s.unhashed d = true ∧ s.word d = .dead
  | _ => True

inductive WordStep (pc : Pc) (s : Dcache) (d : ℕ) : Word → Prop where
  | same : WordStep pc s d (s.word d)
  | claim {i : ℕ} : s.word d = .off → pc.adding = some d ∨ s.published d = true →
      WordStep pc s d (.on i)
  | drop {i : ℕ} : s.word d = .on i → WordStep pc s d .off
  | isolate {i : ℕ} : s.word d = .on i → WordStep pc s d .shrink
  | kill : pc.killing = some d → WordStep pc s d .dead
  | putBack : s.word d = .shrink → d ∈ pc.isolated → WordStep pc s d .off

structure Effect (pc : Pc) (s s' : Dcache) : Prop where
  fresh : s'.fresh = s.fresh ∨ s'.fresh = s.fresh + 1 ∧ s'.parent s.fresh < s.fresh
  parent : ∀ d < s.fresh, s'.parent d = s.parent d
  published : ∀ d, s'.published d = s.published d ∨ pc.adding = some d ∧ s'.published d = true
  unhashed : ∀ d, s'.unhashed d = s.unhashed d ∨
    s'.unhashed d = true ∧ ∃ p, pc.held = some p ∧ Hashed s d p
  word : ∀ d, WordStep pc s d (s'.word d)
  listed : ∃ ℓ, Listed s' ℓ
  reclaim : s'.reclaim = s.reclaim ∨
    ∃ d, pc.killing = some d ∧ s.word d = .dead ∧ s'.reclaim = d :: s.reclaim

namespace WordStep

variable {pc : Pc} {s : Dcache} {d : ℕ} {w : Word}

theorem of_dead (h : WordStep pc s d w) (hd : s.word d = .dead) : w = .dead := by
  cases h with
  | same => exact hd
  | kill => rfl
  | claim hw | drop hw | isolate hw | putBack hw => exact absurd (hw.symm.trans hd) Word.noConfusion

theorem of_shrink (h : WordStep pc s d w) (hd : s.word d = .shrink) :
    w = .shrink ∨ w = .dead ∧ pc.killing = some d ∨ d ∈ pc.isolated := by
  cases h with
  | same => exact .inl hd
  | kill hk => exact .inr (.inl ⟨rfl, hk⟩)
  | claim hw | drop hw | isolate hw => exact absurd (hw.symm.trans hd) Word.noConfusion
  | putBack _ hi => exact .inr (.inr hi)

theorem to_dead (h : WordStep pc s d w) (hw : w = .dead) :
    s.word d = .dead ∨ pc.killing = some d := by
  cases h with
  | same => exact .inl hw
  | kill hk => exact .inr hk
  | claim | drop | isolate | putBack => cases hw

theorem of_off (h : WordStep pc s d w) (hd : s.word d = .off) :
    w = .off ∨ (pc.adding = some d ∨ s.published d = true) ∨ pc.killing = some d := by
  cases h with
  | same => exact .inl hd
  | kill hk => exact .inr (.inr hk)
  | claim _ hp => exact .inr (.inl hp)
  | drop hw | isolate hw | putBack hw => exact absurd (hw.symm.trans hd) Word.noConfusion

end WordStep

namespace Effect

variable {pc : Pc} {s s' : Dcache} {d p : ℕ}

theorem of_sameTree (h : SameTree s s') (hw : s'.word = s.word) (hs : ∃ ℓ, Listed s' ℓ) :
    Effect pc s s' where
  fresh := .inl h.fresh
  parent d _ := by rw [h.parent]
  published d := .inl (by rw [h.published])
  unhashed d := .inl (by rw [h.unhashed])
  word d := by
    rw [hw]
    exact .same
  listed := hs
  reclaim := .inl h.reclaim

theorem of_word {w : Word} (h : SameTree s s') (hs : ∃ ℓ, Listed s' ℓ)
    (hword : s'.word = update s.word d w) (hw : WordStep pc s d w) : Effect pc s s' where
  fresh := .inl h.fresh
  parent d _ := by rw [h.parent]
  published d := .inl (by rw [h.published])
  unhashed d := .inl (by rw [h.unhashed])
  word x := by
    rw [hword]
    rcases eq_or_ne x d with rfl | hx
    · rw [update_self]
      exact hw
    · rw [update_of_ne hx]
      exact .same
  listed := hs
  reclaim := .inl h.reclaim

theorem refl (hs : ∃ ℓ, Listed s ℓ) : Effect pc s s :=
  .of_sameTree (.refl s) rfl hs

theorem dentryAlloc {p : ℕ} (hs : ∃ ℓ, Listed s ℓ) (hp : p < s.fresh) :
    Effect pc s (s.dentryAlloc p) where
  fresh := by
    refine .inr ⟨rfl, ?_⟩
    show update s.parent s.fresh p s.fresh < s.fresh
    rw [update_self]
    exact hp
  parent _ hd := update_of_ne (Nat.ne_of_lt hd) ..
  published _ := .inl rfl
  unhashed _ := .inl rfl
  word _ := .same
  listed := hs.imp fun _ h => h.congr rfl rfl rfl
  reclaim := .inl rfl

theorem publish (hs : ∃ ℓ, Listed s ℓ) (hd : pc.adding = some d) :
    Effect pc s (s.publish d) where
  fresh := .inl rfl
  parent _ _ := rfl
  published x := by
    show update s.published d true x = _ ∨ _ ∧ update s.published d true x = _
    rcases eq_or_ne x d with rfl | hx
    · exact .inr ⟨hd, update_self ..⟩
    · exact .inl (update_of_ne hx ..)
  unhashed _ := .inl rfl
  word _ := .same
  listed := hs.imp fun _ h => h.congr rfl rfl rfl
  reclaim := .inl rfl

theorem unhash (hs : ∃ ℓ, Listed s ℓ) (hp : pc.held = some p) (hd : Hashed s d p) :
    Effect pc s (s.unhash d) where
  fresh := .inl rfl
  parent _ _ := rfl
  published _ := .inl rfl
  unhashed x := by
    show update s.unhashed d true x = _ ∨ update s.unhashed d true x = _ ∧ _
    rcases eq_or_ne x d with rfl | hx
    · exact .inr ⟨update_self .., p, hp, hd⟩
    · exact .inl (update_of_ne hx ..)
  word _ := .same
  listed := hs.imp fun _ h => h.congr rfl rfl rfl
  reclaim := .inl rfl

theorem callRcu (hs : ∃ ℓ, Listed s ℓ) (hd : pc.killing = some d)
    (hw : s.word d = .dead) : Effect pc s (s.callRcu d) where
  fresh := .inl rfl
  parent _ _ := rfl
  published _ := .inl rfl
  unhashed _ := .inl rfl
  word _ := .same
  listed := hs.imp fun _ h => h.congr rfl rfl rfl
  reclaim := .inr ⟨d, hd, hw, rfl⟩

theorem setWord {w : Word} (hs : ∃ ℓ, Listed s ℓ) (hd : ∀ i, s.word d ≠ .on i)
    (hw : ∀ i, w ≠ .on i) (h : WordStep pc s d w) : Effect pc s (s.setWord d w) :=
  .of_word ⟨rfl, rfl, rfl, rfl, rfl, rfl⟩ (hs.imp fun _ hs => hs.setWord hd hw) rfl h

theorem lruDelLocked {i d : ℕ} {w : Word} (hs : ∃ ℓ, Listed s ℓ) (hd : s.word d = .on i)
    (hw : ∀ i, w ≠ .on i) (h : WordStep pc s d w) : Effect pc s (s.lruDelLocked i d w) := by
  obtain ⟨ℓ, hs⟩ := hs
  exact .of_word ⟨rfl, rfl, rfl, rfl, rfl, rfl⟩ ⟨_, hs.lruDelLocked hd hw⟩ rfl h

theorem isolates {i : ℕ} {batch : List ℕ} (h : Isolates i s batch s') : Effect pc s s' where
  fresh := .inl h.tree.fresh
  parent d _ := by rw [h.tree.parent]
  published d := .inl (by rw [h.tree.published])
  unhashed d := .inl (by rw [h.tree.unhashed])
  word d := by
    by_cases hd : d ∈ batch
    · obtain ⟨hon, -, hshrink⟩ := h.taken d hd
      rw [hshrink]
      exact .isolate hon
    · rcases h.other d hd with he | ⟨hon, hoff⟩
      · rw [he]
        exact .same
      · rw [hoff]
        exact .drop hon
  listed := h.listed
  reclaim := .inl h.tree.reclaim

end Effect

section Stable

variable {s s' : Dcache} {pc : Pc} {d p : ℕ}

theorem Effect.fresh_le (hE : Effect pc s s') : s.fresh ≤ s'.fresh := by
  rcases hE.fresh with h | ⟨h, -⟩
  · exact Nat.le_of_eq h.symm
  · exact h ▸ Nat.le_succ _

theorem Hashed.stable (h : Hashed s d p) (hE : Effect pc s s')
    (hborn : ∀ d, s.published d = true → d < s.fresh) (hheld : pc.held ≠ some p) :
    Hashed s' d p where
  published := by
    rcases hE.published d with he | ⟨-, he⟩
    · rw [he]
      exact h.published
    · exact he
  unhashed := by
    rcases hE.unhashed d with he | ⟨-, q, hq, hd⟩
    · rw [he]
      exact h.unhashed
    · have hqp : q = p := hd.parent.symm.trans h.parent
      exact absurd (hqp ▸ hq) hheld
  parent := by
    rw [hE.parent d (hborn d h.published)]
    exact h.parent

theorem Unpublished.stable (h : Unpublished s d p) (hE : Effect pc s s')
    (hadd : pc.adding ≠ some d) : Unpublished s' d p where
  published := by
    rcases hE.published d with he | ⟨ha, -⟩
    · rw [he]
      exact h.published
    · exact absurd ha hadd
  parent := by
    rw [hE.parent d h.lt]
    exact h.parent
  lt := Nat.lt_of_lt_of_le h.lt hE.fresh_le
  ne := h.ne

theorem Effect.published_mono (hE : Effect pc s s') (h : s.published d = true) :
    s'.published d = true := by
  rcases hE.published d with he | ⟨-, he⟩
  · rw [he]
    exact h
  · exact he

theorem Effect.unhashed_mono (hE : Effect pc s s') (h : s.unhashed d = true) :
    s'.unhashed d = true := by
  rcases hE.unhashed d with he | ⟨he, -⟩
  · rw [he]
    exact h
  · exact he

theorem Pc.AtTest.stable {k : Pc} (hk : k.AtTest s) (hE : Effect pc s s') : k.AtTest s' := by
  cases k <;> first
    | exact hk
    | exact hE.published_mono hk
    | exact Nat.lt_of_lt_of_le hk hE.fresh_le

theorem Pc.adding_of_held (h : pc.held = none) : pc.adding = none := by
  cases pc with
  | addLink | addPublish => cases h
  | _ => rfl

theorem Pc.Fits.stable {k : Pc} (hk : k.Fits s) (hE : Effect pc s s')
    (hborn : ∀ d, s.published d = true → d < s.fresh)
    (hkp : ∀ d, pc.killing = some d → s.published d = true)
    (hheld : ∀ p, pc.held = some p → k.held ≠ some p)
    (hkill : ∀ d, pc.killing = some d → k.killing ≠ some d)
    (hiso : ∀ d ∈ pc.isolated, d ∉ k.isolated)
    (hadd : ∀ d, pc.adding = some d → k.adding ≠ some d) : k.Fits s' := by
  have hhashed : ∀ {d p}, Hashed s d p → k.held = some p → Hashed s' d p := by
    intro d p hd hp
    exact hd.stable hE hborn fun h => hheld p h hp
  have hdead : ∀ {d}, s.word d = .dead → s'.word d = .dead := fun hd => (hE.word _).of_dead hd
  induction k with
  | lock => exact ⟨hk.1, hk.2.stable hE⟩
  | unlock _ k ih =>
    exact ⟨hk.1, ih hk.2 (fun q _ => by simp [hk.1]) hkill hiso
      (by simp [Pc.adding_of_held hk.1])
      (fun _ hp => by simp [hk.1] at hp)⟩
  | addLink d =>
    have hd : pc.adding ≠ some d := fun h => hadd d h rfl
    refine ⟨hk.1.stable hE hd, ?_⟩
    rcases (hE.word d).of_off hk.2 with hw | (ha | hp) | hd'
    · exact hw
    · exact absurd ha hd
    · exact absurd (hk.1.published.symm.trans hp) Bool.noConfusion
    · exact absurd (hk.1.published.symm.trans (hkp d hd')) Bool.noConfusion
  | addTest => exact Nat.lt_of_lt_of_le hk hE.fresh_le
  | addPublish d => exact Unpublished.stable hk hE fun h => hadd d h rfl
  | retLoad | retClaim | unlRead | unlTest | dropFind => exact hE.published_mono hk
  | unlKids | unlDel | dropDel | killDel => exact hhashed hk rfl
  | del _ stage =>
    refine ⟨hE.unhashed_mono hk.1, ?_⟩
    have hk := hk.2
    cases stage with
    | free => exact hdead hk
    | load | shard => trivial
    | cas => exact hk
  | killSeal _ d =>
    refine ⟨hE.unhashed_mono hk.1, ?_⟩
    rcases (hE.word d).of_shrink hk.2 with hw | ⟨-, hd⟩ | hd
    · exact hw
    · exact absurd rfl (hkill d hd)
    · exact absurd (mem_cons_self ..) (hiso d hd)
  | killFree => exact ⟨hE.unhashed_mono hk.1, hdead hk.2⟩
  | _ => trivial

end Stable

structure Turn (pc : Pc) (s s' : Dcache) (k : Pc) : Prop where
  effect : Effect pc s s'
  fits : k.Fits s'
  nodup : k.isolated.Nodup
  isolated : ∀ d ∈ k.isolated, d ∈ pc.isolated ∧ s'.word d = s.word d ∨
    (∃ i, s.word d = .on i) ∧ s'.word d = .shrink
  killing : ∀ d, k.killing = some d → pc.killing = some d ∨ s.unhashed d = false
  doomed : ∀ d, s'.unhashed d = true → pc.killing = some d ∨ s.unhashed d = false →
    k.killing = some d ∨ s'.word d = .dead
  freed : ∀ d, d ∈ s'.reclaim → d ∉ s.reclaim → k.killing ≠ some d
  adder : ∀ d < s'.fresh, s'.published d = false → s.fresh ≤ d ∨ pc.adding = some d →
    k.adding = some d
  adding : ∀ d, k.adding = some d → pc.adding = some d ∨ s.fresh ≤ d

/-- What one thread relies on: what the words of its dentries are, and that a dentry whose parent it
has locked is published. -/
structure Ready (pc : Pc) (s : Dcache) : Prop where
  listed : ∃ ℓ, Listed s ℓ
  fits : pc.Fits s
  nodup : pc.isolated.Nodup
  isolated : ∀ d ∈ pc.isolated, s.word d = .shrink ∨ s.word d = .dead
  dead : ∀ d, s.word d = .dead → s.unhashed d = true
  published : ∀ d ∈ pc.isolated, pc.held = some (s.parent d) → s.published d = true
  unborn : ∀ d, s.fresh ≤ d → s.word d = .off ∧ s.published d = false
  root : root < s.fresh

namespace Turn

variable {pc k : Pc} {s s' : Dcache}

theorem doomed_of (hk : pc.killing = none) (hu : s'.unhashed = s.unhashed) (d : ℕ)
    (hd : s'.unhashed d = true) (h : pc.killing = some d ∨ s.unhashed d = false) :
    k.killing = some d ∨ s'.word d = .dead := by
  rw [hu] at hd
  rcases h with h | h
  · rw [hk] at h
    cases h
  · exact absurd (h.symm.trans hd) Bool.noConfusion

theorem of_effect (hE : Effect pc s s') (hfits : k.Fits s') (hnodup : k.isolated.Nodup)
    (hiso : ∀ d ∈ k.isolated, d ∈ pc.isolated ∧ s'.word d = s.word d)
    (hkilling : k.killing = pc.killing) (hreclaim : s'.reclaim = s.reclaim)
    (hunhashed : s'.unhashed = s.unhashed) (hpc : pc.adding = none) (hk : k.adding = none)
    (hfresh : s'.fresh = s.fresh) : Turn pc s s' k where
  effect := hE
  fits := hfits
  nodup := hnodup
  isolated d hd := .inl (hiso d hd)
  killing d hd := .inl (hkilling ▸ hd)
  doomed d hd h := by
    rw [hunhashed] at hd
    rcases h with h | h
    · exact .inl (hkilling ▸ h)
    · exact absurd (h.symm.trans hd) Bool.noConfusion
  freed d hd hd' := absurd (hreclaim ▸ hd) hd'
  adder d hd _ h := by
    rcases h with h | h
    · rw [hfresh] at hd
      omega
    · rw [hpc] at h
      cases h
  adding d hd := by
    rw [hk] at hd
    cases hd

theorem read (hs : Ready pc s) (hfits : k.Fits s) (hsub : k.isolated.Sublist pc.isolated)
    (hkilling : k.killing = pc.killing) (hpc : pc.adding = none) (hk : k.adding = none) :
    Turn pc s s k :=
  .of_effect (.refl hs.listed) hfits (hs.nodup.sublist hsub) (fun _ hd => ⟨hsub.subset hd, rfl⟩)
    hkilling rfl rfl hpc hk rfl

end Turn

section Steps

variable {s : Dcache} {c : Scan}

theorem addTest_turn {p nid : ℕ} (hs : Ready (.addTest p nid) s) :
    Turn (.addTest p nid) s (step s (.addTest p nid)).1 (step s (.addTest p nid)).2 := by
  rw [step]
  split_ifs
  · exact .read hs ⟨rfl, trivial⟩ (List.Sublist.refl _) rfl rfl rfl
  · obtain ⟨hoff, hpub⟩ := hs.unborn s.fresh (Nat.le_refl _)
    have hnew : Unpublished (s.dentryAlloc p) s.fresh p :=
      ⟨hpub, update_self .., Nat.lt_succ_self _, Nat.ne_of_gt hs.root⟩
    refine ⟨.dentryAlloc hs.listed hs.fits, ⟨hnew, hoff⟩, nodup_nil, fun _ h => (by cases h),
      fun _ h => (by cases h), Turn.doomed_of rfl rfl, fun _ h h' => absurd h h',
      fun d hd _ h => ?_, fun d hd => ?_⟩
    · have hlt : d < s.fresh + 1 := hd
      rcases h with h | h
      · have he : s.fresh = d := by omega
        exact congrArg some he
      · cases h
    · exact .inr (Nat.le_of_eq (Option.some.inj hd))

theorem addLink_turn {d p nid : ℕ} (hs : Ready (.addLink d p nid) s) :
    Turn (.addLink d p nid) s (step s (.addLink d p nid)).1 (step s (.addLink d p nid)).2 := by
  obtain ⟨hnew, hoff⟩ := hs.fits
  obtain ⟨ℓ, hl⟩ := hs.listed
  have hne : ∀ i, s.word d ≠ .on i := fun i h => absurd (hoff.symm.trans h) Word.noConfusion
  have hE : Effect (.addLink d p nid) s (s.lruAddNew nid d) :=
    .of_word ⟨rfl, rfl, rfl, rfl, rfl, rfl⟩ ⟨_, hl.link hne rfl rfl rfl⟩ rfl (.claim hoff (.inl rfl))
  exact ⟨hE, ⟨hnew.published, hnew.parent, hnew.lt, hnew.ne⟩, nodup_nil, fun _ h => (by cases h),
    fun _ h => (by cases h), Turn.doomed_of rfl rfl, fun _ h h' => absurd h h',
    fun x hx _ h => h.elim (fun h => absurd hx (Nat.not_lt.mpr h)) id, fun x hx => .inl hx⟩

theorem addPublish_turn (hs : Ready (.addPublish d p) s) :
    Turn (.addPublish d p) s (step s (.addPublish d p)).1 (step s (.addPublish d p)).2 := by
  refine ⟨.publish hs.listed rfl, ⟨rfl, trivial⟩, nodup_nil, fun _ h => (by cases h),
    fun _ h => (by cases h), Turn.doomed_of rfl rfl, fun _ h h' => absurd h h',
    fun x hx hp h => ?_, fun x hx => (by cases hx)⟩
  rcases h with h | h
  · exact absurd hx (Nat.not_lt.mpr h)
  · obtain rfl : d = x := Option.some.inj h
    have : (s.publish d).published d = true := update_self ..
    exact absurd (this.symm.trans hp) Bool.noConfusion

theorem retLoad_turn {d nid : ℕ} (hs : Ready (.retLoad d nid) s) :
    Turn (.retLoad d nid) s (step s (.retLoad d nid)).1 (step s (.retLoad d nid)).2 := by
  rw [step]
  split
  · exact .read hs trivial (List.Sublist.refl _) rfl rfl rfl
  · exact .read hs hs.fits (List.Sublist.refl _) rfl rfl rfl
  · exact .read hs trivial (List.Sublist.refl _) rfl rfl rfl

theorem retMark_turn (hs : Ready (.retMark d) s) :
    Turn (.retMark d) s (step s (.retMark d)).1 (step s (.retMark d)).2 :=
  .of_effect (.of_sameTree ⟨rfl, rfl, rfl, rfl, rfl, rfl⟩ rfl
    (hs.listed.imp fun _ h => h.congr rfl rfl rfl)) trivial nodup_nil (fun _ h => (by cases h))
    rfl rfl rfl rfl rfl rfl

theorem retClaim_turn {d nid : ℕ} (hs : Ready (.retClaim d nid) s) :
    Turn (.retClaim d nid) s (step s (.retClaim d nid)).1 (step s (.retClaim d nid)).2 := by
  obtain ⟨ℓ, hl⟩ := hs.listed
  rw [step, Dcache.lruAddClaim]
  split_ifs with hoff
  · have hne : ∀ i, s.word d ≠ .on i := fun i h => absurd (hoff.symm.trans h) Word.noConfusion
    have hE : Effect (.retClaim d nid) s ((s.setWord d (.on nid)).lruLinkTailLocked nid d) :=
      .of_word ⟨rfl, rfl, rfl, rfl, rfl, rfl⟩ ⟨_, hl.link hne rfl rfl rfl⟩ rfl
        (.claim hoff (.inr hs.fits))
    exact .of_effect hE trivial nodup_nil (fun _ h => (by cases h)) rfl rfl rfl rfl rfl rfl
  · exact .read hs trivial (List.Sublist.refl _) rfl rfl rfl

theorem unhash_turn {pc k : Pc} (hs : Ready pc s) (hp : pc.held = some p)
    (hd : Hashed s d p) (hfits : k.Fits (s.unhash d)) (hiso : k.isolated = pc.isolated)
    (hnone : pc.killing = none) (hkill : k.killing = some d) (hpc : pc.adding = none)
    (hk : k.adding = none) : Turn pc s (s.unhash d) k where
  effect := .unhash hs.listed hp hd
  fits := hfits
  nodup := hiso ▸ hs.nodup
  isolated x hx := .inl ⟨hiso ▸ hx, rfl⟩
  killing x hx := by
    rw [hkill] at hx
    obtain rfl : d = x := Option.some.inj hx
    exact .inr hd.unhashed
  doomed x hx h := by
    rcases eq_or_ne x d with rfl | hxd
    · exact .inl hkill
    · have hx' : s.unhashed x = true := (update_of_ne hxd ..).symm.trans hx
      rcases h with h | h
      · rw [hnone] at h
        cases h
      · exact absurd (h.symm.trans hx') Bool.noConfusion
  freed x h h' := absurd h h'
  adder x hx _ h := by
    rw [hpc] at h
    exact h.elim (fun h => absurd hx (Nat.not_lt.mpr h)) fun h => (by cases h)
  adding x hx := by
    rw [hk] at hx
    cases hx

theorem callRcu_turn {pc k : Pc} (hs : Ready pc s) (hd : pc.killing = some d)
    (hw : s.word d = .dead) (hfits : k.Fits (s.callRcu d)) (hiso : k.isolated = pc.isolated)
    (hkill : k.killing = none) (hpc : pc.adding = none) (hk : k.adding = none) :
    Turn pc s (s.callRcu d) k where
  effect := .callRcu hs.listed hd hw
  fits := hfits
  nodup := hiso ▸ hs.nodup
  isolated x hx := .inl ⟨hiso ▸ hx, rfl⟩
  killing x hx := by
    rw [hkill] at hx
    cases hx
  doomed x hx h := by
    rcases h with h | h
    · obtain rfl : d = x := Option.some.inj (hd.symm.trans h)
      exact .inr hw
    · exact absurd (h.symm.trans hx) Bool.noConfusion
  freed x _ _ := by simp [hkill]
  adder x hx _ h := by
    rw [hpc] at h
    exact h.elim (fun h => absurd hx (Nat.not_lt.mpr h)) fun h => (by cases h)
  adding x hx := by
    rw [hk] at hx
    cases hx

theorem unhash_unhashed (s : Dcache) (d : ℕ) : (s.unhash d).unhashed d = true :=
  update_self ..

theorem unlTest_turn (hs : Ready (.unlTest d p) s) :
    Turn (.unlTest d p) s (step s (.unlTest d p)).1 (step s (.unlTest d p)).2 := by
  rw [step]
  split_ifs with h
  · rw [Bool.and_eq_true, Bool.not_eq_true', decide_eq_true_eq] at h
    exact .read hs ⟨hs.fits, h.1, h.2⟩ (List.Sublist.refl _) rfl rfl rfl
  · exact .read hs ⟨rfl, trivial⟩ (List.Sublist.refl _) rfl rfl rfl

theorem unlKids_turn (hs : Ready (.unlKids d p) s) :
    Turn (.unlKids d p) s (step s (.unlKids d p)).1 (step s (.unlKids d p)).2 := by
  rw [step]
  split_ifs
  · exact .read hs ⟨rfl, trivial⟩ (List.Sublist.refl _) rfl rfl rfl
  · exact .read hs hs.fits (List.Sublist.refl _) rfl rfl rfl

theorem dropFind_turn (hs : Ready (.dropFind d p) s) :
    Turn (.dropFind d p) s (step s (.dropFind d p)).1 (step s (.dropFind d p)).2 := by
  rw [step]
  split_ifs with h
  · rw [Bool.and_eq_true, Bool.not_eq_true', decide_eq_true_eq] at h
    exact .read hs ⟨hs.fits, h.2, h.1⟩ (List.Sublist.refl _) rfl rfl rfl
  · exact .read hs ⟨rfl, trivial⟩ (List.Sublist.refl _) rfl rfl rfl

theorem del_turn {stage : Del} {held : Option ℕ} (hs : Ready (.del d stage held) s) :
    Turn (.del d stage held) s (step s (.del d stage held)).1 (step s (.del d stage held)).2 := by
  have hd : s.unhashed d = true := hs.fits.1
  rw [step]
  cases stage with
  | load =>
    rw [delStep]
    split
    · rename_i hw
      exact .read hs ⟨hd, hw⟩ (List.Sublist.refl _) rfl rfl rfl
    · exact .read hs ⟨hd, trivial⟩ (List.Sublist.refl _) rfl rfl rfl
    · rename_i hon
      exact .read hs ⟨hd, fun i h => hon i h⟩ (List.Sublist.refl _) rfl rfl rfl
  | cas st =>
    have hst : ∀ i, st ≠ .on i := hs.fits.2
    rw [delStep]
    split_ifs with hw
    · have hE : Effect (.del d (.cas st) held) s (s.setWord d .dead) :=
        .setWord hs.listed (hw ▸ hst) (fun _ => Word.noConfusion) (.kill rfl)
      exact .of_effect hE ⟨hd, update_self ..⟩ nodup_nil (fun _ h => (by cases h))
        rfl rfl rfl rfl rfl rfl
    · exact .read hs ⟨hd, trivial⟩ (List.Sublist.refl _) rfl rfl rfl
  | shard i =>
    rw [delStep]
    split_ifs with hw
    · have hE : Effect (.del d (.shard i) held) s (s.lruDelLocked i d .dead) :=
        .lruDelLocked hs.listed hw (fun _ => Word.noConfusion) (.kill rfl)
      exact .of_effect hE ⟨hd, update_self ..⟩ nodup_nil (fun _ h => (by cases h))
        rfl rfl rfl rfl rfl rfl
    · exact .read hs ⟨hd, trivial⟩ (List.Sublist.refl _) rfl rfl rfl
  | free =>
    have hw : s.word d = .dead := hs.fits.2
    cases held with
    | none => exact callRcu_turn hs rfl hw trivial rfl rfl rfl rfl
    | some => exact callRcu_turn hs rfl hw ⟨rfl, trivial⟩ rfl rfl rfl rfl

theorem kills_turn (hs : Ready (.kills c) s) :
    Turn (.kills c) s (step s (.kills c)).1 (step s (.kills c)).2 := by
  have hiso : (Pc.kills c).isolated = c.batch := rfl
  rw [step]
  cases hb : c.batch with
  | nil =>
    dsimp only
    split_ifs <;> exact .read hs trivial (nil_sublist _) rfl rfl rfl
  | cons =>
    rw [hb] at hiso
    dsimp only
    split_ifs
    · exact .read hs trivial (hiso ▸ List.Sublist.refl _) rfl rfl rfl
    · exact .read hs ⟨rfl, trivial⟩ (hiso ▸ List.Sublist.refl _) rfl rfl rfl

theorem isolate_turn {budget : ℕ} (hs : Ready (.isolate c budget) s) :
    Turn (.isolate c budget) s (step s (.isolate c budget)).1 (step s (.isolate c budget)).2 := by
  have h := isolate_isolates hs.listed c.i budget (min shrinkBatch (c.nr - c.freed))
  rw [step]
  refine ⟨.isolates h, trivial, h.nodup, fun d hd => .inr ?_, fun d hd => (by cases hd),
    Turn.doomed_of rfl h.tree.unhashed, fun d hd hd' => ?_, fun d hd _ hd' => ?_,
    fun d hd => (by cases hd)⟩
  · obtain ⟨hon, -, hshrink⟩ := h.taken d hd
    exact ⟨⟨c.i, hon⟩, hshrink⟩
  · rw [h.tree.reclaim] at hd
    exact absurd hd hd'
  · rw [h.tree.fresh] at hd
    exact hd'.elim (fun h => absurd hd (Nat.not_lt.mpr h)) fun h => (by cases h)

theorem killTest_turn (hs : Ready (.killTest c d p) s) :
    Turn (.killTest c d p) s (step s (.killTest c d p)).1 (step s (.killTest c d p)).2 := by
  rw [step]
  split_ifs with h
  · rw [Bool.and_eq_true, Bool.and_eq_true, Bool.not_eq_true', decide_eq_true_eq] at h
    obtain ⟨⟨rfl, hd⟩, -⟩ := h
    have hpub := hs.published d (mem_cons_self ..) rfl
    exact .read hs ⟨hpub, hd, rfl⟩ (List.Sublist.refl _) rfl rfl rfl
  · exact .read hs ⟨rfl, trivial⟩ (List.Sublist.refl _) rfl rfl rfl

theorem killDel_turn (hs : Ready (.killDel c d p) s) :
    Turn (.killDel c d p) s (step s (.killDel c d p)).1 (step s (.killDel c d p)).2 := by
  have hd : Hashed s d p := hs.fits
  have hshrink : s.word d = .shrink := by
    rcases hs.isolated d (mem_cons_self ..) with h | h
    · exact h
    · exact absurd ((hs.dead d h).symm.trans hd.unhashed) Bool.noConfusion
  exact unhash_turn hs rfl hd ⟨unhash_unhashed s d, hshrink⟩ rfl rfl rfl rfl rfl

theorem killSeal_turn (hs : Ready (.killSeal c d p) s) :
    Turn (.killSeal c d p) s (step s (.killSeal c d p)).1 (step s (.killSeal c d p)).2 := by
  obtain ⟨hd, hshrink⟩ := hs.fits
  have hE : Effect (.killSeal c d p) s (s.setWord d .dead) :=
    .setWord hs.listed (fun i h => absurd (hshrink.symm.trans h) Word.noConfusion)
      (fun _ => Word.noConfusion) (.kill rfl)
  have hnodup := nodup_cons.mp hs.nodup
  refine .of_effect hE ⟨hd, update_self ..⟩ hnodup.2 (fun x hx => ?_) rfl rfl rfl rfl rfl
    rfl
  have hxd : x ≠ d := fun h => hnodup.1 (h ▸ hx)
  exact ⟨mem_cons_of_mem _ hx, update_of_ne hxd ..⟩

theorem putBack_turn (hs : Ready (.putBack c d) s) :
    Turn (.putBack c d) s (step s (.putBack c d)).1 (step s (.putBack c d)).2 := by
  have hnodup := nodup_cons.mp hs.nodup
  rw [step, Dcache.cmpxchg]
  split_ifs with hw
  · have hE : Effect (.putBack c d) s (s.setWord d .off) :=
      .setWord hs.listed (fun i h => absurd (hw.symm.trans h) Word.noConfusion)
        (fun _ => Word.noConfusion) (.putBack hw (mem_cons_self ..))
    refine .of_effect hE trivial hnodup.2 (fun x hx => ?_) rfl rfl rfl rfl rfl rfl
    have hxd : x ≠ d := fun h => hnodup.1 (h ▸ hx)
    exact ⟨mem_cons_of_mem _ hx, update_of_ne hxd ..⟩
  · exact .read hs trivial (sublist_cons_self ..) rfl rfl rfl

def Pc.runs : Pc → Bool
  | .idle | .done _ | .lock _ _ | .unlock _ _ => false
  | _ => true

theorem step_turn {pc : Pc} (hrun : pc.runs = true) (hs : Ready pc s) :
    Turn pc s (step s pc).1 (step s pc).2 := by
  cases pc with
  | idle | done | lock | unlock => cases hrun
  | addTest => exact addTest_turn hs
  | addLink => exact addLink_turn hs
  | addPublish => exact addPublish_turn hs
  | retLoad => exact retLoad_turn hs
  | retMark => exact retMark_turn hs
  | retClaim => exact retClaim_turn hs
  | unlRead => exact .read hs ⟨rfl, hs.fits⟩ (List.Sublist.refl _) rfl rfl rfl
  | unlTest => exact unlTest_turn hs
  | unlKids => exact unlKids_turn hs
  | unlDel d => exact unhash_turn hs rfl hs.fits ⟨unhash_unhashed s d, trivial⟩ rfl rfl rfl rfl rfl
  | dropFind => exact dropFind_turn hs
  | dropDel d =>
    exact unhash_turn hs rfl hs.fits ⟨rfl, unhash_unhashed s d, trivial⟩ rfl rfl rfl rfl rfl
  | del => exact del_turn hs
  | scan =>
    rw [step]
    split_ifs <;> exact .read hs trivial (List.Sublist.refl _) rfl rfl rfl
  | load => exact .read hs trivial (List.Sublist.refl _) rfl rfl rfl
  | isolate => exact isolate_turn hs
  | kills => exact kills_turn hs
  | killTest => exact killTest_turn hs
  | killDel => exact killDel_turn hs
  | killSeal => exact killSeal_turn hs
  | killFree => exact callRcu_turn hs rfl hs.fits.2 ⟨rfl, trivial⟩ rfl rfl rfl rfl
  | putBack => exact putBack_turn hs

theorem step_held {pc : Pc} (hrun : pc.runs = true) {p : ℕ} (h : (step s pc).2.held = some p) :
    pc.held = some p := by
  have hif : ∀ {c : Prop} [Decidable c] {s₁ s₂ : Dcache} {k₁ k₂ : Pc},
      (if c then (s₁, k₁) else (s₂, k₂)).2.held = some p → k₁.held = some p ∨ k₂.held = some p := by
    intro c _ s₁ s₂ k₁ k₂ h
    split_ifs at h
    · exact .inl h
    · exact .inr h
  cases pc with
  | idle | done | lock | unlock => cases hrun
  | addTest | unlTest | unlKids | dropFind | killTest => exact (hif h).elim id id
  | addLink | addPublish | unlDel | dropDel | killDel | killSeal | killFree => exact h
  | retLoad =>
    rw [step] at h
    split at h <;> cases h
  | retMark | retClaim | unlRead | load | isolate | putBack => cases h
  | del _ stage held =>
    cases stage with
    | load =>
      rw [step, delStep] at h
      split at h <;> exact h
    | cas | shard => exact (hif h).elim id id
    | free =>
      cases held with
      | none => cases h
      | some => exact h
  | scan => exact (hif h).elim (fun h => by cases h) fun h => by cases h
  | kills c =>
    rw [step] at h
    cases hb : c.batch with
    | nil | cons =>
      rw [hb] at h
      dsimp only at h
      split_ifs at h <;> cases h

end Steps

end TrieBenchmark.Seqlock.Lru
