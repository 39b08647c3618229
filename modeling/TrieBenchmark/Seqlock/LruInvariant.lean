import TrieBenchmark.Seqlock.LruStep

/-!
The agreement of words, lists and frees in every interleaving. A word leaves `SHRINK` by the thread
that isolated its dentry or by the one that unhashed it; a dentry is unhashed under its parent's
rwsem, by one thread.
-/

namespace TrieBenchmark.Seqlock.Lru

open Option List Function Run

structure Inv (s : Sys) : Prop where
  listed : ∃ ℓ, Listed s.d ℓ
  unborn : ∀ d, s.d.fresh ≤ d → s.d.word d = .off ∧ s.d.published d = false
  root : root < s.d.fresh ∧ s.d.word root = .off ∧ s.d.published root = false
  dir : ∀ t p, (s.pc t).held = some p → s.dir p = some t
  fits : ∀ t, (s.pc t).Fits s.d
  nodup : ∀ t, (s.pc t).isolated.Nodup
  isolated : ∀ t, ∀ d ∈ (s.pc t).isolated, s.d.word d = .shrink ∨ s.d.word d = .dead
  apart : ∀ t u d, d ∈ (s.pc t).isolated → d ∈ (s.pc u).isolated → t = u
  killer : ∀ t u d, (s.pc t).killing = some d → (s.pc u).killing = some d → t = u
  adder : ∀ d < s.d.fresh, s.d.published d = false → d ≠ Lru.root → ∃ t, (s.pc t).adding = some d
  killed : ∀ d, s.d.unhashed d = true → s.d.published d = true
  dead : ∀ d, s.d.word d = .dead → s.d.unhashed d = true
  doomed : ∀ d, s.d.unhashed d = true →
    s.d.word d = .dead ∨ ∃ t, (s.pc t).killing = some d
  parent : ∀ d < s.d.fresh, d ≠ Lru.root → s.d.parent d < d
  freed : ∀ d ∈ s.d.reclaim, s.d.word d = .dead ∧ ∀ t, (s.pc t).killing ≠ some d
  once : s.d.reclaim.Nodup

section Pcs

variable {s : Dcache} {pc : Pc} {d : ℕ}

theorem Pc.Fits.killing (h : pc.Fits s) (hd : pc.killing = some d) : s.unhashed d = true := by
  induction pc with
  | lock _ k =>
    have hk := h.2
    cases k <;> first | exact absurd hk id | cases hd
  | unlock _ _ ih => exact ih h.2 hd
  | del x | killSeal _ x | killFree _ x =>
    obtain rfl : x = d := some.inj hd
    exact h.1
  | _ => cases hd

theorem Pc.Fits.adding (h : pc.Fits s) (hd : pc.adding = some d) :
    ∃ p, pc.held = some p ∧ Unpublished s d p := by
  cases pc with
  | addLink x p =>
    obtain rfl : x = d := some.inj hd
    exact ⟨p, rfl, h.1⟩
  | addPublish x p =>
    obtain rfl : x = d := some.inj hd
    exact ⟨p, rfl, h⟩
  | _ => cases hd

theorem Pc.isolated_of_adding (hd : pc.adding = some d) : pc.isolated = [] := by
  cases pc with
  | addLink | addPublish => rfl
  | _ => cases hd

theorem Pc.AtTest.fits (h : pc.AtTest s) : pc.Fits s ∧ pc.adding = none := by
  cases pc with
  | addTest | unlTest | dropFind => exact ⟨h, rfl⟩
  | killTest => exact ⟨trivial, rfl⟩
  | _ => exact absurd h id

theorem Call.start_fits {c : Call} (hc : c.admits s = true) :
    c.start.Fits s ∧ c.start.held = none ∧ c.start.isolated = [] ∧ c.start.killing = none ∧
      c.start.adding = none := by
  cases c with
  | add p =>
    have hp : p < s.fresh := of_decide_eq_true hc
    exact ⟨⟨rfl, hp⟩, rfl, rfl, rfl, rfl⟩
  | retain | unlink => exact ⟨hc, rfl, rfl, rfl, rfl⟩
  | drop => exact ⟨⟨rfl, hc⟩, rfl, rfl, rfl, rfl⟩
  | shrink =>
    rw [Call.start]
    split_ifs <;> exact ⟨trivial, rfl, rfl, rfl, rfl⟩

end Pcs

namespace Inv

variable {s : Sys} {t u d p : ℕ}

theorem held_unique (hI : Inv s) (ht : (s.pc t).held = some p) (hu : (s.pc u).held = some p) :
    t = u :=
  some.inj ((hI.dir t p ht).symm.trans (hI.dir u p hu))

theorem adder_unique (hI : Inv s) (ht : (s.pc t).adding = some d)
    (hu : (s.pc u).adding = some d) : t = u := by
  obtain ⟨p, hp, hd⟩ := (hI.fits t).adding ht
  obtain ⟨q, hq, hd'⟩ := (hI.fits u).adding hu
  obtain rfl : p = q := hd.parent.symm.trans hd'.parent
  exact hI.held_unique hp hq

theorem lt_of_published (hI : Inv s) (hd : s.d.published d = true) : d < s.d.fresh := by
  by_contra h
  exact absurd ((hI.unborn d (Nat.le_of_not_lt h)).2.symm.trans hd) Bool.noConfusion

theorem ready (hI : Inv s) (t : ℕ) : Ready (s.pc t) s.d where
  listed := hI.listed
  fits := hI.fits t
  nodup := hI.nodup t
  isolated := hI.isolated t
  dead := hI.dead
  published d hd hheld := by
    have hoff : s.d.word d ≠ .off := by
      rcases hI.isolated t d hd with h | h <;> rw [h] <;> exact Word.noConfusion
    have hlt : d < s.d.fresh := by
      by_contra h
      exact hoff (hI.unborn d (Nat.le_of_not_lt h)).1
    have hroot : d ≠ Lru.root := fun h => hoff (h ▸ hI.root.2.1)
    by_contra hpub
    -- its adder would have the rwsem this thread has
    obtain ⟨u, hu⟩ := hI.adder d hlt (Bool.eq_false_iff.mpr hpub) hroot
    obtain ⟨p, hp, hd'⟩ := (hI.fits u).adding hu
    rw [← hd'.parent] at hp
    obtain rfl := hI.held_unique hp hheld
    rw [Pc.isolated_of_adding hu] at hd
    cases hd
  unborn := hI.unborn
  root := hI.root.1

section Turns

variable {d' : Dcache} {k : Pc} (hI : Inv s) (hT : Turn (s.pc t) s.d d' k)
include hI hT

theorem turn_hidden (hd : s.d.word d = .off) (hpub : s.d.published d = false)
    (hadd : (s.pc t).adding ≠ some d) : d'.word d = .off ∧ d'.published d = false := by
  constructor
  · rcases (hT.effect.word d).of_off hd with h | (h | h) | h
    · exact h
    · exact absurd h hadd
    · exact absurd (hpub.symm.trans h) Bool.noConfusion
    · have hpub' := hI.killed d ((hI.fits t).killing h)
      exact absurd (hpub.symm.trans hpub') Bool.noConfusion
  · rcases hT.effect.published d with h | ⟨h, -⟩
    · rw [h]
      exact hpub
    · exact absurd h hadd

theorem turn_killing_ne (hu : u ≠ t) (hd : (s.pc u).killing = some d) : k.killing ≠ some d := by
  intro hk
  rcases hT.killing d hk with h | h
  · exact hu (hI.killer _ _ _ hd h)
  · exact absurd (h.symm.trans ((hI.fits u).killing hd)) Bool.noConfusion

theorem turn_isolated_ne (hu : u ≠ t) (hd : d ∈ (s.pc u).isolated) : d ∉ k.isolated := by
  intro hk
  rcases hT.isolated d hk with ⟨h, -⟩ | ⟨⟨i, h⟩, -⟩
  · exact hu (hI.apart _ _ _ hd h)
  · rcases hI.isolated u d hd with h' | h' <;> rw [h] at h' <;> cases h'

theorem turn_fits (u : ℕ) : (update s.pc t k u).Fits d' := by
  rcases eq_or_ne u t with rfl | hu
  · rw [update_self]
    exact hT.fits
  · rw [update_of_ne hu]
    apply (hI.fits u).stable hT.effect (fun d => hI.lt_of_published)
    · exact fun d hd => hI.killed d ((hI.fits t).killing hd)
    · exact fun p hp hp' => hu (hI.held_unique hp' hp)
    · exact fun d hd hd' => hu (hI.killer _ _ _ hd' hd)
    · exact fun d hd hd' => hu (hI.apart _ _ _ hd' hd)
    · exact fun d hd hd' => hu (hI.adder_unique hd' hd)

theorem turn_isolated (hd : d ∈ (update s.pc t k u).isolated) :
    d'.word d = .shrink ∨ d'.word d = .dead := by
  rcases eq_or_ne u t with rfl | hu
  · rw [update_self] at hd
    rcases hT.isolated d hd with ⟨h, he⟩ | ⟨-, he⟩
    · rw [he]
      exact hI.isolated u d h
    · exact .inl he
  · rw [update_of_ne hu] at hd
    rcases hI.isolated u d hd with h | h
    · rcases (hT.effect.word d).of_shrink h with h | ⟨h, -⟩ | h
      · exact .inl h
      · exact .inr h
      · exact absurd (hI.apart _ _ _ hd h) hu
    · exact .inr ((hT.effect.word d).of_dead h)

theorem turn_adder (hd : d < d'.fresh) (hpub : d'.published d = false) (hroot : d ≠ Lru.root) :
    ∃ u, (update s.pc t k u).adding = some d := by
  by_cases hnew : s.d.fresh ≤ d
  · refine ⟨t, ?_⟩
    rw [update_self]
    exact hT.adder d hd hpub (.inl hnew)
  · have hold : s.d.published d = false := by
      rw [Bool.eq_false_iff]
      intro h
      exact absurd (hpub.symm.trans (hT.effect.published_mono h)) Bool.noConfusion
    obtain ⟨u, hu⟩ := hI.adder d (Nat.lt_of_not_le hnew) hold hroot
    refine ⟨u, ?_⟩
    rcases eq_or_ne u t with rfl | hut
    · rw [update_self]
      exact hT.adder d hd hpub (.inr hu)
    · rw [update_of_ne hut]
      exact hu

theorem turn_freed (hd : d ∈ d'.reclaim) :
    d'.word d = .dead ∧ (update s.pc t k u).killing ≠ some d := by
  by_cases hold : d ∈ s.d.reclaim
  · obtain ⟨hw, hk⟩ := hI.freed d hold
    refine ⟨(hT.effect.word d).of_dead hw, ?_⟩
    rcases eq_or_ne u t with rfl | hu
    · rw [update_self]
      intro h
      rcases hT.killing d h with h | h
      · exact hk u h
      · exact absurd (h.symm.trans (hI.dead d hw)) Bool.noConfusion
    · rw [update_of_ne hu]
      exact hk u
  · rcases hT.effect.reclaim with h | ⟨x, hx, hw, h⟩
    · exact absurd (h ▸ hd) hold
    · obtain rfl : d = x := by
        rw [h] at hd
        exact (mem_cons.mp hd).resolve_right hold
      refine ⟨(hT.effect.word d).of_dead hw, ?_⟩
      rcases eq_or_ne u t with rfl | hu
      · rw [update_self]
        exact hT.freed d hd hold
      · rw [update_of_ne hu]
        exact fun h => hu (hI.killer _ _ _ h hx)

theorem turn_doomed (hd : d'.unhashed d = true) :
    d'.word d = .dead ∨ ∃ u, (update s.pc t k u).killing = some d := by
  have hself : k.killing = some d ∨ d'.word d = .dead →
      d'.word d = .dead ∨ ∃ u, (update s.pc t k u).killing = some d := by
    rintro (h | h)
    · refine .inr ⟨t, ?_⟩
      rw [update_self]
      exact h
    · exact .inl h
  cases hold : s.d.unhashed d with
  | false => exact hself (hT.doomed d hd (.inr hold))
  | true =>
    rcases hI.doomed d hold with h | ⟨u, hu⟩
    · exact .inl ((hT.effect.word d).of_dead h)
    · rcases eq_or_ne u t with rfl | hut
      · exact hself (hT.doomed d hd (.inl hu))
      · refine .inr ⟨u, ?_⟩
        rw [update_of_ne hut]
        exact hu

omit hI hT in
theorem unique_update {P : Pc → Prop} (h : ∀ u v, P (s.pc u) → P (s.pc v) → u = v)
    (hk : ∀ u, u ≠ t → P (s.pc u) → ¬ P k) {u v : ℕ} (hu : P (update s.pc t k u))
    (hv : P (update s.pc t k v)) : u = v := by
  rcases eq_or_ne u t with hut | hut <;> rcases eq_or_ne v t with hvt | hvt
  · rw [hut, hvt]
  · rw [hut, update_self] at hu
    rw [update_of_ne hvt] at hv
    exact absurd hu (hk v hvt hv)
  · rw [update_of_ne hut] at hu
    rw [hvt, update_self] at hv
    exact absurd hv (hk u hut hu)
  · rw [update_of_ne hut] at hu
    rw [update_of_ne hvt] at hv
    exact h u v hu hv

theorem turn {dir' : ℕ → Option ℕ}
    (hdir : ∀ u p, (update s.pc t k u).held = some p → dir' p = some u) :
    Inv ⟨d', dir', update s.pc t k⟩ where
  listed := hT.effect.listed
  unborn d hd := by
    have hd : s.d.fresh ≤ d := Nat.le_trans hT.effect.fresh_le hd
    obtain ⟨hw, hp⟩ := hI.unborn d hd
    apply hI.turn_hidden hT hw hp
    intro h
    obtain ⟨p, -, hnew⟩ := (hI.fits t).adding h
    exact absurd hnew.lt (Nat.not_lt.mpr hd)
  root := by
    refine ⟨Nat.lt_of_lt_of_le hI.root.1 hT.effect.fresh_le, ?_⟩
    apply hI.turn_hidden hT hI.root.2.1 hI.root.2.2
    intro h
    obtain ⟨p, -, hnew⟩ := (hI.fits t).adding h
    exact hnew.ne rfl
  dir := hdir
  fits := hI.turn_fits hT
  nodup u := by
    show (update s.pc t k u).isolated.Nodup
    rcases eq_or_ne u t with rfl | hu
    · rw [update_self]
      exact hT.nodup
    · rw [update_of_ne hu]
      exact hI.nodup u
  isolated u d hd := hI.turn_isolated hT hd
  apart u v d hu hv := unique_update (P := fun pc => d ∈ pc.isolated) (fun u v => hI.apart u v d)
    (fun u hu => hI.turn_isolated_ne hT hu) hu hv
  killer u v d hu hv := unique_update (P := fun pc => pc.killing = some d)
    (fun u v => hI.killer u v d) (fun u hu => hI.turn_killing_ne hT hu) hu hv
  adder d hd hpub hroot := hI.turn_adder hT hd hpub hroot
  killed d hd := by
    rcases hT.effect.unhashed d with h | ⟨-, p, -, h⟩
    · exact hT.effect.published_mono (hI.killed d (h ▸ hd))
    · exact hT.effect.published_mono h.published
  dead d hd := by
    rcases (hT.effect.word d).to_dead hd with h | h
    · exact hT.effect.unhashed_mono (hI.dead d h)
    · exact hT.effect.unhashed_mono ((hI.fits t).killing h)
  doomed d hd := hI.turn_doomed hT hd
  parent d hd hroot := by
    show d'.parent d < d
    by_cases hold : d < s.d.fresh
    · rw [hT.effect.parent d hold]
      exact hI.parent d hold hroot
    · have hd : d < d'.fresh := hd
      rcases hT.effect.fresh with h | ⟨h, hp⟩
      · omega
      · obtain rfl : d = s.d.fresh := by omega
        exact hp
  freed d hd := ⟨(hI.turn_freed (u := t) hT hd).1, fun u => (hI.turn_freed (u := u) hT hd).2⟩
  once := by
    show d'.reclaim.Nodup
    rcases hT.effect.reclaim with h | ⟨x, hx, -, h⟩
    · rw [h]
      exact hI.once
    · rw [h, nodup_cons]
      exact ⟨fun hm => (hI.freed x hm).2 t hx, hI.once⟩

end Turns

theorem dir_update {k : Pc} (hI : Inv s) (hk : ∀ p, k.held = some p → (s.pc t).held = some p)
    (u p : ℕ) (h : (update s.pc t k u).held = some p) : s.dir p = some u := by
  rcases eq_or_ne u t with rfl | hu
  · rw [update_self] at h
    exact hI.dir u p (hk p h)
  · rw [update_of_ne hu] at h
    exact hI.dir u p h

theorem call {c : Call} (hI : Inv s) (hpc : s.pc t = .idle ∨ ∃ n, s.pc t = .done n)
    (hc : c.admits s.d = true) : Inv { s with pc := update s.pc t c.start } := by
  obtain ⟨hfits, hheld, hiso, hkill, hadd⟩ := Call.start_fits hc
  have hpc' : (s.pc t).killing = none ∧ (s.pc t).adding = none := by
    rcases hpc with h | ⟨n, h⟩ <;> rw [h] <;> exact ⟨rfl, rfl⟩
  have hT : Turn (s.pc t) s.d s.d c.start :=
    .read (hI.ready t) hfits (hiso ▸ nil_sublist _) (hkill.trans hpc'.1.symm) hpc'.2 hadd
  exact hI.turn hT (hI.dir_update fun p h => by rw [hheld] at h; cases h)

theorem lock {k : Pc} (hI : Inv s) (hpc : s.pc t = .lock p k) (hp : s.dir p = none) :
    Inv ⟨s.d, update s.dir p (some t), update s.pc t k⟩ := by
  have hfit := hI.fits t
  rw [hpc] at hfit
  obtain ⟨hfits, hadd⟩ := hfit.2.fits
  have hR := hI.ready t
  have hT : Turn (s.pc t) s.d s.d k := by
    rw [hpc] at hR ⊢
    exact .read hR hfits (List.Sublist.refl _) rfl rfl hadd
  apply hI.turn hT
  intro u q h
  rcases eq_or_ne u t with rfl | hu
  · rw [update_self, hfit.1] at h
    rw [← some.inj h, update_self]
  · rw [update_of_ne hu] at h
    have hdir := hI.dir u q h
    rw [update_of_ne, hdir]
    rintro rfl
    rw [hp] at hdir
    cases hdir

theorem unlock {k : Pc} (hI : Inv s) (hpc : s.pc t = .unlock p k) :
    Inv ⟨s.d, update s.dir p none, update s.pc t k⟩ := by
  have hfit := hI.fits t
  rw [hpc] at hfit
  have hR := hI.ready t
  have hT : Turn (s.pc t) s.d s.d k := by
    rw [hpc] at hR ⊢
    exact .read hR hfit.2 (List.Sublist.refl _) rfl rfl (Pc.adding_of_held hfit.1)
  apply hI.turn hT
  intro u q h
  rcases eq_or_ne u t with rfl | hu
  · rw [update_self, hfit.1] at h
    cases h
  · rw [update_of_ne hu] at h
    rw [update_of_ne, hI.dir u q h]
    rintro rfl
    exact hu (hI.held_unique h (by rw [hpc]; rfl))

theorem run (hI : Inv s) (hrun : (s.pc t).runs = true) :
    Inv ⟨(step s.d (s.pc t)).1, s.dir, update s.pc t (step s.d (s.pc t)).2⟩ :=
  hI.turn (step_turn hrun (hI.ready t)) (hI.dir_update fun _ h => step_held hrun h)

theorem init : Inv Sys.init where
  listed := ⟨_, dcCreate_listed⟩
  unborn _ _ := ⟨rfl, rfl⟩
  root := ⟨Nat.zero_lt_one, rfl, rfl⟩
  dir _ _ h := by cases h
  fits _ := trivial
  nodup _ := nodup_nil
  isolated _ _ h := by cases h
  apart _ _ _ h := by cases h
  killer _ _ _ h := by cases h
  adder d hd _ hroot := absurd (Nat.lt_one_iff.mp hd) hroot
  killed _ h := by cases h
  dead _ h := by cases h
  doomed _ h := by cases h
  parent d hd hroot := absurd (Nat.lt_one_iff.mp hd) hroot
  freed _ h := by cases h
  once := nodup_nil

end Inv

/-- What an action does to the state, by the kind of the acting thread's program counter. -/
theorem act_cases {s s' : Sys} {a : Act} (h : s.act a = some s') :
    (∃ t, ∃ c : Call, (s.pc t = .idle ∨ ∃ n, s.pc t = .done n) ∧ c.admits s.d = true ∧
      s' = { s with pc := update s.pc t c.start }) ∨
    (∃ t p k, s.pc t = .lock p k ∧ s.dir p = none ∧
      s' = ⟨s.d, update s.dir p (some t), update s.pc t k⟩) ∨
    (∃ t p k, s.pc t = .unlock p k ∧
      s' = ⟨s.d, update s.dir p none, update s.pc t k⟩) ∨
    ∃ t, (s.pc t).runs = true ∧
      s' = ⟨(step s.d (s.pc t)).1, s.dir, update s.pc t (step s.d (s.pc t)).2⟩ := by
  cases a with
  | call t c =>
    simp only [Sys.act] at h
    left
    split at h
    · split_ifs at h with hc
      exact ⟨t, c, .inl ‹_›, hc, (some.inj h).symm⟩
    · split_ifs at h with hc
      exact ⟨t, c, .inr ⟨_, ‹_›⟩, hc, (some.inj h).symm⟩
    · cases h
  | step t =>
    simp only [Sys.act] at h
    right
    cases hpc : s.pc t with
    | idle | done =>
      rw [hpc] at h
      cases h
    | lock p k =>
      rw [hpc] at h
      dsimp only at h
      split_ifs at h with hp
      exact .inl ⟨t, p, k, hpc, hp, (some.inj h).symm⟩
    | unlock p k =>
      rw [hpc] at h
      exact .inr (.inl ⟨t, p, k, hpc, (some.inj h).symm⟩)
    | _ =>
      rw [hpc] at h
      refine .inr (.inr ⟨t, ?_, ?_⟩)
      · rw [hpc]
        rfl
      · rw [hpc]
        exact (some.inj h).symm

theorem Inv.act {s s' : Sys} {a : Act} (hI : Inv s) (h : s.act a = some s') : Inv s' := by
  rcases act_cases h with ⟨t, c, hpc, hc, rfl⟩ | ⟨t, p, k, hpc, hp, rfl⟩ | ⟨t, p, k, hpc, rfl⟩ |
    ⟨t, hrun, rfl⟩
  · exact hI.call hpc hc
  · exact hI.lock hpc hp
  · exact hI.unlock hpc
  · exact hI.run hrun

theorem Inv.reach {s : Sys} {ok : Sys → Act → Prop} (hr : Reach Sys.act ok Sys.init s) : Inv s :=
  hr.invariant Inv.init fun _ _ _ hI _ ha => hI.act ha

theorem Inv.lt_of_on {s : Sys} (hI : Inv s) (d i : ℕ) (hd : s.d.word d = .on i) :
    d < s.d.fresh := by
  by_contra h
  exact absurd ((hI.unborn d (Nat.le_of_not_lt h)).1.symm.trans hd) Word.noConfusion

theorem Inv.word_dead {s s' : Sys} {a : Act} {d : ℕ} (hI : Inv s) (h : s.act a = some s')
    (hd : s.d.word d = .dead) : s'.d.word d = .dead := by
  rcases act_cases h with ⟨t, c, -, -, rfl⟩ | ⟨t, p, k, -, -, rfl⟩ | ⟨t, p, k, -, rfl⟩ | ⟨t, hrun, rfl⟩
  · exact hd
  · exact hd
  · exact hd
  · exact ((step_turn hrun (hI.ready t)).effect.word d).of_dead hd

/-- In every interleaving the words say what the lists are, a dead word stays dead, and a dentry is
handed to `call_rcu` once at most, after its word is dead. -/
theorem lru_words_agree {s : Sys} (hr : Reach Sys.act (fun _ _ => True) Sys.init s) :
    (∀ i d, d ∈ s.d.items i ↔ s.d.word d = .on i) ∧
      (∀ i j d, d ∈ s.d.items i → d ∈ s.d.items j → i = j) ∧
      (∀ i, (s.d.items i).Nodup ∧ s.d.nrItems i = (s.d.items i).length) ∧
      (∀ a s' d, s.act a = some s' → s.d.word d = .dead → s'.d.word d = .dead) ∧
      ∀ d, s.d.reclaim.count d ≤ 1 ∧ (d ∈ s.d.reclaim → s.d.word d = .dead) := by
  have hI := Inv.reach hr
  obtain ⟨ℓ, hl⟩ := hI.listed
  have hitems : s.d.items = ℓ := by
    funext i
    exact hl.items_eq hI.lt_of_on i
  rw [hitems]
  refine ⟨hl.word, hl.linked.apart, fun i => ⟨hl.linked.nodup i, hl.count i⟩,
    fun a s' d h => hI.word_dead h, fun d => ⟨?_, fun hd => (hI.freed d hd).1⟩⟩
  exact nodup_iff_count_le_one.mp hI.once d

/-- An unlink seals a dentry that the shrinker has isolated: the shrinker's `cmpxchg` to put it back
fails, and the unlink frees it. -/
theorem lru_words_agree_unlink : ∃ s, Reach Sys.act (fun _ _ => True) Sys.init s ∧
    (s.d.word 1, s.d.reclaim, s.pc 1) = (.dead, [1], .done 0) ∧
    ∀ i, s.d.nrItems i = (s.d.items i).length := by
  have hrun : (exec Sys.act Sys.init (.call 0 (.add root 0) :: replicate 5 (.step 0) ++
      .call 1 (.shrink 1 0 1) :: replicate 3 (.step 1) ++
      .call 0 (.unlink 1) :: replicate 9 (.step 0) ++ replicate 7 (.step 1))).map
      (fun s => (s.d.word 1, s.d.reclaim, s.pc 1)) = some (.dead, [1], .done 0) := by
    rfl
  obtain ⟨s, hr, hs⟩ := reach_exec_map hrun
  exact ⟨s, hr, hs, fun i => ((lru_words_agree hr).2.2.1 i).2⟩

end TrieBenchmark.Seqlock.Lru
