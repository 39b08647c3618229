import TrieBenchmark.Bucketlock.Write
import TrieBenchmark.Lib.Movers

/-!
The flag protocol of cross-directory moves and exchanges: `d_parent` stays a tree below the root
in every run.
-/

namespace TrieBenchmark.Bucketlock

open Function Reparent Run

variable {Name : Type} {d d' : DCache Name} {pc : Pc Name}

namespace DCache

def flagged (d : DCache Name) : Set ℕ :=
  {a | a < d.fresh ∧ (d.dentry a).moving = true}

end DCache

namespace Pc

@[grind =] def gray (d : DCache Name) : Pc Name → List ℕ
  | .stkWalk _ top _ _ | .stkHop _ top _ _ => [d.hostOf top]
  | .stkLock m top => if m.cross then [d.hostOf top] else []
  | .stkClear _ top _ => [d.hostOf top]
  | .xchGrayHi _ topa topb | .xchDropLo _ topa topb => [d.lo topa topb]
  | .xchWalk _ topa topb _ _ _ | .xchHop _ topa topb _ _ _ => [d.hostOf topa, d.hostOf topb]
  | .xchLock x topa topb => if x.cross then [d.hostOf topa, d.hostOf topb] else []
  | .xchClearA _ topa topb _ => [d.hostOf topa, d.hostOf topb]
  | .xchClearB _ _ topb _ => [d.hostOf topb]
  | _ => []

@[grind =] def climbs : Pc Name → List (ℕ × ℕ)
  | .stkWalk m _ cur _ | .stkHop m _ cur _ => [(m.newParent, cur)]
  | .stkLock m _ => if m.cross then [(m.newParent, root)] else []
  | .xchWalk x _ _ second cur _ | .xchHop x _ _ second cur _ => x.climbs second cur
  | .xchLock x _ _ => if x.cross then x.climbs true root else []
  | _ => []

def passed : Pc Name → List ℕ
  | .stkHop _ _ cur _ | .xchHop _ _ _ _ cur _ => [cur]
  | _ => []

def mover (d : DCache Name) (pc : Pc Name) : Mover ℕ :=
  ⟨pc.gray d, pc.climbs, pc.passed⟩

end Pc

theorem Held.start_mem (hP : Held d d.allocated pc) : ∀ c ∈ (pc.mover d).climbs, c.1 ∈ d.allocated := by
  have hx : ∀ (x : Xchg Name) (second : Bool) (cur : ℕ), (∀ a ∈ x.dirs, a < d.fresh) →
      ∀ c ∈ x.climbs second cur, c.1 < d.fresh := by
    intro x second cur h c hc
    have hpa : x.pa < d.fresh := h _ (by simp [Xchg.dirs])
    have hpb : x.pb < d.fresh := h _ (by simp [Xchg.dirs])
    cases second
    · obtain rfl : c = (x.pb, cur) := by simpa [Xchg.climbs] using hc
      exact hpb
    · obtain rfl | rfl : c = (x.pb, root) ∨ c = (x.pa, cur) := by simpa [Xchg.climbs] using hc
      · exact hpb
      · exact hpa
  intro c hc
  cases pc with
  | stkWalk | stkHop =>
    obtain rfl := List.mem_singleton.mp hc
    exact hP.dirs _ (by simp [Pc.dirs])
  | stkLock =>
    simp only [Pc.mover, Pc.climbs] at hc
    split_ifs at hc
    · obtain rfl := List.mem_singleton.mp hc
      exact hP.dirs _ (by simp [Pc.dirs])
    · simp at hc
  | xchWalk x _ _ second cur | xchHop x _ _ second cur =>
    exact hx x second cur (fun a ha => hP.dirs a (List.mem_cons_of_mem _ ha)) c hc
  | xchLock x =>
    simp only [Pc.mover, Pc.climbs] at hc
    split_ifs at hc
    · exact hx x true root hP.dirs c hc
    · simp at hc
  | _ => simp [Pc.mover, Pc.climbs] at hc

theorem SameKind.mover (hK : SameKind d d') {D : Set ℕ} (hP : Held d D pc) :
    pc.mover d' = pc.mover d := by
  have hh : ∀ a ∈ pc.tops, d'.hostOf a = d.hostOf a := fun a ha => hK.hostOf (hP.tops a ha).2
  cases pc <;> simp_all [Pc.mover, Pc.gray, Pc.tops, Pc.climbs, Pc.passed, DCache.lo]

/-! What a step does to the flags and to `d_parent`. -/

def Pc.flags : Pc Name → Bool
  | .stkGray .. | .stkClear .. | .xchGrayLo .. | .xchGrayHi .. | .xchDropLo .. | .xchClearA ..
  | .xchClearB .. => true
  | _ => false

def Pc.moves : Pc Name → Bool
  | .stkLock m _ => m.cross
  | .xchLock x _ _ => x.cross
  | _ => false

namespace Write

theorem moving (hW : Write d pc d') (hB : Bounded d) (hP : PcIn d pc) (hf : pc.flags = false) :
    ∀ a < d.fresh, (d'.dentry a).moving = (d.dentry a).moving := by
  intro a ha
  cases hW with
  | read => rfl
  | flip _ b negative id =>
    have hG : Grows d (d.flip b negative id) := .modify d b _ fun e => ⟨rfl, rfl, rfl⟩
    exact hG.moving a ha
  | del _ hD => rw [hD.spec.1]
  | add parent name id isdir positive =>
    exact (addCommit_grows parent name id isdir positive).1.moving a ha
  | stack m top hD =>
    obtain ⟨hd, hfr, hh⟩ := hD.spec
    have ht := hB.hostOf (hP.tops top (by simp [Pc.tops]))
    rw [(stackCommit_grows m (by rw [hh, hfr]; exact ht.2)).moving a
      (hfr.symm ▸ ha), hd]
  | exchange x topa topb => exact (exchangeCommit_grows d x topa topb).moving a ha
  | fold => exact foldCommit_grows.1.moving a ha
  | scratch => exact foldScratch_grows.1.moving a ha
  | _ => cases hf

theorem parent_new (hW : Write d pc d') (hB : Bounded d) (hP : PcIn d pc) {a : ℕ}
    (hge : d.fresh ≤ a) (hlt : a < d'.fresh) : d'.parentOf a < d.fresh := by
  cases hW with
  | del _ hD => exact absurd (hD.spec.2.1 ▸ hlt) (Nat.not_lt.mpr hge)
  | add parent =>
    obtain rfl : a = d.fresh := Nat.le_antisymm (Nat.lt_succ_iff.mp hlt) hge
    rw [DCache.parentOf, addCommit_dentry_fresh]
    exact hP.dirs parent (by simp [Pc.dirs])
  | stack m top hD =>
    obtain ⟨hd, hfr, hh⟩ := hD.spec
    have ht := hB.hostOf (hP.tops top (by simp [Pc.tops]))
    rw [DCache.stackCommit_fresh] at hlt
    rename_i d₁
    obtain rfl : a = d₁.fresh := by omega
    rw [DCache.parentOf, DCache.stackCommit_dentry_shell (by rw [hh, hfr]; exact Nat.ne_of_lt ht.2)]
    exact hP.dirs m.newParent (by simp [Pc.dirs])
  | exchange x topa topb =>
    have hta := (hB.hostOf (hP.tops topa (by simp [Pc.tops]))).2
    have htb := (hB.hostOf (hP.tops topb (by simp [Pc.tops]))).2
    rw [DCache.exchangeCommit_fresh] at hlt
    obtain rfl | rfl : a = d.fresh ∨ a = d.fresh + 1 := by omega
    · rw [DCache.parentOf, DCache.exchangeCommit_dentry_sa hta htb]
      exact hP.dirs x.pb (by simp [Pc.dirs, Xchg.dirs])
    · rw [DCache.parentOf, DCache.exchangeCommit_dentry_sb hta htb]
      exact hP.dirs x.pa (by simp [Pc.dirs, Xchg.dirs])
  | _ => exact absurd hlt (Nat.not_lt.mpr hge)

theorem parent_keep (hW : Write d pc d') (hB : Bounded d) (hP : PcIn d pc)
    (hm : pc.moves = false) {a : ℕ} (ha : a < d.fresh) : d'.parentOf a = d.parentOf a := by
  cases hW with
  | read => rfl
  | del _ hD => rw [DCache.parentOf, hD.spec.1, DCache.parentOf]
  | add parent name id isdir positive =>
    exact (addCommit_grows parent name id isdir positive).2 a ha
  | stack m top hD =>
    obtain ⟨hd, hfr, hh⟩ := hD.spec
    have hc : m.cross = false := hm
    have ht := hB.hostOf (hP.tops top (by simp [Pc.tops]))
    rw [DCache.parentOf, stackCommit_old (by rw [hh, hfr]; exact ht.2) (hfr.symm ▸ ha), hd]
    simp [hc, DCache.parentOf]
  | exchange x topa topb =>
    have hc : x.cross = false := hm
    obtain ⟨t, p, he, hp⟩ := exchangeCommit_of_lt x topa topb ha
    rw [DCache.parentOf, he]
    rcases hp with rfl | ⟨h, -⟩
    · rfl
    · rw [hc] at h
      cases h
  | fold => exact foldCommit_grows.2 a ha
  | scratch => exact foldScratch_grows.2 a ha
  | _ => exact DCache.modify_parentOf fun e => rfl

theorem parent_stack {m : Move Name} {top : ℕ} (hW : Write d (.stkLock m top) d')
    (hB : Bounded d) (hP : PcIn d (.stkLock m top)) {a : ℕ} (ha : a < d.fresh) :
    d'.parentOf a = d.parentOf a ∨ a = d.hostOf top ∧ d'.parentOf a = m.newParent := by
  cases hW with
  | read => exact .inl rfl
  | flip => exact .inl (DCache.modify_parentOf fun e => rfl)
  | del _ hD =>
    left
    rw [DCache.parentOf, hD.spec.1, DCache.parentOf]
  | stack m top hD =>
    obtain ⟨hd, hfr, hh⟩ := hD.spec
    have ht := hB.hostOf (hP.tops top (by simp [Pc.tops]))
    rw [DCache.parentOf, DCache.parentOf,
      stackCommit_old (by rw [hh, hfr]; exact ht.2) (hfr.symm ▸ ha), hd, hh]
    by_cases hc : a = d.hostOf top ∧ m.cross = true
    · exact .inr ⟨hc.1, if_pos hc⟩
    · exact .inl (if_neg hc)

theorem parent_exchange {x : Xchg Name} {topa topb : ℕ} (hW : Write d (.xchLock x topa topb) d')
    (hB : Bounded d) (hP : PcIn d (.xchLock x topa topb)) (hab : d.hostOf topa ≠ d.hostOf topb)
    {a : ℕ} (ha : a < d.fresh) : d'.parentOf a = d.parentOf a ∨
      a = d.hostOf topa ∧ d'.parentOf a = x.pb ∨ a = d.hostOf topb ∧ d'.parentOf a = x.pa := by
  cases hW with
  | read => exact .inl rfl
  | flip => exact .inl (DCache.modify_parentOf fun e => rfl)
  | del _ hD =>
    left
    rw [DCache.parentOf, hD.spec.1, DCache.parentOf]
  | exchange x topa topb =>
    have hta := (hB.hostOf (hP.tops topa (by simp [Pc.tops]))).2
    have htb := (hB.hostOf (hP.tops topb (by simp [Pc.tops]))).2
    rw [DCache.parentOf, DCache.parentOf, exchangeCommit_old hta htb hab ha]
    by_cases hca : a = d.hostOf topa ∧ x.cross = true
    · exact .inr (.inl ⟨hca.1, if_pos hca⟩)
    · by_cases hcb : a = d.hostOf topb ∧ x.cross = true
      · exact .inr (.inr ⟨hcb.1, (if_neg hca).trans (if_pos hcb)⟩)
      · exact .inl ((if_neg hca).trans (if_neg hcb))

end Write

structure TreeInv (s : Sys Name) (F : ℕ → Set ℕ) : Prop where
  bounded : Bounded s.d
  held : ∀ t, PcIn s.d (s.pc t)
  queued : ∀ n, s.rcu.callback n ≠ .idle → n ∈ s.d.linkable
  safe : Safe s.d.parentOf root s.d.allocated s.d.flagged (fun t => (s.pc t).mover s.d) F

/-- The flags that count for the climbs of each thread after `t` came to `d'` with `F'`. -/
def flagsAfter (d' : DCache Name) (F : ℕ → Set ℕ) (t : ℕ) (F' : Set ℕ) (u : ℕ) : Set ℕ :=
  if u = t then F' else F u ∩ d'.flagged

namespace TreeInv

variable {s : Sys Name} {F : ℕ → Set ℕ} {F' Y : Set ℕ} {pc' : Pc Name} {p₁ : ℕ → ℕ} {t : ℕ}

theorem safe_step (hV : TreeInv s F) (hW : Write s.d (s.pc t) d')
    (hp₁ : ∀ a < s.d.fresh, p₁ a < s.d.fresh ∧ d'.parentOf a = p₁ a)
    (hM : Moved s.d.parentOf p₁ root (F t) Y) (hY : ∀ y ∈ Y, y ∈ (s.pc t).gray s.d)
    (hYc : Y.Nonempty → (s.pc t).climbs ≠ [])
    (hkeep : ∀ a ∈ s.d.flagged, a ∉ (s.pc t).gray s.d → a ∈ d'.flagged)
    (hnew : ∀ a ∈ pc'.gray d', a ∈ (s.pc t).gray s.d ∨ a ∉ s.d.flagged)
    (hw : Climbing p₁ root d'.flagged (pc'.mover d') F')
    (hgo : pc'.climbs ≠ [] → F' = d'.flagged ∨ (s.pc t).climbs ≠ [] ∧
      (∀ a ∈ pc'.gray d', a ∈ (s.pc t).gray s.d) ∧ F' = F t ∩ d'.flagged)
    (hstart : ∀ c ∈ pc'.climbs, c.1 < s.d.fresh) :
    Safe d'.parentOf root d'.allocated d'.flagged
      (fun u => (update s.pc t pc' u).mover d') (flagsAfter d' F t F') := by
  obtain ⟨hle, hK, -⟩ := hW.grows hV.bounded (hV.held t)
  have hv : (fun u => (update s.pc t pc' u).mover d') =
      update (fun u => (s.pc u).mover s.d) t (pc'.mover d') := by
    funext u
    rcases eq_or_ne u t with rfl | hne
    · simp
    · simp only [update_of_ne hne]
      exact hK.mover (hV.held u).toHeld
  rw [hv]
  have hS := hV.safe.step (w := pc'.mover d') hM hY hYc hkeep hnew hw hgo
  refine hS.grow hp₁ (fun u c hc => ?_) fun a ha => ?_
  · rcases eq_or_ne u t with rfl | hne
    · rw [update_self] at hc
      exact hstart c hc
    · rw [update_of_ne hne] at hc
      exact (hV.held u).toHeld.start_mem c hc
  · by_cases hlt : a < s.d.fresh
    · exact .inl hlt
    · exact .inr (hW.parent_new hV.bounded (hV.held t) (Nat.not_lt.mp hlt) ha)

theorem safe_stop (hV : TreeInv s F) (hW : Write s.d (s.pc t) d') (hm : (s.pc t).moves = false)
    (hkeep : ∀ a ∈ s.d.flagged, a ∉ (s.pc t).gray s.d → a ∈ d'.flagged)
    (hnew : ∀ a ∈ pc'.gray d', a ∈ (s.pc t).gray s.d ∨ a ∉ s.d.flagged)
    (hg : ∀ a ∈ pc'.gray d', a ∈ d'.flagged) (hnd : (pc'.gray d').Nodup)
    (hc : pc'.climbs = []) (hp : pc'.passed = []) :
    Safe d'.parentOf root d'.allocated d'.flagged
      (fun u => (update s.pc t pc' u).mover d') (flagsAfter d' F t (F t ∩ d'.flagged)) := by
  refine hV.safe_step hW (fun a ha => ⟨hV.bounded.parent a ha, ?_⟩) (Moved.none _ _ _) (by simp)
    (by simp) hkeep hnew (.stop hg hnd hc hp Set.inter_subset_right) (by simp [hc]) (by simp [hc])
  exact hW.parent_keep hV.bounded (hV.held t) hm ha

theorem safe_start (hV : TreeInv s F) (hW : Write s.d (s.pc t) d') (hm : (s.pc t).moves = false)
    (hkeep : ∀ a ∈ s.d.flagged, a ∉ (s.pc t).gray s.d → a ∈ d'.flagged)
    (hnew : ∀ a ∈ pc'.gray d', a ∈ (s.pc t).gray s.d ∨ a ∉ s.d.flagged)
    (hg : ∀ a ∈ pc'.gray d', a ∈ d'.flagged) (hnd : (pc'.gray d').Nodup)
    (hc : ∀ c ∈ pc'.climbs, c.1 = c.2 ∧ c.1 < s.d.fresh) (hp : pc'.passed = []) :
    Safe d'.parentOf root d'.allocated d'.flagged
      (fun u => (update s.pc t pc' u).mover d') (flagsAfter d' F t d'.flagged) := by
  refine hV.safe_step hW (fun a ha => ⟨hV.bounded.parent a ha, ?_⟩) (Moved.none _ _ _) (by simp)
    (by simp) hkeep hnew (.start hg hnd (fun c h => (hc c h).1) hp) (fun _ => .inl rfl)
    fun c h => (hc c h).2
  exact hW.parent_keep hV.bounded (hV.held t) hm ha

theorem safe_advance (hV : TreeInv s F)
    (hg : pc'.gray s.d = (s.pc t).gray s.d) (hv : (s.pc t).climbs ≠ [])
    (hc : ∀ c ∈ pc'.climbs, c ∈ (s.pc t).climbs ∨ c.1 = c.2 ∨
      ∃ b ∈ (s.pc t).passed, (c.1, b) ∈ (s.pc t).climbs ∧ c.2 = s.d.parentOf b)
    (hp : ∀ a ∈ pc'.passed, a ∉ s.d.flagged) (hstart : ∀ c ∈ pc'.climbs, c.1 < s.d.fresh) :
    Safe s.d.parentOf root s.d.allocated s.d.flagged
      (fun u => (update s.pc t pc' u).mover s.d)
      (flagsAfter s.d F t (F t ∩ s.d.flagged)) := by
  have hW : Write s.d (s.pc t) s.d := .read _
  have hF : F t ∩ s.d.flagged = F t := Set.inter_eq_left.mpr (hV.safe.each t).flagged
  have hw : Climbing s.d.parentOf root s.d.flagged (pc'.mover s.d) (F t ∩ s.d.flagged) := by
    rw [hF]
    exact (hV.safe.each t).advance hg hv hc hp
  refine hV.safe_step hW (fun a ha => ⟨hV.bounded.parent a ha, rfl⟩) (Moved.none _ _ _) (by simp)
    (by simp) (fun a ha _ => ha) (fun a ha => .inl (hg ▸ ha)) hw (fun _ => ?_) hstart
  exact .inr ⟨hv, fun a ha => hg ▸ ha, rfl⟩

theorem safe_move (hV : TreeInv s F) (hW : Write s.d (s.pc t) d') (hc : (s.pc t).climbs ≠ [])
    (hmoved : ∀ a < s.d.fresh, d'.parentOf a = s.d.parentOf a ∨
      a ∈ (s.pc t).gray s.d ∧ (d'.parentOf a, root) ∈ (s.pc t).climbs)
    (hkeep : ∀ a ∈ s.d.flagged, a ∈ d'.flagged) (hg : ∀ a ∈ pc'.gray d', a ∈ (s.pc t).gray s.d)
    (hnd : (pc'.gray d').Nodup) (hc' : pc'.climbs = []) (hp' : pc'.passed = []) :
    Safe d'.parentOf root d'.allocated d'.flagged
      (fun u => (update s.pc t pc' u).mover d') (flagsAfter d' F t (F t ∩ d'.flagged)) := by
  have hclimb := hV.safe.each t
  let p₁ : ℕ → ℕ := fun a => if a < s.d.fresh then d'.parentOf a else s.d.parentOf a
  have hp₁ : ∀ a < s.d.fresh, p₁ a = d'.parentOf a := fun a ha => if_pos ha
  let Y : Set ℕ := {a | a < s.d.fresh ∧ d'.parentOf a ≠ s.d.parentOf a}
  have hYg : ∀ y ∈ Y, y ∈ (s.pc t).gray s.d ∧ (d'.parentOf y, root) ∈ (s.pc t).climbs :=
    fun y hy => (hmoved y hy.1).resolve_left hy.2
  have hM : Moved s.d.parentOf p₁ root (F t) Y := by
    refine ⟨fun a ha => ?_, fun y hy => hclimb.own hc y (hYg y hy).1, fun y hy => ?_⟩
    · by_cases hlt : a < s.d.fresh
      · rw [hp₁ a hlt]
        by_contra hne
        exact ha ⟨hlt, hne⟩
      · exact if_neg hlt
    · rw [hp₁ y hy.1]
      exact (hclimb.climb _ (hYg y hy).2).elim id id
  refine hV.safe_step hW (fun a ha => ⟨?_, (hp₁ a ha).symm⟩) hM (fun y hy => (hYg y hy).1)
    (fun _ => hc) (fun a ha _ => hkeep a ha) (fun a ha => .inl (hg a ha))
    (.stop (fun a ha => hkeep a (hclimb.gray a (hg a ha))) hnd hc' hp' Set.inter_subset_right)
    (by simp [hc']) (by simp [hc'])
  rw [hp₁ a ha]
  rcases hmoved a ha with he | ⟨-, hmem⟩
  · rw [he]
    exact hV.bounded.parent a ha
  · exact (hV.held t).toHeld.start_mem _ hmem

end TreeInv

end TrieBenchmark.Bucketlock
