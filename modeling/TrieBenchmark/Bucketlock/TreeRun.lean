import TrieBenchmark.Bucketlock.Tree

/-!
Every step of the engine is a step of the movers, so `d_parent` is a tree in every state.
-/

namespace TrieBenchmark.Bucketlock

open List Function Reparent Run

variable {Name : Type} {d d' : DCache Name} {pc : Pc Name}

theorem mem_flagged_setMoving {a x : ℕ} {b : Bool} :
    x ∈ (d.setMoving a b).flagged ↔
      x < d.fresh ∧ if x = a then b = true else (d.dentry x).moving = true := by
  simp only [DCache.flagged, Set.mem_ofPred_eq, setMoving_dentry]
  split_ifs <;> rfl

theorem mem_flagged_gray {a x : ℕ} (hx : x ∈ d.flagged) : x ∈ (d.setMoving a true).flagged := by
  rw [mem_flagged_setMoving]
  exact ⟨hx.1, by simp [hx.2]⟩

theorem flagged_mono (hle : d.fresh ≤ d'.fresh)
    (hm : ∀ a < d.fresh, (d'.dentry a).moving = (d.dentry a).moving) :
    ∀ a ∈ d.flagged, a ∈ d'.flagged :=
  fun a ha => ⟨Nat.lt_of_lt_of_le ha.1 hle, (hm a ha.1).trans ha.2⟩

theorem afterStack_mover (m : Move Name) (o : Outcome ℕ) :
    (afterStack m o).gray d = [] ∧ (afterStack m o).climbs = [] ∧ (afterStack m o).passed = [] := by
  cases o <;> exact ⟨rfl, rfl, rfl⟩

theorem afterExchange_mover (x : Xchg Name) (o : Outcome (ℕ × ℕ)) :
    (afterExchange x o).gray d = [] ∧ (afterExchange x o).climbs = [] ∧
      (afterExchange x o).passed = [] := by
  cases o <;> exact ⟨rfl, rfl, rfl⟩

theorem crossCycleHop_arrived {host cur hops : ℕ}
    (h : crossCycleHop d host cur hops = .arrived) : cur = root := by
  unfold crossCycleHop at h
  split_ifs at h with h₁ h₂
  exact h₂

theorem crossCycleHop_climb {host cur hops : ℕ} (h : crossCycleHop d host cur hops = .climb) :
    cur ∉ d.flagged := by
  unfold crossCycleHop at h
  split_ifs at h with h₁ h₂ h₃ h₄
  exact fun hf => h₄ hf.2

theorem lo_hi_cases (d : DCache Name) (topa topb : ℕ) :
    d.hostOf topa = d.lo topa topb ∧ d.hostOf topb = d.hi topa topb ∨
      d.hostOf topa = d.hi topa topb ∧ d.hostOf topb = d.lo topa topb := by
  unfold DCache.lo DCache.hi
  omega

namespace Starts

variable {c : Call Name}

theorem dirs (h : Starts c pc) : ∀ a ∈ pc.dirs, a = root := by
  cases h with
  | walk _ _ k => cases k <;> simp_all [Cont.opens, Pc.dirs, Cont.dirs]
  | _ => simp [Pc.ret, Pc.lkStart, Pc.dirs]

theorem call_eq_of_tops {a : ℕ} (h : Starts c pc) (ha : a ∈ pc.tops) : c = .fold a := by
  cases h <;> simp_all [Pc.tops, Pc.ret, Pc.lkStart]

theorem mover (h : Starts c pc) (d : DCache Name) :
    pc.gray d = [] ∧ pc.climbs = [] ∧ pc.passed = [] := by
  cases h <;> exact ⟨rfl, rfl, rfl⟩

end Starts

variable [DecidableEq Name]

def Pc.moving : Pc Name → Bool
  | .stkGray .. | .stkWalk .. | .stkHop .. | .stkLock .. | .stkClear .. | .xchGrayLo ..
  | .xchGrayHi .. | .xchDropLo .. | .xchWalk .. | .xchHop .. | .xchLock .. | .xchClearA ..
  | .xchClearB .. => true
  | _ => false

theorem stepPc_rest (d d' : DCache Name) (oom : Bool) (h : pc.moving = false) :
    (stepPc d pc oom).2.gray d' = [] ∧ (stepPc d pc oom).2.climbs = [] ∧
      (stepPc d pc oom).2.passed = [] := by
  cases pc
  case' walk _ rest k => cases rest <;> cases k
  case' lkHop rest _ _ => cases rest
  case' lkScan _ node => cases node
  case' lkUp todo _ => cases todo
  all_goals first
    | (cases h; done)
    | (simp only [stepPc]; (repeat' split) <;> first
        | exact ⟨rfl, rfl, rfl⟩
        | simp_all [Pc.gray, Pc.climbs, Pc.passed])

def SafeAfter (s : Sys Name) (t : ℕ) (r : DCache Name × Pc Name) : Prop :=
  ∃ F', Safe r.1.parentOf root r.1.allocated r.1.flagged
    (fun u => (update s.pc t r.2 u).mover r.1) F'

namespace TreeInv

variable {s : Sys Name} {F : ℕ → Set ℕ} {t : ℕ} {m : Move Name} {x : Xchg Name}
  {top topa topb cur hops : ℕ} {second oom : Bool}

/-- A step after which the thread holds no flag and climbs nowhere. -/
theorem safe_end (hV : TreeInv s F) (hflags : (s.pc t).flags = false)
    (hmoves : (s.pc t).moves = false) (hend : (stepPc s.d (s.pc t) oom).2.gray
        (stepPc s.d (s.pc t) oom).1 = [] ∧ (stepPc s.d (s.pc t) oom).2.climbs = [] ∧
      (stepPc s.d (s.pc t) oom).2.passed = []) : SafeAfter s t (stepPc s.d (s.pc t) oom) := by
  have hW := stepPc_write s.d (s.pc t) oom
  obtain ⟨hle, -, -⟩ := hW.grows hV.bounded (hV.held t)
  obtain ⟨hg, hc, hp⟩ := hend
  refine ⟨_, hV.safe_stop hW hmoves (fun a ha _ => ?_) ?_ ?_ ?_ hc hp⟩
  · exact flagged_mono hle (hW.moving hV.bounded (hV.held t) hflags) a ha
  · simp [hg]
  · simp [hg]
  · simp [hg]

theorem safe_rest (hV : TreeInv s F) (hpc : (s.pc t).moving = false) :
    SafeAfter s t (stepPc s.d (s.pc t) oom) := by
  apply hV.safe_end _ _ (stepPc_rest s.d (stepPc s.d (s.pc t) oom).1 oom hpc)
  · cases h : s.pc t <;> simp_all [Pc.moving, Pc.flags]
  · cases h : s.pc t <;> simp_all [Pc.moving, Pc.moves]

omit [DecidableEq Name] in
theorem safe_read (hV : TreeInv s F) (hm : (s.pc t).moves = false) {pc' : Pc Name}
    (hg : ∀ a ∈ pc'.gray s.d, a ∈ (s.pc t).gray s.d) (hnd : (pc'.gray s.d).Nodup)
    (hc : pc'.climbs = []) (hp : pc'.passed = []) : SafeAfter s t (s.d, pc') := by
  refine ⟨_, hV.safe_stop (.read _) hm (fun a ha _ => ha) (fun a ha => .inl (hg a ha)) ?_ hnd hc hp⟩
  exact fun a ha => (hV.safe.each t).gray a (hg a ha)

theorem safe_stkGray (hV : TreeInv s F) (hpc : s.pc t = .stkGray m top) :
    SafeAfter s t (stepPc s.d (s.pc t) oom) := by
  have hW := stepPc_write s.d (s.pc t) oom
  have hH := hV.held t
  rw [hpc] at hW hH ⊢
  have htop := hV.bounded.hostOf (hH.tops top (by simp [Pc.tops]))
  have hm : m.newParent < s.d.fresh := hH.dirs _ (by simp [Pc.dirs])
  simp only [stepPc] at hW ⊢
  split_ifs at hW ⊢ with hmov
  · exact hV.safe_read (by rw [hpc]; rfl) (by simp [Pc.gray]) (by simp [Pc.gray]) rfl rfl
  · rw [← hpc] at hW
    refine ⟨_, hV.safe_start hW (by rw [hpc]; rfl) (fun a ha _ => mem_flagged_gray ha) ?_ ?_ ?_ ?_
      rfl⟩
    · simp only [Pc.gray, setMoving_hostOf, mem_singleton, forall_eq]
      exact .inr fun h => hmov h.2
    · simp only [Pc.gray, setMoving_hostOf, mem_singleton, forall_eq]
      rw [mem_flagged_setMoving]
      exact ⟨htop.2, by simp⟩
    · simp [Pc.gray]
    · simpa [Pc.climbs] using hm

theorem safe_stkWalk (hV : TreeInv s F) (hpc : s.pc t = .stkWalk m top cur hops) :
    SafeAfter s t (stepPc s.d (s.pc t) oom) := by
  have hH := hV.held t
  rw [hpc] at hH ⊢
  have hm : m.newParent < s.d.fresh := hH.dirs _ (by simp [Pc.dirs])
  have hstop : ∀ o, SafeAfter s t (s.d, .stkClear m top o) := fun o =>
    hV.safe_read (by rw [hpc]; rfl) (by simp [hpc, Pc.gray]) (by simp [Pc.gray]) rfl rfl
  simp only [stepPc]
  split
  · exact hstop _
  · exact hstop _
  · rename_i harr
    have hcur := crossCycleHop_arrived harr
    cases hcross : m.cross with
    | false =>
      exact hV.safe_read (by rw [hpc]; rfl) (by simp [Pc.gray, hcross])
        (by simp [Pc.gray, hcross]) (by simp [Pc.climbs, hcross]) rfl
    | true =>
      refine ⟨_, hV.safe_advance (by simp [hpc, Pc.gray, hcross]) (by simp [hpc, Pc.climbs])
        (by simp [hpc, Pc.climbs, hcross, hcur]) (by simp [Pc.passed]) ?_⟩
      simpa [Pc.climbs, hcross] using hm
  · rename_i hclimb
    refine ⟨_, hV.safe_advance (by simp [hpc, Pc.gray]) (by simp [hpc, Pc.climbs])
      (by simp [hpc, Pc.climbs]) ?_ ?_⟩
    · simpa [Pc.passed] using crossCycleHop_climb hclimb
    · simpa [Pc.climbs] using hm

theorem safe_stkHop (hV : TreeInv s F) (hpc : s.pc t = .stkHop m top cur hops) :
    SafeAfter s t (stepPc s.d (s.pc t) oom) := by
  have hH := hV.held t
  rw [hpc] at hH ⊢
  simp only [stepPc]
  refine ⟨_, hV.safe_advance (by simp [hpc, Pc.gray]) (by simp [hpc, Pc.climbs]) ?_
    (by simp [Pc.passed]) ?_⟩
  · simp [hpc, Pc.climbs, Pc.passed, DCache.parentOf]
  · have hm : m.newParent < s.d.fresh := hH.dirs _ (by simp [Pc.dirs])
    simpa [Pc.climbs] using hm

theorem safe_clear (hV : TreeInv s F) {h : ℕ} {pc' : Pc Name}
    (hstep : stepPc s.d (s.pc t) oom = (s.d.setMoving h false, pc'))
    (hm : (s.pc t).moves = false) (hh : h ∈ (s.pc t).gray s.d)
    (hg : ∀ a ∈ pc'.gray (s.d.setMoving h false), a ∈ (s.pc t).gray s.d ∧ a ≠ h)
    (hnd : (pc'.gray (s.d.setMoving h false)).Nodup) (hc : pc'.climbs = [])
    (hp : pc'.passed = []) : SafeAfter s t (stepPc s.d (s.pc t) oom) := by
  have hW := stepPc_write s.d (s.pc t) oom
  rw [hstep] at hW ⊢
  have hkeep : ∀ a ∈ s.d.flagged, a ≠ h → a ∈ (s.d.setMoving h false).flagged := by
    intro a ha hne
    rw [mem_flagged_setMoving]
    exact ⟨ha.1, by simp [hne, ha.2]⟩
  refine ⟨_, hV.safe_stop hW hm (fun a ha hna => ?_) (fun a ha => .inl (hg a ha).1)
    (fun a ha => ?_) hnd hc hp⟩
  · exact hkeep a ha fun he => hna (he ▸ hh)
  · exact hkeep a ((hV.safe.each t).gray a (hg a ha).1) (hg a ha).2

theorem safe_stkClear (hV : TreeInv s F) {o : Outcome ℕ} (hpc : s.pc t = .stkClear m top o) :
    SafeAfter s t (stepPc s.d (s.pc t) oom) := by
  obtain ⟨hg, hc, hp⟩ := afterStack_mover (d := s.d.setMoving (s.d.hostOf top) false) m o
  refine hV.safe_clear (by rw [hpc]; rfl) (by rw [hpc]; rfl) (by simp [hpc, Pc.gray]) ?_ ?_ hc hp
  · simp [hg]
  · simp [hg]

theorem safe_stkLock (hV : TreeInv s F) (hpc : s.pc t = .stkLock m top) :
    SafeAfter s t (stepPc s.d (s.pc t) oom) := by
  have hW := stepPc_write s.d (s.pc t) oom
  obtain ⟨hle, hK, -⟩ := hW.grows hV.bounded (hV.held t)
  have hH := hV.held t
  have hflag := flagged_mono hle (hW.moving hV.bounded hH (by rw [hpc]; rfl))
  have htop : top ∈ s.d.linkable := hH.tops top (by simp [hpc, Pc.tops])
  have hhost := hK.hostOf htop.2
  cases hcross : m.cross with
  | false =>
    apply hV.safe_end (by rw [hpc]; rfl) (by simp [hpc, Pc.moves, hcross])
    simpa [hpc, stepPc, hcross] using afterStack_mover m _
  | true =>
    have hpc' : (stepPc s.d (s.pc t) oom).2 = .stkClear m top (s.d.stackLocked m top oom).1 := by
      simp [hpc, stepPc, hcross]
    refine ⟨_, hV.safe_move hW (by simp [hpc, Pc.climbs, hcross]) (fun a ha => ?_) hflag ?_ ?_ ?_ ?_⟩
    · rw [hpc] at hW hH
      rcases hW.parent_stack hV.bounded hH ha with h | ⟨rfl, h⟩
      · exact .inl (by simpa [hpc] using h)
      · exact .inr (by simpa [hpc, Pc.gray, Pc.climbs, hcross] using h)
    · rw [hpc']
      simp only [Pc.gray, hhost, mem_singleton, forall_eq]
      simp [hpc, hcross]
    · simp [hpc', Pc.gray]
    · simp [hpc', Pc.climbs]
    · simp [hpc', Pc.passed]

theorem safe_xchGrayLo (hV : TreeInv s F) (hpc : s.pc t = .xchGrayLo x topa topb) :
    SafeAfter s t (stepPc s.d (s.pc t) oom) := by
  have hW := stepPc_write s.d (s.pc t) oom
  have hH := hV.held t
  rw [hpc] at hW hH ⊢
  have hlo : s.d.lo topa topb < s.d.fresh := Nat.lt_of_le_of_lt (Nat.min_le_left _ _)
    (hV.bounded.hostOf (hH.tops topa (by simp [Pc.tops]))).2
  simp only [stepPc] at hW ⊢
  split_ifs at hW ⊢ with hmov
  · exact hV.safe_read (by rw [hpc]; rfl) (by simp [Pc.gray]) (by simp [Pc.gray]) rfl rfl
  · rw [← hpc] at hW
    have hsame : (s.d.setMoving (s.d.lo topa topb) true).lo topa topb = s.d.lo topa topb := by
      simp only [DCache.lo, setMoving_hostOf]
    refine ⟨_, hV.safe_stop hW (by rw [hpc]; rfl) (fun a ha _ => mem_flagged_gray ha) ?_ ?_ ?_ rfl
      rfl⟩
    · simp only [Pc.gray, hsame, mem_singleton, forall_eq]
      exact .inr fun h => hmov h.2
    · simp only [Pc.gray, hsame, mem_singleton, forall_eq]
      rw [mem_flagged_setMoving]
      exact ⟨hlo, by simp⟩
    · simp [Pc.gray]

theorem safe_xchGrayHi (hV : TreeInv s F) (hpc : s.pc t = .xchGrayHi x topa topb) :
    SafeAfter s t (stepPc s.d (s.pc t) oom) := by
  have hW := stepPc_write s.d (s.pc t) oom
  have hH := hV.held t
  have hg : s.d.lo topa topb ∈ s.d.flagged :=
    (hV.safe.each t).gray _ (by simp [Pc.mover, hpc, Pc.gray])
  rw [hpc] at hW hH ⊢
  have hta := hH.tops topa (by simp [Pc.tops])
  have htb := hH.tops topb (by simp [Pc.tops])
  have hpb : x.pb < s.d.fresh := hH.dirs _ (by simp [Pc.dirs, Xchg.dirs])
  have hcases := lo_hi_cases s.d topa topb
  have hhi : s.d.hi topa topb < s.d.fresh :=
    Nat.max_lt.mpr ⟨(hV.bounded.hostOf hta).2, (hV.bounded.hostOf htb).2⟩
  simp only [stepPc] at hW ⊢
  split_ifs at hW ⊢ with hmov
  · exact hV.safe_read (by rw [hpc]; rfl) (by simp [hpc, Pc.gray]) (by simp [Pc.gray]) rfl rfl
  · rw [← hpc] at hW
    have hne : s.d.lo topa topb ≠ s.d.hi topa topb := fun he => hmov (he ▸ hg.2)
    refine ⟨_, hV.safe_start hW (by rw [hpc]; rfl) (fun a ha _ => mem_flagged_gray ha) ?_ ?_ ?_ ?_
      rfl⟩
    · have hhi' : s.d.hi topa topb ∉ s.d.flagged := fun h => hmov h.2
      rcases hcases with ⟨ha, hb⟩ | ⟨ha, hb⟩ <;>
        simp [Pc.gray, hpc, setMoving_hostOf, ha, hb, hhi']
    · have hlo' := mem_flagged_gray (a := s.d.hi topa topb) hg
      have hhi' : s.d.hi topa topb ∈ (s.d.setMoving (s.d.hi topa topb) true).flagged := by
        rw [mem_flagged_setMoving]
        exact ⟨hhi, by simp⟩
      rcases hcases with ⟨ha, hb⟩ | ⟨ha, hb⟩ <;>
        simp [Pc.gray, setMoving_hostOf, ha, hb, hlo', hhi']
    · rcases hcases with ⟨ha, hb⟩ | ⟨ha, hb⟩ <;>
        simp [Pc.gray, setMoving_hostOf, ha, hb, hne, hne.symm]
    · simpa [Pc.climbs, Xchg.climbs] using hpb

theorem safe_xchDropLo (hV : TreeInv s F) (hpc : s.pc t = .xchDropLo x topa topb) :
    SafeAfter s t (stepPc s.d (s.pc t) oom) :=
  hV.safe_clear (by rw [hpc]; rfl) (by rw [hpc]; rfl) (by simp [hpc, Pc.gray]) (by simp [Pc.gray])
    (by simp [Pc.gray]) rfl rfl

theorem safe_xchClearA (hV : TreeInv s F) {o : Outcome (ℕ × ℕ)}
    (hpc : s.pc t = .xchClearA x topa topb o) : SafeAfter s t (stepPc s.d (s.pc t) oom) := by
  have hnd := (hV.safe.each t).nodup
  simp only [Pc.mover, hpc, Pc.gray, nodup_cons, mem_singleton] at hnd
  refine hV.safe_clear (by rw [hpc]; rfl) (by rw [hpc]; rfl) (by simp [hpc, Pc.gray]) ?_
    (by simp [Pc.gray]) rfl rfl
  simp only [Pc.gray, setMoving_hostOf, mem_singleton, forall_eq]
  exact ⟨by simp [hpc], fun he => hnd.1 he.symm⟩

theorem safe_xchClearB (hV : TreeInv s F) {o : Outcome (ℕ × ℕ)}
    (hpc : s.pc t = .xchClearB x topa topb o) : SafeAfter s t (stepPc s.d (s.pc t) oom) := by
  obtain ⟨hg, hc, hp⟩ := afterExchange_mover (d := s.d.setMoving (s.d.hostOf topb) false) x o
  refine hV.safe_clear (by rw [hpc]; rfl) (by rw [hpc]; rfl) (by simp [hpc, Pc.gray]) ?_ ?_ hc hp
  · simp [hg]
  · simp [hg]

theorem safe_xchWalk (hV : TreeInv s F) (hpc : s.pc t = .xchWalk x topa topb second cur hops) :
    SafeAfter s t (stepPc s.d (s.pc t) oom) := by
  have hH := hV.held t
  have hnd := (hV.safe.each t).nodup
  rw [Pc.mover, hpc] at hnd
  have hstart := hH.toHeld.start_mem
  rw [hpc] at hH hstart ⊢
  have hpa : x.pa < s.d.fresh := hH.dirs _ (by simp [Pc.dirs, Xchg.dirs])
  have hpb : x.pb < s.d.fresh := hH.dirs _ (by simp [Pc.dirs, Xchg.dirs])
  have hne : (s.pc t).climbs ≠ [] := by
    cases second <;> simp [hpc, Pc.climbs, Xchg.climbs]
  have hstop : ∀ o, SafeAfter s t (s.d, .xchClearA x topa topb o) := fun o =>
    hV.safe_read (by rw [hpc]; rfl) (by simp [hpc, Pc.gray]) hnd rfl rfl
  simp only [stepPc]
  split
  · exact hstop _
  · exact hstop _
  · rename_i harr
    have hcur := crossCycleHop_arrived harr
    subst hcur
    cases second with
    | false =>
      refine ⟨_, hV.safe_advance (by simp [hpc, Pc.gray]) hne ?_ (by simp [Pc.passed]) ?_⟩
      · simp [hpc, Pc.climbs, Xchg.climbs]
      · simpa [Pc.climbs, Xchg.climbs] using ⟨hpb, hpa⟩
    | true =>
      cases hcross : x.cross with
      | false =>
        exact hV.safe_read (by rw [hpc]; rfl) (by simp [Pc.gray, hcross])
          (by simp [Pc.gray, hcross]) (by simp [Pc.climbs, hcross]) rfl
      | true =>
        refine ⟨_, hV.safe_advance (by simp [hpc, Pc.gray, hcross]) hne ?_ (by simp [Pc.passed]) ?_⟩
        · exact fun c hc => .inl (by simpa [hpc, Pc.climbs, hcross] using hc)
        · simpa [Pc.climbs, hcross, Xchg.climbs] using ⟨hpb, hpa⟩
  · rename_i hclimb
    refine ⟨_, hV.safe_advance (by simp [hpc, Pc.gray]) hne (fun c hc => .inl ?_) ?_ hstart⟩
    · simpa [hpc, Pc.climbs] using hc
    · simpa [Pc.passed] using crossCycleHop_climb hclimb

theorem safe_xchHop (hV : TreeInv s F) (hpc : s.pc t = .xchHop x topa topb second cur hops) :
    SafeAfter s t (stepPc s.d (s.pc t) oom) := by
  have hH := hV.held t
  rw [hpc] at hH ⊢
  have hpa : x.pa < s.d.fresh := hH.dirs _ (by simp [Pc.dirs, Xchg.dirs])
  have hpb : x.pb < s.d.fresh := hH.dirs _ (by simp [Pc.dirs, Xchg.dirs])
  simp only [stepPc]
  cases second with
  | false =>
    refine ⟨_, hV.safe_advance (by simp [hpc, Pc.gray]) (by simp [hpc, Pc.climbs, Xchg.climbs]) ?_
      (by simp [Pc.passed]) ?_⟩
    · simp [hpc, Pc.climbs, Pc.passed, Xchg.climbs, DCache.parentOf]
    · simpa [Pc.climbs, Xchg.climbs] using hpb
  | true =>
    refine ⟨_, hV.safe_advance (by simp [hpc, Pc.gray]) (by simp [hpc, Pc.climbs, Xchg.climbs]) ?_
      (by simp [Pc.passed]) ?_⟩
    · simp [hpc, Pc.climbs, Pc.passed, Xchg.climbs, DCache.parentOf]
    · simpa [Pc.climbs, Xchg.climbs] using ⟨hpb, hpa⟩

theorem safe_xchLock (hV : TreeInv s F) (hpc : s.pc t = .xchLock x topa topb) :
    SafeAfter s t (stepPc s.d (s.pc t) oom) := by
  have hW := stepPc_write s.d (s.pc t) oom
  obtain ⟨hle, hK, -⟩ := hW.grows hV.bounded (hV.held t)
  have hH := hV.held t
  have hflag := flagged_mono hle (hW.moving hV.bounded hH (by rw [hpc]; rfl))
  have hhosta := hK.hostOf (hH.tops topa (by simp [hpc, Pc.tops])).2
  have hhostb := hK.hostOf (hH.tops topb (by simp [hpc, Pc.tops])).2
  cases hcross : x.cross with
  | false =>
    apply hV.safe_end (by rw [hpc]; rfl) (by simp [hpc, Pc.moves, hcross])
    simpa [hpc, stepPc, hcross] using afterExchange_mover x _
  | true =>
    have hpc' : (stepPc s.d (s.pc t) oom).2 =
        .xchClearA x topa topb (s.d.exchangeLocked x topa topb oom).1 := by
      simp [hpc, stepPc, hcross]
    have hnd := (hV.safe.each t).nodup
    simp only [Pc.mover, hpc, Pc.gray, hcross, if_true] at hnd
    have hab : s.d.hostOf topa ≠ s.d.hostOf topb := by simpa using hnd
    have hg : (stepPc s.d (s.pc t) oom).2.gray (stepPc s.d (s.pc t) oom).1 =
        [s.d.hostOf topa, s.d.hostOf topb] := by
      rw [hpc']
      simp only [Pc.gray, hhosta, hhostb]
    refine ⟨_, hV.safe_move hW (by simp [hpc, Pc.climbs, hcross, Xchg.climbs]) (fun a ha => ?_)
      hflag ?_ ?_ ?_ ?_⟩
    · rw [hpc] at hW hH
      rcases hW.parent_exchange hV.bounded hH hab ha with h | ⟨rfl, h⟩ | ⟨rfl, h⟩
      · exact .inl (by simpa [hpc] using h)
      · exact .inr (by simpa [hpc, Pc.gray, Pc.climbs, hcross, Xchg.climbs] using .inl h)
      · exact .inr (by simpa [hpc, Pc.gray, Pc.climbs, hcross, Xchg.climbs] using .inr h)
    · rw [hg]
      simp [hpc, Pc.gray, hcross]
    · rw [hg]
      exact hnd
    · simp [hpc', Pc.climbs]
    · simp [hpc', Pc.passed]

theorem step_safe (hV : TreeInv s F) (t : ℕ) (oom : Bool) :
    SafeAfter s t (stepPc s.d (s.pc t) oom) := by
  cases hpc : s.pc t with
  | stkGray => exact hpc ▸ hV.safe_stkGray hpc
  | stkWalk => exact hpc ▸ hV.safe_stkWalk hpc
  | stkHop => exact hpc ▸ hV.safe_stkHop hpc
  | stkLock => exact hpc ▸ hV.safe_stkLock hpc
  | stkClear => exact hpc ▸ hV.safe_stkClear hpc
  | xchGrayLo => exact hpc ▸ hV.safe_xchGrayLo hpc
  | xchGrayHi => exact hpc ▸ hV.safe_xchGrayHi hpc
  | xchDropLo => exact hpc ▸ hV.safe_xchDropLo hpc
  | xchWalk => exact hpc ▸ hV.safe_xchWalk hpc
  | xchHop => exact hpc ▸ hV.safe_xchHop hpc
  | xchLock => exact hpc ▸ hV.safe_xchLock hpc
  | xchClearA => exact hpc ▸ hV.safe_xchClearA hpc
  | xchClearB => exact hpc ▸ hV.safe_xchClearB hpc
  | _ => exact hpc ▸ hV.safe_rest (by rw [hpc]; rfl)

omit [DecidableEq Name] in
theorem start_in (hV : TreeInv s F) {c : Call Name} (hadm : s.admits c = true) :
    PcIn s.d (callStart c) := by
  have hst := callStart_starts c
  refine ⟨⟨fun a ha => ?_, fun a ha => ?_⟩, by simp [hst.pending]⟩
  · obtain rfl := hst.call_eq_of_tops ha
    exact hV.queued a (Grace.Rcu.ne_idle_of_ready hadm)
  · rw [hst.dirs a ha]
    exact hV.bounded.root

theorem call (hV : TreeInv s F) {c : Call Name} (hb : (s.pc t).busy = false)
    (hadm : s.admits c = true) :
    ∃ F', TreeInv ⟨s.d, s.rcuAtCall t c, update s.pc t (callStart c)⟩ F' := by
  have hidle : (s.pc t).moves = false := by
    cases h : s.pc t <;> simp_all [Pc.busy, Pc.moves]
  obtain ⟨hg, hc, hp⟩ := (callStart_starts c).mover s.d
  obtain ⟨F', hS⟩ := hV.safe_read (t := t) hidle (by simp [hg]) (by simp [hg]) hc hp
  refine ⟨F', hV.bounded, fun u => ?_, fun n hn => ?_, hS⟩
  · rcases eq_or_ne u t with rfl | hne
    · simpa using hV.start_in hadm
    · simpa [hne] using hV.held u
  · rw [Sys.callback_rcuAtCall] at hn
    split_ifs at hn with hf
    · subst hf
      exact hV.queued n (Grace.Rcu.ne_idle_of_ready hadm)
    · exact hV.queued n hn

theorem step (hV : TreeInv s F) : ∃ F', TreeInv ⟨(stepPc s.d (s.pc t) oom).1,
    s.rcuAtStep t (stepPc s.d (s.pc t) oom).2,
    update s.pc t (stepPc s.d (s.pc t) oom).2⟩ F' := by
  obtain ⟨F', hS⟩ := hV.step_safe t oom
  obtain ⟨hle, -, hB⟩ := (stepPc_write s.d (s.pc t) oom).grows hV.bounded (hV.held t)
  refine ⟨F', hB, fun u => ?_, fun n hn => ?_, hS⟩
  · rcases eq_or_ne u t with rfl | hne
    · simp only [update_self]
      exact stepPc_in hV.bounded (hV.held u)
    · simp only [update_of_ne hne]
      exact (hV.held u).mono hle
  · have hold : n ∈ s.d.linkable := by
      by_cases hq : (s.pc t).queues = some n
      · exact (hV.held t).shells n (Pc.pending_of_queues hq)
      · exact hV.queued n fun h => hn ((Sys.callback_rcuAtStep n hq).1.mpr h)
    exact ⟨hold.1, Nat.lt_of_lt_of_le hold.2 hle⟩

theorem act (hV : TreeInv s F) {s' : Sys Name} {a : Act Name} (ha : s.act a = some s') :
    ∃ F', TreeInv s' F' := by
  cases a with
  | call =>
    obtain ⟨hidle, hadm, rfl⟩ := Sys.of_act_call ha
    exact hV.call hidle hadm
  | step =>
    obtain ⟨-, rfl⟩ := Sys.of_act_step ha
    exact hV.step

omit [DecidableEq Name] in
theorem init (bucketOf : ℕ → Name → ℕ) (rootname : Name) :
    TreeInv (Sys.init bucketOf rootname) fun _ => ∅ := by
  have hroot : ∀ a < 1, a = root := fun a ha => Nat.lt_one_iff.mp ha
  refine ⟨⟨Nat.zero_lt_one, ?_, ?_, fun a _ => Nat.zero_lt_one, rfl⟩, fun t => ?_,
    fun n hn => absurd rfl hn, ?_⟩
  · intro s n hn
    cases hn
  · intro a _ h hh
    cases hh
  · exact ⟨⟨by simp [Sys.init, Pc.tops], by simp [Sys.init, Pc.dirs]⟩, by simp [Sys.init, Pc.pending]⟩
  · refine ⟨fun a ha => ?_, fun t => ?_, ?_, ?_⟩
    · rw [hroot a ha]
      exact .refl _
    · exact .stop (by simp [Sys.init, Pc.mover, Pc.gray]) (by simp [Sys.init, Pc.mover, Pc.gray])
        rfl rfl (Set.empty_subset _)
    · simp [Sys.init, Pc.mover, Pc.gray]
    · simp [Sys.init, Pc.mover, Ordered, Pc.climbs]

end TreeInv

/-- `d_parent` leads every allocated host to the root, and no host but the root is above
itself. -/
def ParentTree (d : DCache Name) : Prop :=
  d.parentOf root = root ∧ ∀ a < d.fresh, (d.dentry a).shell = false →
    d.parentOf a < d.fresh ∧ (∃ k, d.parentOf^[k] a = root) ∧
      (a ≠ root → ∀ k, d.parentOf^[k + 1] a ≠ a)

omit [DecidableEq Name] in
theorem TreeInv.parentTree {s : Sys Name} {F : ℕ → Set ℕ} (hV : TreeInv s F) : ParentTree s.d := by
  refine ⟨hV.bounded.rootParent, fun a ha _ => ⟨hV.bounded.parent a ha, ?_, fun hne k => ?_⟩⟩
  · exact (hV.safe.rooted a ha).iterate
  · exact (hV.safe.rooted a ha).ne_iterate hV.bounded.rootParent hne k

/-- In every state of every run, `d_parent` on hosts is a tree below the root. -/
theorem reach_parentTree (bucketOf : ℕ → Name → ℕ) (rootname : Name) {s : Sys Name}
    (hr : Reach Sys.act (fun _ _ => True) (Sys.init bucketOf rootname) s) : ParentTree s.d := by
  have hV : ∃ F, TreeInv s F := by
    refine hr.invariant (P := fun s => ∃ F, TreeInv s F) ⟨_, TreeInv.init bucketOf rootname⟩ ?_
    rintro s a s' ⟨F, hV⟩ - ha
    exact hV.act ha
  obtain ⟨F, hV⟩ := hV
  exact hV.parentTree

theorem reach_parentTree_move :
    ∃ s, Reach Sys.act (fun _ _ => True) (Sys.init (fun _ _ => 0) 0) s ∧
      s.d.parentOf 3 = 2 ∧ ParentTree s.d := by
  have he : (exec Sys.act (Sys.init (fun _ _ => 0) 0)
      (Act.op 1 (.add [1] 0) 3 ++ Act.op 1 (.add [2] 0) 3 ++ Act.op 1 (.add [1, 3] 0) 4 ++
        Act.op 1 (.rename [1, 3] [2, 5]) 16)).map (fun s => s.d.parentOf 3) = some 2 := by
    rfl
  obtain ⟨s, hr, hs⟩ := reach_exec_map he
  exact ⟨s, hr, hs, reach_parentTree _ _ hr⟩

end TrieBenchmark.Bucketlock
