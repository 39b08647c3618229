import TrieBenchmark.Seqlock.SecondChance

/-!
A thread that runs `dc_shrink` alone computes `dcShrink`: its steps are the rounds of the loop.
-/

namespace TrieBenchmark.Seqlock.Lru

open Function Run

def Goes (t : ℕ) (s s' : Sys) : Prop :=
  ∃ k, exec Sys.act s (List.replicate k (.step t)) = some s'

section Goes

variable {t p : ℕ} {d : Dcache} {dir : ℕ → Option ℕ} {pcs : ℕ → Pc} {pc k : Pc} {s s₁ s' : Sys}

theorem Goes.refl : Goes t s s :=
  ⟨0, rfl⟩

theorem Goes.head (ha : s.act (.step t) = some s₁) (h : Goes t s₁ s') : Goes t s s' := by
  obtain ⟨n, h⟩ := h
  refine ⟨n + 1, ?_⟩
  rw [List.replicate_succ, exec, ha]
  exact h

theorem Goes.run (hrun : pc.runs = true)
    (h : Goes t ⟨(step d pc).1, dir, update pcs t (step d pc).2⟩ s') :
    Goes t ⟨d, dir, update pcs t pc⟩ s' := by
  apply Goes.head _ h
  have hpc : update pcs t pc t = pc := update_self ..
  cases pc with
  | idle | done | lock | unlock => cases hrun
  | _ => simp only [Sys.act, hpc, update_idem]

theorem Goes.lock (hp : dir p = none) (h : Goes t ⟨d, update dir p (some t), update pcs t k⟩ s') :
    Goes t ⟨d, dir, update pcs t (.lock p k)⟩ s' := by
  apply Goes.head _ h
  simp only [Sys.act, update_self, hp, if_true, update_idem]

theorem Goes.unlock (h : Goes t ⟨d, update dir p none, update pcs t k⟩ s') :
    Goes t ⟨d, dir, update pcs t (.unlock p k)⟩ s' := by
  apply Goes.head _ h
  simp only [Sys.act, update_self, update_idem]

variable {c : Scan} {x : ℕ} {l : List ℕ}

theorem Goes.batchEnd (hc : c.batch = []) (h : Goes t ⟨d, dir, update pcs t
      (if c.full && c.freed < c.nr then .load c else .scan { c with i := c.i + 1 })⟩ s') :
    Goes t ⟨d, dir, update pcs t (.kills c)⟩ s' := by
  obtain ⟨nr, hi, i, freed, full, batch⟩ := c
  obtain rfl : batch = [] := hc
  exact Goes.run rfl h

variable (hdir : ∀ p, dir p = none) {out : ℕ × Dcache}
include hdir

theorem dir_released : update (update dir p (some t)) p none = dir := by
  rw [update_idem]
  exact update_eq_self_iff.mpr (hdir p).symm

theorem Goes.kill (hc : c.batch = x :: l) (h : Goes t ⟨(d.lruKill x).2, dir, update pcs t
      (.kills { c with
        batch := l, freed := if (d.lruKill x).1 then c.freed + 1 else c.freed })⟩ s') :
    Goes t ⟨d, dir, update pcs t (.kills c)⟩ s' := by
  apply Goes.run rfl
  rw [step, hc]
  dsimp only
  unfold Dcache.lruKill at h
  dsimp only at h
  by_cases hroot : d.parent x = x
  · rw [if_pos hroot] at h ⊢
    apply Goes.run rfl
    exact h
  · rw [if_neg hroot] at h ⊢
    apply Goes.lock (hdir _)
    apply Goes.run rfl
    rw [step]
    by_cases hkill : (decide (d.parent x = d.parent x) && !d.unhashed x && d.children x = []) = true
    · rw [if_pos hkill] at h ⊢
      apply Goes.run rfl
      apply Goes.run rfl
      apply Goes.run rfl
      apply Goes.unlock
      rw [dir_released hdir]
      exact h
    · rw [if_neg hkill] at h ⊢
      apply Goes.unlock
      rw [dir_released hdir]
      apply Goes.run rfl
      exact h

theorem Goes.killBatch {batch : List ℕ} (hc : c.batch = batch)
    (h : Goes t ⟨(Dcache.killBatch batch c.freed d).2, dir, update pcs t
      (.kills { c with batch := [], freed := (Dcache.killBatch batch c.freed d).1 })⟩ s') :
    Goes t ⟨d, dir, update pcs t (.kills c)⟩ s' := by
  induction batch generalizing c d with
  | nil =>
    have he : c = { c with batch := [], freed := c.freed } := by rw [← hc]
    rw [he]
    exact h
  | cons _ _ ih =>
    apply Goes.kill hdir hc
    exact ih rfl h

theorem Goes.shrinkNode {fuel : ℕ} (hout : Dcache.shrinkNode c.nr c.i fuel c.freed d = some out)
    (h : ∀ full, Goes t ⟨out.2, dir, update pcs t
      (.scan ⟨c.nr, c.hi, c.i + 1, out.1, full, []⟩)⟩ s') :
    Goes t ⟨d, dir, update pcs t (.load c)⟩ s' := by
  induction fuel generalizing c d with
  | zero => cases hout
  | succ _ ih =>
    rw [Dcache.shrinkNode] at hout
    apply Goes.run rfl
    rw [step]
    apply Goes.run rfl
    rw [step]
    apply Goes.killBatch hdir rfl
    apply Goes.batchEnd rfl
    split_ifs at hout with hagain
    · rw [if_pos (by simpa using hagain)]
      exact ih hout h
    · rw [if_neg (by simpa using hagain)]
      obtain rfl := Option.some.inj hout
      exact h _

theorem Goes.shrinkLists {n : ℕ}
    (hout : Dcache.shrinkLists c.nr n c.i c.freed d = some out) (hn : c.i + n = c.hi) :
    Goes t ⟨d, dir, update pcs t (.scan c)⟩
      ⟨out.2, dir, update pcs t (.done out.1)⟩ := by
  induction n generalizing c d with
  | zero =>
    obtain rfl := Option.some.inj hout
    apply Goes.run rfl
    rw [step, if_neg (by omega)]
    exact Goes.refl
  | succ _ ih =>
    rw [Dcache.shrinkLists] at hout
    apply Goes.run rfl
    rw [step]
    split_ifs at hout with hnr
    · rw [if_pos ⟨by omega, hnr⟩]
      obtain ⟨mid, hmid, hout⟩ := Option.bind_eq_some_iff.mp hout
      apply Goes.shrinkNode hdir hmid
      intro full
      exact ih hout (by dsimp only; omega)
    · rw [if_neg fun h => hnr h.2]
      obtain rfl := Option.some.inj hout
      exact Goes.refl

end Goes

/-- A call of `dc_shrink` by a thread that runs alone returns, with what `dcShrink` computes. -/
theorem dcShrink_alone {s : Sys} {t : ℕ} (nr : ℤ) (hdir : ∀ p, s.dir p = none)
    (hpc : s.pc t = .idle) :
    ∃ out k, s.d.dcShrink nr = some out ∧
      exec Sys.act s (.call t (.shrink nr 0 lruNodes) :: List.replicate k (.step t)) =
        some ⟨out.2, s.dir, update s.pc t (.done out.1)⟩ := by
  obtain ⟨out, hout⟩ := dcShrink_ends s.d nr
  have hcall : s.act (.call t (.shrink nr 0 lruNodes)) =
      some { s with pc := update s.pc t (Call.start (.shrink nr 0 lruNodes)) } := by
    simp only [Sys.act, hpc, Call.admits, if_true]
  have hgoes : Goes t { s with pc := update s.pc t (Call.start (.shrink nr 0 lruNodes)) }
      ⟨out.2, s.dir, update s.pc t (.done out.1)⟩ := by
    rw [Dcache.dcShrink] at hout
    rw [Call.start]
    split_ifs at hout ⊢ with hnr
    · obtain rfl := Option.some.inj hout
      exact Goes.refl
    · exact Goes.shrinkLists hdir hout rfl
  obtain ⟨k, hk⟩ := hgoes
  refine ⟨out, k, hout, ?_⟩
  rw [exec, hcall]
  exact hk

/-- Of two entries one is evicted. -/
theorem dcShrink_alone_two : ∃ (s : Sys) (out : ℕ × Dcache) (k : ℕ), out.1 = 1 ∧
    exec Sys.act s (.call 0 (.shrink 2 0 lruNodes) :: List.replicate k (.step 0)) =
      some ⟨out.2, s.dir, update s.pc 0 (.done out.1)⟩ := by
  have he : ((exec Sys.act Sys.init (fill 2 1)).bind (·.d.dcShrink 2)).map (·.1) = some 1 := by
    rfl
  obtain ⟨out, he, hone⟩ := Option.map_eq_some_iff.mp he
  obtain ⟨s, -, hs⟩ := Option.bind_eq_some_iff.mp he
  obtain ⟨out', k, hout, hk⟩ := dcShrink_alone (s := ⟨s.d, fun _ => none, fun _ => .idle⟩) (t := 0) 2
    (fun _ => rfl) rfl
  obtain rfl : out = out' := Option.some.inj (hs.symm.trans hout)
  exact ⟨_, out, k, hone, hk⟩

end TrieBenchmark.Seqlock.Lru
