import TrieBenchmark.Lru.Lock

/-!
The CLOCK shrinker of `dcache_lru_shrink.h`, lock arm, when nothing else runs: what a pass over a
range of shards does to every entry it meets, and how it leaves the lists.
-/

namespace TrieBenchmark.LruLock

open List Function

variable {σ : Type}

namespace Dcache

variable (E : Engine σ)

def lruShrinkOne (i : ℕ) (s : Dcache σ) (victim : ℕ) : Clock.Verdict × Dcache σ :=
  if s.referenced victim then
    -- second chance
    (.rotate, (s.setReferenced victim false).lruRotateLocked i victim)
  else if !E.childrenEmpty s.tree victim then
    -- LRU_REMOVED: in use, lru_retain puts it on again
    (.drop, s.lruUnlinkLocked i victim)
  else
    let s₁ := s.lruShrinkMoveLocked i victim
    match E.lruEvictSettled s₁.tree victim with
    | some tree => (.take, ({ s₁ with tree }.lruShrinkReleaseLocked victim).dcReclaim victim)
    | none =>
      match s₁.word victim with
      -- a killer handed the free over
      | .killed _ => (.take, (s₁.lruShrinkReleaseLocked victim).dcReclaim victim)
      | _ => (.rotate, s₁.lruLinkTailLocked i victim)

def lruShrinkShard (i room : ℕ) (s : Dcache σ) : List ℕ × Dcache σ :=
  Clock.sweep (fun s : Dcache σ => s.links.head i) (lruShrinkOne E i) (s.count i).toNat room s

def lruShrinkShards (nr : ℤ) : ℕ → ℕ → ℤ → Dcache σ → ℤ × Dcache σ
  | 0, _, freed, s => (freed, s)
  | n + 1, i, freed, s =>
    if freed < nr then
      let r := lruShrinkShard E i (nr - freed).toNat s
      lruShrinkShards nr n (i + 1) (freed + r.1.length) r.2
    else (freed, s)

def lruShrinkRange (s : Dcache σ) (nr : ℤ) (lo hi : ℕ) : ℤ × Dcache σ :=
  lruShrinkShards E nr (hi - lo) lo 0 s

end Dcache

inductive Fate where
  | rotated
  | removed
  | evicted
  | putBack
  deriving DecidableEq, Repr

namespace Fate

def verdict : Fate → Clock.Verdict
  | .rotated => .rotate
  | .removed => .drop
  | .evicted => .take
  | .putBack => .rotate

def word (i : ℕ) : Fate → Word
  | .rotated => .on i
  | .removed => .off
  | .evicted => .dead
  | .putBack => .on i

end Fate

def evicted (fs : List (ℕ × Fate)) : List ℕ :=
  (fs.filter (·.2 = .evicted)).map (·.1)

def kept (fs : List (ℕ × Fate)) : List ℕ :=
  (fs.filter fun p => p.2 = .rotated ∨ p.2 = .putBack).map (·.1)

/-- The entries are looked at in this order. A referenced one is rotated, a populated one removed,
a settled one evicted, any other one put back. Evictions change the tree, so each entry is judged
in the tree it is met in; `referenced` are the bits at the start. -/
inductive Judged (E : Engine σ) (referenced : ℕ → Bool) : σ → List (ℕ × Fate) → σ → Prop where
  | nil {c : σ} : Judged E referenced c [] c
  | rotated {c c' : σ} {d : ℕ} {fs : List (ℕ × Fate)} : referenced d = true →
      Judged E referenced c fs c' → Judged E referenced c ((d, .rotated) :: fs) c'
  | removed {c c' : σ} {d : ℕ} {fs : List (ℕ × Fate)} : referenced d = false →
      E.childrenEmpty c d = false → Judged E referenced c fs c' →
      Judged E referenced c ((d, .removed) :: fs) c'
  | evicted {c c₁ c' : σ} {d : ℕ} {fs : List (ℕ × Fate)} : referenced d = false →
      E.childrenEmpty c d = true → E.lruEvictSettled c d = some c₁ →
      Judged E referenced c₁ fs c' → Judged E referenced c ((d, .evicted) :: fs) c'
  | putBack {c c' : σ} {d : ℕ} {fs : List (ℕ × Fate)} : referenced d = false →
      E.childrenEmpty c d = true → E.lruEvictSettled c d = none →
      Judged E referenced c fs c' → Judged E referenced c ((d, .putBack) :: fs) c'

structure Looked (E : Engine σ) (i : ℕ) (s : Dcache σ) (fs : List (ℕ × Fate)) (s' : Dcache σ) :
    Prop where
  judged : Judged E s.referenced s.tree fs s'.tree
  cleared : ∀ d, s'.referenced d = true ↔ s.referenced d = true ∧ (d, Fate.rotated) ∉ fs
  word : ∀ d f, (d, f) ∈ fs → s'.word d = f.word i
  other : ∀ d, d ∉ fs.map (·.1) → s'.word d = s.word d
  reclaim : s'.reclaim = (evicted fs).reverse ++ s.reclaim

structure Passed (E : Engine σ) (i room : ℕ) (s : Dcache σ) (fs : List (ℕ × Fate))
    (rest : List ℕ) (s' : Dcache σ) : Prop where
  met : s.items i = fs.map (·.1) ++ rest
  once : (s.items i).Nodup
  looked : Looked E i s fs s'
  left : s'.items i = rest ++ kept fs
  others : ∀ j ≠ i, s'.items j = s.items j
  within : (evicted fs).length ≤ room
  stop : rest = [] ∨ (evicted fs).length = room

inductive Passes (E : Engine σ) (hi : ℕ) : ℕ → ℕ → Dcache σ → List ℕ → Dcache σ → Prop where
  | done {i nr : ℕ} {s : Dcache σ} : hi ≤ i ∨ nr = 0 → Passes E hi i nr s [] s
  | shard {i nr : ℕ} {s s₁ s' : Dcache σ} {fs : List (ℕ × Fate)} {rest l : List ℕ} : i < hi →
      0 < nr → Passed E i nr s fs rest s₁ →
      Passes E hi (i + 1) (nr - (evicted fs).length) s₁ l s' →
      Passes E hi i nr s (evicted fs ++ l) s'

section Lists

variable (d : ℕ) (f : Fate) (fs : List (ℕ × Fate))

theorem evicted_cons : evicted ((d, f) :: fs) =
    if f.verdict = .take then d :: evicted fs else evicted fs := by
  unfold evicted
  cases f <;> simp [Fate.verdict]

theorem kept_cons : kept ((d, f) :: fs) =
    if f.verdict = .rotate then d :: kept fs else kept fs := by
  unfold kept
  cases f <;> simp [Fate.verdict]

end Lists

variable {E : Engine σ} {i d : ℕ} {s s' : Dcache σ} {ℓ : ℕ → List ℕ}

theorem Judged.congr {referenced referenced' : ℕ → Bool} {c c' : σ} {fs : List (ℕ × Fate)}
    (h : Judged E referenced c fs c')
    (he : ∀ d ∈ fs.map (·.1), referenced' d = referenced d) : Judged E referenced' c fs c' := by
  induction h with
  | nil => exact .nil
  | rotated hd _ ih =>
    rw [map_cons, forall_mem_cons] at he
    exact .rotated (he.1.trans hd) (ih he.2)
  | removed hd hkids _ ih =>
    rw [map_cons, forall_mem_cons] at he
    exact .removed (he.1.trans hd) hkids (ih he.2)
  | evicted hd hkids hevict _ ih =>
    rw [map_cons, forall_mem_cons] at he
    exact .evicted (he.1.trans hd) hkids hevict (ih he.2)
  | putBack hd hkids hevict _ ih =>
    rw [map_cons, forall_mem_cons] at he
    exact .putBack (he.1.trans hd) hkids hevict (ih he.2)

structure Look (E : Engine σ) (i d : ℕ) (s : Dcache σ) (f : Fate) (s' : Dcache σ) : Prop where
  judged : ∀ {fs c'}, Judged E s.referenced s'.tree fs c' →
    Judged E s.referenced s.tree ((d, f) :: fs) c'
  referenced : s'.referenced = update s.referenced d false
  rotated : f = .rotated ↔ s.referenced d = true
  word : s'.word = update s.word d (f.word i)
  reclaim : s'.reclaim = if f.verdict = .take then d :: s.reclaim else s.reclaim

theorem lruShrinkOne_look (E : Engine σ) (i d : ℕ) (s : Dcache σ) :
    ∃ f, (s.lruShrinkOne E i d).1 = f.verdict ∧ Look E i d s f (s.lruShrinkOne E i d).2 := by
  have hbit : s.referenced d = false →
      s.referenced = update s.referenced d false := fun hd =>
    (update_eq_self_iff.mpr hd.symm).symm
  cases href : s.referenced d with
  | true =>
    refine ⟨.rotated, ?_⟩
    simp only [Dcache.lruShrinkOne, href, if_true]
    refine ⟨rfl, fun h => .rotated href h, rfl, by simp [href], ?_, rfl⟩
    exact update_idem ..
  | false =>
    cases hkids : E.childrenEmpty s.tree d with
    | false =>
      refine ⟨.removed, ?_⟩
      simp only [Dcache.lruShrinkOne, href, hkids, Bool.not_false, if_true, Bool.false_eq_true,
        if_false]
      exact ⟨rfl, fun h => .removed href hkids h, hbit href, by simp [href], rfl, rfl⟩
    | true =>
      cases hevict : E.lruEvictSettled s.tree d with
      | some tree =>
        have hevict' : E.lruEvictSettled (s.lruShrinkMoveLocked i d).tree d = some tree :=
          hevict
        refine ⟨.evicted, ?_⟩
        simp only [Dcache.lruShrinkOne, href, hkids, Bool.not_true, Bool.false_eq_true,
          if_false, hevict']
        refine ⟨rfl, fun h => .evicted href hkids hevict h, hbit href, by simp [href], ?_, rfl⟩
        exact update_idem ..
      | none =>
        have hevict' : E.lruEvictSettled (s.lruShrinkMoveLocked i d).tree d = none := hevict
        have hword : (s.lruShrinkMoveLocked i d).word d = .shrink i := update_self ..
        refine ⟨.putBack, ?_⟩
        simp only [Dcache.lruShrinkOne, href, hkids, Bool.not_true, Bool.false_eq_true,
          if_false, hevict', hword]
        refine ⟨rfl, fun h => .putBack href hkids hevict h, hbit href, by simp [href], ?_, rfl⟩
        exact update_idem ..

theorem Listed.lruShrinkOne {l : List ℕ} (hs : Listed s ℓ) (hl : ℓ i = d :: l) :
    Listed (s.lruShrinkOne E i d).2
      (update ℓ i ((s.lruShrinkOne E i d).1.rest d l)) := by
  have hd : s.word d = .on i := hs.mem_iff.mp (by rw [hl]; exact mem_cons_self ..)
  have herase : (ℓ i).erase d = l := by rw [hl, erase_cons_head]
  have hmove : Listed (s.lruShrinkMoveLocked i d) (update ℓ i l) := by
    have h := hs.lruUnlinkLockedTo (w := .shrink i) hd rfl
    rwa [herase] at h
  have hword : (s.lruShrinkMoveLocked i d).word d = .shrink i := update_self ..
  unfold Dcache.lruShrinkOne
  split_ifs with href hkids
  · have hs' : Listed (s.setReferenced d false) ℓ := hs.congr rfl rfl rfl
    have h := hs'.lruRotateLocked (i := i) (d := d) hd
    rwa [herase] at h
  · have h := hs.lruUnlinkLockedTo (w := .off) hd rfl
    rwa [herase] at h
  · simp only
    split
    · rename_i tree hevict
      have h : Listed { s.lruShrinkMoveLocked i d with tree } (update ℓ i l) :=
        hmove.congr rfl rfl rfl
      have h' := h.setWord (d := d) (w := .dead) (by rw [hword]; rfl) rfl
      exact h'.congr rfl rfl rfl
    · split
      · rename_i j hkilled
        rw [hword] at hkilled
        cases hkilled
      · have h := hmove.lruLinkTailLocked (i := i) (d := d) (by rw [hword]; rfl)
        rw [update_idem, update_self] at h
        exact h

theorem Look.looked {s₁ : Dcache σ} {f : Fate} {fs : List (ℕ × Fate)} (h : Look E i d s f s₁)
    (hL : Looked E i s₁ fs s') (hd : d ∉ fs.map (·.1)) : Looked E i s ((d, f) :: fs) s' := by
  have hbits : ∀ x ∈ fs.map (·.1), s.referenced x = s₁.referenced x := by
    intro x hx
    have hxd : x ≠ d := fun he => hd (he ▸ hx)
    rw [h.referenced, update_of_ne hxd]
  have hnot : ∀ f', (d, f') ∉ fs := by
    intro f' hmem
    exact hd (mem_map.mpr ⟨_, hmem, rfl⟩)
  refine ⟨h.judged (hL.judged.congr hbits), fun x => ?_, fun x g hx => ?_, fun x hx => ?_, ?_⟩
  · rw [hL.cleared, h.referenced]
    rcases eq_or_ne x d with he | hx
    · have hgone : ¬ (s.referenced d = true ∧ (d, Fate.rotated) ∉ (d, f) :: fs) := by
        intro hc
        apply hc.2
        rw [h.rotated.mpr hc.1]
        exact mem_cons_self ..
      rw [he, update_self]
      exact iff_of_false (by simp) hgone
    · rw [update_of_ne hx]
      simp [hx]
  · rcases mem_cons.mp hx with he | hx
    · obtain ⟨he, hg⟩ := Prod.mk.inj he
      rw [he, hL.other d hd, h.word, update_self, hg]
    · exact hL.word x g hx
  · rw [map_cons, mem_cons, not_or] at hx
    rw [hL.other x hx.2, h.word, update_of_ne hx.1]
  · rw [hL.reclaim, h.reclaim, evicted_cons]
    split_ifs
    · simp
    · rfl

theorem visits_looked {ms : List (ℕ × Clock.Verdict)}
    (h : Clock.Visits (Dcache.lruShrinkOne E i) s ms s') (hnd : (ms.map (·.1)).Nodup) :
    ∃ fs, fs.map (·.1) = ms.map (·.1) ∧ evicted fs = Clock.decided .take ms ∧
      kept fs = Clock.decided .rotate ms ∧ Looked E i s fs s' := by
  induction h with
  | nil =>
    exact ⟨[], rfl, rfl, rfl, .nil, by simp, by simp, fun _ _ => rfl, rfl⟩
  | cons hvisit _ ih =>
    rename_i s s₁ s' d v ms _
    rw [map_cons, nodup_cons] at hnd
    obtain ⟨fs, hfs, hevicted, hkept, hL⟩ := ih hnd.2
    obtain ⟨f, hv, hlook⟩ := lruShrinkOne_look E i d s
    rw [hvisit] at hv hlook
    refine ⟨(d, f) :: fs, by simp [hfs], ?_, ?_, hlook.looked hL (by rw [hfs]; exact hnd.1)⟩
    · rw [evicted_cons, Clock.decided_cons, hevicted, ← hv]
    · rw [kept_cons, Clock.decided_cons, hkept, ← hv]

theorem lruShrinkShard_passed (hs : Listed s ℓ) (i room : ℕ) :
    ∃ fs rest, (s.lruShrinkShard E i room).1 = evicted fs ∧
      Passed E i room s fs rest (s.lruShrinkShard E i room).2 ∧
      Listed (s.lruShrinkShard E i room).2 (update ℓ i (rest ++ kept fs)) := by
  have hR : Clock.Holds (fun s : Dcache σ => s.links.head i) (Dcache.lruShrinkOne E i)
      (fun s l => Listed s (update ℓ i l)) := by
    refine ⟨fun s l hl => ?_, fun s d l hl => ?_⟩
    · rw [hl.linked.head, update_self]
    · have h := hl.lruShrinkOne (E := E) (i := i) (d := d) (l := l) (update_self ..)
      rwa [update_idem] at h
  have hbudget : (s.count i).toNat = (ℓ i).length := by rw [hs.counted, Int.toNat_natCast]
  have hstart : Listed s (update ℓ i (ℓ i ++ [])) := by
    rwa [append_nil, update_eq_self]
  obtain ⟨ms, rest, hmet, hvisits, htaken, hlist, hroom, hstop, -⟩ :=
    Clock.sweep_spec hR (ℓ i) [] room s hstart
  rw [← hbudget] at hvisits htaken hlist
  have hnd : (ms.map (·.1)).Nodup := by
    have h := hs.linked.nodup i
    rw [hmet] at h
    exact h.of_append_left
  obtain ⟨fs, hfs, hevicted, hkept, hL⟩ := visits_looked hvisits hnd
  rw [append_nil, ← hkept] at hlist
  rw [← hevicted] at htaken hroom hstop
  refine ⟨fs, rest, htaken, ⟨?_, ?_, hL, ?_, fun j hj => ?_, hroom, hstop⟩, hlist⟩
  · rw [hs.items_eq, hfs]
    exact hmet
  · rw [hs.items_eq]
    exact hs.linked.nodup i
  · exact (hlist.items_eq i).trans (update_self ..)
  · exact (hlist.items_eq j).trans ((update_of_ne hj ..).trans (hs.items_eq j).symm)

theorem Passes.length_le {hi nr : ℕ} {l : List ℕ} (h : Passes E hi i nr s l s') :
    l.length ≤ nr := by
  induction h with
  | done => exact Nat.zero_le _
  | shard _ _ hpass =>
    have hroom := hpass.within
    rw [length_append]
    omega

theorem lruShrinkShards_passes (nr : ℤ) (n i : ℕ) (freed : ℤ) (s : Dcache σ) (ℓ : ℕ → List ℕ)
    (hs : Listed s ℓ) :
    ∃ l, (Dcache.lruShrinkShards E nr n i freed s).1 = freed + l.length ∧
      Passes E (i + n) i (nr - freed).toNat s l (Dcache.lruShrinkShards E nr n i freed s).2 ∧
      ∃ ℓ', Listed (Dcache.lruShrinkShards E nr n i freed s).2 ℓ' := by
  induction n generalizing i freed s ℓ with
  | zero => exact ⟨[], by simp [Dcache.lruShrinkShards], .done (.inl (Nat.le_refl _)), ℓ, hs⟩
  | succ n ih =>
    rw [Dcache.lruShrinkShards]
    split_ifs with hroom
    · obtain ⟨fs, rest, hevicted, hpass, hs₁⟩ :=
        lruShrinkShard_passed (E := E) hs i (nr - freed).toNat
      obtain ⟨l, hfreed, hpasses, hlast⟩ :=
        ih (i + 1) (freed + (evicted fs).length) (s.lruShrinkShard E i (nr - freed).toNat).2 _ hs₁
      have hleft : (nr - (freed + (evicted fs).length)).toNat =
          (nr - freed).toNat - (evicted fs).length := by omega
      have hend : i + 1 + n = i + (n + 1) := by omega
      rw [hleft, hend] at hpasses
      simp only [hevicted]
      refine ⟨evicted fs ++ l, ?_, ?_, hlast⟩
      · rw [hfreed, length_append]
        omega
      · exact .shard (by omega) (by omega) hpass hpasses
    · exact ⟨[], by simp, .done (.inr (by omega)), ℓ, hs⟩

end TrieBenchmark.LruLock
