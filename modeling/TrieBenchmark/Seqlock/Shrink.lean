import TrieBenchmark.Seqlock.LruInvariant

/-!
`dc_shrink` of the seqlock engine when nothing else runs: batches of victims, list after list.
-/

namespace TrieBenchmark.Seqlock.Lru

open Function (update update_apply update_eq_self update_idem update_of_ne update_self)
open List Run

namespace Dcache

variable (s : Dcache) {ℓ : ℕ → List ℕ}

def lruKill (d : ℕ) : Bool × Dcache :=
  let parent := s.parent d
  if parent = d then (false, s.cmpxchg d .shrink .off)
  else if s.parent d = parent && !s.unhashed d && s.children d = [] then
    (true, ((s.unhash d).setWord d .dead).callRcu d)
  else (false, s.cmpxchg d .shrink .off)

def killBatch : List ℕ → ℕ → Dcache → ℕ × Dcache
  | [], freed, s => (freed, s)
  | d :: batch, freed, s =>
    let r := s.lruKill d
    killBatch batch (if r.1 then freed + 1 else freed) r.2

/-- The `do` loop of `lru_shrink_nodes` over list `i`, if it ends within `fuel` rounds. -/
def shrinkNode (nr i : ℕ) : ℕ → ℕ → Dcache → Option (ℕ × Dcache)
  | 0, _, _ => none
  | fuel + 1, freed, s =>
    let r := s.isolate i (s.nrItems i).toNat (min shrinkBatch (nr - freed))
    let out := killBatch r.1 freed r.2
    if r.1.length = shrinkBatch ∧ out.1 < nr then shrinkNode nr i fuel out.1 out.2 else some out

/-- The `for` loop over `n` lists from list `i` on. A list cannot take more rounds than it has
entries, and one. -/
def shrinkLists (nr : ℕ) : ℕ → ℕ → ℕ → Dcache → Option (ℕ × Dcache)
  | 0, _, freed, s => some (freed, s)
  | n + 1, i, freed, s =>
    if freed < nr then
      (shrinkNode nr i ((s.nrItems i).toNat + 1) freed s).bind fun out =>
        shrinkLists nr n (i + 1) out.1 out.2
    else some (freed, s)

def lruShrinkNodes (nr lo hi : ℕ) : Option (ℕ × Dcache) :=
  shrinkLists nr (hi - lo) lo 0 s

def dcShrink (nr : ℤ) : Option (ℕ × Dcache) :=
  if nr ≤ 0 then some (0, s) else s.lruShrinkNodes nr.toNat 0 lruNodes

def evictable (d : ℕ) : Bool :=
  !s.referenced d && s.children d = []

end Dcache

/-- A dentry is on the child list of its parent alone, and once. -/
structure KidsOk (s : Dcache) : Prop where
  nodup : ∀ p, (s.children p).Nodup
  parent : ∀ p, ∀ c ∈ s.children p, s.published c = true ∧ s.parent c = p

namespace KidsOk

variable {s s' : Dcache} {d p : ℕ} {pc : Pc}

theorem congr (hk : KidsOk s) (hc : s'.children = s.children) (hpub : s'.published = s.published)
    (hp : s'.parent = s.parent) : KidsOk s' := by
  obtain ⟨hnd, hpar⟩ := hk
  constructor
  · rwa [hc]
  · rwa [hc, hpub, hp]

theorem dentryAlloc (hk : KidsOk s) (hd : s.published s.fresh = false) :
    KidsOk (s.dentryAlloc p) where
  nodup := hk.nodup
  parent q c hc := by
    obtain ⟨hpub, hpar⟩ := hk.parent q c hc
    have hne : c ≠ s.fresh := by
      rintro rfl
      exact absurd (hd.symm.trans hpub) Bool.noConfusion
    exact ⟨hpub, (update_of_ne hne ..).trans hpar⟩

theorem publish (hk : KidsOk s) (hd : s.published d = false) : KidsOk (s.publish d) := by
  have hout : d ∉ s.children (s.parent d) := fun h =>
    absurd (hd.symm.trans (hk.parent _ d h).1) Bool.noConfusion
  refine ⟨fun p => ?_, fun p c hc => ?_⟩
  · show (update s.children (s.parent d) (d :: s.children (s.parent d)) p).Nodup
    rw [update_apply]
    split_ifs
    · exact nodup_cons.mpr ⟨hout, hk.nodup _⟩
    · exact hk.nodup p
  · have hc : c ∈ update s.children (s.parent d) (d :: s.children (s.parent d)) p := hc
    show update s.published d true c = true ∧ s.parent c = p
    rw [update_apply] at hc ⊢
    split_ifs at hc with hp
    · rcases mem_cons.mp hc with rfl | hc
      · exact ⟨if_pos rfl, hp.symm⟩
      · rw [hp, (hk.parent _ c hc).1, ite_self]
        exact ⟨rfl, (hk.parent _ c hc).2⟩
    · rw [(hk.parent p c hc).1, ite_self]
      exact ⟨rfl, (hk.parent p c hc).2⟩

theorem mem_unhash (hk : KidsOk s) {c : ℕ} :
    c ∈ (s.unhash d).children p ↔ c ∈ s.children p ∧ c ≠ d := by
  show c ∈ update s.children (s.parent d) ((s.children (s.parent d)).erase d) p ↔ _
  rw [update_apply]
  split_ifs with hp
  · rw [(hk.nodup _).mem_erase_iff, hp, and_comm]
  · refine ⟨fun hc => ⟨hc, ?_⟩, And.left⟩
    rintro rfl
    exact hp (hk.parent p c hc).2.symm

theorem unhash (hk : KidsOk s) : KidsOk (s.unhash d) where
  nodup p := by
    show (update s.children (s.parent d) ((s.children (s.parent d)).erase d) p).Nodup
    rw [update_apply]
    split_ifs
    · exact (hk.nodup _).erase d
    · exact hk.nodup p
  parent p c hc := hk.parent p c (hk.mem_unhash.mp hc).1

theorem step (hk : KidsOk s) (hr : Ready pc s) : KidsOk (step s pc).1 := by
  cases pc with
  | addTest =>
    rw [Lru.step]
    split_ifs
    · exact hk
    · exact hk.dentryAlloc (hr.unborn _ (Nat.le_refl _)).2
  | addPublish => exact hk.publish hr.fits.published
  | unlDel | dropDel | killDel => exact hk.unhash
  | isolate c budget =>
    have h := (isolate_isolates hr.listed c.i budget (min shrinkBatch (c.nr - c.freed))).tree
    exact hk.congr h.children h.published h.parent
  | del _ stage =>
    cases stage <;> simp only [Lru.step, delStep] <;> (repeat' split) <;>
      exact hk.congr rfl rfl rfl
  | _ =>
    simp only [Lru.step, Dcache.lruAddClaim, Dcache.cmpxchg]
    (repeat' split) <;> exact hk.congr rfl rfl rfl

theorem reach {s : Sys} (hr : Reach Sys.act (fun _ _ => True) Sys.init s) : KidsOk s.d := by
  have h : Inv s ∧ KidsOk s.d := by
    have hinit : KidsOk Sys.init.d := ⟨fun _ => nodup_nil, fun _ _ h => by cases h⟩
    refine hr.invariant (P := fun s => Inv s ∧ KidsOk s.d) ⟨.init, hinit⟩ ?_
    rintro s a s' ⟨hI, hk⟩ - ha
    refine ⟨hI.act ha, ?_⟩
    rcases act_cases ha with ⟨_, _, _, _, rfl⟩ | ⟨_, _, _, _, _, rfl⟩ | ⟨_, _, _, _, rfl⟩ | ⟨t, _, rfl⟩
    · exact hk
    · exact hk
    · exact hk
    · exact hk.step (hI.ready t)
  exact h.2

end KidsOk

/-- The cache between two calls: what is on a list is alive, and not the root. -/
structure Quiet (s : Dcache) : Prop where
  listed : ∃ ℓ, Listed s ℓ
  alive : ∀ d i, s.word d = .on i → d < s.fresh ∧ s.unhashed d = false ∧ s.parent d ≠ d
  kids : KidsOk s

/-- Every reachable state in which all threads are between two calls is such a cache. -/
theorem reach_quiet {s : Sys} (hr : Reach Sys.act (fun _ _ => True) Sys.init s)
    (hpc : ∀ t, s.pc t = .idle ∨ ∃ n, s.pc t = .done n) : Quiet s.d where
  listed := (Inv.reach hr).listed
  alive d i hd := by
    have hI := Inv.reach hr
    have hlt := hI.lt_of_on d i hd
    have hroot : d ≠ Lru.root := by
      rintro rfl
      exact absurd (hI.root.2.1.symm.trans hd) Word.noConfusion
    refine ⟨hlt, ?_, Nat.ne_of_lt (hI.parent d hlt hroot)⟩
    rw [Bool.eq_false_iff]
    intro hu
    rcases hI.doomed d hu with h | ⟨t, h⟩
    · exact absurd (h.symm.trans hd) Word.noConfusion
    · rcases hpc t with ht | ⟨n, ht⟩ <;> rw [ht] at h <;> cases h
  kids := .reach hr

theorem Quiet.items_eq {s : Dcache} (hs : Quiet s) (hl : Listed s ℓ) (i : ℕ) :
    s.items i = ℓ i :=
  hl.items_eq (fun d i hd => (hs.alive d i hd).1) i

section Isolate

variable {s s' : Dcache} {i : ℕ}

/-- A visit depends on the entry's own bit and children, which no other visit changes: the verdicts
are those of the state before the section. -/
theorem visits_eq {ms : List (ℕ × Clock.Verdict)}
    (h : Clock.Visits (Dcache.isolateOne i) s ms s') (hnd : (ms.map (·.1)).Nodup) :
    ms = (ms.map (·.1)).map (fun d => (d, (s.isolateOne i d).1)) ∧
      s'.referenced = fun d => if d ∈ ms.map (·.1) then false else s.referenced d := by
  induction h with
  | nil => simp
  | @cons s s₁ _ n _ ms hv _ ih =>
    rw [map_cons, nodup_cons] at hnd
    obtain ⟨ihms, ihref⟩ := ih hnd.2
    have hs₁ : s₁ = (s.isolateOne i n).2 := by rw [hv]
    have href : s₁.referenced = update s.referenced n false := by
      rw [hs₁]
      exact isolateOne_referenced s i n
    have hkids : s₁.children = s.children := by
      rw [hs₁]
      exact (isolateOne_sameTree s i n).children
    constructor
    · have hsame : ∀ d ∈ ms.map (·.1), (d, (s₁.isolateOne i d).1) = (d, (s.isolateOne i d).1) := by
        intro d hd
        have hne : d ≠ n := fun h => hnd.1 (h ▸ hd)
        have hbit : s₁.referenced d = s.referenced d := by
          rw [href, update_of_ne hne]
        unfold Dcache.isolateOne
        rw [hbit, hkids]
        split_ifs <;> rfl
      rw [map_cons, map_cons, hv, ← map_congr_left hsame, ← ihms]
    · funext d
      rw [ihref, href, map_cons]
      dsimp only
      rcases eq_or_ne d n with rfl | hne
      · rw [update_self, if_pos (mem_cons_self ..), ite_self]
      · simp only [update_of_ne hne, mem_cons, hne, false_or]

/-- The section whose budget is the length of the list: it meets the entries from the head on, each
once, as long as there is room; it isolates those that are evictable and sends the referenced ones
to the tail. -/
theorem isolate_spec (hl : Listed s ℓ) (room : ℕ) :
    ∃ met rest, ℓ i = met ++ rest ∧
      (s.isolate i (s.nrItems i).toNat room).1 = met.filter s.evictable ∧
      Listed (s.isolate i (s.nrItems i).toNat room).2
        (update ℓ i (rest ++ met.filter s.referenced)) ∧
      (s.isolate i (s.nrItems i).toNat room).2.referenced =
        (fun d => if d ∈ met then false else s.referenced d) ∧
      (met.filter s.evictable).length ≤ room ∧
      (rest = [] ∨ (met.filter s.evictable).length = room) ∧
      ∀ l d l', met = l ++ d :: l' → (l.filter s.evictable).length < room := by
  have hbudget : (s.nrItems i).toNat = (ℓ i).length := by
    rw [hl.count]
    simp
  have hR : Clock.Holds (fun s : Dcache => s.links.head i) (Dcache.isolateOne i)
      (fun s l => Listed s (update ℓ i l)) := by
    constructor
    · intro s l hs
      rw [hs.linked.head, update_self]
    · intro s d l hs
      have h := hs.isolateOne (update_self ..)
      rwa [update_idem] at h
  have hs : Listed s (update ℓ i (ℓ i ++ [])) := by
    rw [append_nil, update_eq_self]
    exact hl
  obtain ⟨ms, rest, hms, hvisits, htaken, hl', hle, hstop, hroom⟩ :=
    Clock.sweep_spec hR (ℓ i) [] room s hs
  rw [hbudget]
  have hnd : (ms.map (·.1)).Nodup := by
    have := hl.linked.nodup i
    rw [hms] at this
    exact (nodup_append.mp this).1
  obtain ⟨heq, href⟩ := visits_eq hvisits hnd
  have hdecided : ∀ (v : Clock.Verdict) (q : ℕ → Bool),
      (∀ d, (s.isolateOne i d).1 = v ↔ q d = true) → ∀ ms₁ ⊆ ms,
      Clock.decided v ms₁ = (ms₁.map (·.1)).filter q := by
    intro v q hq ms₁ hsub
    unfold Clock.decided
    rw [filter_map]
    congr 1
    apply filter_congr
    intro m hm
    have hv : m.2 = (s.isolateOne i m.1).1 := by
      have hm := hsub hm
      rw [heq, map_map, mem_map] at hm
      obtain ⟨m', -, rfl⟩ := hm
      rfl
    rw [Bool.eq_iff_iff, decide_eq_true_iff, hv, hq]
    rfl
  have htake : ∀ ms₁ ⊆ ms, Clock.decided .take ms₁ = (ms₁.map (·.1)).filter s.evictable := by
    apply hdecided
    intro d
    rw [isolateOne_take_iff]
    simp [Dcache.evictable]
  have hrotate := hdecided .rotate s.referenced (isolateOne_rotate_iff s i) ms (Subset.refl ms)
  rw [htake ms (Subset.refl ms)] at htaken hle hstop
  rw [hrotate, append_nil] at hl'
  refine ⟨ms.map Prod.fst, rest, hms, htaken, hl', href, hle, hstop, fun l d l' h => ?_⟩
  obtain ⟨ms₁, ms', hsplit, rfl, htail⟩ := map_eq_append_iff.mp h
  obtain ⟨m, ms₂, rfl, -, -⟩ := map_eq_cons_iff.mp htail
  rw [← htake ms₁ (hsplit ▸ subset_append_left _ _)]
  exact hroom ms₁ m ms₂ hsplit

end Isolate

structure Victims (s : Dcache) (batch : List ℕ) : Prop where
  nodup : batch.Nodup
  word : ∀ d ∈ batch, s.word d = .shrink
  alive : ∀ d ∈ batch, s.unhashed d = false ∧ s.parent d ≠ d
  childless : ∀ d ∈ batch, s.children d = []

structure Killed (s : Dcache) (batch : List ℕ) (s' : Dcache) : Prop where
  fresh : s'.fresh = s.fresh
  parent : s'.parent = s.parent
  referenced : s'.referenced = s.referenced
  links : s'.links = s.links
  nrItems : s'.nrItems = s.nrItems
  word : ∀ d, s'.word d = if d ∈ batch then .dead else s.word d
  unhashed : ∀ d ∉ batch, s'.unhashed d = s.unhashed d
  kids : KidsOk s'
  children : ∀ p c, c ∈ s'.children p ↔ c ∈ s.children p ∧ c ∉ batch
  reclaim : s'.reclaim = batch.reverse ++ s.reclaim

theorem Killed.listed {s s' : Dcache} {batch : List ℕ} (hK : Killed s batch s')
    (hv : Victims s batch) (hl : Listed s ℓ) : Listed s' ℓ where
  linked := hK.links ▸ hl.linked
  count := hK.nrItems ▸ hl.count
  word j d := by
    rw [hl.word, hK.word]
    split_ifs with hd
    · simp [hv.word d hd]
    · rfl

theorem lruKill_eq {s : Dcache} {d : ℕ} (halive : s.unhashed d = false) (hp : s.parent d ≠ d)
    (hkids : s.children d = []) :
    s.lruKill d = (true, ((s.unhash d).setWord d .dead).callRcu d) := by
  unfold Dcache.lruKill
  simp [hp, halive, hkids]

theorem killBatch_killed {s : Dcache} {batch : List ℕ} (hk : KidsOk s) (hv : Victims s batch)
    (freed : ℕ) : (Dcache.killBatch batch freed s).1 = freed + batch.length ∧
      Killed s batch (Dcache.killBatch batch freed s).2 := by
  induction batch generalizing s freed with
  | nil => exact ⟨rfl, rfl, rfl, rfl, rfl, rfl, fun _ => rfl, fun _ _ => rfl, hk, by
      simp [Dcache.killBatch], rfl⟩
  | cons d batch ih =>
    obtain ⟨halive, hp⟩ := hv.alive d (mem_cons_self ..)
    obtain ⟨hd, hnd⟩ := nodup_cons.mp hv.nodup
    let s₁ := ((s.unhash d).setWord d .dead).callRcu d
    have hk₁ : KidsOk s₁ := (hk.unhash (d := d)).congr rfl rfl rfl
    have hkids : ∀ p c, c ∈ s₁.children p ↔ c ∈ s.children p ∧ c ≠ d := fun _ _ => hk.mem_unhash
    have hne : ∀ {x}, x ∈ batch → x ≠ d := fun hx h => hd (h ▸ hx)
    have hv₁ : Victims s₁ batch := by
      refine ⟨hnd, fun x hx => ?_, fun x hx => ?_, fun x hx => ?_⟩
      · have hw := hv.word x (mem_cons_of_mem _ hx)
        exact (update_of_ne (hne hx) ..).trans hw
      · obtain ⟨hu, hp⟩ := hv.alive x (mem_cons_of_mem _ hx)
        exact ⟨(update_of_ne (hne hx) ..).trans hu, hp⟩
      · apply eq_nil_iff_forall_not_mem.mpr
        intro c hc
        rw [hkids, hv.childless x (mem_cons_of_mem _ hx)] at hc
        cases hc.1
    have hstep : Dcache.killBatch (d :: batch) freed s = Dcache.killBatch batch (freed + 1) s₁ := by
      rw [Dcache.killBatch, lruKill_eq halive hp (hv.childless d (mem_cons_self ..))]
      rfl
    obtain ⟨hfreed, hK⟩ := ih hk₁ hv₁ (freed + 1)
    rw [hstep]
    refine ⟨by rw [hfreed, length_cons]; omega, hK.fresh, hK.parent, hK.referenced, hK.links,
      hK.nrItems, fun x => ?_, fun x hx => ?_, hK.kids, fun p c => ?_, ?_⟩
    · rw [hK.word]
      show (if x ∈ batch then .dead else update s.word d .dead x) = _
      rcases eq_or_ne x d with rfl | hx
      · simp
      · simp [hx]
    · rw [mem_cons, not_or] at hx
      rw [hK.unhashed x hx.2]
      exact update_of_ne hx.1 ..
    · rw [hK.children, hkids, mem_cons, not_or, and_assoc]
    · rw [hK.reclaim]
      show batch.reverse ++ d :: s.reclaim = _
      simp

/-- From `s` to `s'` the dentries `ev` were evicted, the last one first; a dentry had lost all its
children before it was. -/
structure Evicts (s : Dcache) (ev : List ℕ) (s' : Dcache) : Prop where
  quiet : Quiet s'
  reclaim : s'.reclaim = ev ++ s.reclaim
  children : ∀ p c, c ∈ s'.children p ↔ c ∈ s.children p ∧ c ∉ ev
  childless : ∀ post d pre, ev = post ++ d :: pre → ∀ c ∈ s.children d, c ∈ pre

namespace Evicts

variable {s s₁ s' : Dcache} {ev ev' : List ℕ}

theorem refl (hs : Quiet s) : Evicts s [] s :=
  ⟨hs, rfl, by simp, fun _ _ _ h => by simp at h⟩

theorem trans (h : Evicts s ev s₁) (h' : Evicts s₁ ev' s') : Evicts s (ev' ++ ev) s' where
  quiet := h'.quiet
  reclaim := by rw [h'.reclaim, h.reclaim, append_assoc]
  children p c := by
    rw [h'.children, h.children, mem_append, not_or, and_assoc, and_comm (a := c ∉ ev)]
  childless post d pre he c hc := by
    rcases append_eq_append_iff.mp he with ⟨zs, -, hev⟩ | ⟨zs, hev', hpre⟩
    · exact h.childless zs d pre hev c hc
    · cases zs with
      | nil => exact h.childless [] d pre hpre.symm c hc
      | cons _ zs =>
        obtain ⟨rfl, rfl⟩ := cons_eq_cons.mp hpre
        by_cases hcev : c ∈ ev
        · exact mem_append_right _ hcev
        · exact mem_append_left _ (h'.childless post d zs hev' c ((h.children d c).mpr ⟨hc, hcev⟩))

end Evicts

/-- One round of the `do` loop over list `i`: it looks at `met`, and leaves `rest`. -/
structure Round (i room : ℕ) (s : Dcache) (met rest : List ℕ) (s' : Dcache) : Prop where
  items : s.items i = met ++ rest
  left : s'.items i = rest ++ met.filter s.referenced
  le : (met.filter s.evictable).length ≤ room
  stop : rest = [] ∨ (met.filter s.evictable).length = room
  room : ∀ l d l', met = l ++ d :: l' → (l.filter s.evictable).length < room
  referenced : ∀ d, s'.referenced d = if d ∈ met then false else s.referenced d
  evicts : Evicts s (met.filter s.evictable).reverse s'
  elsewhere : ∀ j, j ≠ i → s'.items j = s.items j

theorem round_spec {s : Dcache} (hs : Quiet s) (i room freed : ℕ) :
    ∃ met rest s', (s.isolate i (s.nrItems i).toNat room).1 = met.filter s.evictable ∧
      Dcache.killBatch (met.filter s.evictable) freed
        (s.isolate i (s.nrItems i).toNat room).2 = (freed + (met.filter s.evictable).length, s') ∧
      Round i room s met rest s' := by
  obtain ⟨ℓ, hl⟩ := hs.listed
  have hiso := isolate_isolates hs.listed i (s.nrItems i).toNat room
  obtain ⟨met, rest, hmet, hbatch, hl', href, hle, hstop, hroom⟩ := isolate_spec (i := i) hl room
  generalize s.isolate i (s.nrItems i).toNat room = r at *
  obtain ⟨batch, s₁⟩ := r
  dsimp only at hiso hbatch hl' href ⊢
  subst hbatch
  have hv : Victims s₁ (met.filter s.evictable) := by
    refine ⟨hiso.nodup, fun d hd => (hiso.taken d hd).2.2, fun d hd => ?_, fun d hd => ?_⟩
    · rw [hiso.tree.unhashed, hiso.tree.parent]
      exact (hs.alive d i (hiso.taken d hd).1).2
    · rw [hiso.tree.children]
      exact (hiso.taken d hd).2.1
  have hk := hs.kids.congr hiso.tree.children hiso.tree.published hiso.tree.parent
  obtain ⟨hfreed, hK⟩ := killBatch_killed hk hv freed
  refine ⟨met, rest, _, rfl, Prod.ext hfreed rfl, ?_⟩
  generalize Dcache.killBatch (met.filter s.evictable) freed s₁ = out at *
  have hlist := hK.listed hv hl'
  have hq : Quiet out.2 := by
    refine ⟨⟨_, hlist⟩, fun d j hd => ?_, hK.kids⟩
    -- what is on a list afterwards was on it before, and is no victim
    rw [hK.word] at hd
    split_ifs at hd with hdb
    have hon : s.word d = .on j := by
      rcases hiso.other d hdb with h | ⟨-, h⟩
      · rw [← h]
        exact hd
      · rw [h] at hd
        cases hd
    rw [hK.fresh, hK.unhashed d hdb, hK.parent, hiso.tree.fresh, hiso.tree.unhashed,
      hiso.tree.parent]
    exact hs.alive d j hon
  refine ⟨?_, ?_, hle, hstop, hroom, fun d => ?_, ⟨hq, ?_, fun p c => ?_, fun post d pre he c hc => ?_⟩,
    fun j hj => ?_⟩
  · rw [hs.items_eq hl, hmet]
  · rw [hq.items_eq hlist, update_self]
  · rw [hK.referenced, href]
  · rw [hK.reclaim, hiso.tree.reclaim]
  · rw [hK.children, hiso.tree.children, mem_reverse]
  · have hd : d ∈ met.filter s.evictable := by
      rw [← mem_reverse, he]
      simp
    rw [(hiso.taken d hd).2.1] at hc
    cases hc
  · rw [hq.items_eq hlist, hs.items_eq hl, update_of_ne hj]

/-- The loop round by round. -/
theorem shrinkNode_succ {s : Dcache} (hs : Quiet s) (nr i fuel freed : ℕ) :
    ∃ met rest s', Round i (min shrinkBatch (nr - freed)) s met rest s' ∧
      Dcache.shrinkNode nr i (fuel + 1) freed s =
        if (met.filter s.evictable).length = shrinkBatch ∧
            freed + (met.filter s.evictable).length < nr then
          Dcache.shrinkNode nr i fuel (freed + (met.filter s.evictable).length) s'
        else some (freed + (met.filter s.evictable).length, s') := by
  obtain ⟨met, rest, s', hbatch, hkill, hR⟩ := round_spec hs i (min shrinkBatch (nr - freed)) freed
  refine ⟨met, rest, s', hR, ?_⟩
  rw [Dcache.shrinkNode, hbatch, hkill]

structure Rounds (nr i freed : ℕ) (s : Dcache) (ev : List ℕ) (out : ℕ × Dcache) : Prop where
  count : out.1 = freed + ev.length
  le : freed ≤ nr → out.1 ≤ nr
  evicts : Evicts s ev out.2
  elsewhere : ∀ j, j ≠ i → out.2.items j = s.items j ∧
    ∀ d ∈ s.items j, out.2.referenced d = s.referenced d

theorem Quiet.nodup_items {s : Dcache} (hs : Quiet s) (i : ℕ) : (s.items i).Nodup := by
  obtain ⟨ℓ, hl⟩ := hs.listed
  rw [hs.items_eq hl]
  exact hl.linked.nodup i

theorem Quiet.disjoint {s : Dcache} (hs : Quiet s) {i j d : ℕ} (hj : j ≠ i) (hd : d ∈ s.items j) :
    d ∉ s.items i := by
  obtain ⟨ℓ, hl⟩ := hs.listed
  rw [hs.items_eq hl, hl.word] at hd ⊢
  rw [hd]
  exact fun h => hj (Word.on.inj h)

section Rounds

variable {nr i freed fuel : ℕ} {s s' : Dcache} {met rest ev : List ℕ} {out : ℕ × Dcache}

theorem Round.rounds (hs : Quiet s) (hR : Round i (min shrinkBatch (nr - freed)) s met rest s') :
    Rounds nr i freed s (met.filter s.evictable).reverse
      (freed + (met.filter s.evictable).length, s') where
  count := by rw [length_reverse]
  le _ := by
    have := hR.le
    dsimp only
    omega
  evicts := hR.evicts
  elsewhere j hj := by
    refine ⟨hR.elsewhere j hj, fun d hd => ?_⟩
    have hmet : d ∉ met := by
      have := hs.disjoint hj hd
      rw [hR.items, mem_append, not_or] at this
      exact this.1
    rw [hR.referenced, if_neg hmet]

theorem Rounds.trans {n : ℕ} {batch : List ℕ} (h : Rounds nr i freed s batch (n, s'))
    (h' : Rounds nr i n s' ev out) (hlt : n < nr) : Rounds nr i freed s (ev ++ batch) out where
  count := by
    have hn : n = freed + batch.length := h.count
    rw [h'.count, length_append]
    omega
  le _ := h'.le (Nat.le_of_lt hlt)
  evicts := h.evicts.trans h'.evicts
  elsewhere j hj := by
    obtain ⟨hitems, href⟩ := h.elsewhere j hj
    obtain ⟨hitems', href'⟩ := h'.elsewhere j hj
    refine ⟨hitems'.trans hitems, fun d hd => ?_⟩
    rw [href' d (hitems ▸ hd), href d hd]

theorem shrinkNode_rounds (hs : Quiet s) (hout : Dcache.shrinkNode nr i fuel freed s = some out) :
    ∃ ev, Rounds nr i freed s ev out := by
  induction fuel generalizing freed s with
  | zero => cases hout
  | succ fuel ih =>
    obtain ⟨met, rest, s', hR, hnode⟩ := shrinkNode_succ hs nr i fuel freed
    rw [hnode] at hout
    have hround := hR.rounds hs
    split_ifs at hout with hagain
    · obtain ⟨ev, hrest⟩ := ih hR.evicts.quiet hout
      exact ⟨_, hround.trans hrest hagain.2⟩
    · obtain rfl := Option.some.inj hout
      exact ⟨_, hround⟩

end Rounds

/-! The loops end, in any state: a full batch takes that many off the count of the list. -/

section Ends

variable (s : Dcache) (nr i n freed fuel : ℕ)

theorem isolateOne_nrItems (d : ℕ) : (s.isolateOne i d).2.nrItems i =
    if (s.isolateOne i d).1 = .rotate then s.nrItems i else s.nrItems i - 1 := by
  unfold Dcache.isolateOne
  split_ifs <;> simp_all [Dcache.lruDelLocked, Dcache.lruLinkTailLocked, Dcache.setReferenced]

theorem isolate_nrItems (budget room : ℕ) :
    (s.isolate i budget room).2.nrItems i + (s.isolate i budget room).1.length ≤ s.nrItems i := by
  apply Clock.sweep_rule (I := fun _ => True)
    (P := fun (s : Dcache) l s' => s'.nrItems i + (l.length : ℤ) ≤ s.nrItems i)
  · simp
  · simp
  · intro s d l s' _ _ h
    rw [isolateOne_nrItems] at h
    split_ifs at h ⊢ <;> simp_all <;> omega
  · trivial

theorem killBatch_nrItems (batch : List ℕ) :
    (Dcache.killBatch batch freed s).2.nrItems = s.nrItems := by
  induction batch generalizing s freed with
  | nil => rfl
  | cons d _ ih =>
    rw [Dcache.killBatch, ih]
    unfold Dcache.lruKill Dcache.cmpxchg
    dsimp only
    split_ifs <;> rfl

variable {s i fuel} in
theorem shrinkNode_ends (hfuel : (s.nrItems i).toNat < fuel) :
    ∃ out, Dcache.shrinkNode nr i fuel freed s = some out := by
  induction fuel generalizing freed s with
  | zero => omega
  | succ _ ih =>
    rw [Dcache.shrinkNode]
    have hle := isolate_nrItems s i (s.nrItems i).toNat (min shrinkBatch (nr - freed))
    have hpos : s.nrItems i ≤ 0 →
        (s.isolate i (s.nrItems i).toNat (min shrinkBatch (nr - freed))).1.length = 0 := by
      intro h
      rw [Int.toNat_of_nonpos h]
      rfl
    generalize s.isolate i (s.nrItems i).toNat (min shrinkBatch (nr - freed)) = r at *
    split_ifs with hagain
    · have hbatch : shrinkBatch = 16 := rfl
      apply ih
      rw [killBatch_nrItems]
      omega
    · exact ⟨_, rfl⟩

theorem shrinkLists_ends : ∃ out, Dcache.shrinkLists nr n i freed s = some out := by
  induction n generalizing i freed s with
  | zero => exact ⟨_, rfl⟩
  | succ _ ih =>
    rw [Dcache.shrinkLists]
    split_ifs
    · obtain ⟨out, hout⟩ := shrinkNode_ends nr freed (Nat.lt_succ_self (s.nrItems i).toNat)
      rw [hout]
      exact ih out.2 (i + 1) out.1
    · exact ⟨_, rfl⟩

theorem dcShrink_ends (nr : ℤ) : ∃ out, s.dcShrink nr = some out := by
  rw [Dcache.dcShrink]
  split_ifs
  · exact ⟨_, rfl⟩
  · exact shrinkLists_ends s nr.toNat 0 lruNodes 0

end Ends

end TrieBenchmark.Seqlock.Lru
