import TrieBenchmark.Seqlock.Shrink

/-!
The second chance of a referenced entry. `dc_shrink` clears its bit, sends it to the tail and goes
on, batch after batch, so the same call may come round to it. Whether it does can be read off the
lists, bits and children the call starts with.
-/

namespace TrieBenchmark.Seqlock.Lru

open List Run

namespace Dcache

variable (s : Dcache)

/-- The full batches of what a list has given: they are evicted before the next one is taken. -/
def batched (taken : List ℕ) : List ℕ :=
  taken.take (taken.length / shrinkBatch * shrinkBatch)

/-- Not referenced, and without children once `gone` are evicted. -/
def ripe (gone : List ℕ) (d : ℕ) : Bool :=
  !s.referenced d && (s.children d).all (· ∈ gone)

/-- What a list has given after `taken` when each entry of `l` is met once, with `gone` evicted from
the lists before it. -/
def firstPass (gone : List ℕ) : List ℕ → List ℕ → List ℕ
  | taken, [] => taken
  | taken, d :: l =>
    firstPass gone (if s.ripe (gone ++ batched taken) d then taken ++ [d] else taken) l

/-- What the lists below `n` give when each entry is met once. -/
def victims : ℕ → List ℕ
  | 0 => []
  | n + 1 => victims n ++ s.firstPass (victims n) [] (s.items n)

def fullBatches (i : ℕ) : List ℕ :=
  batched (s.firstPass (s.victims i) [] (s.items i))

/-- `d` stands before an entry of a full batch of list `i` and is childless when the full batches
are evicted, and more is wanted than the lists up to `i` give when each entry is met once. -/
structure ComesRound (nr i d : ℕ) : Prop where
  wanted : (s.victims (i + 1)).length < nr
  before : ∃ x ∈ s.fullBatches i, [d, x] <+ s.items i
  childless : ∀ c ∈ s.children d, c ∈ s.victims i ++ s.fullBatches i

instance (nr i d : ℕ) : Decidable (s.ComesRound nr i d) :=
  decidable_of_iff ((s.victims (i + 1)).length < nr ∧ (∃ x ∈ s.fullBatches i, [d, x] <+ s.items i) ∧
    ∀ c ∈ s.children d, c ∈ s.victims i ++ s.fullBatches i)
    ⟨fun h => ⟨h.1, h.2.1, h.2.2⟩, fun h => ⟨h.wanted, h.before, h.childless⟩⟩

variable {s} in
theorem ComesRound.mem_items {nr i d : ℕ} (h : s.ComesRound nr i d) : d ∈ s.items i := by
  obtain ⟨x, -, hbefore⟩ := h.before
  exact hbefore.subset (mem_cons_self ..)

end Dcache

section FirstPass

variable {s : Dcache} {gone taken more l : List ℕ}

theorem ripe_iff {d : ℕ} : s.ripe gone d = true ↔
    s.referenced d = false ∧ ∀ c ∈ s.children d, c ∈ gone := by
  simp [Dcache.ripe]

theorem firstPass_append (l' : List ℕ) : s.firstPass gone taken (l ++ l') =
    s.firstPass gone (s.firstPass gone taken l) l' := by
  induction l generalizing taken with
  | nil => rfl
  | cons _ _ ih => exact ih

theorem firstPass_more (s : Dcache) (gone taken l : List ℕ) :
    ∃ more, s.firstPass gone taken l = taken ++ more ∧
      ∀ d ∈ more, d ∈ l ∧ s.referenced d = false := by
  induction l generalizing taken with
  | nil => exact ⟨[], (append_nil _).symm, by simp⟩
  | cons d l ih =>
    rw [Dcache.firstPass]
    split_ifs with hripe
    · obtain ⟨more, he, hmore⟩ := ih (taken ++ [d])
      refine ⟨d :: more, by rw [he, append_assoc, singleton_append], fun x hx => ?_⟩
      rcases mem_cons.mp hx with rfl | hx
      · exact ⟨mem_cons_self .., (ripe_iff.mp hripe).1⟩
      · exact ⟨mem_cons_of_mem _ (hmore x hx).1, (hmore x hx).2⟩
    · obtain ⟨more, he, hmore⟩ := ih taken
      exact ⟨more, he, fun x hx => ⟨mem_cons_of_mem _ (hmore x hx).1, (hmore x hx).2⟩⟩

theorem batched_append (hfull : shrinkBatch ∣ taken.length) (hmore : more.length < shrinkBatch) :
    Dcache.batched (taken ++ more) = taken := by
  obtain ⟨k, hk⟩ := hfull
  have hlen : (taken ++ more).length / shrinkBatch * shrinkBatch = taken.length := by
    rw [length_append, hk, Nat.mul_add_div (by decide), Nat.div_eq_of_lt hmore, Nat.add_zero,
      Nat.mul_comm]
  rw [Dcache.batched, hlen, take_left]

/-- As long as the batch is not full, ripe means ripe after the full batches before it. -/
theorem firstPass_batch (hfull : shrinkBatch ∣ taken.length)
    (hroom : ∀ l₁ d l₂, l = l₁ ++ d :: l₂ →
      more.length + (l₁.filter (s.ripe (gone ++ taken))).length < shrinkBatch) :
    s.firstPass gone (taken ++ more) l = taken ++ more ++ l.filter (s.ripe (gone ++ taken)) := by
  induction l generalizing more with
  | nil => exact (append_nil _).symm
  | cons d l ih =>
    have hmore : more.length < shrinkBatch := hroom [] d l rfl
    rw [Dcache.firstPass, batched_append hfull hmore]
    split_ifs with hripe
    · rw [append_assoc taken, ih, filter_cons_of_pos hripe]
      · simp
      · intro l₁ x l₂ he
        have h := hroom (d :: l₁) x l₂ (by rw [he, cons_append])
        rw [filter_cons_of_pos hripe, length_cons] at h
        rw [length_append, length_singleton]
        omega
    · rw [ih, filter_cons_of_neg hripe]
      intro l₁ x l₂ he
      have h := hroom (d :: l₁) x l₂ (by rw [he, cons_append])
      rwa [filter_cons_of_neg hripe] at h

theorem victims_length_le (s : Dcache) (n : ℕ) :
    (s.victims n).length ≤ (s.victims (n + 1)).length := by
  rw [Dcache.victims, length_append]
  exact Nat.le_add_right _ _

end FirstPass

/-- The state `u` between two batches of list `i`, in terms of the state `s` at the start of the
call: `done` was looked at, and `taken` of it was evicted, all in full batches. -/
structure Midway (s : Dcache) (i : ℕ) (done rest taken : List ℕ) (u : Dcache) : Prop where
  quiet : Quiet u
  nodup : (s.items i).Nodup
  start : s.items i = done ++ rest
  items : u.items i = rest ++ done.filter s.referenced
  given : s.firstPass (s.victims i) [] done = taken
  full : shrinkBatch ∣ taken.length
  last : ∀ d ∈ done, d ∈ taken ∨ ∃ x ∈ taken, [d, x] <+ done
  children : ∀ p c, c ∈ u.children p ↔ c ∈ s.children p ∧ c ∉ s.victims i ++ taken
  cleared : ∀ d ∈ done, u.referenced d = false
  ahead : ∀ d ∈ rest, u.referenced d = s.referenced d

/-- The loop over list `i` evicted `ev`, none of them referenced, and no entry comes round. -/
structure Spared (s : Dcache) (nr i : ℕ) (taken ev : List ℕ) (out : ℕ × Dcache) : Prop where
  fair : ∀ d ∈ ev, s.referenced d = false
  clear : ∀ d, s.ComesRound nr i d → s.referenced d = false
  victims : out.1 < nr → ∀ d, d ∈ s.victims (i + 1) ↔ d ∈ s.victims i ++ taken ∨ d ∈ ev
  count : out.1 < nr → out.1 = (s.victims (i + 1)).length
  enough : nr ≤ out.1 → nr ≤ (s.victims (i + 1)).length

def Breached (s : Dcache) (nr i : ℕ) (ev : List ℕ) : Prop :=
  (∃ d ∈ ev, s.referenced d = true) ∧ ∃ d, s.ComesRound nr i d ∧ s.referenced d = true

section

variable {s : Dcache} {nr i : ℕ} {taken ev ev' batch : List ℕ} {out : ℕ × Dcache}

theorem Breached.mono (h : Breached s nr i ev) (hsub : ev ⊆ ev') : Breached s nr i ev' := by
  obtain ⟨⟨d, hd, href⟩, h⟩ := h
  exact ⟨⟨d, hsub hd, href⟩, h⟩

theorem Spared.after (h : Spared s nr i (taken ++ batch) ev out)
    (hfair : ∀ d ∈ batch, s.referenced d = false) :
    Spared s nr i taken (ev ++ batch.reverse) out where
  fair d hd := by
    rcases mem_append.mp hd with hd | hd
    · exact h.fair d hd
    · exact hfair d (mem_reverse.mp hd)
  clear := h.clear
  victims hlt d := by
    rw [h.victims hlt, ← append_assoc, mem_append (t := batch), mem_append (t := batch.reverse),
      mem_reverse, or_assoc, or_comm (a := d ∈ batch)]
  count := h.count
  enough := h.enough

end

namespace Midway

variable {s u u' : Dcache} {nr i d freed fuel : ℕ} {done rest rest' taken met : List ℕ}
  {out : ℕ × Dcache}

theorem childless_iff (hM : Midway s i done rest taken u) :
    u.children d = [] ↔ ∀ c ∈ s.children d, c ∈ s.victims i ++ taken := by
  rw [eq_nil_iff_forall_not_mem]
  simp only [hM.children, not_and, not_not]

theorem evictable_ahead (hM : Midway s i done rest taken u) (hd : d ∈ rest) :
    u.evictable d = s.ripe (s.victims i ++ taken) d := by
  rw [Bool.eq_iff_iff, ripe_iff, ← hM.childless_iff, ← hM.ahead d hd]
  simp [Dcache.evictable]

theorem evictable_cleared (hM : Midway s i done rest taken u) (hd : d ∈ done) :
    u.evictable d = true ↔ ∀ c ∈ s.children d, c ∈ s.victims i ++ taken := by
  rw [← hM.childless_iff]
  simp [Dcache.evictable, hM.cleared d hd]

theorem not_referenced_of_taken (hM : Midway s i done rest taken u) (hd : d ∈ taken) :
    d ∈ done ∧ s.referenced d = false := by
  obtain ⟨more, he, hmore⟩ := firstPass_more s (s.victims i) [] done
  rw [hM.given, nil_append] at he
  exact hmore d (he ▸ hd)

theorem mem_done_of_before (hM : Midway s i done rest taken u) {x : ℕ} (hx : x ∈ done)
    (hbefore : [d, x] <+ s.items i) : d ∈ done := by
  have hnd := hM.nodup
  rw [hM.start] at hnd hbefore
  obtain ⟨l₁, l₂, he, hl₁, hl₂⟩ := sublist_append_iff.mp hbefore
  cases l₁ with
  | nil =>
    obtain rfl : [d, x] = l₂ := he
    exact absurd rfl ((nodup_append.mp hnd).2.2 x hx x (hl₂.subset (by simp)))
  | cons y =>
    obtain ⟨rfl, -⟩ := cons_eq_cons.mp he
    exact hl₁.subset (mem_cons_self ..)

theorem filter_ahead (hM : Midway s i done rest taken u) {l : List ℕ} (hl : l ⊆ rest) :
    l.filter u.evictable = l.filter (s.ripe (s.victims i ++ taken)) :=
  filter_congr fun _ hd => hM.evictable_ahead (hl hd)

theorem fair_ahead (hM : Midway s i done rest taken u) {l : List ℕ} (hl : l ⊆ rest) :
    ∀ d ∈ l.filter u.evictable, s.referenced d = false := by
  intro d hd
  rw [hM.filter_ahead hl, mem_filter, ripe_iff] at hd
  exact hd.2.1

/-- What the list gives up to `met`, when `met` is the rest or a part of it with room for each. -/
theorem firstPass_met (hM : Midway s i done rest taken u) (hmet : met ⊆ rest)
    (hroom : ∀ l d l', met = l ++ d :: l' → (l.filter u.evictable).length < shrinkBatch) :
    s.firstPass (s.victims i) [] (done ++ met) = taken ++ met.filter u.evictable := by
  have h : s.firstPass (s.victims i) (taken ++ []) met =
      taken ++ [] ++ met.filter (s.ripe (s.victims i ++ taken)) := by
    refine firstPass_batch hM.full fun l₁ d l₂ he => ?_
    have hsub : l₁ ⊆ rest := fun x hx => hmet (by simp [he, hx])
    rw [← hM.filter_ahead hsub, length_nil, Nat.zero_add]
    exact hroom l₁ d l₂ he
  rw [append_nil, ← hM.filter_ahead hmet] at h
  rw [firstPass_append, hM.given, h]

/-- A full batch from the rest. -/
theorem next (hM : Midway s i done (met ++ rest) taken u)
    (hR : Round i shrinkBatch u met (rest ++ done.filter s.referenced) u')
    (hfull : (met.filter u.evictable).length = shrinkBatch) :
    Midway s i (done ++ met) rest (taken ++ met.filter u.evictable) u' := by
  have hnd := hM.nodup
  rw [hM.start, ← append_assoc] at hnd
  have hdisj : ∀ d ∈ rest, d ∉ met := fun d hd hmet =>
    (nodup_append.mp hnd).2.2 d (mem_append_right _ hmet) d hd rfl
  have hsub : met ⊆ met ++ rest := subset_append_left _ _
  refine ⟨hR.evicts.quiet, hM.nodup, ?_, ?_, hM.firstPass_met hsub hR.room, ?_, ?_, ?_, ?_, ?_⟩
  · rw [hM.start, append_assoc]
  · have hbits : met.filter u.referenced = met.filter s.referenced :=
      filter_congr fun d hd => hM.ahead d (hsub hd)
    rw [hR.left, hbits, filter_append, append_assoc]
  · rw [length_append, hfull]
    exact Nat.dvd_add hM.full (Nat.dvd_refl _)
  · -- the last entry looked at is the one that filled the batch
    rcases eq_nil_or_concat met with rfl | ⟨l, x, rfl⟩
    · cases hfull
    have hlt := hR.room l x [] (by rw [concat_eq_append])
    have hx : u.evictable x = true := by
      by_contra hx
      rw [concat_eq_append, filter_append, filter_cons_of_neg hx, filter_nil, append_nil] at hfull
      omega
    intro d hd
    rw [concat_eq_append, ← append_assoc, mem_append, mem_singleton] at hd
    rcases hd with hd | rfl
    · refine .inr ⟨x, by simp [hx], ?_⟩
      rw [concat_eq_append, ← append_assoc]
      exact (singleton_sublist.mpr hd).append (Sublist.refl [x])
    · exact .inl (by simp [hx])
  · intro p c
    rw [hR.evicts.children, hM.children, ← append_assoc, mem_append (t := met.filter _), mem_reverse,
      not_or, and_assoc]
  · intro d hd
    rw [hR.referenced]
    split_ifs with hmet
    · rfl
    · exact hM.cleared d ((mem_append.mp hd).resolve_right hmet)
  · intro d hd
    rw [hR.referenced, if_neg (hdisj d hd)]
    exact hM.ahead d (mem_append_right _ hd)

theorem fullBatches_eq {last : List ℕ} (hM : Midway s i done rest taken u)
    (hwhole : s.firstPass (s.victims i) [] (s.items i) = taken ++ last)
    (hlast : last.length < shrinkBatch) : s.fullBatches i = taken := by
  rw [Dcache.fullBatches, hwhole, batched_append hM.full hlast]

/-- What was sent to the tail comes round if it can be evicted when the list has been met once and
more is wanted. -/
theorem comesRound {last : List ℕ} (hM : Midway s i done rest taken u)
    (hwhole : s.firstPass (s.victims i) [] (s.items i) = taken ++ last)
    (hlast : last.length < shrinkBatch) (hnr : (s.victims i ++ taken).length + last.length < nr)
    (hd : d ∈ done) (href : s.referenced d = true) (hev : u.evictable d = true) :
    s.ComesRound nr i d := by
  refine ⟨?_, ?_, ?_⟩
  · rw [Dcache.victims, hwhole, ← append_assoc, length_append]
    exact hnr
  · rcases hM.last d hd with h | ⟨x, hx, hbefore⟩
    · rw [(hM.not_referenced_of_taken h).2] at href
      cases href
    · rw [hM.fullBatches_eq hwhole hlast, hM.start]
      exact ⟨x, hx, hbefore.trans (sublist_append_left _ _)⟩
  · rw [hM.fullBatches_eq hwhole hlast]
    exact (hM.evictable_cleared hd).mp hev

/-- The loop ends with a batch that is not full, and nothing that was sent to the tail can be
evicted. -/
theorem spared {last : List ℕ} (hM : Midway s i done rest taken u)
    (hwhole : s.firstPass (s.victims i) [] (s.items i) = taken ++ last)
    (hlast : last.length < shrinkBatch) (hfair : ∀ d ∈ last, s.referenced d = false)
    (hfreed : freed = (s.victims i ++ taken).length)
    (hnone : ∀ d ∈ done, s.referenced d = true → ¬u.evictable d = true) :
    Spared s nr i taken last.reverse (freed + last.length, u') := by
  have hvictims : s.victims (i + 1) = s.victims i ++ taken ++ last := by
    rw [Dcache.victims, hwhole, append_assoc]
  have hlen : freed + last.length = (s.victims (i + 1)).length := by
    rw [hvictims, length_append, hfreed]
  refine ⟨fun d hd => hfair d (mem_reverse.mp hd), fun d hd => ?_, fun _ d => ?_, fun _ => hlen,
    fun h => hlen ▸ h⟩
  · obtain ⟨-, ⟨x, hx, hbefore⟩, hkids⟩ := hd
    rw [hM.fullBatches_eq hwhole hlast] at hx hkids
    have hdone : d ∈ done := hM.mem_done_of_before (hM.not_referenced_of_taken hx).1 hbefore
    by_contra href
    have href : s.referenced d = true := by simpa using href
    exact hnone d hdone href ((hM.evictable_cleared hdone).mpr hkids)
  · rw [hvictims, mem_append, mem_reverse]

/-- The loop ends because enough is evicted. -/
theorem enough (hM : Midway s i done (met ++ rest) taken u)
    (hroom : ∀ l d l', met = l ++ d :: l' → (l.filter u.evictable).length < shrinkBatch)
    (hfreed : freed = (s.victims i ++ taken).length)
    (hnr : nr ≤ freed + (met.filter u.evictable).length) :
    Spared s nr i taken (met.filter u.evictable).reverse
      (freed + (met.filter u.evictable).length, u') := by
  have hsub : met ⊆ met ++ rest := subset_append_left _ _
  have hvictims : nr ≤ (s.victims (i + 1)).length := by
    obtain ⟨more, he, -⟩ := firstPass_more s (s.victims i) (taken ++ met.filter u.evictable) rest
    rw [Dcache.victims, hM.start, ← append_assoc, firstPass_append, hM.firstPass_met hsub hroom, he]
    simp only [length_append] at hfreed ⊢
    omega
  exact ⟨fun d hd => hM.fair_ahead hsub d (mem_reverse.mp hd),
    fun d hd => absurd hd.wanted (Nat.not_lt.mpr hvictims), fun h => absurd hnr (Nat.not_le.mpr h),
    fun h => absurd hnr (Nat.not_le.mpr h), fun _ => hvictims⟩

/-- The batch reaches what was sent to the tail. -/
theorem turned {met : List ℕ} {y : ℕ} (hM : Midway s i done rest taken u)
    (hrot : done.filter s.referenced = y :: met ++ rest')
    (hR : Round i (min shrinkBatch (nr - freed)) u (rest ++ y :: met) rest' u')
    (hfreed : freed = (s.victims i ++ taken).length) :
    Breached s nr i ((rest ++ y :: met).filter u.evictable).reverse ∨
      ((rest ++ y :: met).filter u.evictable).length < shrinkBatch ∧
      Spared s nr i taken ((rest ++ y :: met).filter u.evictable).reverse
        (freed + ((rest ++ y :: met).filter u.evictable).length, u') := by
  have hlast : (rest.filter u.evictable).length < min shrinkBatch (nr - freed) :=
    hR.room rest y met rfl
  have hwhole : s.firstPass (s.victims i) [] (s.items i) = taken ++ rest.filter u.evictable := by
    rw [hM.start]
    apply hM.firstPass_met (Subset.refl rest)
    intro l d l' he
    have hle : (l.filter u.evictable).length ≤ (rest.filter u.evictable).length := by
      rw [he, filter_append, length_append]
      exact Nat.le_add_right _ _
    omega
  have hsent : ∀ d, d ∈ y :: met ++ rest' ↔ d ∈ done ∧ s.referenced d = true := by
    intro d
    rw [← hrot, mem_filter]
  by_cases hany : ∃ d ∈ y :: met ++ rest', u.evictable d = true
  · have hmet : ∃ d ∈ y :: met, u.evictable d = true := by
      by_contra hno
      push Not at hno
      have hnil : (y :: met).filter u.evictable = [] := filter_eq_nil_iff.mpr hno
      have hrest : rest' = [] := by
        refine hR.stop.resolve_right fun h => ?_
        rw [filter_append, hnil, append_nil] at h
        omega
      obtain ⟨d, hd, hev⟩ := hany
      rw [hrest, append_nil] at hd
      exact hno d hd hev
    obtain ⟨d, hd, hev⟩ := hmet
    obtain ⟨hdone, href⟩ := (hsent d).mp (mem_append_left _ hd)
    refine .inl ⟨⟨d, ?_, href⟩, d, hM.comesRound hwhole (by omega) (by omega) hdone href hev, href⟩
    rw [mem_reverse, mem_filter]
    exact ⟨mem_append_right _ hd, hev⟩
  · have hnil : (y :: met).filter u.evictable = [] := by
      rw [filter_eq_nil_iff]
      exact fun d hd hev => hany ⟨d, mem_append_left _ hd, hev⟩
    rw [filter_append, hnil, append_nil]
    exact .inr ⟨by omega, hM.spared hwhole (by omega) (hM.fair_ahead (Subset.refl rest)) hfreed
      fun d hd href hev => hany ⟨d, (hsent d).mpr ⟨hd, href⟩, hev⟩⟩

theorem shrinkNode (hM : Midway s i done rest taken u)
    (hfreed : freed = (s.victims i ++ taken).length) (hlt : freed < nr)
    (hout : Dcache.shrinkNode nr i fuel freed u = some out) :
    ∃ ev, Rounds nr i freed u ev out ∧ (Breached s nr i ev ∨ Spared s nr i taken ev out) := by
  induction fuel generalizing freed done rest taken u with
  | zero => cases hout
  | succ fuel ih =>
    obtain ⟨met, rest', u', hR, hnode⟩ := shrinkNode_succ hM.quiet nr i fuel freed
    rw [hnode] at hout
    have hround := hR.rounds hM.quiet
    have hle := hR.le
    have hcases : (∃ ahead, rest = met ++ ahead ∧ rest' = ahead ++ done.filter s.referenced) ∨
        ∃ y met', met = rest ++ y :: met' ∧ done.filter s.referenced = y :: met' ++ rest' := by
      rcases append_eq_append_iff.mp (hR.items.symm.trans hM.items) with h | ⟨c, hmet, hrot⟩
      · exact .inl h
      · cases c with
        | nil => exact .inl ⟨[], by simpa using hmet.symm, by simpa using hrot.symm⟩
        | cons y met' => exact .inr ⟨y, met', hmet, hrot⟩
    rcases hcases with ⟨ahead, rfl, rfl⟩ | ⟨y, met, rfl, hrot⟩
    · have hroom : ∀ l d l', met = l ++ d :: l' → (l.filter u.evictable).length < shrinkBatch :=
        fun l d l' he => Nat.lt_of_lt_of_le (hR.room l d l' he) (Nat.min_le_left _ _)
      split_ifs at hout with hagain
      · have hmin : min shrinkBatch (nr - freed) = shrinkBatch := by omega
        rw [hmin] at hR
        obtain ⟨ev, hrest, hres⟩ := ih (hM.next hR hagain.1)
          (by rw [hfreed, ← append_assoc, @length_append _ _ (met.filter _)]) hagain.2 hout
        refine ⟨_, hround.trans hrest hagain.2, hres.imp (·.mono (subset_append_left _ _)) (·.after ?_)⟩
        exact hM.fair_ahead (subset_append_left _ _)
      · obtain rfl := Option.some.inj hout
        refine ⟨_, hround, .inr ?_⟩
        by_cases hnr : nr ≤ freed + (met.filter u.evictable).length
        · exact hM.enough hroom hfreed hnr
        · have hstop := append_eq_nil_iff.mp (hR.stop.resolve_right (by omega))
          obtain rfl := hstop.1
          rw [append_nil] at hM
          have hwhole : s.firstPass (s.victims i) [] (s.items i) =
              taken ++ met.filter u.evictable := by
            rw [hM.start]
            exact hM.firstPass_met (Subset.refl met) hroom
          apply hM.spared hwhole (by omega) (hM.fair_ahead (Subset.refl met)) hfreed
          intro d hd href
          exact absurd href (filter_eq_nil_iff.mp hstop.2 d hd)
    · rcases hM.turned hrot hR hfreed with hbreach | ⟨hshort, hspared⟩
      · split_ifs at hout with hagain
        · obtain ⟨ev, hrest⟩ := shrinkNode_rounds hR.evicts.quiet hout
          exact ⟨_, hround.trans hrest hagain.2, .inl (hbreach.mono (subset_append_right _ _))⟩
        · obtain rfl := Option.some.inj hout
          exact ⟨_, hround, .inl hbreach⟩
      · rw [if_neg fun h => Nat.ne_of_lt hshort h.1] at hout
        obtain rfl := Option.some.inj hout
        exact ⟨_, hround, .inr hspared⟩

end Midway

theorem shrinkLists_succ (nr n i freed : ℕ) (s : Dcache) :
    Dcache.shrinkLists nr (n + 1) i freed s =
      (Dcache.shrinkLists nr n i freed s).bind fun out =>
        if out.1 < nr then
          Dcache.shrinkNode nr (i + n) ((out.2.nrItems (i + n)).toNat + 1) out.1 out.2
        else some out := by
  induction n generalizing i freed s with
  | zero =>
    rw [Dcache.shrinkLists, Dcache.shrinkLists]
    split_ifs with h
    · rw [Option.bind_some, if_pos h, Nat.add_zero]
      cases Dcache.shrinkNode nr i ((s.nrItems i).toNat + 1) freed s <;> rfl
    · simp [h]
  | succ _ ih =>
    rw [Dcache.shrinkLists, Dcache.shrinkLists]
    split_ifs with h
    · rw [Option.bind_assoc]
      congr 1
      funext out
      rw [ih, Nat.add_right_comm, Nat.add_assoc]
    · simp [h]

/-- The lists below `n` gave `ev`, none of them referenced, and no entry comes round. -/
structure Fair (s : Dcache) (nr n : ℕ) (ev : List ℕ) (out : ℕ × Dcache) : Prop where
  fair : ∀ d ∈ ev, s.referenced d = false
  clear : ∀ i < n, ∀ d, s.ComesRound nr i d → s.referenced d = false
  victims : out.1 < nr → ∀ d, d ∈ s.victims n ↔ d ∈ ev
  count : out.1 < nr → out.1 = (s.victims n).length
  enough : nr ≤ out.1 → nr ≤ (s.victims n).length

structure Swept (nr n : ℕ) (s : Dcache) (ev : List ℕ) (out : ℕ × Dcache) : Prop where
  count : out.1 = ev.length
  le : out.1 ≤ nr
  evicts : Evicts s ev out.2
  intact : ∀ j, n ≤ j → out.2.items j = s.items j ∧
    ∀ d ∈ s.items j, out.2.referenced d = s.referenced d
  chances : (∃ i < n, Breached s nr i ev) ∨ Fair s nr n ev out

section Swept

variable {s : Dcache} {nr n : ℕ} {ev ev' : List ℕ} {out out' : ℕ × Dcache}

theorem Swept.midway (hs : Quiet s) (hS : Swept nr n s ev out) (hF : Fair s nr n ev out)
    (hlt : out.1 < nr) : Midway s n [] (s.items n) [] out.2 where
  quiet := hS.evicts.quiet
  nodup := hs.nodup_items n
  start := rfl
  items := by rw [(hS.intact n (Nat.le_refl n)).1, filter_nil, append_nil]
  given := rfl
  full := Nat.dvd_zero _
  last _ h := by cases h
  children p c := by rw [hS.evicts.children, append_nil, hF.victims hlt]
  cleared _ h := by cases h
  ahead := (hS.intact n (Nat.le_refl n)).2

theorem Fair.next (hF : Fair s nr n ev out) (hlt : out.1 < nr) (hN : Spared s nr n [] ev' out') :
    Fair s nr (n + 1) (ev' ++ ev) out' where
  fair d hd := (mem_append.mp hd).elim (hN.fair d) (hF.fair d)
  clear i hi := by
    rcases Nat.lt_succ_iff_lt_or_eq.mp hi with hi | rfl
    · exact hF.clear i hi
    · exact hN.clear
  victims h d := by
    rw [hN.victims h, append_nil, hF.victims hlt, mem_append, or_comm]
  count := hN.count
  enough := hN.enough

theorem Fair.stop (hF : Fair s nr n ev out) (hge : nr ≤ out.1) : Fair s nr (n + 1) ev out := by
  have henough : nr ≤ (s.victims (n + 1)).length := Nat.le_trans (hF.enough hge) (victims_length_le s n)
  refine ⟨hF.fair, fun i hi => ?_, fun h => absurd hge (Nat.not_le.mpr h),
    fun h => absurd hge (Nat.not_le.mpr h), fun _ => henough⟩
  rcases Nat.lt_succ_iff_lt_or_eq.mp hi with hi | rfl
  · exact hF.clear i hi
  · exact fun d hd => absurd hd.wanted (Nat.not_lt.mpr henough)

theorem shrinkLists_swept (hs : Quiet s) (hout : Dcache.shrinkLists nr n 0 0 s = some out) :
    ∃ ev, Swept nr n s ev out := by
  induction n generalizing out with
  | zero =>
    obtain rfl := Option.some.inj hout
    exact ⟨[], rfl, Nat.zero_le _, .refl hs, fun _ _ => ⟨rfl, fun _ _ => rfl⟩, .inr
      ⟨fun _ h => (by cases h), fun _ h => (by cases h), fun _ _ => Iff.rfl, fun _ => rfl, id⟩⟩
  | succ n ih =>
    rw [shrinkLists_succ, Nat.zero_add] at hout
    obtain ⟨mid, hmid, hout⟩ := Option.bind_eq_some_iff.mp hout
    obtain ⟨ev, hS⟩ := ih hmid
    split_ifs at hout with hlt
    · have hnext : ∃ ev', Rounds nr n mid.1 mid.2 ev' out ∧
          ((∃ i < n + 1, Breached s nr i (ev' ++ ev)) ∨ Fair s nr (n + 1) (ev' ++ ev) out) := by
        rcases hS.chances with ⟨i, hi, hB⟩ | hF
        · obtain ⟨ev', hR⟩ := shrinkNode_rounds hS.evicts.quiet hout
          exact ⟨ev', hR, .inl ⟨i, Nat.lt_succ_of_lt hi, hB.mono (subset_append_right _ _)⟩⟩
        · obtain ⟨ev', hR, hB | hN⟩ := (hS.midway hs hF hlt).shrinkNode
            (by rw [append_nil, hF.count hlt]) hlt hout
          · exact ⟨ev', hR, .inl ⟨n, Nat.lt_succ_self n, hB.mono (subset_append_left _ _)⟩⟩
          · exact ⟨ev', hR, .inr (hF.next hlt hN)⟩
      obtain ⟨ev', hR, hchances⟩ := hnext
      refine ⟨ev' ++ ev, ?_, hR.le hS.le, hS.evicts.trans hR.evicts, fun j hj => ?_, hchances⟩
      · rw [hR.count, hS.count, length_append, Nat.add_comm]
      · obtain ⟨hitems, href⟩ := hS.intact j (Nat.le_of_succ_le hj)
        obtain ⟨hitems', href'⟩ := hR.elsewhere j (Nat.ne_of_gt hj)
        refine ⟨hitems'.trans hitems, fun d hd => ?_⟩
        rw [href' d (hitems ▸ hd), href d hd]
    · obtain rfl := Option.some.inj hout
      refine ⟨ev, hS.count, hS.le, hS.evicts, fun j hj => hS.intact j (Nat.le_of_succ_le hj), ?_⟩
      rcases hS.chances with ⟨i, hi, hB⟩ | hF
      · exact .inl ⟨i, Nat.lt_succ_of_lt hi, hB⟩
      · exact .inr (hF.stop (Nat.not_lt.mp hlt))

end Swept

/-- `dc_shrink` with nothing else running: it ends, evicts at most `nr` dentries and returns their
number, and a dentry had lost its children before it was evicted. The referenced ones stay if, and
only if, none of them comes round. -/
theorem dcShrink_second_chance {s : Dcache} (hs : Quiet s) (nr : ℤ) :
    ∃ freed s' ev, s.dcShrink nr = some (freed, s') ∧ s'.reclaim = ev ++ s.reclaim ∧
      freed = ev.length ∧ (freed : ℤ) ≤ max nr 0 ∧
      (∀ post d pre, ev = post ++ d :: pre → ∀ c ∈ s.children d, c ∈ pre) ∧
      ((∀ d ∈ ev, s.referenced d = false) ↔
        ∀ i < lruNodes, ∀ d, s.ComesRound nr.toNat i d → s.referenced d = false) := by
  rw [Dcache.dcShrink]
  split_ifs with hnr
  · refine ⟨0, s, [], rfl, rfl, rfl, by omega, fun _ _ _ h => by simp at h,
      iff_of_true (fun _ h => by cases h) fun i _ d hd => ?_⟩
    have := hd.wanted
    omega
  · obtain ⟨out, hout⟩ := shrinkLists_ends s nr.toNat 0 lruNodes 0
    obtain ⟨ev, hS⟩ := shrinkLists_swept hs hout
    refine ⟨out.1, out.2, ev, hout, hS.evicts.reclaim, hS.count, ?_, hS.evicts.childless, ?_⟩
    · have hle := hS.le
      omega
    · rcases hS.chances with ⟨i, hi, ⟨d, hd, href⟩, e, hround, hbit⟩ | hF
      · refine iff_of_false (fun h => ?_) fun h => ?_
        · exact absurd (h d hd) (by simp [href])
        · exact absurd (h i hi e hround) (by simp [hbit])
      · exact iff_of_true hF.fair hF.clear

/-- `n` files below the root, and a walk that finds file `d`. -/
def fill (n d : ℕ) : List Act :=
  (range n).flatMap (fun _ => .call 0 (.add root 0) :: replicate 5 (.step 0)) ++
    .call 0 (.retain d 0) :: replicate 2 (.step 0)

theorem fill_thread {n d : ℕ} {a : Act} (ha : a ∈ fill n d) : a.thread = 0 := by
  simp only [fill, mem_append, mem_flatMap, mem_cons, mem_replicate] at ha
  rcases ha with ⟨-, -, rfl | ⟨-, rfl⟩⟩ | rfl | ⟨-, rfl⟩ <;> rfl

theorem fill_idle {n d : ℕ} {s : Sys} (h : exec Sys.act Sys.init (fill n d) = some s)
    (h₀ : s.pc 0 = .idle) (t : ℕ) : s.pc t = .idle := by
  rcases eq_or_ne t 0 with rfl | ht
  · exact h₀
  · rw [exec_pc_of_ne (fun a ha => by rw [fill_thread ha]; exact ht) h]
    rfl

/-- Of seventeen entries the last one is referenced: it stays, the others are evicted. -/
theorem dcShrink_second_chance_last : ∃ s : Sys, Reach Sys.act (fun _ _ => True) Sys.init s ∧
    s.d.referenced 17 = true ∧ ∃ freed s' ev, s.d.dcShrink 32 = some (freed, s') ∧
      s'.reclaim = ev ++ s.d.reclaim ∧ ev.length = 16 ∧ ∀ d ∈ ev, s.d.referenced d = false := by
  have hrun : (exec Sys.act Sys.init (fill 17 17)).map (fun s => (s.pc 0, s.d.referenced 17,
      (s.d.dcShrink 32).map (·.1), decide (∀ i ∈ range lruNodes, ∀ d ∈ s.d.items i,
        s.d.ComesRound 32 i d → s.d.referenced d = false))) = some (.idle, true, some 16, true) := by
    rfl
  obtain ⟨s, hs, hobs⟩ := Option.map_eq_some_iff.mp hrun
  obtain ⟨hpc, href, hfreed, hclear⟩ : s.pc 0 = .idle ∧ s.d.referenced 17 = true ∧
      (s.d.dcShrink 32).map (·.1) = some 16 ∧ ∀ i ∈ range lruNodes, ∀ d ∈ s.d.items i,
        s.d.ComesRound 32 i d → s.d.referenced d = false := by simpa using hobs
  have hquiet : Quiet s.d := reach_quiet (reach_exec hs) fun t => .inl (fill_idle hs hpc t)
  obtain ⟨freed, s', ev, hout, hev, hlen, -, -, hfair⟩ := dcShrink_second_chance hquiet 32
  refine ⟨s, reach_exec hs, href, freed, s', ev, hout, hev, ?_, hfair.mpr fun i hi d hd => ?_⟩
  · rw [hout] at hfreed
    rw [← hlen]
    exact Option.some.inj hfreed
  · exact hclear i (mem_range.mpr hi) d hd.mem_items hd

/-- The referenced entry is sent to the tail by the first batch and evicted by the second. -/
theorem dcShrink_evicts_referenced : ∃ s : Sys, Reach Sys.act (fun _ _ => True) Sys.init s ∧
    (∀ t, s.pc t = .idle) ∧ s.d.referenced 1 = true ∧ s.d.reclaim = [] ∧
    ∃ freed s', s.d.dcShrink 32 = some (freed, s') ∧ 1 ∈ s'.reclaim := by
  have hrun : (exec Sys.act Sys.init (fill 17 1)).map (fun s => (s.pc 0, s.d.referenced 1, s.d.reclaim,
      (s.d.dcShrink 32).map fun out => decide (1 ∈ out.2.reclaim))) =
      some (.idle, true, [], some true) := by
    rfl
  obtain ⟨s, hs, hobs⟩ := Option.map_eq_some_iff.mp hrun
  obtain ⟨hpc, href, hrec, hout⟩ : s.pc 0 = .idle ∧ s.d.referenced 1 = true ∧ s.d.reclaim = [] ∧
      (s.d.dcShrink 32).map (fun out => decide (1 ∈ out.2.reclaim)) = some true := by
    simpa using hobs
  obtain ⟨out, hout, hmem⟩ := Option.map_eq_some_iff.mp hout
  exact ⟨s, reach_exec hs, fill_idle hs hpc, href, hrec, out.1, out.2, hout,
    of_decide_eq_true hmem⟩

end TrieBenchmark.Seqlock.Lru
