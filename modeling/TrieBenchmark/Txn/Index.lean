import TrieBenchmark.Txn.Machine

/-!
The two indexes of the lock-free engine: which dentries are in them, and that every commit keeps
each entry in the bucket of its name and in the child list of its parent, names unique, and
`d_top` right.
-/

namespace TrieBenchmark.Txn

open List Edits

variable {Name : Type} {d d' : Cache Name} {a : ℕ}

structure IndexOk (d : Cache Name) : Prop where
  nodup : ∀ b, (d.hash b).Nodup
  home : ∀ b, ∀ a ∈ d.hash b, d.bucket a = b
  kidsNodup : ∀ p, (d.kids p).Nodup
  kids : ∀ p a, a ∈ d.kids p ↔ d.linked a ∧ (d.dentry a).iparent = p
  alloc : ∀ a, d.linked a → a < d.fresh ∧ a ≠ root
  live : ∀ a < d.fresh, a ≠ root → (d.mark a = false ↔ d.linked a)
  unique : ∀ a a', d.linked a → d.linked a' → (d.dentry a).iparent = (d.dentry a').iparent →
    (d.dentry a).iname = (d.dentry a').iname → a = a'
  top : ∀ a, d.linked a → (d.dentry (d.hostOf a)).top = Cache.dtopVal (d.hostOf a) a
  shell : ∀ a < d.fresh, (d.dentry a).shell = true → ∃ h, (d.dentry a).host = some h ∧
    h < d.fresh ∧ h ≠ root ∧ (d.dentry h).shell = false
  topShell : ∀ a < d.fresh, (d.dentry a).shell = false → ∀ n, (d.dentry a).top = some n →
    n < d.fresh ∧ (d.dentry n).shell = true ∧ (d.dentry n).host = some a
  rootHost : root < d.fresh ∧ (d.dentry root).shell = false ∧ (d.dentry root).top = none ∧
    d.mark root = false

namespace Cache

theorem hostOf_of_host (h : (d.dentry a).shell = false) : d.hostOf a = a := by
  simp [hostOf, h]

theorem hostOf_congr (h : d'.dentry a = d.dentry a) : d'.hostOf a = d.hostOf a := by
  unfold hostOf
  rw [h]

theorem dtopVal_inj {h a a' : ℕ} (he : dtopVal h a = dtopVal h a') : a = a' := by
  unfold dtopVal at he
  split_ifs at he with h₁ h₂ h₂
  · exact h₁.trans h₂.symm
  · exact Option.some.inj he

theorem next_of_linked (h : d.linked a) : d.next a = succ a (d.hash (d.bucket a)) :=
  if_pos h

theorem next_of_not_linked (h : ¬ d.linked a) : d.next a = d.after a :=
  if_neg h

end Cache

namespace IndexOk

theorem linked_of_mem (hI : IndexOk d) {a b : ℕ} (ha : a ∈ d.hash b) : d.linked a := by
  unfold Cache.linked
  rwa [hI.home b a ha]

theorem not_mark (hI : IndexOk d) (ha : d.linked a) : d.mark a = false :=
  (hI.live a (hI.alloc a ha).1 (hI.alloc a ha).2).mpr ha

theorem hostOf_host (hI : IndexOk d) (ha : a < d.fresh) :
    d.hostOf a < d.fresh ∧ (d.dentry (d.hostOf a)).shell = false := by
  cases hs : (d.dentry a).shell with
  | true =>
    obtain ⟨h, hh, hlt, -, hhost⟩ := hI.shell a ha hs
    have he : d.hostOf a = h := by simp [Cache.hostOf, hs, hh]
    rw [he]
    exact ⟨hlt, hhost⟩
  | false =>
    rw [Cache.hostOf_of_host hs]
    exact ⟨ha, hs⟩

theorem hostOf_ne_root (hI : IndexOk d) (ha : a < d.fresh) (hr : a ≠ root) :
    d.hostOf a ≠ root := by
  cases hs : (d.dentry a).shell with
  | true =>
    obtain ⟨h, hh, -, hne, -⟩ := hI.shell a ha hs
    simpa [Cache.hostOf, hs, hh] using hne
  | false => rwa [Cache.hostOf_of_host hs]

theorem hostOf_hostOf (hI : IndexOk d) (ha : a < d.fresh) :
    d.hostOf (d.hostOf a) = d.hostOf a :=
  Cache.hostOf_of_host (hI.hostOf_host ha).2

theorem lt (hI : IndexOk d) (ha : d.linked a) : a < d.fresh :=
  (hI.alloc a ha).1

theorem host_lt (hI : IndexOk d) (ha : d.linked a) : d.hostOf a < d.fresh :=
  (hI.hostOf_host (hI.lt ha)).1

theorem host_ne_root (hI : IndexOk d) (ha : d.linked a) : d.hostOf a ≠ root :=
  hI.hostOf_ne_root (hI.lt ha) (hI.alloc a ha).2

theorem hostOf_inj (hI : IndexOk d) {a a' : ℕ} (ha : d.linked a) (ha' : d.linked a')
    (he : d.hostOf a = d.hostOf a') : a = a' := by
  have h₁ := hI.top a ha
  have h₂ := hI.top a' ha'
  rw [he] at h₁
  exact Cache.dtopVal_inj (h₁.symm.trans h₂)

theorem host_not_linked (hI : IndexOk d) {n : ℕ} (hn : d.linked n)
    (hs : (d.dentry n).shell = true) : ¬ d.linked (d.hostOf n) := by
  intro hh
  have hlt := hI.lt hn
  have heq := hI.hostOf_inj hh hn (hI.hostOf_hostOf hlt)
  have hhost := (hI.hostOf_host hlt).2
  rw [heq] at hhost
  exact absurd hs (by simp [hhost])

theorem next_linked (hI : IndexOk d) {a b : ℕ} (ha : d.linked a) (hb : d.next a = some b) :
    d.linked b := by
  rw [Cache.next_of_linked ha] at hb
  exact hI.linked_of_mem (succ_mem hb)

variable [DecidableEq Name]

theorem spells_iff {d : Cache Name} {parent : ℕ} {name : Name} :
    d.spells parent name a = true ↔
      (d.dentry a).iparent = parent ∧ (d.dentry a).iname = name := by
  simp [Cache.spells]

theorem findTop_eq_some (hI : IndexOk d) {parent : ℕ} {name : Name} :
    d.findTop parent name = some a ↔
      d.linked a ∧ (d.dentry a).iparent = parent ∧ (d.dentry a).iname = name := by
  constructor
  · intro hf
    exact ⟨hI.linked_of_mem (mem_of_find?_eq_some hf), spells_iff.mp (find?_some hf)⟩
  · rintro ⟨ha, hp, hn⟩
    have hmem : a ∈ d.hash (d.bucketOf parent name) := by
      have hb := ha
      rwa [Cache.linked, Cache.bucket, hp, hn] at hb
    cases hf : d.findTop parent name with
    | none => exact absurd (spells_iff.mpr ⟨hp, hn⟩) (find?_eq_none.mp hf a hmem)
    | some a' =>
      obtain ⟨hp', hn'⟩ := spells_iff.mp (find?_some hf)
      have ha' := hI.linked_of_mem (mem_of_find?_eq_some hf)
      rw [hI.unique a a' ha ha' (hp.trans hp'.symm) (hn.trans hn'.symm)]

theorem findTop_eq_none (hI : IndexOk d) {parent : ℕ} {name : Name} :
    d.findTop parent name = none ↔
      ∀ a, d.linked a → ¬ ((d.dentry a).iparent = parent ∧ (d.dentry a).iname = name) := by
  simp only [Option.eq_none_iff_forall_ne_some, ne_eq, hI.findTop_eq_some, not_and]

end IndexOk

def SameKind (d d' : Cache Name) : Prop :=
  ∀ a < d.fresh, (d'.dentry a).shell = (d.dentry a).shell ∧
    (d'.dentry a).host = (d.dentry a).host ∧ (d'.dentry a).isdir = (d.dentry a).isdir

theorem SameKind.hostOf (hK : SameKind d d') (ha : a < d.fresh) :
    d'.hostOf a = d.hostOf a := by
  simp [Cache.hostOf, hK a ha]

/-- `d'` is `d` after the list records `e`: what leaves was in the index, what comes in was not,
a replacement has the name of what it replaces, and a new node's name is not taken. -/
structure Edited (d : Cache Name) (e : Edit ℕ) (d' : Cache Name) : Prop where
  bucketOf : d'.bucketOf = d.bucketOf
  hash : ∀ b, d'.hash b = e.apply (fun a => d'.bucket a = b) (d.hash b)
  kids : ∀ p, d'.kids p = e.apply (fun a => (d'.dentry a).iparent = p) (d.kids p)
  mark : ∀ a, d'.mark a = if a ∈ e.out then true else if a ∈ e.inn then false else d.mark a
  after : ∀ a, d'.after a = if a ∈ e.out then d.next a else d.after a
  fresh : d.fresh ≤ d'.fresh
  kind : SameKind d d'
  key : ∀ a < d.fresh, a ∉ e.inn → (d'.dentry a).iparent = (d.dentry a).iparent ∧
    (d'.dentry a).iname = (d.dentry a).iname
  out : ∀ a ∈ e.out, d.linked a
  outNodup : e.out.Nodup
  inn : ∀ a ∈ e.inn, ¬ d.linked a ∧ a < d'.fresh ∧ a ≠ root
  innNodup : e.inn.Nodup
  place : ∀ a b, (a, some b) ∈ e.gone → (d'.dentry b).iparent = (d.dentry a).iparent ∧
    (d'.dentry b).iname = (d.dentry a).iname
  free : ∀ b ∈ e.new, ∀ a, d.linked a → e.slot a ≠ none →
    ¬ ((d.dentry a).iparent = (d'.dentry b).iparent ∧ (d.dentry a).iname = (d'.dentry b).iname)
  single : ∀ b ∈ e.new, ∀ b' ∈ e.new, b = b'

namespace Edited

variable {e : Edit ℕ} {a b : ℕ}

theorem bucket_place (hE : Edited d e d') (h : (a, some b) ∈ e.gone) : d'.bucket b = d.bucket a := by
  obtain ⟨hp, hn⟩ := hE.place a b h
  rw [Cache.bucket, Cache.bucket, hE.bucketOf, hp, hn]

theorem key_stays (hE : Edited d e d') (hI : IndexOk d) (ha : d.linked a) :
    (d'.dentry a).iparent = (d.dentry a).iparent ∧ (d'.dentry a).iname = (d.dentry a).iname :=
  hE.key a (hI.lt ha) fun hi => (hE.inn a hi).1 ha

theorem bucket_stays (hE : Edited d e d') (hI : IndexOk d) (ha : d.linked a) :
    d'.bucket a = d.bucket a := by
  obtain ⟨hp, hn⟩ := hE.key_stays hI ha
  rw [Cache.bucket, Cache.bucket, hE.bucketOf, hp, hn]

theorem slot_key (hE : Edited d e d') (hI : IndexOk d) (ha : d.linked a) (hs : e.slot a = some b) :
    (d'.dentry b).iparent = (d.dentry a).iparent ∧ (d'.dentry b).iname = (d.dentry a).iname := by
  rcases Edit.slot_some hs with ⟨-, rfl⟩ | hg
  · exact hE.key_stays hI ha
  · exact hE.place a b hg

theorem home (hE : Edited d e d') (hI : IndexOk d) (c : ℕ) : ∀ a ∈ d'.hash c, d'.bucket a = c := by
  intro a ha
  rw [hE.hash] at ha
  rcases Edit.mem_apply.mp ha with ⟨-, hm⟩ | ⟨x, hx, hs⟩
  · simpa using hm
  · obtain ⟨hp, hn⟩ := hE.slot_key hI (hI.linked_of_mem hx) hs
    rw [Cache.bucket, hE.bucketOf, hp, hn]
    exact hI.home c x hx

theorem linked_iff (hE : Edited d e d') (hI : IndexOk d) :
    d'.linked a ↔ d.linked a ∧ a ∉ e.out ∨ a ∈ e.inn := by
  constructor
  · intro ha
    unfold Cache.linked at ha
    rw [hE.hash] at ha
    rcases Edit.mem_apply_cases ha with ⟨hm, ho⟩ | ⟨hnew, -⟩ | ⟨x, -, hg⟩
    · exact .inl ⟨hI.linked_of_mem hm, ho⟩
    · exact .inr (mem_append_left _ hnew)
    · exact .inr (Edit.mem_inn hg)
  · rintro (⟨ha, ho⟩ | hi)
    · unfold Cache.linked
      rw [hE.hash, hE.bucket_stays hI ha]
      exact Edit.mem_apply_of_not_out ha ho
    · unfold Cache.linked
      rw [hE.hash]
      rcases mem_append.mp hi with hnew | hg
      · exact Edit.mem_apply.mpr (.inl ⟨hnew, by simp⟩)
      · obtain ⟨⟨x, r⟩, hx, rfl⟩ := mem_filterMap.mp hg
        rw [hE.bucket_place hx]
        exact Edit.mem_apply_of_slot (hE.out x (Edit.mem_out hx)) (Edit.slot_of_mem hE.outNodup hx)

theorem linked_origin (hE : Edited d e d') (hI : IndexOk d) (ha : d'.linked a) :
    a ∈ e.new ∨ ∃ x, d.linked x ∧ e.slot x = some a := by
  unfold Cache.linked at ha
  rw [hE.hash] at ha
  rcases Edit.mem_apply.mp ha with ⟨hnew, -⟩ | ⟨x, hx, hs⟩
  · exact .inl hnew
  · exact .inr ⟨x, hI.linked_of_mem hx, hs⟩

theorem slot_inj (hE : Edited d e d') (ha : d.linked a) {a' : ℕ} (ha' : d.linked a')
    (hs : e.slot a = some b) (hs' : e.slot a' = some b) : a = a' := by
  rcases Edit.slot_some hs with ⟨-, rfl⟩ | hg <;> rcases Edit.slot_some hs' with ⟨-, he⟩ | hg'
  · exact he
  · exact absurd ha (hE.inn b (Edit.mem_inn hg')).1
  · exact absurd ha' (hE.inn a' (he ▸ Edit.mem_inn hg)).1
  · exact Edit.gone_inj hE.innNodup hg hg'

theorem new_not_slot (hE : Edited d e d') (hb : b ∈ e.new) (ha : d.linked a) :
    e.slot a ≠ some b := by
  intro hs
  rcases Edit.slot_some hs with ⟨-, rfl⟩ | hg
  · exact (hE.inn b (mem_append_left _ hb)).1 ha
  · refine (nodup_append.mp hE.innNodup).2.2 b hb b ?_ rfl
    exact mem_filterMap.mpr ⟨(a, some b), hg, rfl⟩

theorem nodup (hE : Edited d e d') {mine : ℕ → Bool} {l : List ℕ} (hl : l.Nodup)
    (hlinked : ∀ a ∈ l, d.linked a) : (e.apply mine l).Nodup :=
  Edit.nodup_apply hl (nodup_append.mp hE.innNodup).1
    (fun _ hb a ha => hE.new_not_slot hb (hlinked a ha))
    fun a ha a' ha' _ hs hs' => hE.slot_inj (hlinked a ha) (hlinked a' ha') hs hs'

theorem kids_iff (hE : Edited d e d') (hI : IndexOk d) (p : ℕ) :
    a ∈ d'.kids p ↔ d'.linked a ∧ (d'.dentry a).iparent = p := by
  rw [hE.kids, Edit.mem_apply]
  constructor
  · rintro (⟨hnew, hm⟩ | ⟨x, hx, hs⟩)
    · exact ⟨(hE.linked_iff hI).mpr (.inr (mem_append_left _ hnew)), by simpa using hm⟩
    · obtain ⟨hl, hp⟩ := (hI.kids p x).mp hx
      refine ⟨?_, (hE.slot_key hI hl hs).1.trans hp⟩
      rcases Edit.slot_some hs with ⟨ho, rfl⟩ | hg
      · exact (hE.linked_iff hI).mpr (.inl ⟨hl, ho⟩)
      · exact (hE.linked_iff hI).mpr (.inr (Edit.mem_inn hg))
  · rintro ⟨ha, hp⟩
    rcases hE.linked_origin hI ha with hnew | ⟨x, hx, hs⟩
    · exact .inl ⟨hnew, by simpa using hp⟩
    · exact .inr ⟨x, (hI.kids p x).mpr ⟨hx, (hE.slot_key hI hx hs).1.symm.trans hp⟩, hs⟩

theorem unique (hE : Edited d e d') (hI : IndexOk d) {a' : ℕ} (ha : d'.linked a)
    (ha' : d'.linked a') (hp : (d'.dentry a).iparent = (d'.dentry a').iparent)
    (hn : (d'.dentry a).iname = (d'.dentry a').iname) : a = a' := by
  -- a new node's name is taken by no place that stays occupied
  have hnew : ∀ {b c : ℕ}, b ∈ e.new → (∃ x, d.linked x ∧ e.slot x = some c) →
      (d'.dentry c).iparent = (d'.dentry b).iparent →
      (d'.dentry c).iname = (d'.dentry b).iname → False := by
    rintro b c hb ⟨x, hx, hs⟩ hp hn
    obtain ⟨hp', hn'⟩ := hE.slot_key hI hx hs
    exact hE.free b hb x hx (by simp [hs]) ⟨hp'.symm.trans hp, hn'.symm.trans hn⟩
  rcases hE.linked_origin hI ha with hb | ho <;> rcases hE.linked_origin hI ha' with hb' | ho'
  · exact hE.single a hb a' hb'
  · exact (hnew hb ho' hp.symm hn.symm).elim
  · exact (hnew hb' ho hp hn).elim
  · obtain ⟨x, hx, hs⟩ := ho
    obtain ⟨x', hx', hs'⟩ := ho'
    obtain ⟨hp₁, hn₁⟩ := hE.slot_key hI hx hs
    obtain ⟨hp₂, hn₂⟩ := hE.slot_key hI hx' hs'
    obtain rfl := hI.unique x x' hx hx' (hp₁.symm.trans (hp.trans hp₂))
      (hn₁.symm.trans (hn.trans hn₂))
    exact Option.some.inj (hs.symm.trans hs')

theorem indexOk (hE : Edited d e d') (hI : IndexOk d)
    (halloc : ∀ a < d'.fresh, d.fresh ≤ a → a ∈ e.inn ∧ ((d'.dentry a).shell = true →
      ∃ h, (d'.dentry a).host = some h ∧ h < d.fresh ∧ h ≠ root ∧ (d.dentry h).shell = false))
    (htop : ∀ a, d'.linked a → (d'.dentry (d'.hostOf a)).top = Cache.dtopVal (d'.hostOf a) a)
    (htopShell : ∀ a < d'.fresh, (d'.dentry a).shell = false → ∀ n, (d'.dentry a).top = some n →
      n < d'.fresh ∧ (d'.dentry n).shell = true ∧ (d'.dentry n).host = some a)
    (hroot : (d'.dentry root).top = none) : IndexOk d' := by
  obtain ⟨hr₁, hr₂, -, hr₄⟩ := hI.rootHost
  have hrout : root ∉ e.out := fun h => (hI.alloc root (hE.out root h)).2 rfl
  have hrinn : root ∉ e.inn := fun h => (hE.inn root h).2.2 rfl
  refine ⟨fun b => ?_, hE.home hI, fun p => ?_, fun p a => hE.kids_iff hI p, fun a ha => ?_,
    fun a ha hr => ?_, fun a a' ha ha' => hE.unique hI ha ha', htop, fun a ha hs => ?_, htopShell,
    Nat.lt_of_lt_of_le hr₁ hE.fresh, (hE.kind root hr₁).1.trans hr₂, hroot, ?_⟩
  · rw [hE.hash]
    exact hE.nodup (hI.nodup b) fun a ha => hI.linked_of_mem ha
  · rw [hE.kids]
    exact hE.nodup (hI.kidsNodup p) fun a ha => ((hI.kids p a).mp ha).1
  · rcases (hE.linked_iff hI).mp ha with ⟨hl, -⟩ | hi
    · exact ⟨Nat.lt_of_lt_of_le (hI.lt hl) hE.fresh, (hI.alloc a hl).2⟩
    · exact ⟨(hE.inn a hi).2.1, (hE.inn a hi).2.2⟩
  · rw [hE.mark, hE.linked_iff hI]
    by_cases ho : a ∈ e.out
    · have hi : a ∉ e.inn := fun hi => (hE.inn a hi).1 (hE.out a ho)
      simp [ho, hi]
    · by_cases hi : a ∈ e.inn
      · simp [ho, hi]
      · have hlt : a < d.fresh := Nat.not_le.mp fun hge => hi (halloc a ha hge).1
        simpa [ho, hi] using hI.live a hlt hr
  · by_cases hlt : a < d.fresh
    · rw [(hE.kind a hlt).1] at hs
      obtain ⟨h, hh, hhlt, hne, hhs⟩ := hI.shell a hlt hs
      exact ⟨h, (hE.kind a hlt).2.1.trans hh, Nat.lt_of_lt_of_le hhlt hE.fresh, hne,
        (hE.kind h hhlt).1.trans hhs⟩
    · obtain ⟨h, hh, hhlt, hne, hhs⟩ := (halloc a ha (Nat.not_lt.mp hlt)).2 hs
      exact ⟨h, hh, Nat.lt_of_lt_of_le hhlt hE.fresh, hne, (hE.kind h hhlt).1.trans hhs⟩
  · rw [hE.mark, if_neg hrout, if_neg hrinn, hr₄]

/-- A commit never puts a name behind a node that stays: whoever is not before it now stood in,
or took, a place that was not before it. -/
theorem order (hE : Edited d e d') (hI : IndexOk d) {c h : ℕ} (hh : h ∈ d.hash c)
    (hh' : h ∈ d'.hash c) (ha : a ∈ d'.hash c) : Before (d'.hash c) a h ∨
      ∃ x ∈ d.hash c, (d.dentry x).iparent = (d'.dentry a).iparent ∧
        (d.dentry x).iname = (d'.dentry a).iname ∧ ¬ Before (d.hash c) x h := by
  have hslot : e.slot h = some h := by
    refine Edit.slot_of_not_out fun ho => ?_
    rw [hE.hash] at hh'
    have hl := hI.linked_of_mem hh
    rcases Edit.mem_apply_cases hh' with ⟨-, hno⟩ | ⟨hn, -⟩ | ⟨x, -, hg⟩
    · exact hno ho
    · exact (hE.inn h (mem_append_left _ hn)).1 hl
    · exact (hE.inn h (Edit.mem_inn hg)).1 hl
  rw [hE.hash] at ha ⊢
  rcases Edit.mem_apply.mp ha with ⟨hn, hm⟩ | ⟨x, hx, hs⟩
  · exact .inl (Edit.before_new hn hm hh hslot)
  · by_cases hb : Before (d.hash c) x h
    · exact .inl (Edit.before_slot hb hs hslot)
    · obtain ⟨hp, hn⟩ := hE.slot_key hI (hI.linked_of_mem hx) hs
      exact .inr ⟨x, hx, hp.symm, hn.symm, hb⟩

theorem next_dead (hE : Edited d e d') (hI : IndexOk d) (hl : ¬ d'.linked a) :
    d'.next a = d.next a := by
  rw [Cache.next_of_not_linked hl, hE.after]
  split_ifs with ho
  · rfl
  · have hnl : ¬ d.linked a := fun h => hl ((hE.linked_iff hI).mpr (.inl ⟨h, ho⟩))
    rw [Cache.next_of_not_linked hnl]

/-- The link of a node that did not come in leads on as before, or to a node of the index. -/
theorem next_stable (hE : Edited d e d') (hI : IndexOk d) :
    d'.next a = d.next a ∨ ∀ b, d'.next a = some b → d'.linked b ∨ d.linked b := by
  by_cases hl : d'.linked a
  · refine .inr fun b hb => .inl ?_
    rw [Cache.next_of_linked hl] at hb
    have hm := succ_mem hb
    unfold Cache.linked
    rwa [hE.home hI _ b hm]
  · exact .inl (hE.next_dead hI hl)

end Edited

end TrieBenchmark.Txn
