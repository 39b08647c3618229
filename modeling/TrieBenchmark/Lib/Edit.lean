import Mathlib.Data.List.Nodup
import Mathlib.Data.List.Sublists

/-!
Chains that are edited by atomic commits while readers walk them. A commit takes nodes out,
puts nodes in the place of others and adds nodes at the head; a node that has left keeps the
successor it had.
-/

namespace TrieBenchmark.Edits

open List

variable {N : Type} {l : List N} {a b : N}

def Before (l : List N) (a b : N) : Prop :=
  [a, b].Sublist l

theorem Before.mem_left (h : Before l a b) : a ∈ l :=
  h.subset (by simp)

theorem Before.mem_right (h : Before l a b) : b ∈ l :=
  h.subset (by simp)

theorem before_cons_self (hb : b ∈ l) : Before (a :: l) a b := by
  unfold Before
  exact List.Sublist.cons_cons a (singleton_sublist.mpr hb)

theorem Before.cons (h : Before l a b) (x : N) : Before (x :: l) a b :=
  List.Sublist.cons x h

theorem Before.mem_tail (h : Before (a :: l) a b) : b ∈ l := by
  unfold Before at h
  rcases sublist_cons_iff.mp h with h | ⟨r, hr, h⟩
  · exact h.subset (by simp)
  · obtain rfl : [b] = r := by simpa using hr
    exact singleton_sublist.mp h

theorem Before.of_cons {a b x : N} (h : Before (x :: l) a b) (hx : x ≠ a) :
    Before l a b := by
  unfold Before at h
  rcases sublist_cons_iff.mp h with h | ⟨r, hr, -⟩
  · exact h
  · exact absurd (cons.inj hr).1.symm hx

theorem Before.mem_suffix {p q : List N} (hnd : (p ++ a :: q).Nodup)
    (h : Before (p ++ a :: q) a b) : b ∈ q := by
  induction p with
  | nil => exact h.mem_tail
  | cons _ _ ih =>
    obtain ⟨hx, hnd⟩ := nodup_cons.mp hnd
    exact ih hnd (h.of_cons fun he => hx (he ▸ by simp))

theorem Before.append_left (h : Before l a b) (l' : List N) :
    Before (l' ++ l) a b :=
  h.trans (sublist_append_right l' l)

theorem before_append {l l' : List N} (ha : a ∈ l') (hb : b ∈ l) :
    Before (l' ++ l) a b :=
  (singleton_sublist.mpr ha).append (singleton_sublist.mpr hb)

theorem not_before_head (hnd : l.Nodup) (hb : l.head? = some b) :
    ¬ Before l a b := by
  cases l with
  | nil => simp at hb
  | cons x =>
    obtain rfl : x = b := by simpa using hb
    intro h
    rcases eq_or_ne x a with rfl | hne
    · exact (nodup_cons.mp hnd).1 h.mem_tail
    · exact (nodup_cons.mp hnd).1 (h.of_cons hne).mem_right

section Successor

variable [DecidableEq N]

def succ (a : N) : List N → Option N
  | [] => none
  | x :: xs => if x = a then xs.head? else succ a xs

theorem succ_mem (h : succ a l = some b) : b ∈ l := by
  induction l with
  | nil => cases h
  | cons x _ ih =>
    unfold succ at h
    split_ifs at h
    · exact mem_cons_of_mem x (mem_of_mem_head? h)
    · exact mem_cons_of_mem x (ih h)

theorem succ_append {p q : List N} {a : N} (hnd : (p ++ a :: q).Nodup) :
    succ a (p ++ a :: q) = q.head? := by
  induction p with
  | nil => simp [succ]
  | cons x _ ih =>
    have hne : x ≠ a := by
      rintro rfl
      simp at hnd
    simp only [cons_append, succ, if_neg hne]
    exact ih (nodup_cons.mp hnd).2

theorem Before.succ {a c : N} (hnd : l.Nodup) (h : Before l a c) :
    ∃ b, succ a l = some b ∧ (c = b ∨ Before l b c) := by
  induction l with
  | nil => simp [Before] at h
  | cons x xs ih =>
    obtain ⟨hx, hnd⟩ := nodup_cons.mp hnd
    rcases eq_or_ne x a with rfl | hne
    · have hc := h.mem_tail
      cases xs with
      | nil => simp at hc
      | cons b =>
        refine ⟨b, by simp [Edits.succ], ?_⟩
        rcases mem_cons.mp hc with rfl | hc
        · exact .inl rfl
        · exact .inr ((before_cons_self hc).cons x)
    · obtain ⟨b, hb, hbc⟩ := ih hnd (h.of_cons hne)
      refine ⟨b, by simp [Edits.succ, hne, hb], hbc.imp id fun h => h.cons x⟩

end Successor

/-- The records of one commit: the nodes that leave, each with what takes its place, and the
nodes that come in at a head. -/
structure Edit (N : Type) where
  gone : List (N × Option N)
  new : List N

namespace Edit

variable [DecidableEq N] (e : Edit N)

def out : List N :=
  e.gone.map Prod.fst

def inn : List N :=
  e.new ++ e.gone.filterMap Prod.snd

def slot (a : N) : Option N :=
  (e.gone.lookup a).getD (some a)

def apply (mine : N → Bool) (l : List N) : List N :=
  e.new.filter mine ++ l.filterMap e.slot

variable {e} {mine : N → Bool} {l : List N} {a b : N} {r : Option N}

theorem lookup_mem {l : List (N × Option N)} (h : l.lookup a = some r) :
    (a, r) ∈ l := by
  induction l with
  | nil => cases h
  | cons x xs ih =>
    rw [lookup_cons] at h
    split at h
    · rename_i hx
      obtain rfl : a = x.1 := by simpa using hx
      obtain rfl := Option.some.inj h
      exact mem_cons_self
    · exact mem_cons_of_mem x (ih h)

theorem lookup_none {l : List (N × Option N)} (h : a ∉ l.map Prod.fst) : l.lookup a = none := by
  induction l with
  | nil => rfl
  | cons x _ ih =>
    simp only [map_cons, mem_cons, not_or] at h
    have hx : (a == x.1) = false := by simpa using h.1
    rw [lookup_cons, hx]
    exact ih h.2

theorem slot_of_not_out (h : a ∉ e.out) : e.slot a = some a := by
  simp [slot, lookup_none h]

theorem slot_some (h : e.slot a = some b) : a ∉ e.out ∧ b = a ∨ (a, some b) ∈ e.gone := by
  unfold slot at h
  cases hl : e.gone.lookup a with
  | none =>
    obtain rfl : a = b := by simpa [hl] using h
    by_cases ho : a ∈ e.out
    · obtain ⟨p, hp, rfl⟩ := mem_map.mp ho
      have := lookup_eq_none_iff.mp hl p hp
      simp at this
    · exact .inl ⟨ho, rfl⟩
  | some r =>
    obtain rfl : r = some b := by simpa [hl] using h
    exact .inr (lookup_mem hl)

theorem lookup_of_mem {l : List (N × Option N)} (hnd : (l.map Prod.fst).Nodup)
    (h : (a, r) ∈ l) : l.lookup a = some r := by
  induction l with
  | nil => cases h
  | cons x _ ih =>
    simp only [map_cons, nodup_cons] at hnd
    rcases mem_cons.mp h with rfl | h
    · simp
    · have hne : (a == x.1) = false := by
        refine beq_false_of_ne ?_
        rintro rfl
        exact hnd.1 (mem_map.mpr ⟨(x.1, r), h, rfl⟩)
      rw [lookup_cons, hne]
      exact ih hnd.2 h

theorem slot_of_mem (hnd : e.out.Nodup) (h : (a, r) ∈ e.gone) : e.slot a = r := by
  rw [slot, lookup_of_mem hnd h, Option.getD_some]

omit [DecidableEq N] in
theorem gone_inj (hnd : e.inn.Nodup) {a' : N} (h : (a, some b) ∈ e.gone)
    (h' : (a', some b) ∈ e.gone) : a = a' := by
  have hinj := (nodup_append.mp hnd).2.1
  revert h h' hinj
  induction e.gone with
  | nil => intro h; cases h
  | cons x xs ih =>
    intro h h' hinj
    have hmem : ∀ c, (c, some b) ∈ xs → b ∈ xs.filterMap Prod.snd := fun c hc =>
      mem_filterMap.mpr ⟨(c, some b), hc, rfl⟩
    rcases mem_cons.mp h with rfl | hm <;> rcases mem_cons.mp h' with he | hm'
    · exact (Prod.mk.inj he).1.symm
    · exact absurd (hmem a' hm') (nodup_cons.mp hinj).1
    · subst he
      exact absurd (hmem a hm) (nodup_cons.mp hinj).1
    · refine ih hm hm' (hinj.sublist ?_)
      exact (sublist_cons_self x xs).filterMap Prod.snd

omit [DecidableEq N] in
theorem mem_out (h : (a, r) ∈ e.gone) : a ∈ e.out :=
  mem_map.mpr ⟨(a, r), h, rfl⟩

theorem mem_apply : b ∈ e.apply mine l ↔
    b ∈ e.new ∧ mine b = true ∨ ∃ a ∈ l, e.slot a = some b := by
  simp [apply]

omit [DecidableEq N] in
theorem mem_inn (h : (a, some b) ∈ e.gone) : b ∈ e.inn :=
  mem_append_right _ (mem_filterMap.mpr ⟨(a, some b), h, rfl⟩)

theorem mem_apply_of_slot (ha : a ∈ l) (h : e.slot a = some b) : b ∈ e.apply mine l :=
  mem_apply.mpr (.inr ⟨a, ha, h⟩)

theorem mem_apply_of_not_out (ha : a ∈ l) (h : a ∉ e.out) : a ∈ e.apply mine l :=
  mem_apply_of_slot ha (slot_of_not_out h)

theorem mem_apply_cases (h : b ∈ e.apply mine l) :
    b ∈ l ∧ b ∉ e.out ∨ b ∈ e.new ∧ mine b = true ∨ ∃ a ∈ l, (a, some b) ∈ e.gone := by
  rcases mem_apply.mp h with h | ⟨a, ha, hs⟩
  · exact .inr (.inl h)
  · rcases slot_some hs with ⟨ho, rfl⟩ | hg
    · exact .inl ⟨ha, ho⟩
    · exact .inr (.inr ⟨a, ha, hg⟩)

theorem before_slot {a' b' : N} (h : Before l a b) (ha : e.slot a = some a')
    (hb : e.slot b = some b') : Before (e.apply mine l) a' b' := by
  have hsub := h.filterMap e.slot
  simp only [filterMap_cons, ha, hb, filterMap_nil] at hsub
  exact Before.append_left hsub _

theorem before_new {b' : N} (ha : a ∈ e.new) (hm : mine a = true) (hb : b ∈ l)
    (hs : e.slot b = some b') : Before (e.apply mine l) a b' :=
  before_append (mem_filter.mpr ⟨ha, hm⟩) (mem_filterMap.mpr ⟨b, hb, hs⟩)

theorem nodup_apply (hl : l.Nodup) (hnew : e.new.Nodup)
    (hsep : ∀ b ∈ e.new, ∀ a ∈ l, e.slot a ≠ some b)
    (hinj : ∀ a ∈ l, ∀ a' ∈ l, ∀ b, e.slot a = some b → e.slot a' = some b → a = a') :
    (e.apply mine l).Nodup := by
  refine List.Nodup.append (hnew.filter _) ?_ ?_
  · induction l with
    | nil => simp
    | cons x _ ih =>
      obtain ⟨hx, hl⟩ := nodup_cons.mp hl
      have hxs := ih hl (fun b hb a ha => hsep b hb a (mem_cons_of_mem x ha))
        fun a ha a' ha' => hinj a (mem_cons_of_mem x ha) a' (mem_cons_of_mem x ha')
      cases hs : e.slot x with
      | none => rwa [filterMap_cons_none hs]
      | some b =>
        rw [filterMap_cons_some hs]
        refine nodup_cons.mpr ⟨fun hb => ?_, hxs⟩
        obtain ⟨y, hy, hys⟩ := mem_filterMap.mp hb
        obtain rfl := hinj x mem_cons_self y (mem_cons_of_mem x hy) b hs hys
        exact hx hy
  · intro b hb hb'
    obtain ⟨a, ha, hs⟩ := mem_filterMap.mp hb'
    exact hsep b (mem_filter.mp hb).1 a ha hs

end Edit

/-! A reader that walks a chain, and the nodes it is bound to meet. -/

section Walk

variable [DecidableEq N] (l : List N) (after : N → Option N) (P : N → Prop)

inductive Ahead : N → Prop where
  | here {w : N} : P w → Ahead w
  | behind {w z : N} : Before l w z → P z → Ahead w
  | stale {w w' : N} : w ∉ l → after w = some w' → Ahead w' → Ahead w

variable {l after P}

omit [DecidableEq N] in
theorem Ahead.mono {P' : N → Prop} (hP : ∀ z, P z → P' z) {w : N} (h : Ahead l after P w) :
    Ahead l after P' w := by
  induction h with
  | here h => exact .here (hP _ h)
  | behind hb hz => exact .behind hb (hP _ hz)
  | stale hw ha _ ih => exact .stale hw ha ih

theorem Ahead.next {w : N} (hnd : l.Nodup) (h : Ahead l after P w) (hw : ¬ P w) :
    ∃ w', (if w ∈ l then succ w l else after w) = some w' ∧ Ahead l after P w' := by
  cases h with
  | here h => exact absurd h hw
  | behind hb hz =>
    obtain ⟨b, hb', hbz⟩ := hb.succ hnd
    refine ⟨b, by rw [if_pos hb.mem_left, hb'], ?_⟩
    rcases hbz with rfl | hbz
    · exact .here hz
    · exact .behind hbz hz
  | stale hw ha h => exact ⟨_, by rw [if_neg hw, ha], h⟩

omit [DecidableEq N] in
theorem Ahead.head {w z : N} (hw : l.head? = some w) (hz : z ∈ l) (hP : P z) :
    Ahead l after P w := by
  cases l with
  | nil => simp at hw
  | cons x =>
    obtain rfl : x = w := by simpa using hw
    rcases mem_cons.mp hz with rfl | hz
    · exact .here hP
    · exact .behind (before_cons_self hz) hP

variable {l' : List N} {after' : N → Option N} {e : Edit N} {mine : N → Bool} {S : N → Prop}

/-- Whoever stands before a node with `P` is still bound to meet one after a commit that keeps
the places of such nodes: from a node that stays the place is behind it, and a node that leaves
keeps its successor, which is no further than that place. -/
theorem Ahead.of_before (hnd : l.Nodup) (hl' : l' = e.apply mine l)
    (hout : ∀ w ∈ l, w ∈ e.out → w ∉ l' ∧ after' w = succ w l)
    {z z' : N} (hz : P z) (hs : e.slot z = some z') (hz' : P z') {w : N} (h : Before l w z) :
    Ahead l' after' P w := by
  -- the suffix of the chain from `w` on, shortened hop by hop
  have key : ∀ k (r : List N) (w : N), r.length ≤ k → (w :: r).IsSuffix l → z ∈ r →
      Ahead l' after' P w := by
    intro k
    induction k with
    | zero =>
      intro r w hk _ hzr
      rw [length_eq_zero_iff.mp (Nat.le_zero.mp hk)] at hzr
      cases hzr
    | succ _ ih =>
      intro r w hk hr hzr
      have hwz : Before l w z := (before_cons_self hzr).trans hr.sublist
      by_cases ho : w ∈ e.out
      · obtain ⟨hw', ha⟩ := hout w hwz.mem_left ho
        cases r with
        | nil => cases hzr
        | cons b ys =>
          have hsucc : succ w l = some b := by
            obtain ⟨p, rfl⟩ := hr
            exact succ_append hnd
          refine .stale hw' (ha.trans hsucc) ?_
          rcases mem_cons.mp hzr with rfl | hzr
          · exact .here hz
          · exact ih ys b (by simpa using hk) ((suffix_cons w (b :: ys)).trans hr) hzr
      · have hb : Before (e.apply mine l) w z' :=
          Edit.before_slot hwz (Edit.slot_of_not_out ho) hs
        exact .behind (hl' ▸ hb) hz'
  obtain ⟨p, q, hl⟩ := append_of_mem h.mem_left
  subst hl
  have hzq : z ∈ q := h.mem_suffix hnd
  exact key q.length q w (Nat.le_refl _) ⟨p, rfl⟩ hzq

theorem Ahead.edit (hnd : l.Nodup) (hl' : l' = e.apply mine l)
    (hout : ∀ w ∈ l, w ∈ e.out → w ∉ l' ∧ after' w = succ w l)
    (hstale : ∀ w, S w → w ∉ l → w ∉ l' ∧ after' w = after w)
    (hclosed : ∀ w, S w → w ∉ l → ∀ w', after w = some w' → S w')
    (hP : ∀ z ∈ l, P z → ∃ z', e.slot z = some z' ∧ P z') {w : N} (hw : S w)
    (h : Ahead l after P w) : Ahead l' after' P w := by
  induction h with
  | here h => exact .here h
  | behind hb hz =>
    obtain ⟨z', hs, hz'⟩ := hP _ hb.mem_right hz
    exact .of_before hnd hl' hout hz hs hz' hb
  | stale hwl ha _ ih =>
    obtain ⟨hwl', ha'⟩ := hstale _ hw hwl
    exact .stale hwl' (ha'.trans ha) (ih (hclosed _ hw hwl _ ha))

end Walk

end TrieBenchmark.Edits
